import StorageMarkup.Proofs.Region.Folds
import StorageMarkup.Proofs.Tree.Conveyed
import StorageMarkup.Proofs.Tree.Each
import StorageMarkup.Proofs.Tree.Joined

/-!
# Trees without directives

Where no string holds a brace or a start mark, the passes about directives have nothing to
do: no paragraph is one of markers, nothing is set aside, no region is folded, and the
vault stays empty.

Results:
1. `liftMarkersAmong_of_plain`, `shieldNodes_of_plain`: before mapping.
2. `foldAll_of_plain`: after mapping.
3. `expand_empty`: an empty vault has nothing to put back.
-/

namespace StorageMarkup

open Vault

variable {s : List Char} {nodes out : List Node} {limit : Limit}

/-- No string of the tree has a character that is part of a directive or starts a placeholder. -/
abbrev PlainNodes (nodes : List Node) : Prop := ∀ n ∈ nodes, n.All fun s => ∀ c ∈ s, Plain c

/-- The same for the texts of a tree. -/
abbrev PlainTexts (nodes : List Node) : Prop :=
  ∀ n ∈ nodes, n.Each (fun s => ∀ c ∈ s, Plain c) fun _ _ => True

theorem startMark_not_mem_of_plain (h : ∀ c ∈ s, Plain c) : startMark ∉ s :=
  fun hm => (h _ hm).1 rfl

theorem inside?_of_plain (h : ∀ c ∈ s, Plain c) : Directive.inside? s = none := by
  cases hi : Directive.inside? s with
  | none => rfl
  | some inner =>
    have hbrace : '{' ∈ s := by
      rw [(Directive.inside?_eq_some.1 hi).1]
      exact List.mem_cons_self
    exact absurd (h _ hbrace).2 (by decide)

theorem openName?_of_plain (h : ∀ c ∈ s, Plain c) : Directive.openName? s = none := by
  rw [Directive.openName?, inside?_of_plain fun c hc => h c (mem_of_mem_strip hc)]

/-! ## Before mapping -/

theorem isMarkerLine_of_plain (h : ∀ c ∈ s, Plain c) (v : Option Vault) :
    isMarkerLine v s = false := by
  have hstrip : ∀ c ∈ strip s, Plain c := fun c hc => h c (mem_of_mem_strip hc)
  have hregion : isRegionText s = false := by
    unfold isRegionText
    simp only
    split
    · next first _ _ _ hfirst _ =>
      have hplain : ∀ c ∈ first, Plain c := fun c hc =>
        hstrip c (subset_of_mem_pieces (hfirst ▸ List.mem_cons_self) hc)
      rw [openName?_of_plain hplain]
    · rfl
  rw [isMarkerLine, reveal_eq_self (startMark_not_mem_of_plain h), hregion, Directive.isOpenOrClose,
    inside?_of_plain hstrip]
  rfl

theorem markersOf?_of_plain {tag : List Char} {children : List Node} (h : PlainNodes children)
    (v : Option Vault) : markersOf? v tag children = none := by
  unfold markersOf?
  split
  · next s =>
    have hs : ∀ c ∈ s, Plain c := (h _ List.mem_cons_self).of_text
    -- a paragraph of markers has a line, and this one is none
    refine if_neg fun hmarkers => ?_
    simp only [Bool.and_eq_true, List.all_eq_true] at hmarkers
    obtain ⟨⟨-, hsome⟩, hall⟩ := hmarkers
    cases hls : contentLines s with
    | nil =>
      rw [hls] at hsome
      cases hsome
    | cons l ls =>
      have hl : l ∈ contentLines s := hls ▸ List.mem_cons_self
      obtain ⟨line, hline, rfl⟩ := List.mem_map.1 hl
      have hplain : ∀ c ∈ strip line, Plain c := fun c hc =>
        hs c (subset_of_mem_pieces (List.mem_filter.1 hline).1 (mem_of_mem_strip hc))
      have hmarker := hall _ hl
      rw [isMarkerLine_of_plain hplain] at hmarker
      cases hmarker
  · rfl

theorem liftMarkersAmong_of_plain (h : PlainNodes nodes) (v : Option Vault) :
    Node.liftMarkersAmong v nodes = nodes := by
  rw [Node.liftMarkersAmong_eq, ← List.flatMap_singleton' nodes, List.flatMap_assoc]
  refine List.flatMap_congr fun n hn => ?_
  have hplain := h n hn
  clear hn
  rw [List.flatMap_singleton]
  induction hplain with
  | text | raw | root => rfl
  | @element tag attrs children _ _ hc ih =>
    rw [Node.liftMarkers, markersOf?_of_plain hc, Node.liftMarkersAmong_eq,
      List.flatMap_congr ih, List.flatMap_singleton']

theorem shieldNodes_of_each {v : Vault} (h : ∀ n ∈ nodes, v.shieldNode n = (v, n)) :
    v.shieldNodes nodes = (v, nodes) := by
  induction nodes with
  | nil => rfl
  | cons n nodes ih =>
    rw [List.forall_mem_cons] at h
    rw [Vault.shieldNodes_cons, h.1, ih h.2]

theorem shieldNodes_of_plain (h : PlainNodes nodes) (v : Vault) :
    v.shieldNodes nodes = (v, nodes) := by
  refine shieldNodes_of_each fun n hn => ?_
  have hplain := h n hn
  clear hn
  induction hplain with
  | raw | root => rfl
  | text hs => rw [Vault.shieldNode, shield_eq_self fun c hc => (hs c hc).2]
  | element _ hattrs _ ih =>
    rw [Vault.shieldNode, shieldAttributes_eq_self hattrs]
    simp only [shieldNodes_of_each ih]

/-! ## After mapping -/

theorem openingMarker?_of_plain {n : Node} (h : n.Each (fun s => ∀ c ∈ s, Plain c) fun _ _ => True)
    (v : Option Vault) : n.openingMarker? v = none := by
  refine Region.openingMarker?_eq_none (h.mono (fun s hs => ?_) fun _ _ h => h)
  have hstrip : ∀ c ∈ strip s, Plain c := fun c hc => hs c (mem_of_mem_strip hc)
  rw [Region.StartsNoRegion, reveal_eq_self (startMark_not_mem_of_plain hstrip),
    openName?_of_plain hstrip]

theorem foldAmong_of_plain {v : Option Vault} {depth : Nat} (h : PlainTexts nodes)
    (hout : (Region.foldAmong limit v depth nodes).result = .ok out) : out = nodes := by
  rw [Region.foldAmong_of_content fun n hn => openingMarker?_of_plain (h n hn) v] at hout
  cases hout
  rfl

theorem foldAll_of_plain {v : Option Vault} (h : PlainTexts nodes)
    (hout : (Region.foldAll limit v nodes).result = .ok out) : out = nodes := by
  obtain ⟨below, hbelow, hfolded⟩ := Region.foldAll_eq_ok hout
  have hsame : below = nodes := by
    refine Region.foldBelowAll_ok
      (R := fun n out => (n.Each (fun s => ∀ c ∈ s, Plain c) fun _ _ => True) → out = n)
      (S := fun ns out => PlainTexts ns → out = ns) ?_ ?_ ?_ ?_ ?_ ?_ hbelow h
    · exact fun _ => rfl
    · intro n rest first others hfirst hothers h
      rw [PlainTexts, List.forall_mem_cons] at h
      rw [hfirst h.1, hothers h.2]
    · exact fun _ _ => rfl
    · exact fun _ _ => rfl
    · exact fun _ _ => rfl
    · intro tag attrs children mapped depth folded hmapped hfolded h
      obtain ⟨-, hc⟩ := h.of_element
      obtain rfl := hmapped hc
      rw [foldAmong_of_plain hc hfolded]
  subst hsame
  exact foldAmong_of_plain h hfolded

/-! ## Writing -/

theorem plain_printText (h : ∀ c ∈ s, Plain c) (pre : Bool) : ∀ c ∈ Node.printText pre s, Plain c :=
  ((Woven.of_plain h).printed (fun _ => plain_of_ne)
    (Directive.placeholders_setAside (v := empty)) pre).plain_of_nil

theorem expandOnce_empty (s : List Char) : empty.expandOnce s = s := by
  induction s with
  | nil => rfl
  | cons c s ih =>
    have hnone : empty.read (c :: s) = none := by
      unfold Vault.read
      split <;> rfl
    rw [expandOnce, Vault.split, scan_char hnone, spell, ← Vault.split, ← expandOnce, ih]

theorem expand_empty (s : List Char) : empty.expand s = s := by
  unfold expand
  split
  · exact expandUpTo_eq_self (expandOnce_empty s) _
  · rfl

end StorageMarkup
