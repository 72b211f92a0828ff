import StorageMarkup.Proofs.Node.Attributes
import StorageMarkup.Proofs.Vault.Ordered
import StorageMarkup.Tree.Protection

/-!
# What setting directives aside leaves alone

Placeholders take the place of directives, and all else in a text stays where it is. So
a fixed word that is found in what is left was there before: no element comes to be a
container of footnotes.

Results:
1. `shieldNodes_keeps`, `shieldNodes_extends`: what stays true of the vault, and in it.
2. `mem_words_of_shield`: texts.
3. `holdsFootnotes_of_shielded`: elements.
-/

namespace StorageMarkup

open Vault

variable {v : Vault} {s t : List Char} {name : List Char} {attrs : Attributes}

/-! ## The vault -/

section

variable {P : Vault → Prop}

theorem shieldNodes_keeps_of_each {nodes : List Node}
    (h : ∀ n ∈ nodes, ∀ v : Vault, P v → P (v.shieldNode n).1) {v : Vault} (hv : P v) :
    P (v.shieldNodes nodes).1 := by
  induction nodes generalizing v with
  | nil => exact hv
  | cons n nodes ih =>
    rw [List.forall_mem_cons] at h
    exact ih h.2 (h.1 v hv)

variable (hP : ∀ (v : Vault) (s : List Char), P v → P (v.shield s).1)

include hP

theorem shieldItems_keeps {v : Vault} (h : P v) (items : List Value) :
    P (v.shieldItems items).1 := by
  induction items generalizing v with
  | nil => exact h
  | cons item items ih =>
    cases item with
    | text s => exact ih (hP v s h)
    | absent | flag | number | list | record | other => exact ih h

theorem shieldValue_keeps {v : Vault} (h : P v) (value : Value) : P (v.shieldValue value).1 := by
  cases value with
  | text s => exact hP v s h
  | list items => exact shieldItems_keeps hP h items
  | absent | flag | number | record | other => exact h

theorem shieldAttributes_keeps {v : Vault} (h : P v) (attrs : Attributes) :
    P (v.shieldAttributes attrs).1 := by
  induction attrs generalizing v with
  | nil => exact h
  | cons a attrs ih => exact ih (shieldValue_keeps hP h a.2)

theorem shieldNode_keeps (n : Node) : ∀ v : Vault, P v → P (v.shieldNode n).1 := by
  induction n using Node.induct with
  | text s => exact fun v => hP v s
  | raw | root => exact fun _ h => h
  | element tag attrs children ih =>
    exact fun v h => shieldNodes_keeps_of_each ih (shieldAttributes_keeps hP h attrs)

/-- What every text leaves true of the vault a tree leaves true. -/
theorem shieldNodes_keeps {v : Vault} (h : P v) (nodes : List Node) : P (v.shieldNodes nodes).1 :=
  shieldNodes_keeps_of_each (fun n _ => shieldNode_keeps hP n) h

end

theorem extends_shield (v w : Vault) (s : List Char) (h : v.Extends w) : v.Extends (w.shield s).1 :=
  h.trans (shield_extends w s)

theorem shieldItems_extends (v : Vault) (items : List Value) :
    v.Extends (v.shieldItems items).1 :=
  shieldItems_keeps (extends_shield v) (.refl v) items

theorem shieldValue_extends (v : Vault) (value : Value) : v.Extends (v.shieldValue value).1 :=
  shieldValue_keeps (extends_shield v) (.refl v) value

theorem shieldAttributes_extends (v : Vault) (attrs : Attributes) :
    v.Extends (v.shieldAttributes attrs).1 :=
  shieldAttributes_keeps (extends_shield v) (.refl v) attrs

theorem shieldNode_extends (n : Node) (v : Vault) : v.Extends (v.shieldNode n).1 :=
  shieldNode_keeps (extends_shield v) n v (.refl v)

theorem shieldNodes_extends (v : Vault) (nodes : List Node) : v.Extends (v.shieldNodes nodes).1 :=
  shieldNodes_keeps (extends_shield v) (.refl v) nodes

/-- Each node is treated with the vault that the nodes before it have left. -/
theorem mem_shieldNodes {n : Node} {nodes : List Node} (h : n ∈ nodes) (v : Vault) :
    ∃ w, v.Extends w ∧ (w.shieldNode n).1.Extends (v.shieldNodes nodes).1 ∧
      (w.shieldNode n).2 ∈ (v.shieldNodes nodes).2 := by
  induction nodes generalizing v with
  | nil => exact absurd h List.not_mem_nil
  | cons m nodes ih =>
    rcases List.mem_cons.1 h with rfl | h
    · exact ⟨v, .refl v, shieldNodes_extends _ nodes, List.mem_cons_self⟩
    · obtain ⟨w, hw, hrest, hm⟩ := ih h (v.shieldNode m).1
      exact ⟨w, (shieldNode_extends m v).trans hw, hrest, List.mem_cons_of_mem _ hm⟩

/-! ## Texts -/

theorem startMark_mem_placeholder (n : Nat) : startMark ∈ placeholder n := List.mem_cons_self

theorem shield_eq_self_of_unmarked (h : startMark ∉ (v.shield s).2) : (v.shield s).2 = s := by
  induction s using Directive.read_exact.induct generalizing v with
  | nil => rfl
  | char c s hr ih =>
    rw [shield_char hr] at h ⊢
    rw [List.mem_cons, not_or] at h
    exact congrArg (c :: ·) (ih h.2)
  | hit d s hd _ _ =>
    rw [shield_token hd] at h
    exact absurd (List.mem_append_left _ (startMark_mem_placeholder v.size)) h

/-- Text in front only adds pieces before those that do not stand first. -/
theorem subset_pieces_append {separator : Char → Bool} {first : List Char}
    {others : List (List Char)} (hs : pieces separator s = first :: others) (u : List Char) :
    ∃ first' others', pieces separator (u ++ s) = first' :: others' ∧ others ⊆ others' := by
  induction u with
  | nil => exact ⟨first, others, hs, List.Subset.refl _⟩
  | cons c u ih =>
    obtain ⟨first', others', hu, hsub⟩ := ih
    rw [List.cons_append, pieces, hu]
    split
    · exact ⟨[], _, rfl, List.Subset.trans hsub (List.subset_cons_self _ _)⟩
    · exact ⟨c :: first', others', rfl, hsub⟩

/-- The first pieces before and after are the same unless a placeholder stands in it, and the other
pieces without placeholders were there before. -/
theorem pieces_shield (s : List Char) (v : Vault) :
    ∃ first others first' others', pieces isSpace s = first :: others ∧
      pieces isSpace (v.shield s).2 = first' :: others' ∧ (startMark ∉ first' → first' = first) ∧
      ∀ w ∈ others', startMark ∉ w → w ∈ others := by
  induction s using Directive.read_exact.induct generalizing v with
  | nil => exact ⟨[], [], [], [], rfl, rfl, fun _ => rfl, fun w hw => absurd hw List.not_mem_nil⟩
  | char c s hr ih =>
    obtain ⟨first, others, first', others', hs, hs', hfirst, hothers⟩ := ih v
    rw [shield_char hr, pieces, pieces, hs, hs']
    split
    · refine ⟨[], _, [], _, rfl, rfl, fun _ => rfl, List.forall_mem_cons.2 ⟨fun h => ?_, ?_⟩⟩
      · rw [hfirst h]
        exact List.mem_cons_self
      · exact fun w hw h => List.mem_cons_of_mem _ (hothers w hw h)
    · refine ⟨_, _, _, _, rfl, rfl, fun h => ?_, hothers⟩
      rw [List.mem_cons, not_or] at h
      rw [hfirst h.2]
  | hit d s hd _ ih =>
    obtain ⟨first, others, first', others', hs, hs', _, hothers⟩ := ih (v.deposit d).1
    obtain ⟨front, rest, hds, hsub⟩ := subset_pieces_append hs d
    -- a placeholder runs together with the first piece of what follows it
    have hplain : ∀ c ∈ placeholder v.size, isSpace c = false := fun c hc =>
      isSpace_of_inPlaceholder (inPlaceholder_of_mem hc)
    rw [shield_token hd]
    refine ⟨front, rest, _, others', hds, pieces_append hplain hs', fun h => ?_, ?_⟩
    · exact absurd (List.mem_append_left _ (startMark_mem_placeholder v.size)) h
    · exact fun w hw h => hsub (hothers w hw h)

/-- A word of what is left was a word before. -/
theorem mem_words_of_shield {w : List Char} (hw : startMark ∉ w)
    (h : w ∈ words (v.shield s).2) : w ∈ words s := by
  obtain ⟨first, others, first', others', hs, hs', hfirst, hothers⟩ := pieces_shield s v
  rw [words, hs', List.mem_filter] at h
  rw [words, hs, List.mem_filter]
  refine ⟨?_, h.2⟩
  rcases List.mem_cons.1 h.1 with rfl | hm
  · rw [hfirst hw]
    exact List.mem_cons_self
  · exact List.mem_cons_of_mem _ (hothers w hm hw)

/-! ## Attributes -/

/-- Names stay, and each value is treated with the vault that the values before it have left. -/
theorem get?_shieldAttributes {value : Value}
    (h : (v.shieldAttributes attrs).2.get? name = some value) :
    ∃ w old, v.Extends w ∧ (w.shieldValue old).1.Extends (v.shieldAttributes attrs).1 ∧
      attrs.get? name = some old ∧ (w.shieldValue old).2 = value := by
  induction attrs generalizing v with
  | nil => cases h
  | cons a attrs ih =>
    obtain ⟨key, old⟩ := a
    rw [Vault.shieldAttributes, Attributes.get?, List.lookup_cons] at h
    rw [Attributes.get?, List.lookup_cons]
    cases hk : name == key with
    | true =>
      rw [hk] at h
      exact ⟨v, old, .refl v, shieldAttributes_extends _ attrs, rfl, Option.some.inj h⟩
    | false =>
      rw [hk] at h
      obtain ⟨w, value, hw, hrest, hvalue, hshield⟩ := ih h
      exact ⟨w, value, (shieldValue_extends v old).trans hw, hrest, hvalue, hshield⟩

theorem text_of_shieldValue {value : Value} (h : (v.shieldValue value).2 = .text t) :
    ∃ s, value = .text s ∧ (v.shield s).2 = t := by
  cases value with
  | text s => exact ⟨s, rfl, Value.text.inj h⟩
  | absent | flag | number | list | record | other => cases h

theorem text?_shieldAttributes (h : (v.shieldAttributes attrs).2.text? name = some t) :
    ∃ w s, v.Extends w ∧ (w.shield s).1.Extends (v.shieldAttributes attrs).1 ∧
      attrs.text? name = some s ∧ (w.shield s).2 = t := by
  obtain ⟨value, hg, hv⟩ := Option.bind_eq_some_iff.1 h
  obtain ⟨w, old, hw, hrest, hold, rfl⟩ := get?_shieldAttributes hg
  cases hvalue : (w.shieldValue old).2 with
  | text u =>
    rw [hvalue] at hv
    cases hv
    obtain ⟨s, rfl, hs⟩ := text_of_shieldValue hvalue
    exact ⟨w, s, hw, hrest, by rw [Attributes.text?, hold]; rfl, hs⟩
  | absent | flag | number | list | record | other =>
    rw [hvalue] at hv
    cases hv

theorem mem_of_mem_shieldItems {items : List Value} (hw : startMark ∉ t)
    (h : .text t ∈ (v.shieldItems items).2) : .text t ∈ items := by
  induction items generalizing v with
  | nil => exact h
  | cons item items ih =>
    cases item with
    | text s =>
      rcases List.mem_cons.1 h with he | h
      · have ht : t = (v.shield s).2 := Value.text.inj he
        rw [ht] at hw ⊢
        rw [shield_eq_self_of_unmarked hw]
        exact List.mem_cons_self
      · exact List.mem_cons_of_mem _ (ih h)
    | absent | flag | number | list | record | other =>
      rcases List.mem_cons.1 h with he | h
      · cases he
      · exact List.mem_cons_of_mem _ (ih h)

theorem mem_classNames {attrs : Attributes} {word : List Char} :
    word ∈ attrs.classNames ↔ .text word ∈ attrs.classes := by
  unfold Attributes.classNames
  rw [List.mem_filterMap]
  constructor
  · rintro ⟨value, hm, hv⟩
    cases value with
    | text s =>
      cases hv
      exact hm
    | absent | flag | number | list | record | other => cases hv
  · exact fun hm => ⟨.text word, hm, rfl⟩

/-- A class without placeholders was there before. -/
theorem mem_classNames_of_shield {word : List Char} (hw : startMark ∉ word)
    (h : word ∈ (v.shieldAttributes attrs).2.classNames) : word ∈ attrs.classNames := by
  rw [mem_classNames] at h ⊢
  unfold Attributes.classes at h
  split at h
  · next t hg =>
    obtain ⟨w, old, -, -, hold, hv⟩ := get?_shieldAttributes hg
    obtain ⟨s, rfl, rfl⟩ := text_of_shieldValue hv
    obtain ⟨u, hu, he⟩ := List.mem_map.1 h
    rw [Value.text.inj he] at hu
    rw [Attributes.classes, hold]
    exact List.mem_map.2 ⟨word, mem_words_of_shield hw hu, rfl⟩
  · next items hg =>
    obtain ⟨w, old, -, -, hold, hv⟩ := get?_shieldAttributes hg
    cases old with
    | list olds =>
      cases hv
      rw [Attributes.classes, hold]
      exact mem_of_mem_shieldItems hw h
    | absent | flag | number | text | record | other => cases hv
  · exact absurd h List.not_mem_nil

/-- A container of footnotes was one before. -/
theorem holdsFootnotes_of_shielded {tag : List Char} {children children' : List Node}
    (h : Element.holdsFootnotes ⟨tag, (v.shieldAttributes attrs).2, children⟩ = true) :
    Element.holdsFootnotes ⟨tag, attrs, children'⟩ = true := by
  rw [Element.holdsFootnotes, Bool.or_eq_true, Bool.or_eq_true] at h ⊢
  rcases h with (h | h) | h
  · left; left
    obtain ⟨value, hg⟩ := Option.isSome_iff_exists.1 h
    obtain ⟨w, old, -, -, hold, -⟩ := get?_shieldAttributes hg
    rw [hold]
    rfl
  · left; right
    have hm : "footnotes".toList ∈ (v.shieldAttributes attrs).2.classNames := by
      simpa [Attributes.inClass] using h
    have := mem_classNames_of_shield (by decide) hm
    simpa [Attributes.inClass] using this
  · right
    obtain ⟨w, s, -, -, hs, hrole⟩ := text?_shieldAttributes (eq_of_beq h)
    have hfree : startMark ∉ (w.shield s).2 := by
      rw [hrole]
      decide
    have hsame := shield_eq_self_of_unmarked hfree
    rw [hrole] at hsame
    rw [hs, ← hsame]
    exact beq_self_eq_true _

end StorageMarkup
