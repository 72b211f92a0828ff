import StorageMarkup.Proofs.Region.Closing
import StorageMarkup.Proofs.Vault.Ordered
import StorageMarkup.Proofs.Text.NewlineRuns

/-!
# Directives on their way through a conversion

A directive stands in the text of a tree, then a placeholder stands for it, then it
comes back. At each stage the text is woven from plain characters and directives in
the form they have there, and the labels of the weave are the directives themselves.

Results:
1. `Legible.woven`, `directives_of_woven`: the directives that are found in a text are
   those it is woven from.
2. `shield_woven`, `expand_woven`: setting aside and putting back.
3. `head_of_woven`, `closing_of_woven`: open tokens and close tokens.
4. `markerLines_of_woven`: lines that are one token each.
-/

namespace StorageMarkup

open Vault

/-- Part of no directive and start of no placeholder. -/
def Plain (c : Char) : Prop := c ≠ startMark ∧ Directive.isBrace c = false

instance : DecidablePred Plain := fun c =>
  inferInstanceAs (Decidable (c ≠ startMark ∧ Directive.isBrace c = false))

theorem plain_of_ne {c : Char} (hmark : c ≠ startMark) (hbrace : Directive.isBrace c = false) :
    Plain c := ⟨hmark, hbrace⟩

namespace Directive

variable {v : Vault} {s t d name : List Char} {ds : List (List Char)}

/-! ## Directives of a text -/

/-- The directives of a text, from left to right. -/
def directives (s : List Char) : List (List Char) := (find s).map Prod.snd

theorem directives_char {c : Char} (h : read (c :: s) = none) :
    directives (c :: s) = directives s := by
  rw [directives, find, split, scan_char h, hitsFrom]
  exact map_snd_hitsFrom _ _ _ _

theorem directives_token (h : IsToken d) (s : List Char) :
    directives (d ++ s) = d :: directives s := by
  rw [directives, find, split_token h, hitsFrom, List.map_cons]
  exact congrArg (d :: ·) (map_snd_hitsFrom _ _ _ _)

/-! ## Forms -/

/-- A directive that a conversion can carry: no start mark in it and no run of three line feeds. -/
structure Portable (d : List Char) : Prop where
  token : IsToken d
  unmarked : startMark ∉ d
  short : ¬ "\n\n\n".toList <:+: d

/-- The directive spelled out. -/
def Spelled (d u : List Char) : Prop := u = d ∧ Portable d

/-- A placeholder for the directive. -/
def SetAside (v : Vault) (d u : List Char) : Prop :=
  ∃ n, u = placeholder n ∧ v.originals[n]? = some d ∧ Portable d

/-- Either of the two. -/
def Written (v : Vault) (d u : List Char) : Prop := Spelled d u ∨ SetAside v d u

theorem IsToken.head {c : Char} (h : IsToken d) (hc : c ≠ '{') : ∃ e w, d = e :: w ∧ e ≠ c := by
  obtain ⟨inner, rfl, _⟩ := h
  exact ⟨'{', _, rfl, Ne.symm hc⟩

theorem Portable.narrow (h : Portable d) : Narrow d where
  short := h.short
  ends := by
    obtain ⟨rest, c, hd, hc⟩ := h.token.capped.ends
    intro w hw
    rw [hd] at hw
    rw [(List.cons.inj (List.append_inj' hw rfl).2).1] at hc
    exact absurd hc (by decide)

theorem capped_spelled : ∀ d u, Spelled d u → Capped u := by
  rintro d u ⟨rfl, hd⟩
  exact hd.token.capped

theorem placeholders_setAside : Placeholders (SetAside v) := by
  rintro d u ⟨n, rfl, _⟩
  exact ⟨n, rfl⟩

theorem capped_written : ∀ d u, Written v d u → Capped u := by
  rintro d u (h | h)
  · exact capped_spelled d u h
  · exact placeholders_setAside.capped d u h

theorem SetAside.grow {w : Vault} {u : List Char} (h : SetAside v d u) (hw : v.Extends w) :
    SetAside w d u := by
  obtain ⟨n, rfl, ho, hd⟩ := h
  exact ⟨n, rfl, hw.original ho, hd⟩

/-! ## Texts with directives -/

/-- Every brace belongs to a directive, and the directives can be carried. -/
structure Legible (s : List Char) : Prop where
  unmarked : startMark ∉ s
  braces : ∀ c, .char c ∈ split s → isBrace c = false
  short : ∀ d, .hit d ∈ split s → ¬ "\n\n\n".toList <:+: d

/-- Neither a brace on its own nor a directive with a run of three line feeds. -/
def legiblePiece : Piece (List Char) → Bool
  | .char c => !isBrace c
  | .hit d => !contains "\n\n\n".toList d

theorem legible_iff : Legible s ↔ startMark ∉ s ∧ ∀ p ∈ split s, legiblePiece p = true := by
  constructor
  · rintro ⟨hmark, hbraces, hshort⟩
    refine ⟨hmark, fun p hp => ?_⟩
    cases p with
    | char c => rw [legiblePiece, hbraces c hp]; rfl
    | hit d => rw [legiblePiece, contains_eq_false.2 (hshort d hp)]; rfl
  · rintro ⟨hmark, h⟩
    refine ⟨hmark, fun c hc => ?_, fun d hd => ?_⟩
    · simpa [legiblePiece] using h _ hc
    · exact contains_eq_false.1 (by simpa [legiblePiece] using h _ hd)

instance : DecidablePred Legible := fun _ => decidable_of_iff' _ legible_iff

/-- A legible text is woven from the directives that are found in it. -/
theorem Legible.woven (h : Legible s) : Woven Plain Spelled (directives s) s := by
  induction s using read_exact.induct with
  | nil => exact .nil
  | char c s hr ih =>
    have hs : split (c :: s) = .char c :: split s := scan_char hr
    obtain ⟨hmark, hbraces, hshort⟩ := h
    rw [List.mem_cons, not_or] at hmark
    rw [hs] at hbraces hshort
    rw [directives_char hr]
    exact .char ⟨Ne.symm hmark.1, hbraces c List.mem_cons_self⟩ (ih ⟨hmark.2,
      fun b hb => hbraces b (List.mem_cons_of_mem _ hb),
      fun d hd => hshort d (List.mem_cons_of_mem _ hd)⟩)
  | hit d s hd _ ih =>
    obtain ⟨hmark, hbraces, hshort⟩ := h
    rw [List.mem_append, not_or] at hmark
    rw [split_token hd] at hbraces hshort
    rw [directives_token hd]
    exact .unit ⟨rfl, hd, hmark.1, hshort d List.mem_cons_self⟩ (ih ⟨hmark.2,
      fun b hb => hbraces b (List.mem_cons_of_mem _ hb),
      fun d hd => hshort d (List.mem_cons_of_mem _ hd)⟩)

theorem read_eq_none_of_plain {c : Char} (h : Plain c) (s : List Char) : read (c :: s) = none := by
  rw [read]
  intro rest he
  rw [(List.cons.inj he).1] at h
  exact absurd h.2 (by decide)

/-- The directives that are found are those the text is woven from. -/
theorem directives_of_woven (h : Woven Plain Spelled ds s) : directives s = ds := by
  induction h with
  | nil => rfl
  | char hc _ ih => rw [directives_char (read_eq_none_of_plain hc _), ih]
  | unit hu _ ih =>
    obtain ⟨rfl, hd⟩ := hu
    rw [directives_token hd.token, ih]

theorem portable_of_woven (h : Woven Plain Spelled ds s) : ∀ d ∈ ds, Portable d := by
  induction h with
  | nil => exact fun d hd => absurd hd List.not_mem_nil
  | char _ _ ih => exact ih
  | unit hu _ ih => exact List.forall_mem_cons.2 ⟨hu.2, ih⟩

theorem unmarked_of_woven (h : Woven Plain Spelled ds s) : startMark ∉ s := by
  induction h with
  | nil => exact List.not_mem_nil
  | char hc _ ih =>
    rw [List.mem_cons, not_or]
    exact ⟨Ne.symm hc.1, ih⟩
  | unit hu _ ih =>
    obtain ⟨rfl, hd⟩ := hu
    rw [List.mem_append, not_or]
    exact ⟨hd.unmarked, ih⟩

/-! ## Setting aside and putting back -/

theorem shield_woven (h : Woven Plain Spelled ds s) (v : Vault) :
    Woven Plain (SetAside (v.shield s).1) ds (v.shield s).2 := by
  induction h generalizing v with
  | nil => exact .nil
  | @char c ds s hc _ ih =>
    rw [shield_char (read_eq_none_of_plain hc s)]
    exact .char hc (ih v)
  | @unit d u ds s hu _ ih =>
    obtain ⟨rfl, hd⟩ := hu
    rw [shield_token hd.token]
    refine .unit ⟨v.size, rfl, ?_, hd⟩ (ih (v.deposit u).1)
    exact (shield_extends (v.deposit u).1 s).original (deposit_original v u)

theorem expandOnce_woven (h : Woven Plain (Written v) ds s) :
    Woven Plain Spelled ds (v.expandOnce s) := by
  induction h with
  | nil => exact .nil
  | char hc _ ih =>
    rw [expandOnce_char v hc.1]
    exact .char hc ih
  | unit hu _ ih =>
    rcases hu with ⟨rfl, hd⟩ | ⟨n, rfl, ho, hd⟩
    · rw [expandOnce_free_append v hd.unmarked]
      exact .unit ⟨rfl, hd⟩ ih
    · rw [expandOnce_placeholder v ho]
      exact .unit ⟨rfl, hd⟩ ih

/-- Putting back spells every directive out. -/
theorem expand_woven (h : Woven Plain (Written v) ds s) : Woven Plain Spelled ds (v.expand s) := by
  have hs := expandOnce_woven h
  rwa [expand_eq_expandOnce (unmarked_of_woven hs)]

/-- Capping runs of line feeds changes no directive. -/
theorem capNewlineRuns_woven (h : Woven Plain Spelled ds s) :
    Woven Plain Spelled ds (capNewlineRuns s) := by
  induction h with
  | nil => exact .nil
  | char hc _ ih =>
    rw [capNewlineRuns]
    split
    · exact ih
    · exact .char hc ih
  | unit hu _ ih =>
    obtain ⟨rfl, hd⟩ := hu
    rw [capNewlineRuns_append hd.narrow]
    exact .unit ⟨rfl, hd⟩ ih

/-! ## Open and close tokens -/

/-- A text that starts with a whole token has it as its first directive. -/
theorem first_of_woven {inner : List Char} (hd : inside? d = some inner)
    (h : Woven Plain Spelled ds (d ++ t)) :
    ∃ rest, ds = d :: rest ∧ Woven Plain Spelled rest t := by
  obtain ⟨rfl, hin⟩ := inside?_eq_some.1 hd
  generalize hs : '{' :: '{' :: (inner ++ ['}', '}']) ++ t = s at h
  cases h with
  | nil => cases hs
  | char hc _ =>
    rw [← (List.cons.inj hs).1] at hc
    exact absurd hc.2 (by decide)
  | @unit d' u rest s hu h =>
    obtain ⟨rfl, hd'⟩ := hu
    obtain ⟨inner', rfl, hin'⟩ := hd'.token
    have hs' : inner ++ '}' :: '}' :: t = inner' ++ '}' :: '}' :: s := by simpa using hs
    have hnot : '}' ∉ inner' := fun hm => absurd (hin' _ hm) (by decide)
    obtain ⟨rfl, ht⟩ := eq_and_eq_of_append_cons_eq hin hnot hs'
    rw [(List.cons.inj ht).2]
    exact ⟨rest, rfl, h⟩

/-- Without its blanks in front, the text has the same directives. -/
theorem woven_of_blank_append {w : List Char} (hw : isBlank w = true)
    (h : Woven Plain Spelled ds (w ++ s)) : Woven Plain Spelled ds s := by
  refine h.drop_append fun c hc d u hu => ?_
  obtain ⟨rfl, hd⟩ := hu
  refine hd.token.head ?_
  rintro rfl
  exact absurd (isSpace_of_mem hw hc) (by decide)

theorem exists_inside?_of_openName? (h : openName? s = some name) :
    ∃ inner, inside? (strip s) = some inner := by
  unfold openName? at h
  split at h
  · next inner hi => exact ⟨_, hi⟩
  · cases h

/-- An open marker carries its open token and nothing else. -/
theorem head_of_woven (h : Woven Plain (SetAside v) ds s)
    (hname : openName? (strip (v.expand (strip s))) = some name) :
    ds = [strip (v.expand (strip s))] := by
  have hstrip := h.strip placeholders_setAside.capped
  have hhead := (expand_woven (hstrip.mono (fun _ hc => hc) fun _ _ => .inr)).strip capped_spelled
  obtain ⟨inner, hi⟩ := exists_inside?_of_openName? hname
  rw [strip_strip] at hi
  rw [← List.append_nil (strip (v.expand (strip s)))] at hhead
  obtain ⟨rest, rfl, hrest⟩ := first_of_woven hi hhead
  rw [hrest.labels_eq_nil capped_spelled]

/-- The close token that is cut out of a text is one of its directives. -/
theorem closing_of_woven {before after : List Char} (h : Woven Plain (SetAside v) ds s)
    (hcut : cutFirstClosing (some v) name s = some (before, after)) :
    ∃ front back, ds = front ++ closing name :: back ∧ Portable (closing name) ∧ IsName name ∧
      Woven Plain (SetAside v) (front ++ back) (before ++ after) := by
  rcases Region.cutFirstClosing_eq_some hcut with hcut | hcut
  · -- no brace stands in the text
    have hbrace : '{' ∉ s := by
      intro hm
      obtain ⟨a, b, rfl⟩ := List.append_of_mem hm
      obtain ⟨_, _, _, _, hb⟩ := h.cut placeholders_setAside (by decide)
      have := (hb.tail (placeholders_setAside.head (by decide))).1.2
      exact absurd this (by decide)
    have hin : closing name <:+: s := ⟨before, after, (eq_of_cutAt hcut).symm⟩
    rw [closing_eq] at hin
    exact absurd hin (not_infix_of_not_mem hbrace)
  · obtain ⟨front, e, back, hps, hwanted, rfl, rfl⟩ := cutHit_eq_some hcut
    have hspell := v.spell_split s
    rw [hps, spell_append, spell] at hspell
    have ho : v.originals[e.number]? = some e.original :=
      v.original_of_mem_split (hps ▸ List.mem_append_right front List.mem_cons_self)
    have hclose : closeName? e.original = some name := of_decide_eq_true hwanted
    rw [← hspell] at h
    obtain ⟨w, hw⟩ := placeholder_eq_cons e.number
    rw [Entry.placeholder, hw, List.cons_append] at h
    obtain ⟨a, b, rfl, ha, hb⟩ := h.split fun d u hu => by
      obtain ⟨n, rfl, _⟩ := hu
      exact startMark_not_mem_tail n
    -- the placeholder that was cut is the first unit of what follows
    generalize hr : startMark :: (w ++ spell Entry.placeholder back) = r at hb
    cases hb with
    | nil => cases hr
    | char hc _ => exact absurd (List.cons.inj hr).1.symm hc.1
    | @unit d u rest r hu hrest =>
      obtain ⟨n, rfl, hn, hd⟩ := hu
      rw [← List.cons_append, ← hw] at hr
      have hnum : e.number = n :=
        placeholder_prefix_unique (hr ▸ List.prefix_append _ _) (List.prefix_append _ r)
      rw [hnum] at hr ho
      have hback := List.append_cancel_left hr
      rw [ho] at hn
      obtain ⟨hs, hname⟩ := closeName?_eq_some.1 hclose
      rw [Option.some.inj hn, hd.token.capped.strip] at hs
      rw [hs] at hd ⊢
      exact ⟨a, rest, rfl, hd, hname, hback ▸ ha.append hrest⟩

/-! ## Marker lines -/

/-- A line is followed by blanks at most before the next one. -/
theorem exists_blank_unlines_cons (l : List Char) (ls : List (List Char)) :
    ∃ w, isBlank w = true ∧ unlines (l :: ls) = l ++ (w ++ unlines ls) := by
  cases ls with
  | nil => exact ⟨[], rfl, (List.append_nil l).symm⟩
  | cons m ls => exact ⟨['\n'], by decide, unlines_cons_cons l m ls⟩

/-- Lines of one token each carry just these. -/
theorem tokens_of_woven {ls : List (List Char)} (h : Woven Plain Spelled ds (unlines ls))
    (htoken : ∀ l ∈ ls, isBlank l = false → ∃ inner, inside? (strip l) = some inner) :
    ds = (ls.filter (!isBlank ·)).map strip := by
  induction ls generalizing ds with
  | nil => exact h.labels_eq_nil capped_spelled
  | cons l ls ih =>
    rw [List.forall_mem_cons] at htoken
    obtain ⟨w, hw, hs⟩ := exists_blank_unlines_cons l ls
    rw [hs] at h
    cases hl : isBlank l with
    | true =>
      rw [List.filter_cons_of_neg (by rw [hl]; decide)]
      exact ih (woven_of_blank_append hw (woven_of_blank_append hl h)) htoken.2
    | false =>
      rw [List.filter_cons_of_pos (by rw [hl]; rfl), List.map_cons]
      obtain ⟨a, b, ha, hb, he⟩ := exists_blank_strip l
      rw [he, List.append_assoc, List.append_assoc] at h
      obtain ⟨inner, hi⟩ := htoken.1 hl
      obtain ⟨rest, rfl, hrest⟩ := first_of_woven hi (woven_of_blank_append ha h)
      rw [ih (woven_of_blank_append hw (woven_of_blank_append hb hrest)) htoken.2]

theorem isRegionText_of_line (h : '\n' ∉ s) : isRegionText s = false := by
  have hs : '\n' ∉ strip s := fun hm => h (mem_of_mem_strip hm)
  unfold isRegionText
  rw [lines_of_not_mem hs]

theorem exists_inside?_of_isMarkerLine (hmark : startMark ∉ s) (hline : '\n' ∉ s)
    (h : isMarkerLine (some v) s = true) : ∃ inner, inside? (strip s) = some inner := by
  have hreveal : reveal (some v) s = s := expand_eq_self hmark
  rw [isMarkerLine, hreveal, isRegionText_of_line hline, Bool.or_false, isOpenOrClose] at h
  split at h
  · next mark inner hi => exact ⟨_, hi⟩
  · cases h

/-- A paragraph of marker lines carries these and nothing else. -/
theorem markerLines_of_woven (h : Woven Plain Spelled ds s)
    (hall : (contentLines s).all (isMarkerLine (some v)) = true) : ds = contentLines s := by
  have hwoven : Woven Plain Spelled ds (unlines (lines s)) := by rwa [unlines_lines]
  refine tokens_of_woven hwoven fun l hl hblank => ?_
  have hm : strip l ∈ contentLines s :=
    List.mem_map.2 ⟨l, List.mem_filter.2 ⟨hl, by rw [hblank]; rfl⟩, rfl⟩
  have hmark : startMark ∉ strip l := by
    have hnone : Intact (fun _ => False) s := .of_free (unmarked_of_woven h)
    exact (hnone.lines l hl).strip.free
  have hline : '\n' ∉ strip l := fun hm => not_mem_of_mem_lines hl (mem_of_mem_strip hm)
  obtain ⟨inner, hi⟩ := exists_inside?_of_isMarkerLine hmark hline
    (List.all_eq_true.1 hall (strip l) hm)
  rw [strip_strip] at hi
  exact ⟨inner, hi⟩

end Directive

end StorageMarkup
