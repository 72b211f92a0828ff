import StorageMarkup.Directive.Build
import StorageMarkup.Proofs.Directive.Lexicon
import StorageMarkup.Proofs.Node.Strings
import StorageMarkup.Proofs.Vault.Intact

/-!
# Directives written with placeholders in them

Values that hold whole placeholders are written into directives with the
placeholders whole.

Results:
1. `not_mem_quoted`, `startMark_not_mem_quoted`: which characters quoting brings; a start
   mark is spelled by its code point.
2. `intact_toText`: the text of a value.
3. `params_induct`, `nameAndParams_induct`: what parameters have and writing them keeps.
4. `intact_inline`, `intact_opening`, `intact_region`: directives.
-/

namespace StorageMarkup

open Vault

variable {known : Nat → Prop}

/-! ## Values as text -/

/-- What numbers and quoted texts are spelled with beside the characters of the text. -/
def spelling : List Char := "'\"\\-nrtxuU0123456789abcdef*".toList

section

variable {c : Char} (hc : c ∉ spelling)

include hc

theorem not_mem_toDigits {base : Nat} (hb : 1 < base) (n : Nat) : c ∉ Nat.toDigits base n := by
  have hdigit : ∀ d : Nat, d.digitChar ∈ spelling := by
    intro d
    rcases Nat.lt_or_ge d 16 with hd | hd
    · revert d
      decide
    · rw [Nat.digitChar_eq_star.2 hd]
      decide
  induction n using Nat.strongRecOn with
  | ind n ih =>
    rw [Nat.toDigits_eq_if hb]
    split
    · rw [List.mem_singleton]
      exact fun he => hc (he ▸ hdigit n)
    · next hn =>
      rw [List.mem_append, List.mem_singleton, not_or]
      exact ⟨ih _ (Nat.div_lt_self (by omega) hb), fun he => hc (he ▸ hdigit _)⟩

theorem not_mem_numeral (n : Int) : c ∉ Value.numeral n := by
  cases n with
  | ofNat k => exact not_mem_toDigits hc (by decide) k
  | negSucc k =>
    rw [Value.numeral, List.mem_cons, not_or]
    exact ⟨fun he => hc (he ▸ by decide), not_mem_toDigits hc (by decide) _⟩

theorem not_mem_hexDigits (width n : Nat) : c ∉ Value.hexDigits width n := by
  rw [Value.hexDigits, List.mem_append, not_or]
  refine ⟨fun h => hc ?_, not_mem_toDigits hc (by decide) n⟩
  rw [(List.mem_replicate.1 h).2]
  decide

theorem not_mem_quotedChar {quote d : Char} (hq : quote ≠ c) (hd : isVisible d = true → d ≠ c) :
    c ∉ Value.quotedChar quote d := by
  have hfixed : ∀ w : List Char, w ⊆ spelling → c ∉ w := fun w hw hm => hc (hw hm)
  have hcode : ∀ (start : List Char) (width : Nat), start ⊆ spelling →
      c ∉ start ++ Value.hexDigits width d.toNat := fun start width hs => by
    rw [List.mem_append, not_or]
    exact ⟨hfixed start hs, not_mem_hexDigits hc _ _⟩
  unfold Value.quotedChar
  split
  · next h =>
    rw [Bool.or_eq_true, decide_eq_true_eq, decide_eq_true_eq] at h
    rw [List.mem_cons, List.mem_singleton, not_or]
    refine ⟨fun he => hc (he ▸ by decide), ?_⟩
    rintro rfl
    rcases h with h | rfl
    · exact hq h.symm
    · exact hc (by decide)
  split
  · exact hfixed _ (by decide)
  split
  · exact hfixed _ (by decide)
  split
  · exact hfixed _ (by decide)
  split
  · next hv =>
    rw [List.mem_singleton]
    exact fun he => hd hv he.symm
  split
  · exact hcode _ _ (by decide)
  split
  · exact hcode _ _ (by decide)
  · exact hcode _ _ (by decide)

/-- What is no visible character of the text is not in the quoted text. -/
theorem not_mem_quoted {s : List Char} (hs : ∀ d ∈ s, isVisible d = true → d ≠ c) :
    c ∉ Value.quoted s := by
  unfold Value.quoted
  simp only
  generalize hquote : (if '\'' ∈ s ∧ '"' ∉ s then '"' else '\'') = quote
  have hq : quote ≠ c := by
    rintro rfl
    refine hc ?_
    rw [← hquote]
    split <;> decide
  rw [List.mem_append, List.mem_cons, List.mem_flatMap, List.mem_singleton]
  rintro ((h | ⟨d, hd, h⟩) | h)
  · exact hq h.symm
  · exact not_mem_quotedChar hc hq (hs d hd) h
  · exact hq h.symm

end

theorem startMark_not_mem_quoted (s : List Char) : startMark ∉ Value.quoted s := by
  refine not_mem_quoted (by decide) fun d _ hv => ?_
  rintro rfl
  exact absurd hv (by decide +kernel)

theorem displayItems_eq (items : List Value) :
    Value.displayItems items = items.map Value.display := by
  induction items with
  | nil => rfl
  | cons item items ih => rw [Value.displayItems, ih, List.map_cons]

theorem displayEntries_eq (entries : List (List Char × Value)) :
    Value.displayEntries entries =
      entries.map fun e => Value.quoted e.1 ++ ':' :: ' ' :: e.2.display := by
  induction entries with
  | nil => rfl
  | cons e entries ih => rw [Value.displayEntries, ih, List.map_cons]

theorem intact_display {value : Value} (h : value.All (Intact known)) :
    Intact known value.display := by
  induction h with
  | absent => exact .of_free (by decide)
  | flag on => cases on <;> exact .of_free (by decide)
  | number n => exact .of_free (not_mem_numeral (by decide) n)
  | text _ => exact .of_free (startMark_not_mem_quoted _)
  | other h => exact h
  | list _ ih =>
    rw [Value.display, displayItems_eq]
    refine .append (.cons (by decide) (.joinWith (by decide) fun part hm => ?_))
      (.of_free (by decide))
    obtain ⟨item, hi, rfl⟩ := List.mem_map.1 hm
    exact ih item hi
  | record _ _ ih =>
    rw [Value.display, displayEntries_eq]
    refine .append (.cons (by decide) (.joinWith (by decide) fun part hm => ?_))
      (.of_free (by decide))
    obtain ⟨e, he, rfl⟩ := List.mem_map.1 hm
    exact .append (.of_free (startMark_not_mem_quoted _))
      (.cons (by decide) (.cons (by decide) (ih e he)))

theorem all_of_unmarked {value : Value} (h : value.All (startMark ∉ ·)) :
    value.All (Intact known) :=
  h.mono fun _ => .of_free

theorem intact_toText {value : Value} (h : value.All (Intact known)) :
    Intact known value.toText := by
  cases value with
  | text s => exact h.of_text
  | absent | flag | number | list | record | other => exact intact_display h

/-! ## Directives -/

namespace Directive

section

variable {P : List Char → Prop} {ps : List Param}
  (fixed : ∀ s, startMark ∉ s → (∀ c ∈ s, isBrace c = false) → P s)
  (append : ∀ s t, P s → P t → P (s ++ t))

include fixed append

/-- A property that fixed words have and putting texts together keeps. -/
theorem param?_induct {p : Param} {s : List Char} (hkey : P p.1) (hvalue : P (quoteValue p.2))
    (h : param? p = some s) : P s := by
  have hquoted : P (p.1 ++ "=\"".toList ++ quoteValue p.2 ++ ['"']) :=
    append _ _ (append _ _ (append _ _ hkey (fixed _ (by decide) (by decide))) hvalue)
      (fixed _ (by decide) (by decide))
  obtain ⟨key, value⟩ := p
  cases value with
  | absent => cases h
  | flag on =>
    cases on with
    | false => cases h
    | true =>
      cases h
      exact append _ _ hkey (fixed _ (by decide) (by decide))
  | number | text | list | record | other =>
    cases h
    exact hquoted

theorem params_induct (h : ∀ p ∈ ps, P p.1 ∧ P (quoteValue p.2)) : P (params ps) := by
  refine joinWith_induct (fixed _ List.not_mem_nil fun _ hc => absurd hc List.not_mem_nil) append
    (fixed _ (by decide) (by decide)) fun part hm => ?_
  obtain ⟨p, hp, hs⟩ := List.mem_filterMap.1 hm
  exact param?_induct fixed append (h p hp).1 (h p hp).2 hs

theorem nameAndParams_induct {name : List Char} (hname : P name)
    (h : ∀ p ∈ ps, P p.1 ∧ P (quoteValue p.2)) : P (nameAndParams name ps) := by
  unfold nameAndParams
  simp only
  split
  · exact hname
  · exact append _ _ hname (append [' '] _ (fixed _ (by decide) (by decide))
      (params_induct fixed append h))

end

theorem intact_quoteValue {value : Value} (h : value.All (Intact known)) :
    Intact known (quoteValue value) :=
  (intact_toText h).replaceAll (by decide) (by decide) (by decide) (by decide)

/-- The keys of parameters are fixed words, their values come from the document. -/
def IntactParams (known : Nat → Prop) (ps : List Param) : Prop :=
  ∀ p ∈ ps, startMark ∉ p.1 ∧ p.2.All (Intact known)

theorem intact_param? {p : Param} {s : List Char} (hkey : startMark ∉ p.1)
    (hvalue : p.2.All (Intact known)) (h : param? p = some s) : Intact known s :=
  param?_induct (fun _ hmark _ => .of_free hmark) (fun _ _ => .append) (.of_free hkey)
    (intact_quoteValue hvalue) h

theorem intact_nameAndParams {name : List Char} {ps : List Param} (hname : startMark ∉ name)
    (h : IntactParams known ps) : Intact known (nameAndParams name ps) :=
  nameAndParams_induct (fun _ hmark _ => .of_free hmark) (fun _ _ => .append) (.of_free hname)
    fun p hp => ⟨.of_free (h p hp).1, intact_quoteValue (h p hp).2⟩

theorem intact_inline {name : List Char} {ps : List Param} (hname : startMark ∉ name)
    (h : IntactParams known ps) : Intact known (inline name ps) :=
  .append (.cons (by decide) (.cons (by decide) (intact_nameAndParams hname h)))
    (.of_free (by decide))

theorem intact_opening {name : List Char} {ps : List Param} (hname : startMark ∉ name)
    (h : IntactParams known ps) : Intact known (opening name ps) :=
  .append (.cons (by decide) (.cons (by decide) (.cons (by decide) (intact_nameAndParams hname h))))
    (.of_free (by decide))

theorem startMark_not_mem_closing {name : List Char} (hname : startMark ∉ name) :
    startMark ∉ closing name := by
  rw [closing_eq]
  simp only [List.mem_cons, List.mem_append, not_or]
  exact ⟨by decide, by decide, by decide, hname, by decide, by decide, List.not_mem_nil⟩

theorem intact_region {head body name : List Char} (hhead : Intact known head)
    (hbody : Intact known body) (hname : startMark ∉ name) : Intact known (region head body name) :=
  .append (hhead.append (.cons (by decide) hbody))
    (.cons (by decide) (.of_free (startMark_not_mem_closing hname)))

end Directive

end StorageMarkup
