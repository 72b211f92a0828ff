import Mathlib.Data.List.Forall2
import StorageMarkup.Directive.Build
import StorageMarkup.Proofs.Text.Scan
import StorageMarkup.Proofs.Text.Search

/-!
# Parameters told apart

Parameters are written one behind the other, each a key, an equals sign and a value. A key reaches
to the first equals sign, a quoted value to the first quote, since a value is written without the
quotes in it. So the text has all there is to know of the parameters but two things: those that are
left out, and which quotes of a value stood there as references.

Results:
1. `quote_not_mem_quoteValue`: no value ends its own quotes.
2. `behind_injective`: what is written is read off the text from left to right.
3. `params_unambiguous`: parameters that are written alike.
-/

namespace StorageMarkup

namespace Directive

/-- A parameter that is not left out. -/
def isWritten : Param → Bool
  | (_, .absent) => false
  | (_, .flag false) => false
  | _ => true

/-- Same key, and both bare or with the same text between the quotes. -/
structure WrittenAlike (p q : Param) : Prop where
  key : p.1 = q.1
  value : p.2 = .flag true ∧ q.2 = .flag true ∨
    p.2 ≠ .flag true ∧ q.2 ≠ .flag true ∧ quoteValue p.2 = quoteValue q.2

/-! ## One parameter -/

theorem quote_not_mem_quoteValue (value : Value) : '"' ∉ quoteValue value := by
  rw [quoteValue, replaceAll_singleton, List.mem_flatMap]
  rintro ⟨c, -, hc⟩
  split at hc
  · exact absurd hc (by decide)
  · next hne => exact hne (List.mem_singleton.1 hc).symm

/-- Key and value of a parameter as they are written; a bare one has no value. -/
def entry : Param → List Char × Option (List Char)
  | (key, .flag true) => (key, none)
  | (key, value) => (key, some (quoteValue value))

/-- The value of an entry behind the equals sign. -/
def valueText : Option (List Char) → List Char
  | none => "true".toList
  | some value => '"' :: value ++ ['"']

def entryText (e : List Char × Option (List Char)) : List Char := e.1 ++ '=' :: valueText e.2

theorem param?_eq (p : Param) :
    param? p = if isWritten p then some (entryText (entry p)) else none := by
  obtain ⟨key, value⟩ := p
  cases value with
  | absent => rfl
  | flag on => cases on <;> rfl
  | number | text | list | record | other => simp [param?, isWritten, entryText, entry, valueText]

theorem params_eq (ps : List Param) :
    params ps = joinWith [' '] (((ps.filter isWritten).map entry).map entryText) := by
  have hwritten : ps.filterMap param? = ((ps.filter isWritten).map entry).map entryText := by
    induction ps with
    | nil => rfl
    | cons p ps ih =>
      rw [List.filterMap_cons, param?_eq]
      cases hp : isWritten p <;> simp [hp, ih]
  rw [params, hwritten]

theorem entry_bare {p : Param} (h : p.2 = .flag true) : entry p = (p.1, none) := by
  obtain ⟨key, value⟩ := p
  cases h
  rfl

theorem entry_quoted {p : Param} (h : p.2 ≠ .flag true) :
    entry p = (p.1, some (quoteValue p.2)) := by
  obtain ⟨key, value⟩ := p
  cases value with
  | flag on =>
    cases on with
    | false => rfl
    | true => exact absurd rfl h
  | absent | number | text | list | record | other => rfl

theorem entry_eq_iff {p q : Param} : entry p = entry q ↔ WrittenAlike p q := by
  have hmk : WrittenAlike p q ↔ p.1 = q.1 ∧ (p.2 = .flag true ∧ q.2 = .flag true ∨
      p.2 ≠ .flag true ∧ q.2 ≠ .flag true ∧ quoteValue p.2 = quoteValue q.2) :=
    ⟨fun h => ⟨h.key, h.value⟩, fun h => ⟨h.1, h.2⟩⟩
  rw [hmk]
  by_cases hp : p.2 = .flag true <;> by_cases hq : q.2 = .flag true <;>
    simp [entry_bare, entry_quoted, hp, hq]

/-! ## All parameters -/

/-- Entries with a blank before each. -/
def behind : List (List Char × Option (List Char)) → List Char
  | [] => []
  | e :: es => ' ' :: (entryText e ++ behind es)

theorem joinWith_entryText (e : List Char × Option (List Char))
    (es : List (List Char × Option (List Char))) :
    joinWith [' '] ((e :: es).map entryText) = entryText e ++ behind es := by
  induction es generalizing e with
  | nil => simp [joinWith, behind]
  | cons f es ih =>
    rw [List.map_cons, List.map_cons, joinWith, ← List.map_cons, ih f, behind, List.append_assoc]
    · rfl
    · exact fun h => nomatch h

/-- A value is read off the start of a text. -/
theorem valueText_append_inj {v w : Option (List Char)} {s t : List Char} (hv : ∀ u ∈ v, '"' ∉ u)
    (hw : ∀ u ∈ w, '"' ∉ u) (h : valueText v ++ s = valueText w ++ t) : v = w ∧ s = t := by
  cases v with
  | none =>
    cases w with
    | none => exact ⟨rfl, List.append_cancel_left h⟩
    | some w => exact absurd (List.cons.inj h).1 (by decide)
  | some v =>
    cases w with
    | none => exact absurd (List.cons.inj h).1 (by decide)
    | some w =>
      simp only [valueText, List.cons_append, List.append_assoc, List.nil_append, List.cons.injEq,
        true_and] at h
      obtain ⟨rfl, rfl⟩ := eq_and_eq_of_append_cons_eq (hv v rfl) (hw w rfl) h
      exact ⟨rfl, rfl⟩

/-- Keys without an equals sign, values without a quote. -/
def Separable (es : List (List Char × Option (List Char))) : Prop :=
  ∀ e ∈ es, '=' ∉ e.1 ∧ ∀ value ∈ e.2, '"' ∉ value

/-- Entries are read off the text from left to right. -/
theorem behind_injective {es fs : List (List Char × Option (List Char))} (hes : Separable es)
    (hfs : Separable fs) (h : behind es = behind fs) : es = fs := by
  induction es generalizing fs with
  | nil =>
    cases fs with
    | nil => rfl
    | cons f fs => cases h
  | cons e es ih =>
    cases fs with
    | nil => cases h
    | cons f fs =>
      obtain ⟨⟨hkey, hvalue⟩, hes⟩ := List.forall_mem_cons.1 hes
      obtain ⟨⟨hkey', hvalue'⟩, hfs⟩ := List.forall_mem_cons.1 hfs
      simp only [behind, entryText, List.append_assoc, List.cons_append, List.cons.injEq,
        true_and] at h
      -- the first equals sign ends the key, then the value has its own end
      obtain ⟨hk, h⟩ := eq_and_eq_of_append_cons_eq hkey hkey' h
      obtain ⟨hv, h⟩ := valueText_append_inj hvalue hvalue' h
      rw [ih hes hfs h, Prod.ext hk hv]

theorem joined_injective {es fs : List (List Char × Option (List Char))} (hes : Separable es)
    (hfs : Separable fs)
    (h : joinWith [' '] (es.map entryText) = joinWith [' '] (fs.map entryText)) : es = fs := by
  have hne : ∀ e es, joinWith [' '] (([] : List _).map entryText) ≠
      joinWith [' '] ((e :: es).map entryText) := by
    intro e es he
    rw [joinWith_entryText, entryText] at he
    simp [joinWith] at he
  cases es with
  | nil =>
    cases fs with
    | nil => rfl
    | cons f fs => exact absurd h (hne f fs)
  | cons e es =>
    cases fs with
    | nil => exact absurd h.symm (hne e es)
    | cons f fs =>
      rw [joinWith_entryText, joinWith_entryText] at h
      exact behind_injective hes hfs (congrArg (' ' :: ·) h)

theorem separable_entries {ps : List Param} (h : ∀ p ∈ ps, '=' ∉ p.1) :
    Separable ((ps.filter isWritten).map entry) := by
  intro e he
  obtain ⟨p, hp, rfl⟩ := List.mem_map.1 he
  have hkey := h p ((List.mem_filter.1 hp).1)
  by_cases hbare : p.2 = .flag true
  · rw [entry_bare hbare]
    exact ⟨hkey, fun _ hv => nomatch hv⟩
  · rw [entry_quoted hbare]
    refine ⟨hkey, fun value hv => ?_⟩
    cases hv
    exact quote_not_mem_quoteValue p.2

/-- Where no key holds an equals sign, parameters are written alike just in case those that are not
left out are alike, one by one: the same keys in the same order, each bare in both lists or with the
same text between the quotes. No value ends its own quotes. -/
theorem params_unambiguous {ps qs : List Param} (hps : ∀ p ∈ ps, '=' ∉ p.1)
    (hqs : ∀ q ∈ qs, '=' ∉ q.1) :
    (params ps = params qs ↔
      List.Forall₂ WrittenAlike (ps.filter isWritten) (qs.filter isWritten)) ∧
      ∀ p ∈ ps, '"' ∉ quoteValue p.2 := by
  refine ⟨?_, fun p _ => quote_not_mem_quoteValue p.2⟩
  have halike : (ps.filter isWritten).map entry = (qs.filter isWritten).map entry ↔
      List.Forall₂ WrittenAlike (ps.filter isWritten) (qs.filter isWritten) := by
    rw [← List.forall₂_eq_eq_eq, List.forall₂_map_left_iff, List.forall₂_map_right_iff]
    simp only [entry_eq_iff]
  rw [params_eq, params_eq, ← halike]
  constructor
  · exact joined_injective (separable_entries hps) (separable_entries hqs)
  · exact fun h => by rw [h]

/-- A value that reads like the end of its own quotes and a further parameter, and one that reads
like a bare parameter. -/
theorem params_unambiguous_forged :
    let forged : List Param := [("title".toList, .text "a\" hidden=true b=\"".toList)]
    let honest : List Param := [("title".toList, .text "a".toList), ("hidden".toList, .flag true),
      ("b".toList, .text []), ("c".toList, .absent)]
    (∀ p ∈ forged, '=' ∉ p.1) ∧ (∀ p ∈ honest, '=' ∉ p.1) ∧ params forged ≠ params honest := by
  intro forged honest
  have hforged : ∀ p ∈ forged, '=' ∉ p.1 := by decide
  have hhonest : ∀ p ∈ honest, '=' ∉ p.1 := by decide
  refine ⟨hforged, hhonest, fun h => ?_⟩
  have hlength := ((params_unambiguous hforged hhonest).1.1 h).length_eq
  exact absurd hlength (by decide)

end Directive

end StorageMarkup
