import StorageMarkup.Text.Search

/-!
# Cutting a text at a fixed string

Results:
1. `cutAt_eq_none`: nothing is cut exactly when the string does not occur.
2. `eq_of_cutAt`: the two sides of a cut and the string give the text back.
3. `cutAt_append`: the first occurrence is cut.
-/

namespace StorageMarkup

/-- A property of all characters of a text is decided by going through the text, never through the
characters there are. -/
instance (priority := 2000) decidableForallMem (P : Char → Prop) [DecidablePred P]
    (s : List Char) : Decidable (∀ c ∈ s, P c) :=
  List.decidableBAll P s

theorem eq_of_cutAt {needle s before after : List Char}
    (h : cutAt needle s = some (before, after)) : s = before ++ needle ++ after := by
  induction s generalizing before with
  | nil =>
    rw [cutAt] at h
    split at h
    · next hn =>
      cases h
      rw [List.isEmpty_iff.1 hn]
      rfl
    · cases h
  | cons c s ih =>
    rw [cutAt] at h
    split at h
    · next hp =>
      cases h
      obtain ⟨rest, hr⟩ := List.isPrefixOf_iff_prefix.1 hp
      rw [← hr, List.drop_left, List.nil_append]
    · obtain ⟨⟨b, a⟩, hi, he⟩ := Option.map_eq_some_iff.1 h
      cases he
      rw [ih hi, List.cons_append, List.cons_append]

theorem cutAt_eq_none {needle s : List Char} : cutAt needle s = none ↔ ¬ needle <:+: s := by
  induction s with
  | nil =>
    rw [cutAt, List.infix_nil]
    cases needle <;> simp
  | cons c s ih =>
    rw [cutAt, List.infix_cons_iff, ← List.isPrefixOf_iff_prefix, not_or, ← ih]
    split
    · next hp => simp [hp]
    · next hp => simp [hp]

theorem contains_eq_true {needle s : List Char} : contains needle s = true ↔ needle <:+: s := by
  rw [contains, Option.isSome_iff_ne_none, ne_eq, cutAt_eq_none, Classical.not_not]

theorem contains_eq_false {needle s : List Char} : contains needle s = false ↔ ¬ needle <:+: s := by
  rw [contains, Option.isSome_eq_false_iff, Option.isNone_iff_eq_none, cutAt_eq_none]

/-- The first occurrence is cut: it cannot start in a stretch without its first character. -/
theorem cutAt_append {c : Char} {needle w : List Char} (hw : c ∉ w) (s : List Char) :
    cutAt (c :: needle) (w ++ (c :: needle ++ s)) = some (w, s) := by
  induction w with
  | nil =>
    have hp : (c :: needle).isPrefixOf (c :: (needle ++ s)) = true :=
      List.isPrefixOf_iff_prefix.2 (List.prefix_append (c :: needle) s)
    rw [List.nil_append, List.cons_append, cutAt, if_pos hp, ← List.cons_append, List.drop_left]
  | cons d w ih =>
    rw [List.mem_cons, not_or] at hw
    have hp : ¬ (c :: needle).isPrefixOf (d :: (w ++ (c :: needle ++ s))) = true := by
      rw [List.isPrefixOf_iff_prefix, List.cons_prefix_cons]
      exact fun h => hw.1 h.1
    rw [List.cons_append, cutAt, if_neg hp, ih hw.2]
    rfl

/-- Nothing is cut inside a stretch without the first character of the needle. -/
theorem cutAt_append_of_not_mem {c : Char} {needle u : List Char} (hu : c ∉ u) (s : List Char) :
    cutAt (c :: needle) (u ++ s) =
      (cutAt (c :: needle) s).map fun (before, after) => (u ++ before, after) := by
  induction u with
  | nil => simp
  | cons d u ih =>
    rw [List.mem_cons, not_or] at hu
    have hp : ¬ (c :: needle).isPrefixOf (d :: (u ++ s)) = true := by
      rw [List.isPrefixOf_iff_prefix, List.cons_prefix_cons]
      exact fun h => hu.1 h.1
    rw [List.cons_append, cutAt, if_neg hp, ih hu.2, Option.map_map]
    rfl

/-- A text is cut at the first occurrence of a character in one way only. -/
theorem eq_and_eq_of_append_cons_eq {c : Char} {u w s t : List Char} (hu : c ∉ u) (hw : c ∉ w)
    (h : u ++ c :: s = w ++ c :: t) : u = w ∧ s = t := by
  induction u generalizing w with
  | nil =>
    cases w with
    | nil => exact ⟨rfl, (List.cons.inj h).2⟩
    | cons d w => exact absurd ((List.cons.inj h).1 ▸ List.mem_cons_self) hw
  | cons e u ih =>
    rw [List.mem_cons, not_or] at hu
    cases w with
    | nil => exact absurd (List.cons.inj h).1.symm hu.1
    | cons d w =>
      rw [List.mem_cons, not_or] at hw
      obtain ⟨he, h⟩ := List.cons.inj h
      obtain ⟨rfl, rfl⟩ := ih hu.2 hw.2 h
      exact ⟨by rw [he], rfl⟩

/-- A string that starts with a character the text lacks does not occur. -/
theorem not_infix_of_not_mem {c : Char} {needle s : List Char} (h : c ∉ s) :
    ¬ c :: needle <:+: s := fun hi => h (hi.subset List.mem_cons_self)

theorem dropStart?_eq_some {start s t : List Char} :
    dropStart? start s = some t ↔ s = start ++ t := by
  unfold dropStart?
  constructor
  · intro h
    split at h
    · next hp =>
      obtain ⟨rest, rfl⟩ := List.isPrefixOf_iff_prefix.1 hp
      rw [List.drop_left] at h
      rw [Option.some.inj h]
    · cases h
  · rintro rfl
    rw [if_pos (List.isPrefixOf_iff_prefix.2 (List.prefix_append _ _)), List.drop_left]

theorem dropStart?_eq_none {start s : List Char} (h : ¬ start <+: s) : dropStart? start s = none :=
  if_neg fun hp => h (List.isPrefixOf_iff_prefix.1 hp)

end StorageMarkup
