import StorageMarkup.Proofs.Text.Woven

/-!
# Twin texts

Two texts are twins when they have the same plain characters and matching units in the
same places. Two conversions that set the same things aside in different ways work on
twins, and what trims texts and cuts them at blanks does to one what it does to the
other.

Results:
1. `Twin.strip`, `Twin.isBlank_eq`: trimming twins.
2. `Twin.pieces`: twins are cut into twins.
-/

namespace StorageMarkup

variable {α : Type} {plain : Char → Prop} {unit : α → List Char → List Char → Prop}

/-- The same plain characters and matching units, the labels of the units from left to right. -/
inductive Twin (plain : Char → Prop) (unit : α → List Char → List Char → Prop) :
    List α → List Char → List Char → Prop
  | nil : Twin plain unit [] [] []
  | char {c : Char} {labels : List α} {s t : List Char} (hc : plain c)
      (h : Twin plain unit labels s t) : Twin plain unit labels (c :: s) (c :: t)
  | unit {a : α} {u u' : List Char} {labels : List α} {s t : List Char} (hu : unit a u u')
      (h : Twin plain unit labels s t) : Twin plain unit (a :: labels) (u ++ s) (u' ++ t)

/-- Twins one by one, the labels in a row. -/
inductive Twins (plain : Char → Prop) (unit : α → List Char → List Char → Prop) :
    List α → List (List Char) → List (List Char) → Prop
  | nil : Twins plain unit [] [] []
  | cons {labels more : List α} {s t : List Char} {ss ts : List (List Char)}
      (h : Twin plain unit labels s t) (hs : Twins plain unit more ss ts) :
      Twins plain unit (labels ++ more) (s :: ss) (t :: ts)

namespace Twin

variable {labels more : List α} {s t u w : List Char}

/-! ## Making twins -/

theorem append (h : Twin plain unit labels s t) (h' : Twin plain unit more u w) :
    Twin plain unit (labels ++ more) (s ++ u) (t ++ w) := by
  induction h with
  | nil => exact h'
  | char hc _ ih => exact .char hc ih
  | unit hu _ ih =>
    rw [List.append_assoc, List.append_assoc]
    exact .unit hu ih

theorem of_plain (h : ∀ c ∈ s, plain c) : Twin plain unit [] s s := by
  induction s with
  | nil => exact .nil
  | cons c s ih =>
    rw [List.forall_mem_cons] at h
    exact .char h.1 (ih h.2)

theorem swap (h : Twin plain unit labels s t) :
    Twin plain (fun a u w => unit a w u) labels t s := by
  induction h with
  | nil => exact .nil
  | char hc _ ih => exact .char hc ih
  | unit hu _ ih => exact .unit hu ih

/-! ## Trimming -/

section

variable (hcap : ∀ a u w, unit a u w → Capped u ∧ Capped w)

include hcap

theorem eq_nil (h : Twin plain unit labels [] t) : labels = [] ∧ t = [] := by
  generalize hs : ([] : List Char) = s at h
  cases h with
  | nil => exact ⟨rfl, rfl⟩
  | char => cases hs
  | unit hu => exact absurd (List.append_eq_nil_iff.1 hs.symm).1 (hcap _ _ _ hu).1.ne_nil

theorem isBlank_eq (h : Twin plain unit labels s t) : isBlank s = isBlank t := by
  induction h with
  | nil => rfl
  | char _ _ ih => rw [isBlank_cons, isBlank_cons, ih]
  | unit hu _ _ =>
    obtain ⟨hleft, hright⟩ := hcap _ _ _ hu
    rw [isBlank_append, isBlank_append, hleft.isBlank_eq_false, hright.isBlank_eq_false]
    rfl

theorem stripLeft (h : Twin plain unit labels s t) :
    Twin plain unit labels (StorageMarkup.stripLeft s) (StorageMarkup.stripLeft t) := by
  induction h with
  | nil => exact .nil
  | @char c labels s t hc hs ih =>
    cases hsp : isSpace c with
    | true => rwa [stripLeft_cons_of_space hsp, stripLeft_cons_of_space hsp]
    | false =>
      rw [stripLeft_cons_of_not_space hsp, stripLeft_cons_of_not_space hsp]
      exact .char hc hs
  | unit hu hs _ =>
    obtain ⟨⟨⟨c, u, rfl, hc⟩, -⟩, ⟨⟨d, w, rfl, hd⟩, -⟩⟩ := hcap _ _ _ hu
    rw [List.cons_append, List.cons_append, stripLeft_cons_of_not_space hc,
      stripLeft_cons_of_not_space hd, ← List.cons_append, ← List.cons_append]
    exact .unit hu hs

theorem stripRight (h : Twin plain unit labels s t) :
    Twin plain unit labels (StorageMarkup.stripRight s) (StorageMarkup.stripRight t) := by
  induction h with
  | nil => exact .nil
  | @char c labels s t hc _ ih =>
    by_cases hn : StorageMarkup.stripRight s = []
    · rw [hn] at ih
      obtain ⟨rfl, ht⟩ := eq_nil hcap ih
      rw [StorageMarkup.stripRight, StorageMarkup.stripRight, hn, ht]
      cases isSpace c with
      | true => exact .nil
      | false => exact .char hc .nil
    · have hn' : StorageMarkup.stripRight t ≠ [] := by
        intro ht
        rw [ht] at ih
        exact hn (eq_nil (fun a u w hu => (hcap a w u hu).symm) ih.swap).2
      rw [stripRight_cons_of_ne_nil hn, stripRight_cons_of_ne_nil hn']
      exact .char hc ih
  | @unit a u w labels s t hu _ ih =>
    obtain ⟨⟨-, ⟨u', c, hu', hc⟩⟩, ⟨-, ⟨w', d, hw', hd⟩⟩⟩ := hcap _ _ _ hu
    have hcut : ∀ {u u' : List Char} {c : Char}, u = u' ++ [c] → isSpace c = false → ∀ s,
        StorageMarkup.stripRight (u ++ s) = u ++ StorageMarkup.stripRight s := by
      rintro u u' c rfl hc s
      rw [List.append_assoc, List.append_assoc]
      exact stripRight_append_cons hc u' s
    rw [hcut hu' hc, hcut hw' hd]
    exact .unit hu ih

/-- Trimming takes no unit away. -/
theorem strip (h : Twin plain unit labels s t) :
    Twin plain unit labels (StorageMarkup.strip s) (StorageMarkup.strip t) :=
  (h.stripLeft hcap).stripRight hcap

theorem labels_eq_nil_of_blank (h : Twin plain unit labels s t) (hs : isBlank s = true) :
    labels = [] := by
  have := h.stripRight hcap
  rw [stripRight_eq_nil_of_blank hs] at this
  exact (eq_nil hcap this).1

end

/-! ## Cutting into pieces -/

/-- Separators that stand in no unit cut twins in the same places. -/
theorem pieces {separator : Char → Bool} (h : Twin plain unit labels s t)
    (hsep : ∀ a u w, unit a u w →
      (∀ c ∈ u, separator c = false) ∧ ∀ c ∈ w, separator c = false) :
    Twins plain unit labels (StorageMarkup.pieces separator s)
      (StorageMarkup.pieces separator t) := by
  induction h with
  | nil => exact .cons .nil .nil
  | @char c labels s t hc _ ih =>
    rw [StorageMarkup.pieces, StorageMarkup.pieces]
    split
    · exact .cons .nil ih
    · obtain ⟨first, others, hs⟩ := exists_pieces_eq_cons separator s
      obtain ⟨first', others', ht⟩ := exists_pieces_eq_cons separator t
      rw [hs, ht] at ih ⊢
      cases ih with
      | cons h hs => exact .cons (.char hc h) hs
  | @unit a u w labels s t hu _ ih =>
    obtain ⟨first, others, hs⟩ := exists_pieces_eq_cons separator s
    obtain ⟨first', others', ht⟩ := exists_pieces_eq_cons separator t
    obtain ⟨hleft, hright⟩ := hsep _ _ _ hu
    rw [hs, ht] at ih
    rw [pieces_append hleft hs, pieces_append hright ht]
    cases ih with
    | cons h hs => exact .cons (.unit hu h) hs

end Twin

end StorageMarkup
