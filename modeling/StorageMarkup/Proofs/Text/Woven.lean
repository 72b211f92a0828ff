import StorageMarkup.Proofs.Text.Lines
import StorageMarkup.Proofs.Text.Scan
import StorageMarkup.Proofs.Text.Trim
import StorageMarkup.Text.Escape

/-!
# Texts woven from units

What a conversion must not take apart, a directive or a placeholder, is a unit. A
text is woven from units when it is made of plain characters and whole units; the
labels of the units, from left to right, are what the text carries. Most of what a
conversion does to a text leaves the units whole and in order.

Results:
1. `Woven.split`: a text is cut before a character that stands inside no unit.
2. `Woven.strip`, `Woven.pieces`: trimming and cutting into lines.
3. `Woven.flatMap`, `Woven.replaced`: rewriting characters and stretches between units.
-/

namespace StorageMarkup

variable {α : Type} {plain : Char → Prop} {unit : α → List Char → Prop}

/-- Plain characters and whole units, the labels of the units from left to right. -/
inductive Woven (plain : Char → Prop) (unit : α → List Char → Prop) :
    List α → List Char → Prop
  | nil : Woven plain unit [] []
  | char {c : Char} {labels : List α} {s : List Char} (hc : plain c)
      (h : Woven plain unit labels s) : Woven plain unit labels (c :: s)
  | unit {a : α} {u : List Char} {labels : List α} {s : List Char} (hu : unit a u)
      (h : Woven plain unit labels s) : Woven plain unit (a :: labels) (u ++ s)

namespace Woven

variable {labels labels' : List α} {s t : List Char}

/-! ## Making woven texts -/

theorem append (h : Woven plain unit labels s) (h' : Woven plain unit labels' t) :
    Woven plain unit (labels ++ labels') (s ++ t) := by
  induction h with
  | nil => exact h'
  | char hc _ ih => exact .char hc ih
  | unit hu _ ih =>
    rw [List.append_assoc]
    exact .unit hu ih

theorem of_plain (h : ∀ c ∈ s, plain c) : Woven plain unit [] s := by
  induction s with
  | nil => exact .nil
  | cons c s ih =>
    rw [List.forall_mem_cons] at h
    exact .char h.1 (ih h.2)

theorem of_unit {a : α} {u : List Char} (h : unit a u) : Woven plain unit [a] u := by
  have : Woven plain unit [a] (u ++ []) := .unit h .nil
  rwa [List.append_nil] at this

/-- Plain text around a woven text. -/
theorem append_plain (h : Woven plain unit labels s) (ht : ∀ c ∈ t, plain c) :
    Woven plain unit labels (s ++ t) := by
  have : Woven plain unit (labels ++ []) (s ++ t) := h.append (of_plain ht)
  rwa [List.append_nil] at this

theorem plain_append (h : Woven plain unit labels s) (ht : ∀ c ∈ t, plain c) :
    Woven plain unit labels (t ++ s) :=
  (of_plain ht).append h

theorem mono {plain' : Char → Prop} {unit' : α → List Char → Prop}
    (h : Woven plain unit labels s) (hplain : ∀ c, plain c → plain' c)
    (hunit : ∀ a u, unit a u → unit' a u) : Woven plain' unit' labels s := by
  induction h with
  | nil => exact .nil
  | char hc _ ih => exact .char (hplain _ hc) ih
  | unit hu _ ih => exact .unit (hunit _ _ hu) ih

/-! ## Taking woven texts apart -/

/-- Without a unit's first character in front, the first character is plain. -/
theorem tail {c : Char} (h : Woven plain unit labels (c :: s))
    (hc : ∀ a u, unit a u → ∃ d w, u = d :: w ∧ d ≠ c) : plain c ∧ Woven plain unit labels s := by
  generalize ht : c :: s = t at h
  cases h with
  | nil => cases ht
  | char hp h =>
    cases ht
    exact ⟨hp, h⟩
  | unit hu h =>
    obtain ⟨d, w, rfl, hd⟩ := hc _ _ hu
    exact absurd (List.cons.inj ht).1.symm hd

/-- A text without units is plain. -/
theorem plain_of_nil (h : Woven plain unit [] s) : ∀ c ∈ s, plain c := by
  generalize hl : ([] : List α) = labels at h
  induction h with
  | nil => exact fun c hc => absurd hc List.not_mem_nil
  | char hc _ ih => exact List.forall_mem_cons.2 ⟨hc, ih hl⟩
  | unit => cases hl

theorem drop_append (h : Woven plain unit labels (t ++ s))
    (ht : ∀ c ∈ t, ∀ a u, unit a u → ∃ d w, u = d :: w ∧ d ≠ c) : Woven plain unit labels s := by
  induction t with
  | nil => exact h
  | cons c t ih =>
    rw [List.forall_mem_cons] at ht
    exact ih (h.tail ht.1).2 ht.2

/-- A text can be cut before a character that stands inside no unit. -/
theorem split {c : Char} (h : Woven plain unit labels (s ++ c :: t))
    (hc : ∀ a u, unit a u → c ∉ u.tail) :
    ∃ a b, labels = a ++ b ∧ Woven plain unit a s ∧ Woven plain unit b (c :: t) := by
  generalize hs : s ++ c :: t = r at h
  induction h generalizing s with
  | nil => simp at hs
  | @char d labels r hd hr ih =>
    cases s with
    | nil =>
      rw [List.nil_append] at hs
      exact ⟨[], labels, rfl, .nil, hs ▸ .char hd hr⟩
    | cons e s =>
      rw [List.cons_append, List.cons.injEq] at hs
      obtain ⟨a, b, rfl, ha, hb⟩ := ih hs.2
      exact ⟨a, b, rfl, .char (hs.1 ▸ hd) ha, hb⟩
  | @unit l u labels r hu hr ih =>
    rcases List.append_eq_append_iff.1 hs with ⟨w, rfl, hw⟩ | ⟨w, rfl, hw⟩
    · -- the unit starts before the cut and would end after it
      cases s with
      | nil =>
        refine ⟨[], l :: labels, rfl, .nil, ?_⟩
        rw [hw]
        exact .unit hu hr
      | cons e s =>
        cases w with
        | nil =>
          rw [List.nil_append] at hw
          rw [List.append_nil] at hu
          obtain ⟨a, b, rfl, ha, hb⟩ := ih (s := []) hw
          refine ⟨l :: a, b, rfl, ?_, hb⟩
          have := Woven.unit hu ha
          rwa [List.append_nil] at this
        | cons d w =>
          have hd : c = d := (List.cons.inj hw).1
          exact absurd (by simp [hd]) (hc _ _ hu)
    · -- the whole unit stands before the cut
      obtain ⟨a, b, rfl, ha, hb⟩ := ih hw.symm
      exact ⟨l :: a, b, rfl, .unit hu ha, hb⟩

/-! ## Trimming -/

section

variable (hcap : ∀ a u, unit a u → Capped u)

include hcap

theorem labels_eq_nil (h : Woven plain unit labels []) : labels = [] := by
  generalize hs : ([] : List Char) = s at h
  cases h with
  | nil => rfl
  | char => cases hs
  | unit hu => exact absurd (List.append_eq_nil_iff.1 hs.symm).1 (hcap _ _ hu).ne_nil

theorem stripLeft (h : Woven plain unit labels s) :
    Woven plain unit labels (StorageMarkup.stripLeft s) := by
  induction h with
  | nil => exact .nil
  | @char c labels s hc hs ih =>
    cases hsp : isSpace c with
    | true => rwa [stripLeft_cons_of_space hsp]
    | false =>
      rw [stripLeft_cons_of_not_space hsp]
      exact .char hc hs
  | unit hu hs _ =>
    obtain ⟨d, w, rfl, hd⟩ := (hcap _ _ hu).starts
    rw [List.cons_append, stripLeft_cons_of_not_space hd, ← List.cons_append]
    exact .unit hu hs

theorem stripRight (h : Woven plain unit labels s) :
    Woven plain unit labels (StorageMarkup.stripRight s) := by
  induction h with
  | nil => exact .nil
  | @char c labels s hc _ ih =>
    by_cases hn : StorageMarkup.stripRight s = []
    · rw [hn] at ih
      rw [labels_eq_nil hcap ih, StorageMarkup.stripRight, hn]
      cases isSpace c with
      | true => exact .nil
      | false => exact .char hc .nil
    · rw [stripRight_cons_of_ne_nil hn]
      exact .char hc ih
  | @unit a u labels s hu _ ih =>
    obtain ⟨w, d, rfl, hd⟩ := (hcap _ _ hu).ends
    have hstrip : StorageMarkup.stripRight (w ++ [d] ++ s) =
        w ++ [d] ++ StorageMarkup.stripRight s := by
      rw [List.append_assoc, List.append_assoc]
      exact stripRight_append_cons hd w s
    rw [hstrip]
    exact .unit hu ih

/-- Trimming takes no unit away. -/
theorem strip (h : Woven plain unit labels s) : Woven plain unit labels (StorageMarkup.strip s) :=
  (h.stripLeft hcap).stripRight hcap

theorem labels_eq_nil_of_blank (h : Woven plain unit labels s) (hs : isBlank s = true) :
    labels = [] := by
  have := h.stripRight hcap
  rw [stripRight_eq_nil_of_blank hs] at this
  exact labels_eq_nil hcap this

end

/-! ## Cutting into pieces -/

/-- The pieces between separators that stand inside no unit are woven. -/
theorem pieces {separator : Char → Bool} (h : Woven plain unit labels s)
    (hsep : ∀ a u, unit a u → ∀ c ∈ u, separator c = false) :
    ∀ piece ∈ StorageMarkup.pieces separator s, ∃ part, Woven plain unit part piece := by
  induction h with
  | nil => exact List.forall_mem_singleton.2 ⟨[], .nil⟩
  | @char c labels s hc _ ih =>
    obtain ⟨first, others, hs⟩ := exists_pieces_eq_cons separator s
    rw [hs, List.forall_mem_cons] at ih
    obtain ⟨⟨part, hpart⟩, hothers⟩ := ih
    rw [StorageMarkup.pieces, hs]
    split
    · exact List.forall_mem_cons.2 ⟨⟨[], .nil⟩, List.forall_mem_cons.2 ⟨⟨part, hpart⟩, hothers⟩⟩
    · exact List.forall_mem_cons.2 ⟨⟨part, .char hc hpart⟩, hothers⟩
  | @unit a u labels s hu _ ih =>
    obtain ⟨first, others, hs⟩ := exists_pieces_eq_cons separator s
    rw [hs, List.forall_mem_cons] at ih
    obtain ⟨⟨part, hpart⟩, hothers⟩ := ih
    rw [pieces_append (hsep _ _ hu) hs]
    exact List.forall_mem_cons.2 ⟨⟨a :: part, .unit hu hpart⟩, hothers⟩

/-! ## Rewriting between units -/

/-- Characters are rewritten one by one, those of units stay. -/
theorem flatMap {f : Char → List Char} (h : Woven plain unit labels s)
    (hplain : ∀ c, plain c → ∀ d ∈ f c, plain d) (hunit : ∀ a u, unit a u → u.flatMap f = u) :
    Woven plain unit labels (s.flatMap f) := by
  induction h with
  | nil => exact .nil
  | char hc _ ih =>
    rw [List.flatMap_cons]
    exact ih.plain_append (hplain _ hc)
  | unit hu _ ih =>
    rw [List.flatMap_append, hunit _ _ hu]
    exact .unit hu ih

/-- Stretches that a recogniser finds outside units are replaced by plain text. -/
theorem replaced {β : Type} {read : List Char → Option (β × Nat)} {write : β → List Char}
    (hcap : ∀ a u, unit a u → Capped u) (hwrite : ∀ b, ∀ c ∈ write b, plain c)
    (hread : ∀ {r : List Char} {b : β} {more : Nat}, read r = some (b, more) →
      ∀ c ∈ r.take (more + 1), ∀ a u, unit a u → ∃ d w, u = d :: w ∧ d ≠ c)
    (hunit : ∀ a u, unit a u → ∀ c ∈ u, ∀ r, read (c :: r) = none)
    (h : Woven plain unit labels s) : Woven plain unit labels (spell write (scan read s)) := by
  induction hn : s.length using Nat.strongRecOn generalizing s labels with
  | ind n ih =>
    cases h with
    | nil => exact .nil
    | @char c labels s hc hs =>
      cases hr : read (c :: s) with
      | none =>
        rw [scan_char hr, spell]
        exact .char hc (ih s.length (by simp [← hn]) hs rfl)
      | some hit =>
        obtain ⟨b, more⟩ := hit
        -- what is replaced reaches into no unit
        have hdrop : Woven plain unit labels (s.drop more) := by
          refine drop_append (t := (c :: s).take (more + 1)) ?_ (hread hr)
          rw [← List.drop_succ_cons (a := c), List.take_append_drop]
          exact .char hc hs
        have hlt : (s.drop more).length < n := by
          rw [List.length_drop, ← hn, List.length_cons]
          omega
        rw [scan_hit hr, spell]
        exact (ih _ hlt hdrop rfl).plain_append (hwrite b)
    | @unit a u labels s hu hs =>
      rw [scan_append_of_none (hunit a u hu), spell_append, spell_chars]
      refine .unit hu ?_
      have hlt : s.length < n := by
        have := List.length_pos_iff.2 (hcap a u hu).ne_nil
        rw [List.length_append] at hn
        omega
      exact ih _ hlt hs rfl

end Woven

end StorageMarkup
