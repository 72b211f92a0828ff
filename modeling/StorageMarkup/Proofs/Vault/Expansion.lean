import StorageMarkup.Proofs.Text.Trim
import StorageMarkup.Proofs.Vault.Placeholder

/-!
# What putting back keeps

However many rounds of putting back there are, text that no placeholder takes part
in is never touched, and the text behind a placeholder comes to stand in its place.

Results:
1. `Solid.infix_expand`: a solid stretch stays.
2. `Solid.infix_expand_placeholder`: so does one that a placeholder stands for.
3. `expand_eq_self`: text without start marks stays as it is.
-/

namespace StorageMarkup

theorem isSpace_of_inPlaceholder {c : Char} (h : Vault.inPlaceholder c = true) :
    isSpace c = false := by
  simp only [Vault.inPlaceholder, Bool.or_eq_true, beq_iff_eq] at h
  rcases h with ((((rfl | rfl) | rfl) | rfl) | h) | rfl
  · decide
  · decide
  · decide
  · decide
  · -- a decimal digit
    have hlo : 48 ≤ c.toNat := by
      have := (Char.isDigit_iff_toNat.1 h).1
      simpa using this
    have hhi : c.toNat ≤ 57 := by
      have := (Char.isDigit_iff_toNat.1 h).2
      simpa using this
    simp only [isSpace, Bool.or_eq_false_iff, Bool.and_eq_false_iff, decide_eq_false_iff_not,
      beq_eq_false_iff_ne]
    omega
  · decide

theorem inPlaceholder_eq_false_of_space {c : Char} (h : isSpace c = true) :
    Vault.inPlaceholder c = false := by
  cases hc : Vault.inPlaceholder c with
  | false => rfl
  | true =>
    rw [isSpace_of_inPlaceholder hc] at h
    cases h

namespace Vault

theorem capped_placeholder (n : Nat) : Capped (placeholder n) :=
  Capped.of_all (placeholder_ne_nil n) fun _ hc =>
    isSpace_of_inPlaceholder (inPlaceholder_of_mem hc)

theorem startMark_not_mem_blank {w : List Char} (h : isBlank w = true) : startMark ∉ w := by
  intro hm
  exact absurd (isSpace_of_mem h hm) (by decide)

/-- A stretch that no placeholder reaches into: it holds no start mark, and its first character
    stands inside no placeholder. -/
structure Solid (u : List Char) : Prop where
  starts : ∃ c rest, u = c :: rest ∧ inPlaceholder c = false
  unmarked : startMark ∉ u

variable {v : Vault}

/-! ## One round -/

theorem Solid.expandOnce_append {u : List Char} (hu : Solid u) (a b : List Char) :
    v.expandOnce (a ++ u ++ b) = v.expandOnce a ++ u ++ v.expandOnce b := by
  obtain ⟨c, rest, rfl, hc⟩ := hu.starts
  rw [List.append_assoc, List.cons_append,
    Vault.expandOnce_append v (fun n => not_mem_placeholder_tail hc), ← List.cons_append,
    expandOnce_free_append v hu.unmarked, List.append_assoc]

theorem Solid.infix_expandOnce {u s : List Char} (hu : Solid u) (h : u <:+: s) :
    u <:+: v.expandOnce s := by
  obtain ⟨a, b, rfl⟩ := h
  rw [hu.expandOnce_append]
  exact ⟨_, _, rfl⟩

/-- The text of a placeholder takes its place. -/
theorem original_infix_expandOnce {n : Nat} {original s : List Char}
    (h : v.originals[n]? = some original) (hs : placeholder n <:+: s) :
    original <:+: v.expandOnce s := by
  obtain ⟨a, b, rfl⟩ := hs
  obtain ⟨w, hw⟩ := placeholder_eq_cons n
  rw [List.append_assoc, hw, List.cons_append,
    Vault.expandOnce_append v startMark_not_mem_tail, ← List.cons_append, ← hw,
    expandOnce_placeholder v h]
  exact ⟨_, _, (List.append_assoc _ _ _)⟩

/-! ## All rounds -/

theorem Solid.infix_expandUpTo {u : List Char} (hu : Solid u) (rounds : Nat) {s : List Char}
    (h : u <:+: s) : u <:+: v.expandUpTo rounds s := by
  induction rounds generalizing s with
  | zero => exact h
  | succ rounds ih =>
    rw [expandUpTo]
    split
    · exact h
    · exact ih (hu.infix_expandOnce h)

/-- A round that changes nothing is the last, however many are left. -/
theorem expandUpTo_eq_self {s : List Char} (h : v.expandOnce s = s) (rounds : Nat) :
    v.expandUpTo rounds s = s := by
  cases rounds with
  | zero => rfl
  | succ k => rw [expandUpTo, if_pos h]

theorem expand_of_mem {s : List Char} (h : startMark ∈ s) :
    v.expand s = v.expandUpTo (v.size + manyRounds - 1) (v.expandOnce s) := by
  have hrounds : v.size + manyRounds = (v.size + manyRounds - 1) + 1 := by
    have : 0 < manyRounds := by decide
    omega
  rw [expand, if_pos h, hrounds, expandUpTo, Nat.add_sub_cancel]
  split
  · next he => rw [he, expandUpTo_eq_self he]
  · rfl

theorem Solid.infix_expand {u s : List Char} (hu : Solid u) (h : u <:+: s) : u <:+: v.expand s := by
  unfold expand
  split
  · exact hu.infix_expandUpTo _ h
  · exact h

theorem startMark_mem_of_placeholder {n : Nat} {s : List Char} (h : placeholder n <:+: s) :
    startMark ∈ s := by
  obtain ⟨w, hw⟩ := placeholder_eq_cons n
  refine h.subset ?_
  rw [hw]
  exact List.mem_cons_self

/-- What a placeholder stands for comes to stand in its place, for good as far as it is solid. -/
theorem Solid.infix_expand_placeholder {u : List Char} (hu : Solid u) {n : Nat}
    {original s : List Char} (ho : v.originals[n]? = some original) (huo : u <:+: original)
    (hs : placeholder n <:+: s) : u <:+: v.expand s := by
  rw [expand_of_mem (startMark_mem_of_placeholder hs)]
  exact hu.infix_expandUpTo _ (huo.trans (original_infix_expandOnce ho hs))

theorem expand_eq_self {s : List Char} (h : startMark ∉ s) : v.expand s = s := if_neg h

/-- One round is enough if it leaves no start mark. -/
theorem expand_eq_expandOnce {s : List Char} (h : startMark ∉ v.expandOnce s) :
    v.expand s = v.expandOnce s := by
  by_cases hs : startMark ∈ s
  · rw [expand_of_mem hs, expandUpTo_eq_self (expandOnce_eq_self v h)]
  · rw [expand_eq_self hs, expandOnce_eq_self v hs]

/-- A placeholder for a text without start marks is put back in one round. -/
theorem expand_placeholder {n : Nat} {original : List Char} (h : v.originals[n]? = some original)
    (hu : startMark ∉ original) : v.expand (placeholder n) = original := by
  have hs : v.expandOnce (placeholder n) = original := by
    have := expandOnce_placeholder v h []
    rwa [List.append_nil, expandOnce_nil, List.append_nil] at this
  rw [expand_eq_expandOnce (by rwa [hs]), hs]

/-! ## A text between blanks -/

theorem split_blank_append {w : List Char} (h : isBlank w = true) (s : List Char) :
    v.split (w ++ s) = w.map .char ++ v.split s :=
  split_free_append v (startMark_not_mem_blank h) s

end Vault

end StorageMarkup
