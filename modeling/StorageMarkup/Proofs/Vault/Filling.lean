import StorageMarkup.Proofs.Vault.Early

/-!
# Filling two vaults

A conversion sets aside the directives that it finds. Two conversions of one text, from
different vaults and after different early starts, keep the same directives under
different numbers. The numbers are matched one to one as the directives come, and those
of directives that only one of the two still finds wait until their turn.

Results:
1. `Filling.deposit`, `Filling.meet`: a directive set aside in both vaults, or in one.
2. `Filled.bind`: one text after the other.
3. `Early.shield`: what is left of a text is alike.
-/

namespace StorageMarkup

open Vault

variable {w₀ v w : Vault} {same : Nat → Nat → Prop} {numbers pending more : List Nat}
  {d s t : List Char}

/-! ## Matching more numbers -/

/-- One pair of numbers more. -/
def Also (same : Nat → Nat → Prop) (m₀ n₀ m n : Nat) : Prop := same m n ∨ m = m₀ ∧ n = n₀

/-- Numbers that are not matched yet can be matched, if they stand for one text. -/
theorem Matching.also {v' w' : Vault} (hsame : Matching v w same) (hv : v.Extends v')
    (hw : w.Extends w') {m₀ n₀ : Nat} (hm : v'.originals[m₀]? = some d)
    (hn : w'.originals[n₀]? = some d) (hd : startMark ∉ d) (hleft : ∀ n, ¬ same m₀ n)
    (hright : ∀ m, ¬ same m n₀) : Matching v' w' (Also same m₀ n₀) where
  original := by
    rintro m n (h | ⟨rfl, rfl⟩)
    · obtain ⟨e, hve, hwe, he⟩ := hsame.original h
      exact ⟨e, hv.original hve, hw.original hwe, he⟩
    · exact ⟨d, hm, hn, hd⟩
  unique := by
    rintro m n m' n' (h | ⟨rfl, rfl⟩) (h' | ⟨rfl, rfl⟩)
    · exact hsame.unique h h'
    · exact ⟨fun he => absurd (he ▸ h) (hleft n), fun he => absurd (he ▸ h) (hright m)⟩
    · exact ⟨fun he => absurd (he ▸ h') (hleft n'), fun he => absurd (he ▸ h') (hright m')⟩
    · exact ⟨fun _ => rfl, fun _ => rfl⟩

theorem Matching.lt_size (hsame : Matching v w same) {m n : Nat} (h : same m n) :
    m < v.size ∧ n < w.size := by
  obtain ⟨d, hv, hw, -⟩ := hsame.original h
  exact ⟨lt_size_of_original hv, lt_size_of_original hw⟩

/-! ## Two vaults at work -/

/-- Two vaults with matched numbers, while directives are set aside in both: the second started
as `w₀`, and has placeholders from before, with the pending numbers, that are still to be met. -/
structure Filling (w₀ v w : Vault) (same : Nat → Nat → Prop) (pending : List Nat) : Prop
    extends Matching v w same where
  kept : w₀.Extends w
  nodup : pending.Nodup
  known : ∀ n ∈ pending, n < w₀.size
  fresh {m n : Nat} (h : same m n) : n ∉ pending

namespace Filling

/-- The directive is set aside in both. -/
theorem deposit (h : Filling w₀ v w same pending) (hd : startMark ∉ d) :
    Filling w₀ (v.deposit d).1 (w.deposit d).1 (Also same v.size w.size) pending where
  toMatching := h.also (deposit_extends v d) (deposit_extends w d) (deposit_original v d)
    (deposit_original w d) hd (fun _ hm => Nat.lt_irrefl _ (h.lt_size hm).1)
    fun _ hm => Nat.lt_irrefl _ (h.lt_size hm).2
  kept := h.kept.trans (deposit_extends w d)
  nodup := h.nodup
  known := h.known
  fresh := by
    rintro m n (hm | ⟨rfl, rfl⟩)
    · exact h.fresh hm
    · exact fun hn => Nat.not_lt.2 h.kept.size_le (h.known _ hn)

/-- The directive is set aside in the first, and was in the second from before. -/
theorem meet {n : Nat} (h : Filling w₀ v w same (n :: pending)) (hn : w₀.originals[n]? = some d)
    (hd : startMark ∉ d) : Filling w₀ (v.deposit d).1 w (Also same v.size n) pending where
  toMatching := h.also (deposit_extends v d) (.refl w) (deposit_original v d) (h.kept.original hn)
    hd (fun _ hm => Nat.lt_irrefl _ (h.lt_size hm).1) fun _ hm => h.fresh hm List.mem_cons_self
  kept := h.kept
  nodup := (List.nodup_cons.1 h.nodup).2
  known := fun k hk => h.known k (List.mem_cons_of_mem n hk)
  fresh := by
    rintro m k (hm | ⟨rfl, rfl⟩)
    · exact fun hk => h.fresh hm (List.mem_cons_of_mem n hk)
    · exact (List.nodup_cons.1 h.nodup).1

end Filling

/-- Two ways of setting directives aside, each with the vault it leaves: more numbers are matched,
the pending ones are still to be met, and the results are related. -/
def Filled {α β : Type} (w₀ : Vault) (same : Nat → Nat → Prop) (pending : List Nat)
    (R : (Nat → Nat → Prop) → α → β → Prop) (x : Vault × α) (y : Vault × β) : Prop :=
  ∃ same', (∀ m n, same m n → same' m n) ∧ Filling w₀ x.1 y.1 same' pending ∧ R same' x.2 y.2

namespace Filled

variable {α β γ δ : Type} {R : (Nat → Nat → Prop) → α → β → Prop}
  {S : (Nat → Nat → Prop) → γ → δ → Prop} {x : Vault × α} {y : Vault × β}

theorem pure (h : Filling w₀ v w same pending) {a : α} {b : β} (hab : R same a b) :
    Filled w₀ same pending R (v, a) (w, b) :=
  ⟨same, fun _ _ h => h, h, hab⟩

/-- Results made of related results are related, if they are under more matched numbers. -/
theorem map (h : Filled w₀ same pending R x y) {f : α → γ} {g : β → δ}
    (hfg : ∀ same', (∀ m n, same m n → same' m n) → R same' x.2 y.2 →
      S same' (f x.2) (g y.2)) : Filled w₀ same pending S (x.1, f x.2) (y.1, g y.2) := by
  obtain ⟨same', hsub, hfill, hxy⟩ := h
  exact ⟨same', hsub, hfill, hfg same' hsub hxy⟩

/-- One after the other. -/
theorem bind (h : Filled w₀ same pending R x y) {x' : Vault × γ} {y' : Vault × δ}
    (hnext : ∀ same', (∀ m n, same m n → same' m n) → Filling w₀ x.1 y.1 same' pending →
      R same' x.2 y.2 → Filled w₀ same' more S x' y') : Filled w₀ same more S x' y' := by
  obtain ⟨same₁, hsub₁, hfill₁, hxy⟩ := h
  obtain ⟨same₂, hsub₂, hfill₂, hxy'⟩ := hnext same₁ hsub₁ hfill₁ hxy
  exact ⟨same₂, fun m n hm => hsub₂ m n (hsub₁ m n hm), hfill₂, hxy'⟩

section

variable {x y : Vault × List Char}

theorem char {c : Char} (hc : c ≠ startMark) (h : Filled w₀ same pending Alike x y) :
    Filled w₀ same pending Alike (x.1, c :: x.2) (y.1, c :: y.2) :=
  h.map (f := (c :: ·)) (g := (c :: ·)) fun _ _ h => h.char hc

/-- The pair that is matched last may stand in front. -/
theorem placeholder {m n : Nat} (h : Filled w₀ (Also same m n) pending Alike x y) :
    Filled w₀ same pending Alike (x.1, Vault.placeholder m ++ x.2)
      (y.1, Vault.placeholder n ++ y.2) := by
  obtain ⟨same', hsub, hfill, hxy⟩ := h
  exact ⟨same', fun m n hm => hsub m n (.inl hm), hfill,
    .placeholder (hsub m n (.inr ⟨rfl, rfl⟩)) hxy⟩

end

end Filled

/-! ## Setting the other directives aside -/

theorem shield_unmarked (hs : startMark ∉ s) (hfill : Filling w₀ v w same pending) :
    Filled w₀ same pending Alike (v.shield s) (w.shield s) := by
  induction s using Directive.read_exact.induct generalizing v w same with
  | nil => exact .pure hfill .nil
  | char c s hr ih =>
    rw [List.mem_cons, not_or] at hs
    rw [shield_char hr, shield_char hr]
    exact (ih hs.2 hfill).char (Ne.symm hs.1)
  | hit d s hd _ ih =>
    rw [List.mem_append, not_or] at hs
    rw [shield_token hd, shield_token hd]
    exact (ih hs.2 (hfill.deposit hs.1)).placeholder

theorem shield_twin {labels : List (Option Nat)} (h : Twin Plain (Occurrence w₀) labels s t)
    (hfill : Filling w₀ v w same (labels.reduceOption ++ more)) :
    Filled w₀ same more Alike (v.shield s) (w.shield t) := by
  induction h generalizing v w same with
  | nil => exact .pure hfill .nil
  | @char c labels s t hc _ ih =>
    rw [shield_char (Directive.read_eq_none_of_plain hc s),
      shield_char (Directive.read_eq_none_of_plain hc t)]
    exact (ih hfill).char hc.1
  | unit hu _ ih =>
    cases hu with
    | spelled hd =>
      rw [shield_token hd.token, shield_token hd.token]
      exact (ih (hfill.deposit hd.unmarked)).placeholder
    | placeholder hd hn =>
      rw [shield_token hd.token, shield_append not_brace_of_mem_placeholder]
      exact (ih (hfill.meet hn hd.unmarked)).placeholder

/-- Once all directives are set aside, a text is alike to what it is after an early start. -/
theorem Early.shield (h : Early w₀ numbers s t)
    (hfill : Filling w₀ v w same (numbers ++ more)) :
    Filled w₀ same more Alike (v.shield s) (w.shield t) := by
  cases h with
  | same hs => exact shield_unmarked hs hfill
  | aside hs h =>
    obtain ⟨labels, rfl, htwin⟩ := twin_of_someAside hs h
    exact shield_twin htwin hfill

end StorageMarkup
