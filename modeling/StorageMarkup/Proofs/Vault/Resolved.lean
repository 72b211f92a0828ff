import StorageMarkup.Proofs.Tree.Shielded
import StorageMarkup.Proofs.Vault.Alike

/-!
# Putting back part by part

A vault that keeps directives only keeps texts without white space at their ends. So it
makes no difference whether parts of a text are joined and trimmed before their
placeholders give way or after.

Results:
1. `Resolves.append`, `Resolves.strip`: joining and trimming.
2. `HoldsTokens.shieldNodes`: the vault of a tree keeps directives only.
3. `Matching.resolves`: texts whose placeholders are matched.
-/

namespace StorageMarkup

open Vault

variable {v w : Vault} {s t u d : List Char} {same : Nat → Nat → Prop}

/-! ## Resolving a text -/

/-- A placeholder of the vault, and the text it gives way to. -/
def GivesWay (v : Vault) (n : Nat) (u d : List Char) : Prop :=
  u = placeholder n ∧ v.originals[n]? = some d ∧ startMark ∉ d ∧ Capped d

/-- The second text is the first with each placeholder replaced by what the vault keeps. -/
def Resolves (v : Vault) (s t : List Char) : Prop :=
  ∃ numbers, Twin (· ≠ startMark) (GivesWay v) numbers s t

namespace Resolves

theorem of_free (h : startMark ∉ s) : Resolves v s s :=
  ⟨[], .of_plain fun _ hc he => h (he ▸ hc)⟩

theorem append {s' t' : List Char} : Resolves v s t → Resolves v s' t' →
    Resolves v (s ++ s') (t ++ t')
  | ⟨_, h⟩, ⟨_, h'⟩ => ⟨_, h.append h'⟩

theorem strip : Resolves v s t → Resolves v (StorageMarkup.strip s) (StorageMarkup.strip t)
  | ⟨_, h⟩ => by
    refine ⟨_, h.strip fun n u d hu => ?_⟩
    obtain ⟨rfl, -, -, hd⟩ := hu
    exact ⟨capped_placeholder n, hd⟩

theorem expand_eq : Resolves v s t → v.expand s = t
  | ⟨_, h⟩ => by
    have hone : v.expandOnce s = t ∧ startMark ∉ t := by
      induction h with
      | nil => exact ⟨rfl, List.not_mem_nil⟩
      | char hc _ ih =>
        rw [expandOnce_char v hc, ih.1, List.mem_cons, not_or]
        exact ⟨rfl, Ne.symm hc, ih.2⟩
      | unit hu _ ih =>
        obtain ⟨rfl, ho, hd, -⟩ := hu
        rw [expandOnce_placeholder v ho, ih.1, List.mem_append, not_or]
        exact ⟨rfl, hd, ih.2⟩
    rw [expand_eq_expandOnce (hone.1 ▸ hone.2), hone.1]

end Resolves

/-- A text without start marks is what comes back of it once its directives are set aside. -/
theorem resolves_shield (s : List Char) (hs : startMark ∉ s) : ∀ {v : Vault},
    (v.shield s).1.Extends w → Resolves w (v.shield s).2 s := by
  induction s using Directive.read_exact.induct with
  | nil => exact fun _ => .of_free List.not_mem_nil
  | char c s hr ih =>
    intro v hw
    rw [List.mem_cons, not_or] at hs
    rw [shield_char hr] at hw ⊢
    obtain ⟨numbers, h⟩ := ih hs.2 hw
    exact ⟨numbers, .char (Ne.symm hs.1) h⟩
  | hit d s hd _ ih =>
    intro v hw
    rw [List.mem_append, not_or] at hs
    rw [shield_token hd] at hw ⊢
    obtain ⟨numbers, h⟩ := ih hs.2 hw
    have hkept : (v.deposit d).1.Extends w := (shield_extends _ s).trans hw
    have hd₀ : w.originals[v.size]? = some d := hkept.original (deposit_original v d)
    exact ⟨v.size :: numbers, .unit ⟨rfl, hd₀, hs.1, hd.capped⟩ h⟩

/-! ## Vaults of directives -/

/-- Each text of the vault is one directive. -/
def Vault.HoldsTokens (v : Vault) : Prop := ∀ d ∈ v.originals, Directive.IsToken d

namespace Vault.HoldsTokens

theorem empty : Vault.empty.HoldsTokens := fun _ hd => absurd hd List.not_mem_nil

theorem deposit (hv : v.HoldsTokens) (hd : Directive.IsToken d) : (v.deposit d).1.HoldsTokens :=
  List.forall_mem_append.2 ⟨hv, List.forall_mem_singleton.2 hd⟩

theorem shield (v : Vault) (s : List Char) (hv : v.HoldsTokens) : (v.shield s).1.HoldsTokens := by
  induction s using Directive.read_exact.induct generalizing v with
  | nil => exact hv
  | char c s hr ih =>
    rw [shield_char hr]
    exact ih v hv
  | hit d s hd _ ih =>
    rw [shield_token hd]
    exact ih _ (hv.deposit hd)

theorem shieldNodes (hv : v.HoldsTokens) (nodes : List Node) :
    (v.shieldNodes nodes).1.HoldsTokens :=
  shieldNodes_keeps shield hv nodes

end Vault.HoldsTokens

/-! ## Matched placeholders -/

namespace Matching

/-- A vault that grows keeps what it has matched. -/
theorem grow {w' : Vault} (hsame : Matching v w same) (hw : w.Extends w') : Matching v w' same where
  original h := by
    obtain ⟨d, hv, ho, hd⟩ := hsame.original h
    exact ⟨d, hv, hw.original ho, hd⟩
  unique := hsame.unique

theorem resolves (hsame : Matching v w same) (hw : w.HoldsTokens) (h : Alike same s t) :
    Resolves w t (v.expand s) := by
  have hsome : ∃ u, Resolves w t u := by
    induction h using Alike.induct with
    | nil => exact ⟨[], [], .nil⟩
    | char c s t hc _ ih =>
      obtain ⟨u, numbers, hu⟩ := ih
      exact ⟨c :: u, numbers, .char hc hu⟩
    | placeholder m n s t hmn _ ih =>
      obtain ⟨u, numbers, hu⟩ := ih
      obtain ⟨d, -, ho, hd⟩ := hsame.original hmn
      have hcapped := (hw d (List.mem_of_getElem? ho)).capped
      exact ⟨d ++ u, n :: numbers, .unit ⟨rfl, ho, hd, hcapped⟩ hu⟩
  obtain ⟨u, hu⟩ := hsome
  rwa [hsame.expand_eq h, hu.expand_eq]

end Matching

end StorageMarkup
