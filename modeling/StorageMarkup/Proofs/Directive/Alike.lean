import StorageMarkup.Proofs.Directive.Written
import StorageMarkup.Proofs.Vault.Alike

/-!
# Directives built and searched in alike texts

Results:
1. `alike_inline`, `alike_opening`, `alike_region`: alike values make alike directives.
2. `Matching.cutFirstClosing`: a close token is found in the same place, whether it is
   spelled out or set aside.
-/

namespace StorageMarkup

open Vault

variable {same : Nat → Nat → Prop} {s t u w : List Char}

/-! ## Values -/

/-- Items of lists and values of parameters: alike texts, or one value without start marks. -/
inductive Value.AlikeItem (same : Nat → Nat → Prop) : Value → Value → Prop
  | text {s t : List Char} (h : Alike same s t) : Value.AlikeItem same (.text s) (.text t)
  | same {value : Value} (h : value.All (startMark ∉ ·)) : Value.AlikeItem same value value

namespace Value.AlikeItem

variable {x y : Value}

theorem toText (h : AlikeItem same x y) : Alike same x.toText y.toText := by
  cases h with
  | text h => exact h
  | same h =>
    have hnone : Intact (fun _ => False) x.toText := intact_toText (all_of_unmarked h)
    exact .of_free hnone.free

theorem isSet_eq (h : AlikeItem same x y) : x.isSet = y.isSet := by
  cases h with
  | text h => exact congrArg (!·) h.isEmpty_eq
  | same _ => rfl

end Value.AlikeItem

/-! ## Directives -/

namespace Directive

/-- The key of a parameter is a fixed word, its values are alike. -/
def AlikeParam (same : Nat → Nat → Prop) (p q : Param) : Prop :=
  p.1 = q.1 ∧ startMark ∉ p.1 ∧ Value.AlikeItem same p.2 q.2

theorem AlikeParam.mk {key : List Char} {x y : Value} (hkey : startMark ∉ key)
    (h : Value.AlikeItem same x y) : AlikeParam same (key, x) (key, y) :=
  ⟨rfl, hkey, h⟩

theorem alike_param? {p q : Param} (h : AlikeParam same p q) :
    Option.Rel (Alike same) (param? p) (param? q) := by
  obtain ⟨key, value⟩ := p
  obtain ⟨key', value'⟩ := q
  obtain ⟨rfl, hkey, hvalue⟩ := h
  cases hvalue with
  | text h =>
    refine .some (.append (.append (.append (.of_free hkey) (.of_free (by decide))) ?_)
      (.of_free (by decide)))
    exact h.replaceAll (by decide) (by decide) (by decide)
  | same h =>
    cases hp : param? (key, value) with
    | none => exact .none
    | some s =>
      have hnone : Intact (fun _ => False) s := intact_param? hkey (all_of_unmarked h) hp
      exact .some (.of_free hnone.free)

theorem alike_params {ps qs : List Param} (h : List.Forall₂ (AlikeParam same) ps qs) :
    Alike same (params ps) (params qs) :=
  .joinWith (by decide) (List.rel_filterMap (fun _ _ hp => alike_param? hp) h)

variable {name : List Char} {ps qs : List Param}

theorem alike_nameAndParams (hname : startMark ∉ name) (h : List.Forall₂ (AlikeParam same) ps qs) :
    Alike same (nameAndParams name ps) (nameAndParams name qs) := by
  have hparams := alike_params h
  unfold nameAndParams
  simp only [hparams.isEmpty_eq]
  split
  · exact .of_free hname
  · exact .append (.of_free hname) (.char (by decide) hparams)

theorem alike_inline (hname : startMark ∉ name) (h : List.Forall₂ (AlikeParam same) ps qs) :
    Alike same (inline name ps) (inline name qs) :=
  .append (.char (by decide) (.char (by decide) (alike_nameAndParams hname h)))
    (.of_free (by decide))

theorem alike_opening (hname : startMark ∉ name) (h : List.Forall₂ (AlikeParam same) ps qs) :
    Alike same (opening name ps) (opening name qs) :=
  .append (.char (by decide) (.char (by decide) (.char (by decide) (alike_nameAndParams hname h))))
    (.of_free (by decide))

theorem alike_region {head head' body body' : List Char} (hhead : Alike same head head')
    (hbody : Alike same body body') (hname : startMark ∉ name) :
    Alike same (region head body name) (region head' body' name) :=
  .append (.append hhead (.char (by decide) hbody))
    (.char (by decide) (.of_free (startMark_not_mem_closing hname)))

theorem alike_block {body body' : List Char} (hname : startMark ∉ name)
    (hbody : Alike same body body') (h : List.Forall₂ (AlikeParam same) ps qs) :
    Alike same (block name body ps) (block name body' qs) :=
  alike_region (alike_opening hname h) hbody hname

end Directive

/-! ## Close tokens -/

/-- The cut that comes first in a text. -/
def earlier : Option (List Char × List Char) → Option (List Char × List Char) →
    Option (List Char × List Char)
  | some cut, some cut' => if cut'.1.length < cut.1.length then some cut' else some cut
  | some cut, none => some cut
  | none, other => other

/-- A cut of the text with more in front of it. -/
def behind (u : List Char) (cut : List Char × List Char) : List Char × List Char :=
  (u ++ cut.1, cut.2)

theorem earlier_map_behind (u : List Char) (a b : Option (List Char × List Char)) :
    earlier (a.map (behind u)) (b.map (behind u)) = (earlier a b).map (behind u) := by
  cases a with
  | none => rfl
  | some cut =>
    cases b with
    | none => rfl
    | some cut' =>
      simp only [Option.map_some, earlier, behind, List.length_append, Nat.add_lt_add_iff_left]
      split <;> rfl

theorem earlier_nil_left (s : List Char) (b : Option (List Char × List Char)) :
    earlier (some ([], s)) b = some ([], s) := by
  cases b with
  | none => rfl
  | some cut =>
    show (if cut.1.length < 0 then some cut else some ([], s)) = _
    rw [if_neg (Nat.not_lt_zero _)]

theorem earlier_nil_right {u : List Char} (hu : u ≠ []) (s : List Char)
    (a : Option (List Char × List Char)) :
    earlier (a.map (behind u)) (some ([], s)) = some ([], s) := by
  cases a with
  | none => rfl
  | some cut =>
    refine if_pos ?_
    rw [behind, List.length_append]
    exact Nat.add_pos_left (List.length_pos_iff.2 hu) _

theorem cutFirstClosing_eq_earlier (v : Option Vault) (name s : List Char) :
    cutFirstClosing v name s =
      earlier (Directive.cutClosing name s) (cutClosingPlaceholder v name s) := by
  unfold cutFirstClosing earlier
  rfl

section

variable {v : Vault} {name : List Char}

theorem cutFirstClosing_nil : cutFirstClosing (some v) name [] = none := by
  rw [cutFirstClosing_eq_earlier, Directive.cutClosing, Directive.closing_eq]
  rfl

theorem cutFirstClosing_cons {c : Char} (hc : c ≠ startMark) (s : List Char) :
    cutFirstClosing (some v) name (c :: s) =
      if (Directive.closing name).isPrefixOf (c :: s) then
        some ([], (c :: s).drop (Directive.closing name).length)
      else (cutFirstClosing (some v) name s).map (behind [c]) := by
  have hplaceholder : cutClosingPlaceholder (some v) name (c :: s) =
      (cutClosingPlaceholder (some v) name s).map (behind [c]) := by
    show cutHit _ _ (v.split (c :: s)) = _
    rw [split_char v hc]
    rfl
  rw [cutFirstClosing_eq_earlier, cutFirstClosing_eq_earlier, hplaceholder, Directive.cutClosing,
    cutAt]
  split
  · exact earlier_nil_left _ _
  · exact earlier_map_behind [c] _ _

theorem cutFirstClosing_placeholder_append {n : Nat} {d : List Char} (ho : v.originals[n]? = some d)
    (s : List Char) :
    cutFirstClosing (some v) name (placeholder n ++ s) =
      if Directive.closeName? d = some name then some ([], s)
      else (cutFirstClosing (some v) name s).map (behind (placeholder n)) := by
  have hspelled : Directive.cutClosing name (placeholder n ++ s) =
      (Directive.cutClosing name s).map (behind (placeholder n)) := by
    rw [Directive.cutClosing, Directive.cutClosing, Directive.closing_eq]
    exact cutAt_append_of_not_mem (not_mem_placeholder (by decide)) s
  have hplaceholder : cutClosingPlaceholder (some v) name (placeholder n ++ s) =
      if Directive.closeName? d = some name then some ([], s)
      else (cutClosingPlaceholder (some v) name s).map (behind (placeholder n)) := by
    show cutHit _ _ (v.split (placeholder n ++ s)) = _
    rw [split_placeholder v ho, cutHit, spell_split]
    simp only [decide_eq_true_eq]
    rfl
  rw [cutFirstClosing_eq_earlier, cutFirstClosing_eq_earlier, hplaceholder, hspelled]
  split
  · exact earlier_nil_right (placeholder_ne_nil n) _ _
  · exact earlier_map_behind _ _ _

end

/-- The two sides of cuts are alike. -/
def AlikeCut (same : Nat → Nat → Prop) (cut cut' : List Char × List Char) : Prop :=
  Alike same cut.1 cut'.1 ∧ Alike same cut.2 cut'.2

theorem alikeCut_behind (h : Alike same u w) {cut cut' : Option (List Char × List Char)}
    (hcut : Option.Rel (AlikeCut same) cut cut') :
    Option.Rel (AlikeCut same) (cut.map (behind u)) (cut'.map (behind w)) := by
  cases hcut with
  | none => exact .none
  | some hcut => exact .some ⟨h.append hcut.1, hcut.2⟩

/-- The first close token stands in the same place. -/
theorem Matching.cutFirstClosing {v w : Vault} (hsame : Matching v w same) {name : List Char}
    (hname : startMark ∉ name) (h : Alike same s t) :
    Option.Rel (AlikeCut same) (StorageMarkup.cutFirstClosing (some v) name s)
      (StorageMarkup.cutFirstClosing (some w) name t) := by
  have hclosing := Directive.startMark_not_mem_closing hname
  induction h using Alike.induct with
  | nil =>
    rw [cutFirstClosing_nil, cutFirstClosing_nil]
    exact .none
  | char c s t hc h ih =>
    have hstart := (h.char hc).isPrefixOf_eq hclosing
    rw [cutFirstClosing_cons hc, cutFirstClosing_cons hc, hstart]
    split
    · next hp =>
      obtain ⟨r, hr⟩ := List.isPrefixOf_iff_prefix.1 (hstart.trans hp)
      have hcs := h.char hc
      rw [← hr] at hcs ⊢
      obtain ⟨r', hr', hrest⟩ := hcs.of_append_free hclosing
      rw [hr', List.drop_left, List.drop_left]
      exact .some ⟨.nil, hrest⟩
    · exact alikeCut_behind (.char hc .nil) ih
  | placeholder m n s t hmn h ih =>
    obtain ⟨d, hv, hw, -⟩ := hsame.original hmn
    rw [cutFirstClosing_placeholder_append hv, cutFirstClosing_placeholder_append hw]
    split
    · exact .some ⟨.nil, h⟩
    · have hp := Alike.placeholder hmn .nil
      rw [List.append_nil, List.append_nil] at hp
      exact alikeCut_behind hp ih

end StorageMarkup
