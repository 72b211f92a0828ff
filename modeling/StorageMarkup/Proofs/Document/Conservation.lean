import StorageMarkup.Proofs.Document.Stages
import StorageMarkup.Proofs.Region.Conveyed

/-!
# Directives are conserved

A conversion writes the directives of its tree and no others: each as often as it
stands in the tree, none altered, and in document order but for close tokens, which a
fold writes behind the content they close.

Results:
1. `spells_of_clear`: a clear tree carries the directives that stand in it.
2. `convertWith_rearranged`: trees and vaults.
3. `directives_conserved`: trees on their own.
-/

namespace StorageMarkup

open Directive (Legible directives isClose)

variable {options : Options} {v : Vault} {nodes : List Node} {out : List Char}

/-! ## Trees -/

mutual

/-- The directives in the texts and the final output at and below a node, in document order. -/
def Node.directives : Node → List (List Char)
  | .text s => Directive.directives s
  | .raw s => Directive.directives s
  | .element _ _ children => Node.directivesOf children
  | .root children => Node.directivesOf children

def Node.directivesOf : List Node → List (List Char)
  | [] => []
  | n :: rest => n.directives ++ Node.directivesOf rest

end

/-- No document inside the node, no element that is dropped, rewritten as a directive or written
without its content, braces in directives only, and no start mark. -/
inductive Node.Clear : Node → Prop
  | text {s : List Char} (h : Legible s) : Clear (.text s)
  | raw {s : List Char} (h : Legible s) : Clear (.raw s)
  | element {tag : List Char} {attrs : Attributes} {children : List Node} (he : Ordinary tag attrs)
      (hvoid : isVoid tag = true → children = []) (h : ∀ c ∈ children, Clear c) :
      Clear (.element tag attrs children)

theorem spells_of_each (h : ∀ n ∈ nodes, Spells [n] n.directives) :
    Spells nodes (Node.directivesOf nodes) := by
  induction nodes with
  | nil => exact .nil
  | cons n nodes ih =>
    rw [List.forall_mem_cons] at h
    exact h.1.append (ih h.2)

theorem Node.Clear.spells {n : Node} (h : n.Clear) : Spells [n] n.directives := by
  induction h with
  | text h => exact .single_text h.woven
  | raw h => exact .single_raw h.woven
  | element he hvoid _ ih =>
    refine .single_element he (fun hv => ?_) (spells_of_each ih)
    rw [hvoid hv]
    rfl

/-- A clear tree carries the directives that stand in it. -/
theorem spells_of_clear (h : ∀ n ∈ nodes, n.Clear) : Spells nodes (Node.directivesOf nodes) :=
  spells_of_each fun n hn => (h n hn).spells

/-! ## Conversion -/

theorem convertWith_rearranged (h : ∀ n ∈ nodes, n.Clear)
    (hout : (convertWith options v nodes).2.result = .ok out) :
    Rearranged (Node.directivesOf nodes) (directives out) := by
  obtain ⟨mapped, folded, settled, text, hmapped, hfolded, hsettled, htext, rfl⟩ :=
    convertWith_eq_ok hout
  have hlifted : Spells (lifted v nodes) (Node.directivesOf nodes) :=
    spells_liftMarkers (spells_bodyOf (spells_of_clear h))
  have hshielded : Holds (filledVault v nodes) (shielded v nodes) (Node.directivesOf nodes) :=
    holds_shieldNodes hlifted v
  -- an ordinary tree defines no footnote, so all its links stay
  have hm := holds_mapping (definitions_eq_nil hshielded) hshielded hmapped
  obtain ⟨ds, hds, hf⟩ := holds_foldAll hm hfolded
  have hwoven := woven_printAll (holds_settleFootnotes hf hsettled) htext
  rwa [Directive.directives_of_woven
    (Directive.capNewlineRuns_woven (Directive.expand_woven hwoven))]

/-- The directives of the output are those of the tree, each as often as it stands there, and apart
from close tokens they are in document order. -/
theorem directives_conserved (options : Options) (nodes : List Node) (out : List Char)
    (h : ∀ n ∈ nodes, n.Clear) (hout : (convert options nodes).result = .ok out) :
    (directives out).Perm (Node.directivesOf nodes) ∧
      (directives out).filter (!isClose ·) = (Node.directivesOf nodes).filter (!isClose ·) := by
  have hall := convertWith_rearranged h hout
  exact ⟨hall.perm.symm, hall.order.symm⟩

/-- A region whose close token stands inside a paragraph, before another directive, and a close
token and an open token that find no partner. -/
theorem directives_conserved_region :
    let nodes : List Node :=
      [.element ['p'] [] [.text "\x7b\x7b#a\x7d\x7d".toList],
        .element ['p'] [] [.text "x \x7b\x7b/b\x7d\x7d y\x7b\x7b/a\x7d\x7d\x7b\x7bi\x7d\x7d".toList,
          .raw "\x7b\x7br\x7d\x7d".toList],
        .text "\x7b\x7b#c\x7d\x7d".toList]
    let out := ("\x7b\x7b#a\x7d\x7d\n<p>x \x7b\x7b/b\x7d\x7d y" ++
      "\x7b\x7bi\x7d\x7d\x7b\x7br\x7d\x7d</p>\n\x7b\x7b/a\x7d\x7d\x7b\x7b#c\x7d\x7d").toList
    (∀ n ∈ nodes, n.Clear) ∧ (convert .standard nodes).result = .ok out ∧
      (directives out).Perm (Node.directivesOf nodes) ∧
      (directives out).filter (!isClose ·) = (Node.directivesOf nodes).filter (!isClose ·) := by
  intro nodes out
  have hp : Ordinary ['p'] [] :=
    ⟨by decide, fun a ha => absurd ha List.not_mem_nil, by decide, by decide⟩
  have hvoid : ∀ children : List Node, isVoid ['p'] = true → children = [] := fun _ hv =>
    absurd hv (by decide)
  have hclear : ∀ n ∈ nodes, n.Clear := by
    refine List.forall_mem_cons.2 ⟨.element hp (hvoid _) ?_, List.forall_mem_cons.2
      ⟨.element hp (hvoid _) ?_, List.forall_mem_singleton.2 (.text (by decide +kernel))⟩⟩
    · exact List.forall_mem_singleton.2 (.text (by decide +kernel))
    · exact List.forall_mem_cons.2 ⟨.text (by decide +kernel),
        List.forall_mem_singleton.2 (.raw (by decide +kernel))⟩
  have hrun : (convert .standard nodes).result = .ok out := by decide +kernel
  exact ⟨hclear, hrun, directives_conserved .standard nodes out hclear hrun⟩

end StorageMarkup
