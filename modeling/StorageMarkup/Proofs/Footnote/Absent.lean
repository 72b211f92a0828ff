import StorageMarkup.Proofs.Mapping.Each
import StorageMarkup.Proofs.Region.Folds
import StorageMarkup.Proofs.Tree.Conveyed
import StorageMarkup.Proofs.Tree.Each

/-!
# Trees without footnotes

Where no element is a container of footnotes, none comes to be one, no link is one to or
from a footnote, and the pass that settles footnotes has nothing to do.

Results:
1. `Unfooted.bodyOf`, `Unfooted.liftMarkersAmong`, `Unfooted.shieldNodes`,
   `Unfooted.mapping`, `Unfooted.foldAll`: no pass makes containers.
2. `Unfooted.definitions_eq_nil`: nothing is defined.
3. `Unfooted.settleFootnotesAmong_eq`: nothing is settled.
-/

namespace StorageMarkup

variable {nodes out : List Node} {n : Node} {limit : Limit} {v : Option Vault}

/-- The element, whatever is in it, is no container of footnotes. -/
def HoldsNone (tag : List Char) (attrs : Attributes) : Prop :=
  Element.holdsFootnotes ⟨tag, attrs, []⟩ = false

/-- No node is or has a container of footnotes. -/
abbrev Unfooted (nodes : List Node) : Prop := ∀ n ∈ nodes, n.Each (fun _ => True) HoldsNone

theorem unfooted_of_elements (h : ∀ e ∈ Node.elementsOf nodes, e.holdsFootnotes = false) :
    Unfooted nodes := by
  rw [Node.elementsOf_eq, List.forall_mem_flatMap] at h
  exact fun n hn => Node.each_of_elements n (h n hn)

namespace Unfooted

theorem bodyOf (h : Unfooted nodes) : Unfooted (Node.bodyOf nodes) :=
  each_bodyOf (fun tag attrs he => (holdsFootnotes_withoutNamespaces tag attrs [] []).trans he) h

theorem liftMarkersAmong (h : Unfooted nodes) (v : Option Vault) :
    Unfooted (Node.liftMarkersAmong v nodes) :=
  each_liftMarkersAmong trivial (fun _ _ _ _ => trivial) h

theorem shieldNodes (h : Unfooted nodes) (v : Vault) : Unfooted (v.shieldNodes nodes).2 := by
  refine each_shieldNodes (fun _ h => h) (fun _ _ h => h) (fun _ _ _ _ => trivial) ?_ h v (.refl _)
  intro v tag attrs he
  exact Bool.eq_false_iff.2 fun hh => by
    rw [HoldsNone, holdsFootnotes_of_shielded hh] at he
    cases he

/-- Nothing is defined. -/
theorem definitions_eq_nil (h : Unfooted nodes) :
    (Footnote.Index.ofNodes nodes).definitions = [] := by
  refine List.flatMap_eq_nil_iff.2 fun e he => ?_
  rw [Node.elementsOf_eq] at he
  obtain ⟨n, hn, he⟩ := List.mem_flatMap.1 he
  have hnone : e.holdsFootnotes = false := (h n hn).elements e he
  rw [Footnote.Index.definitionsIn, hnone]
  rfl

/-! ## Mapping, folding and settling -/

theorem mapping {env : Mapping.Env} {depth : Nat} (h : Unfooted nodes)
    (hout : (Mapping.nodes env depth nodes).result = .ok out) : Unfooted out :=
  Mapping.each_mapping (fun tag attrs header he =>
    (holdsFootnotes_cellAttributes tag header attrs [] []).trans he) h hout

theorem foldAll (h : Unfooted nodes) (hout : (Region.foldAll limit v nodes).result = .ok out) :
    Unfooted out := by
  obtain ⟨below, hbelow, hfolded⟩ := Region.foldAll_eq_ok hout
  exact (Region.folds_of_foldAmong below hfolded).each (Region.each_foldBelowAll hbelow h)

theorem settleFootnotesAmong_of_each {index : Footnote.Index} {heading : Value}
    (h : ∀ n ∈ nodes, n.settleFootnotes index heading limit = .ok n) :
    Node.settleFootnotesAmong index heading limit nodes = .ok nodes := by
  induction nodes with
  | nil => rfl
  | cons n nodes ih =>
    rw [List.forall_mem_cons] at h
    rw [Node.settleFootnotesAmong, h.1, ok_bind, ih h.2]
    rfl

/-- Nothing is settled. -/
theorem settleFootnotesAmong_eq (h : Unfooted nodes) (index : Footnote.Index) (heading : Value)
    (limit : Limit) : Node.settleFootnotesAmong index heading limit nodes = .ok nodes := by
  refine settleFootnotesAmong_of_each fun n hn => ?_
  have he := h n hn
  clear hn
  induction he with
  | text | raw | root => rfl
  | @element tag attrs children he hc ih =>
    have hnone : Element.holdsFootnotes ⟨tag, attrs, children⟩ = false := he
    rw [Node.settleFootnotes, hnone, settleFootnotesAmong_of_each ih]
    rfl

end Unfooted

end StorageMarkup
