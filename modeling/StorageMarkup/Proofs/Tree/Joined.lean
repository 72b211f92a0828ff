import StorageMarkup.Proofs.Tree.Intact
import StorageMarkup.Proofs.Tree.Success

/-!
# Neighbours side by side

What the passes up to setting directives aside make of neighbours side by side they make
of each part, the second part with the vault that the first has left; and so does
writing.

Results:
1. `Node.bodyOf_append`, `Node.liftMarkersAmong_append`, `Vault.shieldNodes_append`.
2. `Node.liftMarkersAmong_of_unmarked`: without start marks, markers are the same for any vault.
3. `Node.printAll_append`.
-/

namespace StorageMarkup

open Vault

theorem reveal_eq_self {s : List Char} (h : startMark ∉ s) (v : Option Vault) : reveal v s = s := by
  cases v with
  | none => rfl
  | some v => exact expand_eq_self h

theorem Vault.shieldNodes_cons (v : Vault) (n : Node) (rest : List Node) :
    v.shieldNodes (n :: rest) = (((v.shieldNode n).1.shieldNodes rest).1,
      (v.shieldNode n).2 :: ((v.shieldNode n).1.shieldNodes rest).2) := rfl

theorem Vault.shieldNodes_append (v : Vault) (a b : List Node) :
    v.shieldNodes (a ++ b) = (((v.shieldNodes a).1.shieldNodes b).1,
      (v.shieldNodes a).2 ++ ((v.shieldNodes a).1.shieldNodes b).2) := by
  induction a generalizing v with
  | nil => rfl
  | cons n a ih => rw [List.cons_append, shieldNodes_cons, shieldNodes_cons, ih, List.cons_append]

namespace Node

theorem bodyOf_append (a b : List Node) : bodyOf (a ++ b) = bodyOf a ++ bodyOf b := by
  rw [bodyOf_eq, bodyOf_eq, bodyOf_eq, List.flatMap_append]

theorem liftMarkersAmong_append (v : Option Vault) (a b : List Node) :
    liftMarkersAmong v (a ++ b) = liftMarkersAmong v a ++ liftMarkersAmong v b := by
  rw [liftMarkersAmong_eq, liftMarkersAmong_eq, liftMarkersAmong_eq, List.flatMap_append]

theorem printAll_append (limit : Limit) (a b : List Node) :
    printAll limit (a ++ b) = (do
      let x ← printAll limit a
      let y ← printAll limit b
      return x ++ y) := by
  unfold printAll
  induction a with
  | nil => exact (bind_pure _).symm
  | cons n a ih =>
    rw [List.cons_append, printAllAt, printAllAt, ih]
    simp only [bind_assoc, pure_bind, List.append_assoc]

/-! ## Markers without start marks -/

theorem markersOf?_of_unmarked {tag : List Char} {children : List Node}
    (h : ∀ c ∈ children, c.All (startMark ∉ ·)) (v w : Option Vault) :
    markersOf? v tag children = markersOf? w tag children := by
  unfold markersOf?
  split
  · next s =>
    have hs : startMark ∉ s := (h _ List.mem_cons_self).of_text
    have hlines :
        (contentLines s).all (isMarkerLine v) = (contentLines s).all (isMarkerLine w) := by
      rw [Bool.eq_iff_iff, List.all_eq_true, List.all_eq_true]
      refine forall₂_congr fun l hl => ?_
      have hintact : Intact (fun _ => False) s := .of_free hs
      have hfree : startMark ∉ l := (intact_contentLines hintact l hl).free
      rw [isMarkerLine, isMarkerLine, reveal_eq_self hfree, reveal_eq_self hfree]
    simp only [hlines]
  · rfl

/-- Where no text has a start mark, the vault plays no part in what is a marker. -/
theorem liftMarkersAmong_of_unmarked {nodes : List Node} (h : ∀ n ∈ nodes, n.All (startMark ∉ ·))
    (v w : Option Vault) : liftMarkersAmong v nodes = liftMarkersAmong w nodes := by
  rw [liftMarkersAmong_eq, liftMarkersAmong_eq]
  refine List.flatMap_congr fun n hn => ?_
  have hall := h n hn
  clear hn
  induction hall with
  | text | raw | root => rfl
  | element _ _ hc ih =>
    rw [liftMarkers, liftMarkers, markersOf?_of_unmarked hc v w, liftMarkersAmong_eq,
      liftMarkersAmong_eq, List.flatMap_congr ih]

end Node

end StorageMarkup
