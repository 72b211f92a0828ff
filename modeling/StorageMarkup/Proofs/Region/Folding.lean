import StorageMarkup.Proofs.Outcome
import StorageMarkup.Region

/-!
# Folding, step by step

The scan over neighbours makes one of three steps at each node: it leaves the node,
it leaves an open token that nothing closes, or it folds a region and reads on after
it. These are the equations of the three steps.

Results:
1. `foldAmong_content`, `foldAmong_unclosed`, `foldAmong_region`: the three steps.
2. `foldAmong_of_content`: neighbours without open markers stay.
3. `foldAmong_single`: a node on its own stays, whatever it is.
-/

namespace StorageMarkup.Region

variable {limit : Limit} {v : Option Vault} {depth : Nat}

theorem foldAmong_nil : foldAmong limit v depth [] = pure [] := by
  rw [foldAmong]

theorem foldAmong_content {n : Node} {rest : List Node} (h : n.openingMarker? v = none) :
    foldAmong limit v depth (n :: rest) = do
      let others ← foldAmong limit v depth rest
      return n :: others := by
  rw [foldAmong, h]

theorem foldAmong_unclosed {n : Node} {rest : List Node} {head name : List Char}
    (h : n.openingMarker? v = some (head, name)) (hs : span? v name rest = none) :
    foldAmong limit v depth (n :: rest) = do
      Traced.emit (.unclosed name)
      let others ← foldAmong limit v depth rest
      return n :: others := by
  rw [foldAmong, h]
  simp only
  split
  · rfl
  · next he =>
    rw [hs] at he
    cases he

theorem foldAmong_region {n : Node} {rest span after : List Node} {head name : List Char}
    (h : n.openingMarker? v = some (head, name)) (hs : span? v name rest = some (span, after)) :
    foldAmong limit v depth (n :: rest) = do
      Traced.lift (withinLimit (depth + 1) limit)
      let inner ← foldAmong limit v (depth + 1) span
      let body ← Traced.lift (Node.printAll limit inner)
      Traced.emit (.folded name)
      let others ← foldAmong limit v depth after
      return .raw (Directive.region head (strip body) name) :: others := by
  rw [foldAmong, h]
  simp only
  split
  · next he =>
    rw [hs] at he
    cases he
  · next he =>
    rw [hs] at he
    cases he
    rfl

/-- Neighbours without open markers stay as they are, and nothing is reported. -/
theorem foldAmong_of_content {nodes : List Node} (h : ∀ n ∈ nodes, n.openingMarker? v = none) :
    foldAmong limit v depth nodes = pure nodes := by
  induction nodes with
  | nil => exact foldAmong_nil
  | cons n nodes ih =>
    rw [List.forall_mem_cons] at h
    rw [foldAmong_content h.1, ih h.2]
    rfl

/-- A node on its own stays, an open marker too: nothing follows that could close it. -/
theorem foldAmong_single (n : Node) : (foldAmong limit v depth [n]).result = .ok [n] := by
  cases h : n.openingMarker? v with
  | none => rw [foldAmong_content h, foldAmong_nil]; rfl
  | some marker => rw [foldAmong_unclosed h rfl, foldAmong_nil]; rfl

end StorageMarkup.Region
