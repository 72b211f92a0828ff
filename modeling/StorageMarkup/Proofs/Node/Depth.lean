import StorageMarkup.Node.Printer
import StorageMarkup.Proofs.Outcome

/-!
# Nesting

The depth of a tree is measured with a list of waiting nodes; here it is tied to the
recursive height, on which every pass spends one level of the limit per element.

Results:
1. `Node.induct`: induction over trees, all children at once.
2. `depthOf_eq`: the measured depth is the recursive height.
3. `printAll_ok`: a tree within the limit can be written.
-/

namespace StorageMarkup

namespace Node

/-! ## Induction -/

/-- What holds of a node whenever it holds of its children holds of every node. -/
theorem induct {P : Node → Prop} (root : ∀ children, (∀ c ∈ children, P c) → P (.root children))
    (element : ∀ tag attrs children, (∀ c ∈ children, P c) → P (.element tag attrs children))
    (text : ∀ s, P (.text s)) (raw : ∀ s, P (.raw s)) (n : Node) : P n :=
  @Node.rec P (fun nodes => ∀ c ∈ nodes, P c) root element text raw
    (fun _ h => absurd h List.not_mem_nil)
    (fun _ _ hn hrest => List.forall_mem_cons.2 ⟨hn, hrest⟩) n

/-- A function that goes through neighbours one by one. -/
theorem eq_flatMap {α : Type} {f : List Node → List α} {g : Node → List α} (nil : f [] = [])
    (cons : ∀ n rest, f (n :: rest) = g n ++ f rest) (nodes : List Node) :
    f nodes = nodes.flatMap g := by
  induction nodes with
  | nil => exact nil
  | cons n nodes ih => rw [cons, ih, List.flatMap_cons]

/-! ## Height -/

mutual

/-- How many elements are nested in each other at the deepest place of a node. -/
def height : Node → Nat
  | .root children => heightOf children
  | .element _ _ children => heightOf children + 1
  | .text _ => 0
  | .raw _ => 0

def heightOf : List Node → Nat
  | [] => 0
  | n :: rest => max n.height (heightOf rest)

end

theorem height_le_heightOf {n : Node} {nodes : List Node} (h : n ∈ nodes) :
    n.height ≤ heightOf nodes := by
  induction nodes with
  | nil => exact absurd h List.not_mem_nil
  | cons m rest ih =>
    rw [heightOf]
    rcases List.mem_cons.1 h with rfl | h
    · exact Nat.le_max_left _ _
    · exact Nat.le_trans (ih h) (Nat.le_max_right _ _)

/-- The deepest place reached from nodes that wait, each inside so many elements. -/
def reach : List (Node × Nat) → Nat
  | [] => 0
  | (n, above) :: waiting => max (above + n.height) (reach waiting)

theorem reach_append (a b : List (Node × Nat)) : reach (a ++ b) = max (reach a) (reach b) := by
  induction a with
  | nil => simp [reach]
  | cons p a ih => rw [List.cons_append, reach, reach, ih, Nat.max_assoc]

theorem reach_children (above : Nat) (nodes : List Node) :
    max above (reach (nodes.map (·, above))) = above + heightOf nodes := by
  induction nodes with
  | nil => simp [reach, heightOf]
  | cons n rest ih =>
    rw [List.map_cons, reach, heightOf]
    omega

/-- The children of a node reach as deep as the node does. -/
theorem reach_node (above : Nat) (n : Node) :
    max (n.depthInside above) (reach (n.children.map (·, n.depthInside above))) =
      above + n.height := by
  rw [reach_children]
  cases n with
  | root children => rfl
  | element tag attrs children =>
    show above + 1 + heightOf children = above + (heightOf children + 1)
    omega
  | text s => rfl
  | raw s => rfl

theorem deepest_eq (found : Nat) (waiting : List (Node × Nat)) :
    deepest found waiting = max found (reach waiting) := by
  fun_induction deepest found waiting with
  | case1 found => simp [reach]
  | case2 found n above waiting depth ih =>
    have : max depth (reach (n.children.map (·, depth))) = above + n.height := reach_node above n
    rw [ih, reach_append, reach]
    omega

/-- The measured depth is the recursive height. -/
theorem depthOf_eq (nodes : List Node) : depthOf nodes = heightOf nodes := by
  have := reach_children 0 nodes
  rw [depthOf, deepest_eq]
  omega

theorem depth_eq (n : Node) : n.depth = n.height := by
  rw [depth, depthOf_eq]
  simp [heightOf]

end Node

/-! ## The limit -/

theorem withinLimit_ok {limit : Limit} {m depth : Int} (hm : limit.levels? = some m)
    (h : depth ≤ m) : withinLimit depth limit = .ok () := by
  rw [withinLimit, hm]
  exact if_neg (Int.not_lt.2 h)

theorem withinLimit_error {limit : Limit} {m depth : Int} (hm : limit.levels? = some m)
    (h : m < depth) : withinLimit depth limit = .error (.tooDeep depth limit) := by
  rw [withinLimit, hm]
  exact if_pos h

theorem orStandard_of_levels {limit : Limit} {m : Int} (hm : limit.levels? = some m) :
    limit.orStandard = limit := by
  cases limit with
  | unset => cases hm
  | levels | flag | unusable => rfl

namespace Node

variable {limit : Limit} {m : Int}

mutual

theorem printAt_ok (hm : limit.levels? = some m) (pre : Bool) (depth : Nat) :
    ∀ n : Node, ((depth + n.height : Nat) : Int) ≤ m → ∃ s, n.printAt limit pre depth = .ok s
  | .raw s, _ => ⟨s, rfl⟩
  | .text s, _ => ⟨printText pre s, rfl⟩
  | .root children, h => printAllAt_ok hm pre depth children h
  | .element tag attrs children, h => by
    rw [height] at h
    have hd : ((depth + 1 : Nat) : Int) ≤ m := by omega
    obtain ⟨inner, hi⟩ := printAllAt_ok hm (pre || isPreformatted tag) (depth + 1) children
      (by omega)
    have hw : withinLimit ((depth : Int) + 1) limit = .ok () := withinLimit_ok hm (by omega)
    rw [printAt, hw, ok_bind, hi]
    cases isVoid tag with
    | true => exact ⟨_, rfl⟩
    | false => exact ⟨_, rfl⟩

theorem printAllAt_ok (hm : limit.levels? = some m) (pre : Bool) (depth : Nat) :
    ∀ nodes : List Node, ((depth + heightOf nodes : Nat) : Int) ≤ m →
      ∃ s, printAllAt limit pre depth nodes = .ok s
  | [], _ => ⟨[], rfl⟩
  | n :: rest, h => by
    rw [heightOf] at h
    obtain ⟨first, hf⟩ := printAt_ok hm pre depth n (by omega)
    obtain ⟨others, ho⟩ := printAllAt_ok hm pre depth rest (by omega)
    refine ⟨first ++ others, ?_⟩
    rw [printAllAt, hf, ok_bind, ho, ok_bind]
    rfl

end

/-- A tree within the limit can be written. -/
theorem printAll_ok (hm : limit.levels? = some m) {nodes : List Node}
    (h : (heightOf nodes : Int) ≤ m) : ∃ s, printAll limit nodes = .ok s := by
  rw [printAll, orStandard_of_levels hm]
  exact printAllAt_ok hm false 0 nodes (by omega)

end Node

end StorageMarkup
