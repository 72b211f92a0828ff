import StorageMarkup.Proofs.Mapping.Each
import StorageMarkup.Proofs.Region.Folds

/-!
# Passes and height

Passes take elements away, put final output in their place and move nodes between
neighbours. None nests an element deeper than it was, so the height measured before the
first pass bounds the trees of all later ones.

Results:
1. `heightOf_bodyOf`, `heightOf_liftMarkersAmong`, `heightOf_shieldNodes`: before mapping.
2. `heightOf_mapping`, `heightOf_foldBelowAll`, `heightOf_settled`: the passes that may fail.
3. `heightOf_span?`: the span of a region and what follows it.
-/

namespace StorageMarkup

open Node

variable {limit : Limit} {v : Option Vault} {nodes out : List Node} {k : Nat}

/-! ## Lists of nodes -/

theorem heightOf_le : heightOf nodes ≤ k ↔ ∀ n ∈ nodes, n.height ≤ k := by
  induction nodes with
  | nil => simp [heightOf]
  | cons n nodes ih => rw [heightOf, Nat.max_le, List.forall_mem_cons, ih]

theorem heightOf_subset {a b : List Node} (h : a ⊆ b) : heightOf a ≤ heightOf b :=
  heightOf_le.2 fun _ hn => height_le_heightOf (h hn)

theorem heightOf_append (a b : List Node) : heightOf (a ++ b) = max (heightOf a) (heightOf b) := by
  induction a with
  | nil => simp [heightOf]
  | cons n a ih => rw [List.cons_append, heightOf, heightOf, ih, Nat.max_assoc]

theorem heightOf_singleton (n : Node) : heightOf [n] = n.height := by
  rw [heightOf, heightOf, Nat.max_zero]

/-- A pass that looks at each node by itself and makes none higher. -/
theorem heightOf_flatMap {f : Node → List Node} (h : ∀ n ∈ nodes, heightOf (f n) ≤ n.height) :
    heightOf (nodes.flatMap f) ≤ heightOf nodes := by
  refine heightOf_le.2 (List.forall_mem_flatMap.2 fun n hn m hm => ?_)
  exact Nat.le_trans (heightOf_le.1 (h n hn) m hm) (height_le_heightOf hn)

/-! ## Before mapping -/

theorem heightOf_body (n : Node) : heightOf n.body ≤ n.height := by
  induction n using Node.induct with
  | text | raw | root => exact Nat.le_of_eq (heightOf_singleton _)
  | element tag attrs children ih =>
    have hinner : heightOf (bodyOf children) ≤ heightOf children := by
      rw [bodyOf_eq]
      exact heightOf_flatMap ih
    rw [body, height]
    split
    · exact Nat.zero_le _
    · split
      · exact Nat.le_succ_of_le hinner
      · rw [heightOf_singleton]
        exact Nat.succ_le_succ hinner

theorem heightOf_bodyOf (nodes : List Node) : heightOf (bodyOf nodes) ≤ heightOf nodes := by
  rw [bodyOf_eq]
  exact heightOf_flatMap fun n _ => heightOf_body n

theorem heightOf_markers (ls : List (List Char)) : heightOf (markers ls) = 0 := by
  induction ls with
  | nil => rfl
  | cons line ls ih =>
    cases ls with
    | nil => rfl
    | cons l ls =>
      show max 0 (max 0 (heightOf (markers (l :: ls)))) = 0
      rw [ih, Nat.max_self, Nat.max_self]

theorem heightOf_liftMarkers (n : Node) : heightOf (n.liftMarkers v) ≤ n.height := by
  induction n using Node.induct with
  | text | raw | root => exact Nat.le_of_eq (heightOf_singleton _)
  | element tag attrs children ih =>
    rw [liftMarkers, height]
    split
    · rw [heightOf_markers]
      exact Nat.zero_le _
    · rw [heightOf_singleton, height, liftMarkersAmong_eq]
      exact Nat.succ_le_succ (heightOf_flatMap ih)

theorem heightOf_liftMarkersAmong (nodes : List Node) :
    heightOf (liftMarkersAmong v nodes) ≤ heightOf nodes := by
  rw [liftMarkersAmong_eq]
  exact heightOf_flatMap fun n _ => heightOf_liftMarkers n

theorem heightOf_shieldNodes_of_each
    (h : ∀ n ∈ nodes, ∀ v : Vault, (v.shieldNode n).2.height = n.height) (v : Vault) :
    heightOf (v.shieldNodes nodes).2 = heightOf nodes := by
  induction nodes generalizing v with
  | nil => rfl
  | cons n nodes ih =>
    rw [List.forall_mem_cons] at h
    show max (v.shieldNode n).2.height (heightOf ((v.shieldNode n).1.shieldNodes nodes).2) = _
    rw [h.1, ih h.2]
    rfl

theorem height_shieldNode (n : Node) : ∀ v : Vault, (v.shieldNode n).2.height = n.height := by
  induction n using Node.induct with
  | text | raw | root => exact fun _ => rfl
  | element tag attrs children ih =>
    exact fun v => congrArg (· + 1) (heightOf_shieldNodes_of_each ih _)

theorem heightOf_shieldNodes (v : Vault) (nodes : List Node) :
    heightOf (v.shieldNodes nodes).2 = heightOf nodes :=
  heightOf_shieldNodes_of_each (fun n _ => height_shieldNode n) v

/-! ## Mapping -/

/-- No rule puts an element around what it is for. -/
theorem heightOf_element {env : Mapping.Env} {e : Element}
    (hout : (Mapping.element env e).result = .ok out) : heightOf out ≤ e.toNode.height := by
  refine Mapping.element_left (S := fun out => heightOf out ≤ e.toNode.height) ?_ ?_ ?_ ?_ hout
  · exact fun s => Nat.zero_le _
  · exact Nat.le_of_eq (heightOf_singleton _)
  · exact fun header => Nat.le_of_eq (heightOf_singleton _)
  · exact fun inner _ hinner _ => Nat.le_succ_of_le (heightOf_subset hinner)

theorem heightOf_mapping {env : Mapping.Env} {depth : Nat}
    (hout : (Mapping.nodes env depth nodes).result = .ok out) : heightOf out ≤ heightOf nodes := by
  refine Mapping.nodes_ok (R := fun n out => heightOf out ≤ n.height)
    (S := fun ns out => heightOf out ≤ heightOf ns) ?_ ?_ ?_ ?_ ?_ ?_ hout
  · exact Nat.le_refl _
  · intro n rest first others hfirst hothers
    rw [heightOf_append, heightOf]
    omega
  · exact fun s => Nat.le_of_eq (heightOf_singleton _)
  · exact fun s => Nat.le_of_eq (heightOf_singleton _)
  · exact fun children => Nat.le_of_eq (heightOf_singleton _)
  · intro tag attrs children mapped out hmapped hrule
    exact Nat.le_trans (heightOf_element hrule) (Nat.succ_le_succ hmapped)

/-! ## Folding -/

namespace Region

theorem height_takeClosing {name : List Char} {n : Node} {left : Option Node}
    (h : n.takeClosing v name = some left) : heightOf left.toList ≤ n.height := by
  refine takeClosing_ok (T := fun n left => heightOf left.toList ≤ n.height) ?_ ?_ n left h
  · intro s before after _
    split
    · exact Nat.le_refl _
    · exact Nat.le_of_eq (heightOf_singleton _)
  · intro tag attrs before c left after _ hleft
    split
    · exact Nat.zero_le _
    · rw [Option.toList_some, heightOf_singleton, height, height]
      simp only [heightOf_append, heightOf]
      omega

theorem heightOf_span? {name : List Char} {span after : List Node}
    (h : span? v name nodes = some (span, after)) :
    heightOf span ≤ heightOf nodes ∧ heightOf after ≤ heightOf nodes := by
  obtain ⟨before, n, left, rfl, rfl, hleft⟩ := span?_eq_some h
  have hheight := height_takeClosing hleft
  simp only [heightOf_append, heightOf]
  omega

theorem Folds.heightOf_le (h : Folds limit v nodes out) : heightOf out ≤ heightOf nodes :=
  StorageMarkup.heightOf_le.2
    (h.forall_mem (fun _ hn => height_le_heightOf hn) fun _ => Nat.zero_le _)

theorem heightOf_foldBelowAll {depth : Nat}
    (hout : (foldBelowAll limit v depth nodes).result = .ok out) :
    heightOf out ≤ heightOf nodes := by
  refine foldBelowAll_ok (R := fun n out => out.height ≤ n.height)
    (S := fun ns out => heightOf out ≤ heightOf ns) ?_ ?_ ?_ ?_ ?_ ?_ hout
  · exact Nat.le_refl _
  · intro n rest first others hfirst hothers
    rw [heightOf, heightOf]
    omega
  · exact fun s => Nat.le_refl _
  · exact fun s => Nat.le_refl _
  · exact fun children => Nat.le_refl _
  · intro tag attrs children mapped depth folded hmapped hfolded
    exact Nat.succ_le_succ (Nat.le_trans (folds_of_foldAmong mapped hfolded).heightOf_le hmapped)

theorem heightOf_foldAll (hout : (foldAll limit v nodes).result = .ok out) :
    heightOf out ≤ heightOf nodes := by
  obtain ⟨mapped, hmapped, hfolded⟩ := foldAll_eq_ok hout
  exact Nat.le_trans (folds_of_foldAmong mapped hfolded).heightOf_le (heightOf_foldBelowAll hmapped)

end Region

/-! ## Footnotes -/

theorem heightOf_settled {index : Footnote.Index} {heading : Value}
    (hout : settleFootnotesAmong index heading limit nodes = .ok out) :
    heightOf out ≤ heightOf nodes := by
  refine settleFootnotesAmong_ok (R := fun n out => out.height ≤ n.height)
    (S := fun ns out => heightOf out ≤ heightOf ns) ?_ ?_ ?_ ?_ ?_ ?_ ?_ hout
  · exact Nat.le_refl _
  · intro n rest first others hfirst hothers
    rw [heightOf, heightOf]
    omega
  · exact fun s => Nat.le_refl _
  · exact fun s => Nat.le_refl _
  · exact fun children => Nat.le_refl _
  · exact fun e s _ _ => Nat.zero_le _
  · exact fun tag attrs children out _ hsettled => Nat.succ_le_succ hsettled

/-- What is inside an element of a tree is less high than the tree. -/
theorem heightOf_elements (n : Node) : ∀ e ∈ n.elements, heightOf e.children < n.height := by
  induction n using Node.induct with
  | text | raw => exact fun e he => absurd he List.not_mem_nil
  | element tag attrs children ih =>
    rw [elements, List.forall_mem_cons, elementsOf_eq, List.forall_mem_flatMap]
    refine ⟨Nat.lt_succ_self _, fun c hc e he => ?_⟩
    exact Nat.lt_succ_of_lt (Nat.lt_of_lt_of_le (ih c hc e he) (height_le_heightOf hc))
  | root children ih =>
    rw [elements, elementsOf_eq, List.forall_mem_flatMap]
    exact fun c hc e he => Nat.lt_of_lt_of_le (ih c hc e he) (height_le_heightOf hc)

end StorageMarkup
