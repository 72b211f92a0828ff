import StorageMarkup.Proofs.Tree.Conveyed

/-!
# What mapping does not depend on

Neighbours are mapped one by one. How deep they stand decides whether they can be mapped,
not what becomes of them; and where nothing is defined, neither the index nor the heading
of footnotes plays a part.

Results:
1. `nodes_append`, `nodes_singleton`: neighbours side by side, a node by itself.
2. `nodes_unique`: how deep the neighbours stand plays no part.
3. `nodes_unfooted`: index and heading of footnotes.
-/

namespace StorageMarkup.Mapping

variable {env : Env} {ns out out' : List Node} {depth depth' : Nat}

theorem nodes_append (env : Env) (depth : Nat) (a b : List Node) :
    nodes env depth (a ++ b) = (do
      let x ← nodes env depth a
      let y ← nodes env depth b
      return x ++ y) := by
  induction a with
  | nil => exact (bind_pure _).symm
  | cons n a ih =>
    rw [List.cons_append, nodes, nodes, ih]
    simp only [bind_assoc, pure_bind, List.append_assoc]

theorem nodes_singleton (env : Env) (depth : Nat) (n : Node) :
    nodes env depth [n] = node env depth n := by
  simp only [nodes, pure_bind, List.append_nil, bind_pure]

/-- How deep the neighbours stand plays no part in what becomes of them. -/
theorem nodes_unique (h : (nodes env depth ns).result = .ok out)
    (h' : (nodes env depth' ns).result = .ok out') : out = out' := by
  refine nodes_ok
    (R := fun n out => ∀ depth' out', (node env depth' n).result = .ok out' → out = out')
    (S := fun ns out => ∀ depth' out', (nodes env depth' ns).result = .ok out' → out = out')
    ?_ ?_ ?_ ?_ ?_ ?_ h depth' out' h'
  · intro _ _ h'
    cases h'
    rfl
  · intro n rest first others hfirst hothers depth' out' h'
    rw [nodes] at h'
    obtain ⟨first', hfirst', h'⟩ := Traced.bind_eq_ok.1 h'
    obtain ⟨others', hothers', h'⟩ := Traced.bind_eq_ok.1 h'
    cases h'
    rw [hfirst _ _ hfirst', hothers _ _ hothers']
  · intro s _ _ h'
    cases h'
    rfl
  · intro s _ _ h'
    cases h'
    rfl
  · intro children _ _ h'
    cases h'
    rfl
  · intro tag attrs children mapped out hmapped hout depth' out' h'
    rw [node] at h'
    obtain ⟨_, _, h'⟩ := Traced.bind_eq_ok.1 h'
    obtain ⟨mapped', hmapped', h'⟩ := Traced.bind_eq_ok.1 h'
    rw [← hmapped _ _ hmapped', hout] at h'
    cases h'
    rfl

/-! ## Without footnotes -/

/-- What the rules go by where nothing is defined: no index, and no heading for footnotes. -/
def Env.unfooted (options : Options) (v : Option Vault) : Env where
  options := { options with footnotesHeading := .absent }
  vault := v
  footnotes := ⟨[], []⟩

variable {options : Options} {v : Option Vault} {index : Footnote.Index}

theorem element_unfooted (hindex : index.definitions = []) (e : Element) :
    element ⟨options, v, index⟩ e = element (.unfooted options v) e := by
  have hlink : link ⟨options, v, index⟩ e = link (.unfooted options v) e := by
    rw [link, link, link?_eq_none_of_undefined hindex, link?_eq_none_of_undefined rfl]
  unfold element
  rw [hlink]
  rfl

theorem nodes_eq_of_each {env' : Env} (h : ∀ n ∈ ns, ∀ depth, node env depth n = node env' depth n)
    (depth : Nat) : nodes env depth ns = nodes env' depth ns := by
  induction ns with
  | nil => rfl
  | cons n ns ih =>
    rw [List.forall_mem_cons] at h
    rw [nodes, nodes, h.1, ih h.2]

/-- Where nothing is defined, index and heading play no part. -/
theorem nodes_unfooted (hindex : index.definitions = []) (depth : Nat) (ns : List Node) :
    nodes ⟨options, v, index⟩ depth ns = nodes (.unfooted options v) depth ns := by
  refine nodes_eq_of_each (fun n hn => ?_) depth
  clear hn
  induction n using Node.induct with
  | text | raw | root => exact fun _ => rfl
  | element tag attrs children ih =>
    intro depth
    rw [node, node, nodes_eq_of_each ih]
    exact congrArg (_ >>= ·) (funext fun _ => congrArg (_ >>= ·)
      (funext fun _ => element_unfooted hindex _))

end StorageMarkup.Mapping
