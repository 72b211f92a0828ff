import StorageMarkup.Proofs.Node.Each
import StorageMarkup.Proofs.Tree.Success

/-!
# What mapping leaves

The texts that mapping leaves were there before, and so were the elements, though a table
cell has other attributes. What mapping writes is final output.

Results:
1. `element_left`: what the rule for one element leaves.
2. `each_mapping`: a property of every text and every element stays.
-/

namespace StorageMarkup.Mapping

variable {env : Env} {T : List Char → Prop} {E : List Char → Attributes → Prop}
  {nodes out : List Node}

/-- A rule writes final output, leaves the element but for the attributes of a table cell, or puts
final output from its content in its place, of which there is some. -/
theorem element_left {e : Element} {S : List Node → Prop} (raw : ∀ s, S [.raw s])
    (stay : S [e.toNode])
    (cell : ∀ header, S [.element e.tag (cellAttributes header e.attributes) e.children])
    (wrapper : ∀ inner, inner ≠ [] → inner ⊆ e.children → (∀ n ∈ inner, isRaw n = true) → S inner)
    (hout : (element env e).result = .ok out) : S out := by
  refine element_ok ?_ ?_ ?_ ?_ cell ?_ stay hout
  · intro _
    unfold image
    split
    · exact stay
    · exact stay
    · exact raw _
  · intro _
    unfold link
    split
    · exact raw _
    · exact stay
  · intro _ out hcode
    unfold codeBlock at hcode
    split at hcode
    · split at hcode
      · obtain ⟨_, _, hcode⟩ := bind_eq_ok.1 hcode
        cases hcode
        exact raw _
      · cases hcode
        exact stay
    · cases hcode
      exact stay
  · intro _
    unfold codeWrapper
    simp only
    split
    · next hwrapper =>
      simp only [Bool.and_eq_true, Bool.not_eq_true', List.isEmpty_eq_false_iff,
        List.all_eq_true] at hwrapper
      exact wrapper _ hwrapper.1.2 List.filter_sublist.subset hwrapper.2
    · exact stay
  · intro _ out hfolding
    unfold foldingSection at hfolding
    obtain ⟨_, _, hfolding⟩ := Traced.bind_eq_ok.1 hfolding
    obtain ⟨_, _, hfolding⟩ := Traced.bind_eq_ok.1 hfolding
    cases hfolding
    exact raw _

/-- No rule makes an element with another tag. -/
theorem hasTag_of_mem {tag : List Char} {depth : Nat} {n m : Node}
    (hout : (node env depth n).result = .ok out) (hm : m ∈ out) (ht : m.hasTag tag = true) :
    n.hasTag tag = true := by
  cases n with
  | text | raw | root =>
    cases hout
    exact List.mem_singleton.1 hm ▸ ht
  | element t attrs children =>
    obtain ⟨mapped, -, helement⟩ := element_of_node hout
    refine decide_eq_true (element_left (e := ⟨t, attrs, mapped⟩)
      (S := fun out => ∀ m ∈ out, m.hasTag tag = true → t = tag) ?_ ?_ ?_ ?_ helement m hm ht)
    · exact fun s => List.forall_mem_singleton.2 fun h => nomatch h
    · exact List.forall_mem_singleton.2 fun h => of_decide_eq_true h
    · exact fun header => List.forall_mem_singleton.2 fun h => of_decide_eq_true h
    · intro inner _ _ hraw m hm ht
      have hm := hraw m hm
      cases m with
      | raw => cases ht
      | text | root | element => cases hm

theorem mem_of_takeSummary (nodes : List Node) :
    (∀ n ∈ (takeSummary nodes).1, n ∈ nodes) ∧ ∀ n ∈ (takeSummary nodes).2, n ∈ nodes := by
  induction nodes with
  | nil => exact ⟨fun n hn => (nomatch hn), fun n hn => (nomatch hn)⟩
  | cons m nodes ih =>
    rw [takeSummary]
    split
    · refine ⟨fun n hn => ?_, fun n hn => List.mem_cons_of_mem m hn⟩
      cases hn
      exact List.mem_cons_self
    · refine ⟨fun n hn => List.mem_cons_of_mem m (ih.1 n hn), fun n hn => ?_⟩
      rcases List.mem_cons.1 hn with rfl | hn
      · exact List.mem_cons_self
      · exact List.mem_cons_of_mem m (ih.2 n hn)

/-- Only summaries are taken out. -/
theorem mem_takeSummary {n : Node} (hn : n ∈ nodes) (hs : n.hasTag "summary".toList = false) :
    n ∈ (takeSummary nodes).2 := by
  induction nodes with
  | nil => exact absurd hn List.not_mem_nil
  | cons m nodes ih =>
    rw [takeSummary]
    split
    · next hm =>
      rcases List.mem_cons.1 hn with rfl | hn
      · rw [hs] at hm
        cases hm
      · exact hn
    · rcases List.mem_cons.1 hn with rfl | hn
      · exact List.mem_cons_self
      · exact List.mem_cons_of_mem m (ih hn)

variable (cell : ∀ tag attrs header, E tag attrs → E tag (cellAttributes header attrs))

include cell

theorem each_element {e : Element} (h : e.toNode.Each T E)
    (hout : (element env e).result = .ok out) : ∀ n ∈ out, n.Each T E := by
  obtain ⟨he, hc⟩ := h.of_element
  refine element_left (S := fun out => ∀ n ∈ out, n.Each T E) ?_ ?_ ?_ ?_ hout
  · exact fun s => List.forall_mem_singleton.2 (.raw s)
  · exact List.forall_mem_singleton.2 h
  · exact fun header =>
      List.forall_mem_singleton.2 (.element (cell e.tag e.attributes header he) hc)
  · exact fun inner _ hinner _ n hn => hc n (hinner hn)

/-- A property of every text and every element stays, if it does not go by the attributes that the
rule for table cells changes. -/
theorem each_mapping {depth : Nat} (h : ∀ n ∈ nodes, n.Each T E)
    (hout : (Mapping.nodes env depth nodes).result = .ok out) : ∀ n ∈ out, n.Each T E := by
  refine nodes_ok (R := fun n out => n.Each T E → ∀ m ∈ out, m.Each T E)
    (S := fun ns out => (∀ n ∈ ns, n.Each T E) → ∀ m ∈ out, m.Each T E) (fun h => h) ?_
    (fun _ h => List.forall_mem_singleton.2 h) (fun _ h => List.forall_mem_singleton.2 h)
    (fun _ h => List.forall_mem_singleton.2 h) ?_ hout h
  · intro n rest first others hfirst hothers h
    rw [List.forall_mem_cons] at h
    exact List.forall_mem_append.2 ⟨hfirst h.1, hothers h.2⟩
  · intro tag attrs children mapped out hmapped hrule h
    obtain ⟨he, hc⟩ := h.of_element
    exact each_element cell (e := ⟨tag, attrs, mapped⟩) (.element he (hmapped hc)) hrule

end StorageMarkup.Mapping
