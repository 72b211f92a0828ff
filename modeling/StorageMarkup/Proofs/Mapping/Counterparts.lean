import StorageMarkup.Proofs.Mapping.Each

/-!
# Nodes and what they are mapped to

The rules for a block of code and for a folding section look at what the children of the element
were mapped to. They see a block of code alone, or a summary, just where the children have one:
mapping makes no blank of a node that is none, and no element with another tag.

Results:
1. `exists_source`: what stands in a mapped list comes from one node.
2. `codeAlone_of_mapped`, `exists_mapped_code`: a block of code alone.
3. `exists_mapped_takeSummary`: a summary and what is beside it.
-/

namespace StorageMarkup.Mapping

variable {env : Env} {depth : Nat} {n m : Node} {ns out : List Node} {tag : List Char}
  {attrs : Attributes} {children : List Node}

theorem exists_source (hm : m ∈ out) (hout : (nodes env depth ns).result = .ok out) :
    ∃ n ∈ ns, ∃ first, (node env depth n).result = .ok first ∧ m ∈ first := by
  induction ns generalizing out with
  | nil =>
    cases hout
    exact absurd hm List.not_mem_nil
  | cons n ns ih =>
    rw [nodes] at hout
    obtain ⟨first, hfirst, hout⟩ := Traced.bind_eq_ok.1 hout
    obtain ⟨others, hothers, hout⟩ := Traced.bind_eq_ok.1 hout
    cases hout
    rcases List.mem_append.1 hm with hm | hm
    · exact ⟨n, List.mem_cons_self, first, hfirst, hm⟩
    · obtain ⟨k, hk, first, hfirst, hm⟩ := ih hm hothers
      exact ⟨k, List.mem_cons_of_mem n hk, first, hfirst, hm⟩

theorem exists_eq_of_hasTag (h : n.hasTag tag = true) :
    ∃ attrs children, n = .element tag attrs children := by
  cases n with
  | element t attrs children =>
    have ht : t = tag := of_decide_eq_true h
    exact ⟨attrs, children, by rw [ht]⟩
  | text | raw | root => cases h

/-- An element without a rule stays around its mapped content. -/
theorem exists_mapped (hrule : ∀ mapped, element env ⟨tag, attrs, mapped⟩ =
      pure [.element tag attrs mapped])
    (hout : (node env depth (.element tag attrs children)).result = .ok out) :
    ∃ mapped, (nodes env (depth + 1) children).result = .ok mapped ∧
      out = [.element tag attrs mapped] := by
  obtain ⟨mapped, hmapped, helement⟩ := element_of_node hout
  rw [hrule mapped] at helement
  cases helement
  exact ⟨mapped, hmapped, rfl⟩

/-! ## Nodes that are not blank -/

theorem content_append (a b : List Node) : content (a ++ b) = content a ++ content b :=
  List.filter_append ..

/-- Every rule leaves something that is not blank. -/
theorem content_element_ne_nil {e : Element} (hout : (element env e).result = .ok out) :
    content out ≠ [] := by
  refine element_left (S := fun out => content out ≠ []) ?_ ?_ ?_ ?_ hout
  · exact fun _ => List.cons_ne_nil _ _
  · exact List.cons_ne_nil _ _
  · exact fun _ => List.cons_ne_nil _ _
  · intro inner hne _ hraw
    have hkept : content inner = inner := List.filter_eq_self.2 fun m hm => by
      have hm := hraw m hm
      cases m with
      | raw => rfl
      | text | root | element => cases hm
    rwa [hkept]

/-- There are no fewer nodes that are not blank than before. -/
theorem length_content_le (hout : (nodes env depth ns).result = .ok out) :
    (content ns).length ≤ (content out).length := by
  refine nodes_ok (R := fun n out => (content [n]).length ≤ (content out).length)
    (S := fun ns out => (content ns).length ≤ (content out).length) ?_ ?_ ?_ ?_ ?_ ?_ hout
  · exact Nat.le_refl _
  · intro n rest first others hfirst hothers
    rw [← List.singleton_append, content_append, content_append, List.length_append,
      List.length_append]
    exact Nat.add_le_add hfirst hothers
  · exact fun s => Nat.le_refl _
  · exact fun s => Nat.le_refl _
  · exact fun children => Nat.le_refl _
  · exact fun _ _ _ _ _ _ hrule => List.length_pos_iff.2 (content_element_ne_nil hrule)

/-! ## Code -/

/-- The children are one block of code and white space. -/
def CodeAlone (children : List Node) : Prop :=
  ∃ attrs inner, content children = [.element "code".toList attrs inner]

theorem codeAlone_of_mapped (hout : (nodes env depth ns).result = .ok out) (h : CodeAlone out) :
    CodeAlone ns := by
  obtain ⟨attrs, inner, hcontent⟩ := h
  have hm : Node.element "code".toList attrs inner ∈ content out := by
    rw [hcontent]
    exact List.mem_singleton.2 rfl
  obtain ⟨n, hn, first, hfirst, hm⟩ := exists_source (List.mem_filter.1 hm).1 hout
  obtain ⟨attrs', inner', rfl⟩ := exists_eq_of_hasTag (hasTag_of_mem hfirst hm (decide_eq_true rfl))
  have hmem : Node.element "code".toList attrs' inner' ∈ content ns := List.mem_filter.2 ⟨hn, rfl⟩
  have hlength := length_content_le hout
  rw [hcontent] at hlength
  obtain ⟨k, hk⟩ := List.length_eq_one_iff.1
    (Nat.le_antisymm hlength (List.length_pos_of_mem hmem))
  rw [hk, List.mem_singleton] at hmem
  exact ⟨attrs', inner', by rw [hk, hmem]⟩

theorem content_eq_nil_of_mapped (hout : (nodes env depth ns).result = .ok out)
    (h : content ns = []) : content out = [] := by
  refine List.filter_eq_nil_iff.2 fun m hm => ?_
  obtain ⟨n, hn, first, hfirst, hm⟩ := exists_source hm hout
  have hblank := List.filter_eq_nil_iff.1 h n hn
  cases n with
  | text s =>
    cases hfirst
    rwa [List.mem_singleton.1 hm]
  | raw | root | element => exact absurd rfl hblank

/-- A block of code alone is alone after its content is mapped. -/
theorem exists_mapped_code {inner : List Node}
    (h : content ns = [.element "code".toList attrs inner])
    (hout : (nodes env depth ns).result = .ok out) :
    ∃ mapped, (nodes env (depth + 1) inner).result = .ok mapped ∧
      content out = [.element "code".toList attrs mapped] := by
  induction ns generalizing out with
  | nil => cases h
  | cons n ns ih =>
    rw [nodes] at hout
    obtain ⟨first, hfirst, hout⟩ := Traced.bind_eq_ok.1 hout
    obtain ⟨others, hothers, hout⟩ := Traced.bind_eq_ok.1 hout
    cases hout
    rw [content_append]
    cases hn : n.isBlank with
    | true =>
      rw [content, List.filter_cons_of_neg (by rw [hn]; decide)] at h
      obtain ⟨mapped, hmapped, hcontent⟩ := ih h hothers
      have hfirst : content first = [] := by
        cases n with
        | text s =>
          cases hfirst
          exact List.filter_eq_nil_iff.2 (List.forall_mem_singleton.2 (by rw [hn]; decide))
        | raw | root | element => cases hn
      exact ⟨mapped, hmapped, by rw [hfirst, hcontent, List.nil_append]⟩
    | false =>
      rw [content, List.filter_cons_of_pos (by rw [hn]; decide)] at h
      obtain ⟨rfl, hrest⟩ := List.cons.inj h
      obtain ⟨mapped, hmapped, rfl⟩ := exists_mapped (fun _ => rfl) hfirst
      exact ⟨mapped, hmapped, by rw [content_eq_nil_of_mapped hothers hrest]; rfl⟩

/-! ## Summaries -/

/-- Before the first summary there is none. -/
theorem takeSummary_append {others : List Node}
    (h : ∀ m ∈ ns, m.hasTag "summary".toList = false) :
    takeSummary (ns ++ others) = ((takeSummary others).1, ns ++ (takeSummary others).2) := by
  induction ns with
  | nil => rfl
  | cons m ns ih =>
    rw [List.forall_mem_cons] at h
    rw [List.cons_append, takeSummary, if_neg (by rw [h.1]; decide), ih h.2]
    rfl

/-- A summary is mapped where it stands. -/
theorem exists_mapped_takeSummary (hout : (nodes env depth ns).result = .ok out) :
    (nodes env depth (takeSummary ns).2).result = .ok (takeSummary out).2 ∧
      ∀ summary, (takeSummary ns).1 = some summary →
        ∃ mapped, (node env depth summary).result = .ok [mapped] ∧
          (takeSummary out).1 = some mapped := by
  induction ns generalizing out with
  | nil =>
    cases hout
    exact ⟨rfl, fun _ h => nomatch h⟩
  | cons n ns ih =>
    rw [nodes] at hout
    obtain ⟨first, hfirst, hout⟩ := Traced.bind_eq_ok.1 hout
    obtain ⟨others, hothers, hout⟩ := Traced.bind_eq_ok.1 hout
    cases hout
    rw [takeSummary]
    cases hn : n.hasTag "summary".toList with
    | true =>
      obtain ⟨attrs, children, rfl⟩ := exists_eq_of_hasTag hn
      obtain ⟨mapped, hmapped, rfl⟩ := exists_mapped (fun _ => rfl) hfirst
      refine ⟨hothers, fun summary h => ?_⟩
      cases h
      exact ⟨_, hfirst, rfl⟩
    | false =>
      have hnone : ∀ m ∈ first, m.hasTag "summary".toList = false := fun m hm =>
        Bool.eq_false_iff.2 fun ht => by
          rw [hasTag_of_mem hfirst hm ht] at hn
          cases hn
      obtain ⟨hrest, hsummary⟩ := ih hothers
      rw [takeSummary_append hnone]
      refine ⟨?_, hsummary⟩
      show (nodes env depth (n :: (takeSummary ns).2)).result = _
      rw [nodes, Traced.result_bind, hfirst, ok_bind, Traced.result_bind, hrest]
      rfl

end StorageMarkup.Mapping
