import StorageMarkup.Proofs.Region.Nesting

/-!
# Sections too deep

Mapping checks the level of each element, and no element of a tree within the limit is too
deep. The content of a folding section is folded while mapping, its level counted from the
section, and that is the one place where mapping can be refused for nesting.

Results:
1. `RegionInSection`: a region that mapping meets inside a folding section, and its level.
2. `element_tooDeep`: only the rule for folding sections looks at nesting.
3. `mapping_tooDeep`: where mapping is refused for nesting.
-/

namespace StorageMarkup.Mapping

open Node Region

variable {env : Env} {m d : Int} {l : Limit} {depth : Nat} {ns : List Node}

/-- Among neighbours that `depth` elements are around, or below them, there is a folding section
whose content, once mapped, has a region on this level. -/
inductive RegionInSection (env : Env) : Nat → List Node → Int → Prop
  | here {depth : Nat} {ns children mapped : List Node} {attrs : Attributes} {level : Int}
      (hn : .element "details".toList attrs children ∈ ns)
      (hmapped : (nodes env (depth + 1) children).result = .ok mapped)
      (h : RegionIn env.options.limit env.vault 0 (takeSummary mapped).2 level) :
      RegionInSection env depth ns level
  | deeper {depth : Nat} {ns children : List Node} {tag : List Char} {attrs : Attributes}
      {level : Int} (hn : .element tag attrs children ∈ ns)
      (h : RegionInSection env (depth + 1) children level) : RegionInSection env depth ns level

/-- Where no text stands for an open token, no folding section holds a region. -/
theorem not_regionInSection {E : List Char → Attributes → Prop}
    (cell : ∀ tag attrs header, E tag attrs → E tag (cellAttributes header attrs)) {level : Int}
    (h : ∀ n ∈ ns, n.Each (StartsNoRegion env.vault) E) : ¬ RegionInSection env depth ns level := by
  intro hr
  induction hr with
  | @here _ _ _ mapped _ _ hn hmapped hr =>
    have hleft := each_mapping cell (h _ hn).of_element.2 hmapped
    exact not_regionIn (fun n hn => hleft n ((mem_of_takeSummary mapped).2 n hn)) hr
  | deeper hn _ ih => exact ih (h _ hn).of_element.2

/-! ## The rules -/

theorem markedIn?_eq_error {classes : List Value} {e : Failure} (h : markedIn? classes = .error e) :
    e = .notText := by
  induction classes with
  | nil => cases h
  | cons value rest ih =>
    cases value with
    | text name =>
      rw [markedIn?] at h
      split at h
      · cases h
      · exact ih h
    | absent | flag | number | list | record | other =>
      cases h
      rfl

/-- A code block is refused for its classes only. -/
theorem codeBlock_eq_error {e : Element} {f : Failure} (h : codeBlock env e = .error f) :
    f = .notText := by
  unfold codeBlock at h
  split at h
  · split at h
    · rcases bind_eq_error.1 h with h | ⟨_, _, h⟩
      · rcases bind_eq_error.1 h with h | ⟨_, _, h⟩
        · exact markedIn?_eq_error h
        · cases h
      · cases h
    · cases h
  · cases h

/-- Only the rule for folding sections looks at nesting. -/
theorem element_tooDeep {e : Element} (h : (element env e).result = .error (.tooDeep d l)) :
    e.tag = "details".toList ∧ (foldingSection env e).result = .error (.tooDeep d l) := by
  unfold element at h
  split at h
  · cases h
  split at h
  · cases h
  split at h
  · cases codeBlock_eq_error h
  split at h
  · cases h
  split at h
  · cases h
  split at h
  · cases h
  split at h
  · next ht => exact ⟨ht, h⟩
  · cases h

/-- The content of a section within the limit can be written once its regions are folded. -/
theorem foldingSection_tooDeep {e : Element} (hm : env.options.limit.levels? = some m)
    (hheight : (heightOf e.children : Int) ≤ m)
    (h : (foldingSection env e).result = .error (.tooDeep d l)) :
    l = env.options.limit ∧ d = m + 1 ∧
      RegionIn env.options.limit env.vault 0 (takeSummary e.children).2 d := by
  have hothers : heightOf (takeSummary e.children).2 ≤ heightOf e.children :=
    heightOf_subset fun n hn => (mem_of_takeSummary e.children).2 n hn
  unfold foldingSection at h
  rcases Traced.bind_eq_error.1 h with hfold | ⟨body, hbody, h⟩
  · obtain ⟨rfl, rfl, hregion⟩ := (foldAll_tooDeep_iff hm (by omega)).1 hfold
    exact ⟨rfl, rfl, hregion⟩
  · have hlow := heightOf_foldAll hbody
    have hlimit : (heightOf body : Int) ≤ m := by omega
    obtain ⟨text, htext⟩ := printAll_ok hm hlimit
    rw [htext, Traced.lift_ok_bind] at h
    cases h

/-! ## The tree -/

/-- Mapping neighbours fails where it fails for one of them. -/
theorem exists_node_of_error {e : Failure} (h : (nodes env depth ns).result = .error e) :
    ∃ n ∈ ns, (node env depth n).result = .error e := by
  induction ns with
  | nil => cases h
  | cons n ns ih =>
    rw [nodes] at h
    rcases Traced.bind_eq_error.1 h with hfirst | ⟨first, -, h⟩
    · exact ⟨n, List.mem_cons_self, hfirst⟩
    · rcases Traced.bind_eq_error.1 h with hothers | ⟨others, -, h⟩
      · obtain ⟨k, hk, hnode⟩ := ih hothers
        exact ⟨k, List.mem_cons_of_mem n hk, hnode⟩
      · cases h

theorem node_tooDeep (hm : env.options.limit.levels? = some m) (n : Node) : ∀ {depth : Nat}
    {ns : List Node}, n ∈ ns → ((depth + n.height : Nat) : Int) ≤ m →
      (node env depth n).result = .error (.tooDeep d l) →
      l = env.options.limit ∧ d = m + 1 ∧ RegionInSection env depth ns d := by
  induction n using Node.induct with
  | text | raw | root => exact fun _ _ h => nomatch h
  | element tag attrs children ih =>
    intro depth ns hn hheight h
    rw [height] at hheight
    have hlimit : withinLimit (depth + 1) env.options.limit = .ok () :=
      withinLimit_ok hm (by omega)
    rw [node, hlimit, Traced.lift_ok_bind] at h
    rcases Traced.bind_eq_error.1 h with hinner | ⟨mapped, hmapped, hrule⟩
    · obtain ⟨c, hc, hchild⟩ := exists_node_of_error hinner
      have := height_le_heightOf hc
      obtain ⟨hl, hd, hregion⟩ := ih c hc hc (by omega) hchild
      exact ⟨hl, hd, .deeper hn hregion⟩
    · obtain ⟨rfl, hsection⟩ := element_tooDeep hrule
      have hlow : (heightOf mapped : Int) ≤ m := by
        have := heightOf_mapping hmapped
        omega
      obtain ⟨hl, hd, hregion⟩ := foldingSection_tooDeep hm hlow hsection
      exact ⟨hl, hd, .here hn hmapped hregion⟩

/-- Where mapping a tree within the limit is refused for nesting, it is for a region in a folding
section, one level deeper than allowed. -/
theorem mapping_tooDeep (hm : env.options.limit.levels? = some m)
    (hheight : (heightOf ns : Int) ≤ m)
    (h : (nodes env 0 ns).result = .error (.tooDeep d l)) :
    l = env.options.limit ∧ d = m + 1 ∧ RegionInSection env 0 ns d := by
  obtain ⟨n, hn, hnode⟩ := exists_node_of_error h
  have := height_le_heightOf hn
  exact node_tooDeep hm n hn (by omega) hnode

end StorageMarkup.Mapping
