import StorageMarkup.Proofs.Node.Each
import StorageMarkup.Proofs.Region.Closing
import StorageMarkup.Proofs.Tree.Success

/-!
# Folding as a relation

What the scan over neighbours makes of them, with the limit on nesting left out of account:
whatever is around the neighbours, they are folded in one way only.

Results:
1. `folds_of_foldAmong`, `Folds.unique`: how deep the neighbours stand plays no part.
2. `Folds.append`: neighbours side by side, where no marker of the first closes in the second.
3. `Folds.mem`, `each_foldBelowAll`: what folding leaves was there before.
-/

namespace StorageMarkup.Region

variable {limit : Limit} {v : Option Vault} {name : List Char} {a b x y : List Node}
  {nodes out out' : List Node} {T : List Char → Prop} {E : List Char → Attributes → Prop}

/-- What the scan over neighbours makes of them: it leaves a node, it leaves an open marker that
nothing closes, or it writes a region, its span folded, and reads on after it. -/
inductive Folds (limit : Limit) (v : Option Vault) : List Node → List Node → Prop
  | nil : Folds limit v [] []
  | content {n : Node} {rest others : List Node} (hn : n.openingMarker? v = none)
      (h : Folds limit v rest others) : Folds limit v (n :: rest) (n :: others)
  | unclosed {n : Node} {head name : List Char} {rest others : List Node}
      (hn : n.openingMarker? v = some (head, name)) (hs : span? v name rest = none)
      (h : Folds limit v rest others) : Folds limit v (n :: rest) (n :: others)
  | region {n : Node} {head name body : List Char} {rest span after inner others : List Node}
      (hn : n.openingMarker? v = some (head, name)) (hs : span? v name rest = some (span, after))
      (hspan : Folds limit v span inner) (hbody : Node.printAll limit inner = .ok body)
      (h : Folds limit v after others) :
      Folds limit v (n :: rest) (.raw (Directive.region head (strip body) name) :: others)

theorem folds_of_foldAmong (nodes : List Node) : ∀ {depth : Nat} {out : List Node},
    (foldAmong limit v depth nodes).result = .ok out → Folds limit v nodes out := by
  induction hlen : nodes.length using Nat.strongRecOn generalizing nodes with
  | ind k ih =>
    intro depth out hout
    cases nodes with
    | nil =>
      rw [foldAmong_nil] at hout
      cases hout
      exact .nil
    | cons n rest =>
      rw [List.length_cons] at hlen
      cases hn : n.openingMarker? v with
      | none =>
        rw [foldAmong_content hn] at hout
        obtain ⟨others, hothers, hout⟩ := Traced.bind_eq_ok.1 hout
        cases hout
        exact .content hn (ih rest.length (by omega) rest rfl hothers)
      | some marker =>
        obtain ⟨head, name⟩ := marker
        cases hs : span? v name rest with
        | none =>
          rw [foldAmong_unclosed hn hs] at hout
          obtain ⟨_, _, hout⟩ := Traced.bind_eq_ok.1 hout
          obtain ⟨others, hothers, hout⟩ := Traced.bind_eq_ok.1 hout
          cases hout
          exact .unclosed hn hs (ih rest.length (by omega) rest rfl hothers)
        | some found =>
          obtain ⟨span, after⟩ := found
          have hshort := span?_length hs
          rw [foldAmong_region hn hs] at hout
          obtain ⟨_, _, hout⟩ := Traced.bind_eq_ok.1 hout
          obtain ⟨inner, hinner, hout⟩ := Traced.bind_eq_ok.1 hout
          obtain ⟨body, hbody, hout⟩ := Traced.bind_eq_ok.1 hout
          obtain ⟨_, _, hout⟩ := Traced.bind_eq_ok.1 hout
          obtain ⟨others, hothers, hout⟩ := Traced.bind_eq_ok.1 hout
          cases hout
          exact .region hn hs (ih span.length (by omega) span rfl hinner) hbody
            (ih after.length (by omega) after rfl hothers)

namespace Folds

theorem unique (h : Folds limit v nodes out) (h' : Folds limit v nodes out') : out = out' := by
  induction h generalizing out' with
  | nil =>
    cases h'
    rfl
  | content hn _ ih =>
    cases h' with
    | content _ h' => rw [ih h']
    | unclosed hn' | region hn' => rw [hn] at hn'; cases hn'
  | unclosed hn hs _ ih =>
    cases h' with
    | unclosed _ _ h' => rw [ih h']
    | content hn' => rw [hn] at hn'; cases hn'
    | region hn' hs' =>
      cases hn.symm.trans hn'
      cases hs.symm.trans hs'
  | region hn hs _ hbody _ ihspan ih =>
    cases h' with
    | content hn' => rw [hn] at hn'; cases hn'
    | unclosed hn' hs' =>
      cases hn.symm.trans hn'
      cases hs.symm.trans hs'
    | region hn' hs' hspan' hbody' h' =>
      cases hn.symm.trans hn'
      cases hs.symm.trans hs'
      cases ihspan hspan'
      cases hbody.symm.trans hbody'
      rw [ih h']

end Folds

/-! ## Neighbours side by side -/

theorem span?_eq_none : span? v name nodes = none ↔ ∀ n ∈ nodes, n.takeClosing v name = none := by
  induction nodes with
  | nil => simp [span?]
  | cons n nodes ih =>
    rw [span?, List.forall_mem_cons, ← ih]
    cases n.takeClosing v name with
    | some left => simp
    | none => simp

/-- A search that comes to its end in the first neighbours does not see those after them. -/
theorem span?_append_of_some {span after : List Node} (h : span? v name a = some (span, after))
    (b : List Node) : span? v name (a ++ b) = some (span, after ++ b) := by
  induction a generalizing span with
  | nil => cases h
  | cons n a ih =>
    rw [span?] at h
    rw [List.cons_append, span?]
    split at h
    · cases h
      rfl
    · obtain ⟨⟨span', after'⟩, hs, he⟩ := Option.map_eq_some_iff.1 h
      cases he
      rw [ih hs]
      rfl

/-- Folding goes side by side if no open marker that is left of the first neighbours is closed in
the second. -/
theorem Folds.append (ha : Folds limit v a x) (hb : Folds limit v b y)
    (hopen : ∀ n ∈ x, ∀ head name, n.openingMarker? v = some (head, name) →
      span? v name b = none) : Folds limit v (a ++ b) (x ++ y) := by
  induction ha with
  | nil => exact hb
  | content hn _ ih =>
    rw [List.forall_mem_cons] at hopen
    exact .content hn (ih hopen.2)
  | unclosed hn hs _ ih =>
    rw [List.forall_mem_cons] at hopen
    refine .unclosed hn (span?_eq_none.2 (List.forall_mem_append.2 ?_)) (ih hopen.2)
    exact ⟨span?_eq_none.1 hs, span?_eq_none.1 (hopen.1 _ _ hn)⟩
  | region hn hs hspan hbody _ _ ih =>
    rw [List.forall_mem_cons] at hopen
    exact .region hn (span?_append_of_some hs b) hspan hbody (ih hopen.2)

theorem foldBelowAll_append (depth : Nat) (a b : List Node) :
    foldBelowAll limit v depth (a ++ b) = (do
      let x ← foldBelowAll limit v depth a
      let y ← foldBelowAll limit v depth b
      return x ++ y) := by
  induction a with
  | nil => exact (bind_pure _).symm
  | cons n a ih =>
    rw [List.cons_append, foldBelowAll, foldBelowAll, ih]
    simp only [bind_assoc, pure_bind, List.cons_append]

/-! ## What folding leaves -/

/-- Each node that folding leaves was there before, or is final output. -/
theorem Folds.mem {m : Node} (h : Folds limit v nodes out) (hm : m ∈ out) :
    m ∈ nodes ∨ ∃ s, m = .raw s := by
  induction h with
  | nil => exact absurd hm List.not_mem_nil
  | content _ _ ih | unclosed _ _ _ ih =>
    rcases List.mem_cons.1 hm with rfl | hm
    · exact .inl List.mem_cons_self
    · exact (ih hm).imp_left (List.mem_cons_of_mem _)
  | region _ hs _ _ _ _ ih =>
    obtain ⟨before, last, left, rfl, -, -⟩ := span?_eq_some hs
    rcases List.mem_cons.1 hm with rfl | hm
    · exact .inr ⟨_, rfl⟩
    · refine (ih hm).imp_left fun hm => List.mem_cons_of_mem _ ?_
      exact List.mem_append_right before (List.mem_cons_of_mem last hm)

theorem Folds.forall_mem {P : Node → Prop} (h : Folds limit v nodes out)
    (hn : ∀ n ∈ nodes, P n) (raw : ∀ s, P (.raw s)) : ∀ n ∈ out, P n := by
  intro m hm
  rcases h.mem hm with hm | ⟨s, rfl⟩
  · exact hn m hm
  · exact raw s

theorem Folds.each (h : Folds limit v nodes out) (hn : ∀ n ∈ nodes, n.Each T E) :
    ∀ n ∈ out, n.Each T E := h.forall_mem hn .raw

theorem each_foldBelowAll {depth : Nat}
    (hout : (foldBelowAll limit v depth nodes).result = .ok out) (h : ∀ n ∈ nodes, n.Each T E) :
    ∀ n ∈ out, n.Each T E := by
  refine foldBelowAll_ok (R := fun n out => n.Each T E → out.Each T E)
    (S := fun ns out => (∀ n ∈ ns, n.Each T E) → ∀ n ∈ out, n.Each T E) ?_ ?_ ?_ ?_ ?_ ?_ hout h
  · exact fun h => h
  · exact fun n rest first others hfirst hothers => forall_cons_of_imp hfirst hothers
  · exact fun s h => h
  · exact fun s h => h
  · exact fun children h => h
  · intro tag attrs children mapped depth folded hmapped hfolded h
    obtain ⟨he, hc⟩ := h.of_element
    exact .element he ((folds_of_foldAmong mapped hfolded).each (hmapped hc))

/-- Where no text holds the close token, the search for it finds nothing. -/
theorem takeClosing_eq_none_of_each {n : Node} (h : n.Each (¬ HoldsClosing v name ·) E) :
    n.takeClosing v name = none := by
  induction h with
  | text h => exact takeClosing_eq_none_of_text .text h
  | raw | root => rfl
  | element _ _ ih =>
    rw [Node.takeClosing, takeClosingAmong_eq_none ih]
    rfl

end StorageMarkup.Region
