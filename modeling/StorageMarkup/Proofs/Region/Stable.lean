import StorageMarkup.Proofs.Region.Folds

/-!
# Folded trees stay folded

Folding goes over the children of an element first and over its neighbours after that,
and within neighbours from left to right. An open marker that a step leaves is not
closed by any later step: what comes after it only loses close tokens, since a region is
final output and nothing is taken out of that. So a folded tree is settled, and there is
nothing left to fold in a settled tree.

A tree inside a tree is not gone into, so what stands in there stays open.

Results:
1. `Folds.apart`: no open marker that the scan leaves is closed by a later neighbour.
2. `foldBelow_settled`, `foldBelow_of_settled`: what folding makes is settled, and what is
   settled stays.
3. `foldAll_settles`: a folded tree has no region left at any depth, and folds to itself.
-/

namespace StorageMarkup.Region

variable {limit : Limit} {v : Option Vault} {depth : Nat} {n m : Node} {nodes list out : List Node}

/-- A list of neighbours in a tree: the nodes at the top, or the children of an element however
deep among them. -/
inductive Neighbours : List Node → List Node → Prop
  | top (nodes : List Node) : Neighbours nodes nodes
  | inside {nodes list children : List Node} {tag : List Char} {attrs : Attributes}
      (hm : .element tag attrs children ∈ nodes) (h : Neighbours children list) :
      Neighbours nodes list

/-- The first node opens no region that the second one closes. -/
def Apart (v : Option Vault) (n m : Node) : Prop :=
  ∀ head name, n.openingMarker? v = some (head, name) → m.takeClosing v name = none

instance : Decidable (Apart v n m) :=
  decidable_of_iff (∀ marker ∈ n.openingMarker? v, m.takeClosing v marker.2 = none)
    ⟨fun h head name hn => h (head, name) hn, fun h marker hn => h marker.1 marker.2 hn⟩

/-- A node within the limit whose elements hold no region that could be folded. -/
inductive Settled (limit : Limit) (v : Option Vault) : Nat → Node → Prop
  | text {depth : Nat} (s : List Char) : Settled limit v depth (.text s)
  | raw {depth : Nat} (s : List Char) : Settled limit v depth (.raw s)
  | root {depth : Nat} (children : List Node) : Settled limit v depth (.root children)
  | element {depth : Nat} {tag : List Char} {attrs : Attributes} {children : List Node}
      (hlimit : withinLimit (depth + 1) limit = .ok ()) (hapart : children.Pairwise (Apart v))
      (h : ∀ c ∈ children, Settled limit v (depth + 1) c) :
      Settled limit v depth (.element tag attrs children)

/-! ## One list of neighbours -/

theorem apart_of_content (h : n.openingMarker? v = none) (m : Node) : Apart v n m := by
  intro head name hn
  rw [h] at hn
  cases hn

/-- No open marker that the scan leaves is closed by a later neighbour. -/
theorem Folds.apart (h : Folds limit v nodes out) : out.Pairwise (Apart v) := by
  induction h with
  | nil => exact .nil
  | content hn _ ih => exact .cons (fun m _ => apart_of_content hn m) ih
  | region hn hs hspan hbody h ihspan ih => exact .cons (fun m _ => apart_of_content rfl m) ih
  | unclosed hn hs h ih =>
    refine .cons (fun m hm head name hn' => ?_) ih
    cases hn.symm.trans hn'
    -- what follows was there before, or is final output, which closes nothing
    rcases h.mem hm with hm | ⟨s, rfl⟩
    · exact span?_eq_none.1 hs m hm
    · rfl

/-- Neighbours among which nothing closes a region are left as they are. -/
theorem foldAmong_of_apart (h : nodes.Pairwise (Apart v)) :
    (foldAmong limit v depth nodes).result = .ok nodes := by
  induction h with
  | nil => rw [foldAmong_nil]; rfl
  | @cons n rest hn _ ih =>
    have hkeep : (foldAmong limit v depth rest >>= fun others =>
        (pure (n :: others) : Traced (List Node))).result = .ok (n :: rest) :=
      Traced.bind_eq_ok.2 ⟨rest, ih, rfl⟩
    cases hm : n.openingMarker? v with
    | none =>
      rw [foldAmong_content hm]
      exact hkeep
    | some marker =>
      obtain ⟨head, name⟩ := marker
      rw [foldAmong_unclosed hm (span?_eq_none.2 fun m hmem => hn m hmem head name hm)]
      exact Traced.bind_eq_ok.2 ⟨(), rfl, hkeep⟩

/-! ## The tree -/

theorem foldBelowAll_settled_of_each
    (h : ∀ n ∈ nodes, ∀ out, (foldBelow limit v depth n).result = .ok out →
      Settled limit v depth out)
    (hout : (foldBelowAll limit v depth nodes).result = .ok out) :
    ∀ n ∈ out, Settled limit v depth n := by
  refine foldBelowAll_of_each (R := fun _ out => Settled limit v depth out)
    (S := fun _ out => ∀ n ∈ out, Settled limit v depth n) ?_ ?_ h hout
  · exact fun m hm => absurd hm List.not_mem_nil
  · exact fun n rest first others hfirst hothers => List.forall_mem_cons.2 ⟨hfirst, hothers⟩

/-- What folding makes of a node is settled. -/
theorem foldBelow_settled (n : Node) : ∀ (depth : Nat) (out : Node),
    (foldBelow limit v depth n).result = .ok out → Settled limit v depth out := by
  induction n using Node.induct with
  | text s => exact fun _ _ h => by cases h; exact .text s
  | raw s => exact fun _ _ h => by cases h; exact .raw s
  | root children => exact fun _ _ h => by cases h; exact .root children
  | element tag attrs children ih =>
    intro depth out hout
    rw [foldBelow] at hout
    obtain ⟨_, hlimit, hout⟩ := Traced.bind_eq_ok.1 hout
    obtain ⟨mapped, hmapped, hout⟩ := Traced.bind_eq_ok.1 hout
    obtain ⟨folded, hfolded, hout⟩ := Traced.bind_eq_ok.1 hout
    cases hout
    have hfolds := folds_of_foldAmong mapped hfolded
    have hsettled := foldBelowAll_settled_of_each (fun c hc out => ih c hc (depth + 1) out) hmapped
    exact .element hlimit hfolds.apart (hfolds.forall_mem hsettled .raw)

theorem foldBelowAll_of_each_same
    (h : ∀ n ∈ nodes, (foldBelow limit v depth n).result = .ok n) :
    (foldBelowAll limit v depth nodes).result = .ok nodes := by
  induction nodes with
  | nil => rfl
  | cons n nodes ih =>
    rw [List.forall_mem_cons] at h
    rw [foldBelowAll]
    exact Traced.bind_eq_ok.2 ⟨n, h.1, Traced.bind_eq_ok.2 ⟨nodes, ih h.2, rfl⟩⟩

/-- A settled node stays as it is. -/
theorem foldBelow_of_settled (h : Settled limit v depth n) :
    (foldBelow limit v depth n).result = .ok n := by
  induction h with
  | text | raw | root => rfl
  | @element depth tag attrs children hlimit hapart _ ih =>
    rw [foldBelow]
    refine Traced.bind_eq_ok.2 ⟨(), hlimit, Traced.bind_eq_ok.2 ⟨children, ?_, ?_⟩⟩
    · exact foldBelowAll_of_each_same ih
    · exact Traced.bind_eq_ok.2 ⟨children, foldAmong_of_apart hapart, rfl⟩

/-- In a settled tree nothing is left to fold, however deep. -/
theorem Neighbours.apart (h : Neighbours nodes list) (hapart : nodes.Pairwise (Apart v))
    (hsettled : ∀ n ∈ nodes, ∃ depth, Settled limit v depth n) : list.Pairwise (Apart v) := by
  induction h with
  | top => exact hapart
  | inside hm _ ih =>
    obtain ⟨depth, hn⟩ := hsettled _ hm
    cases hn with
    | element _ hapart hchildren => exact ih hapart fun c hc => ⟨depth + 1, hchildren c hc⟩

/-- A folded tree has no region left, neither at the top nor among the children of an element at
any depth, and folding it once more leaves it as it is. -/
theorem foldAll_settles (h : (foldAll limit v nodes).result = .ok out) :
    (∀ list, Neighbours out list → list.Pairwise (Apart v)) ∧
      (foldAll limit v out).result = .ok out := by
  obtain ⟨_, hlimit, -⟩ := Traced.bind_eq_ok.1 h
  obtain ⟨mapped, hmapped, hfolded⟩ := foldAll_eq_ok h
  have hfolds := folds_of_foldAmong mapped hfolded
  have hsettled : ∀ n ∈ out, Settled limit v 0 n := hfolds.forall_mem
    (foldBelowAll_settled_of_each (fun n _ out => foldBelow_settled n 0 out) hmapped) .raw
  constructor
  · exact fun list hlist => hlist.apart hfolds.apart fun n hn => ⟨0, hsettled n hn⟩
  · refine Traced.bind_eq_ok.2 ⟨(), hlimit, Traced.bind_eq_ok.2 ⟨out, ?_, ?_⟩⟩
    · exact foldBelowAll_of_each_same fun n hn => foldBelow_of_settled (hsettled n hn)
    · exact foldAmong_of_apart hfolds.apart

/-- Inside an element, the first of two open markers has its close token beside it. Outside, the
close token stands before the open marker and stays. -/
theorem foldAll_settles_unclosed :
    let opening : List Char := Directive.opening ['a'] []
    let closing : List Char := Directive.closing ['a']
    let div (children : List Node) : Node := .element "div".toList [] children
    let nodes : List Node := [.text closing,
      div [.text opening, .text ['x'], .element ['p'] [] [.text opening], .text closing,
        .text opening],
      .text opening]
    let folded : List Node :=
      [.raw (Directive.region opening ("x<p>".toList ++ opening ++ "</p>".toList) ['a']),
        .text opening]
    let out : List Node := [.text closing, div folded, .text opening]
    (foldAll .standard none nodes).result = .ok out ∧ folded.Pairwise (Apart none) ∧
      (foldAll .standard none out).result = .ok out := by
  intro opening closing div nodes folded out
  have hout : (foldAll .standard none nodes).result = .ok out := by with_unfolding_all rfl
  obtain ⟨hapart, hsame⟩ := foldAll_settles hout
  have hmem : div folded ∈ out := .tail _ (.head _)
  exact ⟨hout, hapart folded (.inside hmem (.top folded)), hsame⟩

/-- The children of an element are not folded if a tree inside the tree is around them. -/
theorem element_inside_root_stays_open :
    let nodes : List Node := [.root [.element "div".toList []
      [.text (Directive.opening ['a'] []), .text (Directive.closing ['a'])]]]
    (foldAll .standard (some .empty) nodes).result = .ok nodes ∧
      ¬ ∀ e ∈ Node.elementsOf nodes, e.children.Pairwise (Apart (some .empty)) := by
  intro nodes
  constructor
  · exact Traced.bind_eq_ok.2 ⟨(), rfl, Traced.bind_eq_ok.2 ⟨nodes, rfl, foldAmong_single _⟩⟩
  · decide +kernel

end StorageMarkup.Region
