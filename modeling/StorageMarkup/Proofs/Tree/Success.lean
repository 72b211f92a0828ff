import StorageMarkup.Proofs.Node.Depth
import StorageMarkup.Proofs.Region.Folding
import StorageMarkup.Tree.Pass

/-!
# Passes that succeed

Each pass over a tree is a recursion that may fail. What holds of its input and
output, if it succeeds, is shown by an induction with one case per step of the pass;
depth and limit play no part in it.

Results:
1. `bodyOf_eq`, `liftMarkersAmong_eq`: passes that look at each node by itself.
2. `Mapping.element_cases`, `Mapping.element_ok`: the rule for one element.
3. `Mapping.nodes_ok`, `Region.foldAmong_ok`, `Region.foldBelowAll_ok`,
   `settleFootnotesAmong_ok`, `printAll_ok_induct`: the induction of each pass that may fail.
-/

namespace StorageMarkup

variable {limit : Limit} {v : Option Vault}

/-! ## Passes without failure -/

theorem Node.bodyOf_eq (nodes : List Node) : Node.bodyOf nodes = nodes.flatMap Node.body :=
  eq_flatMap rfl (fun _ _ => rfl) nodes

theorem Node.liftMarkersAmong_eq (nodes : List Node) :
    Node.liftMarkersAmong v nodes = nodes.flatMap (Node.liftMarkers v) :=
  eq_flatMap rfl (fun _ _ => rfl) nodes

/-- A property that goes from each node to what becomes of it goes from all to all. -/
theorem forall_cons_of_imp {P Q : Node → Prop} {n first : Node} {rest others : List Node}
    (hfirst : P n → Q first) (hothers : (∀ m ∈ rest, P m) → ∀ m ∈ others, Q m)
    (h : ∀ m ∈ n :: rest, P m) : ∀ m ∈ first :: others, Q m := by
  rw [List.forall_mem_cons] at h
  exact List.forall_mem_cons.2 ⟨hfirst h.1, hothers h.2⟩

/-! ## Mapping -/

namespace Mapping

/-- The elements that there is a rule for. -/
def ruledTags : List (List Char) :=
  ["img".toList, "a".toList, "pre".toList, "div".toList, "th".toList, "td".toList, "details".toList]

/-- One rule is for each tag, and other elements stay. -/
theorem element_cases {env : Env} {e : Element} {T : List Node → Prop}
    (image : e.tag = "img".toList → T (image e)) (link : e.tag = "a".toList → T (link env e))
    (code : e.tag = "pre".toList → ∀ out, codeBlock env e = .ok out → T out)
    (wrapper : e.tag = "div".toList → T (codeWrapper e))
    (header : e.tag = "th".toList → T (tableCell true e))
    (cell : e.tag = "td".toList → T (tableCell false e))
    (folding : e.tag = "details".toList → ∀ out, (foldingSection env e).result = .ok out → T out)
    (other : e.tag ∉ ruledTags → T [e.toNode]) {out : List Node}
    (hout : (element env e).result = .ok out) : T out := by
  unfold element at hout
  split at hout
  · next ht =>
    cases hout
    exact image ht
  split at hout
  · next ht =>
    cases hout
    exact link ht
  split at hout
  · next ht => exact code ht out hout
  split at hout
  · next ht =>
    cases hout
    exact wrapper ht
  split at hout
  · next ht =>
    cases hout
    exact header ht
  split at hout
  · next ht =>
    cases hout
    exact cell ht
  split at hout
  · next ht => exact folding ht out hout
  · cases hout
    refine other ?_
    simp only [ruledTags, List.mem_cons, List.not_mem_nil, or_false, *, not_false_eq_true]

/-- The same where neither the kind of a table cell nor the tag of another element matters. -/
theorem element_ok {env : Env} {e : Element} {T : List Node → Prop}
    (image : e.tag = "img".toList → T (image e)) (link : e.tag = "a".toList → T (link env e))
    (code : e.tag = "pre".toList → ∀ out, codeBlock env e = .ok out → T out)
    (wrapper : e.tag = "div".toList → T (codeWrapper e)) (cell : ∀ header, T (tableCell header e))
    (folding : e.tag = "details".toList → ∀ out, (foldingSection env e).result = .ok out → T out)
    (other : T [e.toNode]) {out : List Node} (hout : (element env e).result = .ok out) : T out :=
  element_cases image link code wrapper (fun _ => cell true) (fun _ => cell false) folding
    (fun _ => other) hout

/-- What becomes of a node stands among what becomes of its neighbours. -/
theorem exists_node_of_mem {env : Env} {depth : Nat} {n : Node} {ns out : List Node} (hn : n ∈ ns)
    (hout : (nodes env depth ns).result = .ok out) :
    ∃ first, (node env depth n).result = .ok first ∧ first ⊆ out := by
  induction ns generalizing out with
  | nil => exact absurd hn List.not_mem_nil
  | cons m ns ih =>
    rw [nodes] at hout
    obtain ⟨first, hfirst, hout⟩ := Traced.bind_eq_ok.1 hout
    obtain ⟨others, hothers, hout⟩ := Traced.bind_eq_ok.1 hout
    cases hout
    rcases List.mem_cons.1 hn with rfl | hn
    · exact ⟨first, hfirst, List.subset_append_left first others⟩
    · obtain ⟨first', hfirst', hsub⟩ := ih hn hothers
      exact ⟨first', hfirst', List.subset_append_of_subset_right first hsub⟩

/-- The content of an element is mapped, then the element around what came of it. -/
theorem element_of_node {env : Env} {depth : Nat} {tag : List Char} {attrs : Attributes}
    {children out : List Node}
    (hout : (node env depth (.element tag attrs children)).result = .ok out) :
    ∃ mapped, (nodes env (depth + 1) children).result = .ok mapped ∧
      (element env ⟨tag, attrs, mapped⟩).result = .ok out := by
  rw [node] at hout
  obtain ⟨_, _, hout⟩ := Traced.bind_eq_ok.1 hout
  exact Traced.bind_eq_ok.1 hout

variable {env : Env} {R : Node → List Node → Prop} {S : List Node → List Node → Prop}
  (nil : S [] [])
  (cons : ∀ n rest first others, R n first → S rest others → S (n :: rest) (first ++ others))

include nil cons

theorem nodes_of_each {ns : List Node} {depth : Nat}
    (h : ∀ n ∈ ns, ∀ out, (node env depth n).result = .ok out → R n out) {out : List Node}
    (hout : (nodes env depth ns).result = .ok out) : S ns out := by
  induction ns generalizing out with
  | nil =>
    cases hout
    exact nil
  | cons n ns ih =>
    rw [List.forall_mem_cons] at h
    rw [nodes, Traced.result_bind] at hout
    obtain ⟨first, hfirst, hout⟩ := bind_eq_ok.1 hout
    rw [Traced.result_bind] at hout
    obtain ⟨others, hothers, hout⟩ := bind_eq_ok.1 hout
    cases hout
    exact cons n ns first others (h.1 first hfirst) (ih h.2 hothers)

variable (text : ∀ s, R (.text s) [.text s]) (raw : ∀ s, R (.raw s) [.raw s])
  (root : ∀ children, R (.root children) [.root children])
  (rule : ∀ tag attrs children mapped out, S children mapped →
    (element env ⟨tag, attrs, mapped⟩).result = .ok out → R (.element tag attrs children) out)

include text raw root rule

/-- An element is mapped after its content. -/
theorem node_ok (n : Node) :
    ∀ (depth : Nat) (out : List Node), (node env depth n).result = .ok out → R n out := by
  induction n using Node.induct with
  | text s => exact fun _ _ h => by cases h; exact text s
  | raw s => exact fun _ _ h => by cases h; exact raw s
  | root children => exact fun _ _ h => by cases h; exact root children
  | element tag attrs children ih =>
    intro depth out hout
    obtain ⟨mapped, hmapped, hout⟩ := element_of_node hout
    exact rule tag attrs children mapped out
      (nodes_of_each nil cons (fun c hc out => ih c hc (depth + 1) out) hmapped) hout

theorem nodes_ok {ns out : List Node} {depth : Nat}
    (hout : (nodes env depth ns).result = .ok out) : S ns out :=
  nodes_of_each nil cons
    (fun n _ out hn => node_ok nil cons text raw root rule n depth out hn) hout

end Mapping

/-! ## Folding -/

namespace Region

variable {R : Node → Node → Prop} {S : List Node → List Node → Prop}

/-- The scan keeps a node, or it folds a region and goes on after it. -/
theorem foldAmong_ok (nil : S [] [])
    (keep : ∀ n rest others, S rest others → S (n :: rest) (n :: others))
    (fold : ∀ n head name rest span after inner body others,
      n.openingMarker? v = some (head, name) → span? v name rest = some (span, after) →
      S span inner → Node.printAll limit inner = .ok body → S after others →
      S (n :: rest) (.raw (Directive.region head (strip body) name) :: others))
    (nodes : List Node) : ∀ (depth : Nat) (out : List Node),
      (foldAmong limit v depth nodes).result = .ok out → S nodes out := by
  induction hlen : nodes.length using Nat.strongRecOn generalizing nodes with
  | ind k ih =>
    intro depth out hout
    cases nodes with
    | nil =>
      rw [foldAmong_nil] at hout
      cases hout
      exact nil
    | cons n rest =>
      rw [List.length_cons] at hlen
      have hkeep : ∀ out, (foldAmong limit v depth rest >>= fun others =>
          (pure (n :: others) : Traced (List Node))).result = .ok out → S (n :: rest) out := by
        intro out hout
        rw [Traced.result_bind] at hout
        obtain ⟨others, hothers, hout⟩ := bind_eq_ok.1 hout
        cases hout
        exact keep n rest others (ih rest.length (by omega) rest rfl depth others hothers)
      cases hm : n.openingMarker? v with
      | none =>
        rw [foldAmong_content hm] at hout
        exact hkeep out hout
      | some marker =>
        obtain ⟨head, name⟩ := marker
        cases hs : span? v name rest with
        | none =>
          rw [foldAmong_unclosed hm hs, Traced.result_bind, Traced.result_emit] at hout
          exact hkeep out hout
        | some found =>
          obtain ⟨span, after⟩ := found
          -- both recursive calls are for fewer nodes
          have hshort := span?_length hs
          rw [foldAmong_region hm hs, Traced.result_bind] at hout
          obtain ⟨_, _, hout⟩ := bind_eq_ok.1 hout
          rw [Traced.result_bind] at hout
          obtain ⟨inner, hinner, hout⟩ := bind_eq_ok.1 hout
          rw [Traced.result_bind] at hout
          obtain ⟨body, hbody, hout⟩ := bind_eq_ok.1 hout
          rw [Traced.result_bind, Traced.result_emit, ok_bind, Traced.result_bind] at hout
          obtain ⟨others, hothers, hout⟩ := bind_eq_ok.1 hout
          cases hout
          exact fold n head name rest span after inner body others hm hs
            (ih span.length (by omega) span rfl (depth + 1) inner hinner) hbody
            (ih after.length (by omega) after rfl depth others hothers)

/-- The span of a region and what follows it, around the node that held the close token. -/
theorem span?_eq_some {name : List Char} {nodes span after : List Node}
    (h : span? v name nodes = some (span, after)) :
    ∃ before n left, nodes = before ++ n :: after ∧ span = before ++ left.toList ∧
      n.takeClosing v name = some left := by
  induction nodes generalizing span with
  | nil => cases h
  | cons n nodes ih =>
    rw [span?] at h
    split at h
    · next left hleft =>
      cases h
      exact ⟨[], n, left, rfl, rfl, hleft⟩
    · obtain ⟨⟨span', after'⟩, hs, he⟩ := Option.map_eq_some_iff.1 h
      cases he
      obtain ⟨before, m, left, rfl, rfl, hleft⟩ := ih hs
      exact ⟨n :: before, m, left, rfl, rfl, hleft⟩

/-- The first neighbour that holds the token changes. -/
theorem takeClosingAmong_eq_some {name : List Char} {nodes out : List Node}
    (h : Node.takeClosingAmong v name nodes = some out) :
    ∃ before n left after, nodes = before ++ n :: after ∧ out = before ++ left.toList ++ after ∧
      (∀ m ∈ before, m.takeClosing v name = none) ∧ n.takeClosing v name = some left := by
  induction nodes generalizing out with
  | nil => cases h
  | cons n nodes ih =>
    rw [Node.takeClosingAmong] at h
    split at h
    · next left hleft =>
      cases h
      exact ⟨[], n, left, nodes, rfl, rfl, fun _ hm => absurd hm List.not_mem_nil, hleft⟩
    · next hnone =>
      obtain ⟨rest, hs, he⟩ := Option.map_eq_some_iff.1 h
      cases he
      obtain ⟨before, m, left, after, rfl, rfl, hbefore, hleft⟩ := ih hs
      exact ⟨n :: before, m, left, after, rfl, rfl, List.forall_mem_cons.2 ⟨hnone, hbefore⟩, hleft⟩

/-- The token is cut out of one text, and the elements around that text are built again, except
for a paragraph that has nothing left. -/
theorem takeClosing_ok {name : List Char} {T : Node → Option Node → Prop}
    (text : ∀ s before after, cutFirstClosing v name s = some (before, after) →
      T (.text s) (if isBlank (stripRight (before ++ after)) then none
        else some (.text (stripRight (before ++ after)))))
    (element : ∀ tag attrs before c left after,
      (∀ m ∈ before, m.takeClosing v name = none) → T c left →
      T (.element tag attrs (before ++ c :: after))
        (if isParagraph tag && (before ++ left.toList ++ after).all Node.isBlank then none
          else some (.element tag attrs (before ++ left.toList ++ after))))
    (n : Node) : ∀ left, n.takeClosing v name = some left → T n left := by
  induction n using Node.induct with
  | raw s => exact fun _ h => nomatch h
  | root children => exact fun _ h => nomatch h
  | text s =>
    intro left h
    rw [Node.takeClosing] at h
    obtain ⟨⟨before, after⟩, hcut, rfl⟩ := Option.map_eq_some_iff.1 h
    exact text s before after hcut
  | element tag attrs children ih =>
    intro left h
    rw [Node.takeClosing] at h
    obtain ⟨out, hout, rfl⟩ := Option.map_eq_some_iff.1 h
    obtain ⟨before, c, left, after, rfl, rfl, hbefore, hleft⟩ := takeClosingAmong_eq_some hout
    exact element tag attrs before c left after hbefore (ih c (by simp) left hleft)

section Below

variable (nil : S [] [])
  (cons : ∀ n rest first others, R n first → S rest others → S (n :: rest) (first :: others))

include nil cons

theorem foldBelowAll_of_each {ns : List Node} {depth : Nat}
    (h : ∀ n ∈ ns, ∀ out, (foldBelow limit v depth n).result = .ok out → R n out) {out : List Node}
    (hout : (foldBelowAll limit v depth ns).result = .ok out) : S ns out := by
  induction ns generalizing out with
  | nil =>
    cases hout
    exact nil
  | cons n ns ih =>
    rw [List.forall_mem_cons] at h
    rw [foldBelowAll, Traced.result_bind] at hout
    obtain ⟨first, hfirst, hout⟩ := bind_eq_ok.1 hout
    rw [Traced.result_bind] at hout
    obtain ⟨others, hothers, hout⟩ := bind_eq_ok.1 hout
    cases hout
    exact cons n ns first others (h.1 first hfirst) (ih h.2 hothers)

variable (text : ∀ s, R (.text s) (.text s)) (raw : ∀ s, R (.raw s) (.raw s))
  (root : ∀ children, R (.root children) (.root children))
  (element : ∀ tag attrs children mapped depth folded, S children mapped →
    (foldAmong limit v depth mapped).result = .ok folded →
    R (.element tag attrs children) (.element tag attrs folded))

include text raw root element

/-- The content of an element is folded below, then among itself. -/
theorem foldBelow_ok (n : Node) : ∀ (depth : Nat) (out : Node),
    (foldBelow limit v depth n).result = .ok out → R n out := by
  induction n using Node.induct with
  | text s => exact fun _ _ h => by cases h; exact text s
  | raw s => exact fun _ _ h => by cases h; exact raw s
  | root children => exact fun _ _ h => by cases h; exact root children
  | element tag attrs children ih =>
    intro depth out hout
    rw [foldBelow, Traced.result_bind] at hout
    obtain ⟨_, _, hout⟩ := bind_eq_ok.1 hout
    rw [Traced.result_bind] at hout
    obtain ⟨mapped, hmapped, hout⟩ := bind_eq_ok.1 hout
    rw [Traced.result_bind] at hout
    obtain ⟨folded, hfolded, hout⟩ := bind_eq_ok.1 hout
    cases hout
    exact element tag attrs children mapped (depth + 1) folded
      (foldBelowAll_of_each nil cons (fun c hc out => ih c hc (depth + 1) out) hmapped) hfolded

theorem foldBelowAll_ok {ns out : List Node} {depth : Nat}
    (hout : (foldBelowAll limit v depth ns).result = .ok out) : S ns out :=
  foldBelowAll_of_each nil cons
    (fun n _ out hn => foldBelow_ok nil cons text raw root element n depth out hn) hout

end Below

theorem foldAll_eq_ok {nodes out : List Node} (h : (foldAll limit v nodes).result = .ok out) :
    ∃ mapped, (foldBelowAll limit v 0 nodes).result = .ok mapped ∧
      (foldAmong limit v 0 mapped).result = .ok out := by
  rw [foldAll, Traced.result_bind] at h
  obtain ⟨_, _, h⟩ := bind_eq_ok.1 h
  rw [Traced.result_bind] at h
  exact bind_eq_ok.1 h

end Region

/-! ## Footnotes -/

namespace Node

section Settling

variable {index : Footnote.Index} {heading : Value}

theorem exists_settled_of_mem {n : Node} {ns out : List Node} (hn : n ∈ ns)
    (hout : settleFootnotesAmong index heading limit ns = .ok out) :
    ∃ m ∈ out, n.settleFootnotes index heading limit = .ok m := by
  induction ns generalizing out with
  | nil => exact absurd hn List.not_mem_nil
  | cons k ns ih =>
    rw [settleFootnotesAmong] at hout
    obtain ⟨first, hfirst, hout⟩ := bind_eq_ok.1 hout
    obtain ⟨others, hothers, hout⟩ := bind_eq_ok.1 hout
    cases hout
    rcases List.mem_cons.1 hn with rfl | hn
    · exact ⟨first, List.mem_cons_self, hfirst⟩
    · obtain ⟨m, hm, hsettled⟩ := ih hn hothers
      exact ⟨m, List.mem_cons_of_mem first hm, hsettled⟩

theorem settleFootnotes_container {e : Element} {out : Node} (he : e.holdsFootnotes = true)
    (hout : e.toNode.settleFootnotes index heading limit = .ok out) :
    ∃ s, Footnote.sectionText index heading limit e = .ok s ∧ out = .raw s := by
  rw [Element.toNode, settleFootnotes, if_pos he] at hout
  obtain ⟨s, hs, hout⟩ := bind_eq_ok.1 hout
  cases hout
  exact ⟨s, hs, rfl⟩

theorem settleFootnotes_element {tag : List Char} {attrs : Attributes} {children : List Node}
    {out : Node} (he : Element.holdsFootnotes ⟨tag, attrs, children⟩ = false)
    (hout : (Node.element tag attrs children).settleFootnotes index heading limit = .ok out) :
    ∃ settled, settleFootnotesAmong index heading limit children = .ok settled ∧
      out = .element tag attrs settled := by
  rw [settleFootnotes, if_neg (Bool.eq_false_iff.1 he)] at hout
  obtain ⟨settled, hsettled, hout⟩ := bind_eq_ok.1 hout
  cases hout
  exact ⟨settled, hsettled, rfl⟩

variable {R : Node → Node → Prop}
  {S : List Node → List Node → Prop} (nil : S [] [])
  (cons : ∀ n rest first others, R n first → S rest others → S (n :: rest) (first :: others))

include nil cons

theorem settleFootnotesAmong_of_each {ns : List Node}
    (h : ∀ n ∈ ns, ∀ out, n.settleFootnotes index heading limit = .ok out → R n out)
    {out : List Node} (hout : settleFootnotesAmong index heading limit ns = .ok out) :
    S ns out := by
  induction ns generalizing out with
  | nil =>
    cases hout
    exact nil
  | cons n ns ih =>
    rw [List.forall_mem_cons] at h
    rw [settleFootnotesAmong] at hout
    obtain ⟨first, hfirst, hout⟩ := bind_eq_ok.1 hout
    obtain ⟨others, hothers, hout⟩ := bind_eq_ok.1 hout
    cases hout
    exact cons n ns first others (h.1 first hfirst) (ih h.2 hothers)

variable (text : ∀ s, R (.text s) (.text s)) (raw : ∀ s, R (.raw s) (.raw s))
  (root : ∀ children, R (.root children) (.root children))
  (container : ∀ e s, Element.holdsFootnotes e = true →
    Footnote.sectionText index heading limit e = .ok s → R e.toNode (.raw s))
  (element : ∀ tag attrs children out, Element.holdsFootnotes ⟨tag, attrs, children⟩ = false →
    S children out → R (.element tag attrs children) (.element tag attrs out))

include text raw root container element

/-- A container of footnotes becomes a section, any other element keeps its place. -/
theorem settleFootnotes_ok (n : Node) :
    ∀ out : Node, n.settleFootnotes index heading limit = .ok out → R n out := by
  induction n using Node.induct with
  | text s => exact fun _ h => by cases h; exact text s
  | raw s => exact fun _ h => by cases h; exact raw s
  | root children => exact fun _ h => by cases h; exact root children
  | element tag attrs children ih =>
    intro out hout
    cases hc : Element.holdsFootnotes ⟨tag, attrs, children⟩ with
    | true =>
      obtain ⟨s, hs, rfl⟩ := settleFootnotes_container (e := ⟨tag, attrs, children⟩) hc hout
      exact container ⟨tag, attrs, children⟩ s hc hs
    | false =>
      obtain ⟨settled, hsettled, rfl⟩ := settleFootnotes_element hc hout
      exact element tag attrs children settled hc
        (settleFootnotesAmong_of_each nil cons ih hsettled)

theorem settleFootnotesAmong_ok {ns out : List Node}
    (hout : settleFootnotesAmong index heading limit ns = .ok out) : S ns out :=
  settleFootnotesAmong_of_each nil cons
    (fun n _ out hn => settleFootnotes_ok nil cons text raw root container element n out hn) hout

end Settling

end Node

/-! ## Writing -/

namespace Node

theorem exists_printed_of_mem {pre : Bool} {depth : Nat} {n : Node} {ns : List Node} {s : List Char}
    (hn : n ∈ ns) (hs : printAllAt limit pre depth ns = .ok s) :
    ∃ t, n.printAt limit pre depth = .ok t ∧ t <:+: s := by
  induction ns generalizing s with
  | nil => exact absurd hn List.not_mem_nil
  | cons m ns ih =>
    rw [printAllAt] at hs
    obtain ⟨first, hfirst, hs⟩ := bind_eq_ok.1 hs
    obtain ⟨others, hothers, hs⟩ := bind_eq_ok.1 hs
    cases hs
    rcases List.mem_cons.1 hn with rfl | hn
    · exact ⟨first, hfirst, (List.prefix_append first others).isInfix⟩
    · obtain ⟨t, ht, hin⟩ := ih hn hothers
      exact ⟨t, ht, hin.trans (List.suffix_append first others).isInfix⟩

/-- Unless the element is void, its content is written between its tags. -/
theorem printAt_element {pre : Bool} {depth : Nat} {tag : List Char} {attrs : Attributes}
    {children : List Node} {s : List Char} (hv : isVoid tag = false)
    (hs : (Node.element tag attrs children).printAt limit pre depth = .ok s) :
    ∃ inner, printAllAt limit (pre || isPreformatted tag) (depth + 1) children = .ok inner ∧
      s = '<' :: tag ++ attrs.print ++ ['>'] ++ inner ++ "</".toList ++ tag ++ ['>'] := by
  rw [printAt] at hs
  obtain ⟨_, _, hs⟩ := bind_eq_ok.1 hs
  rw [if_neg (Bool.eq_false_iff.1 hv)] at hs
  obtain ⟨inner, hinner, hs⟩ := bind_eq_ok.1 hs
  cases hs
  exact ⟨inner, hinner, rfl⟩

variable {R : Bool → Node → List Char → Prop} {S : Bool → List Node → List Char → Prop}
  (nil : ∀ pre, S pre [] [])
  (cons : ∀ pre n rest first others, R pre n first → S pre rest others →
    S pre (n :: rest) (first ++ others))

include nil cons

theorem printAllAt_of_each {ns : List Node} {pre : Bool} {depth : Nat}
    (h : ∀ n ∈ ns, ∀ s, n.printAt limit pre depth = .ok s → R pre n s) {s : List Char}
    (hs : printAllAt limit pre depth ns = .ok s) : S pre ns s := by
  induction ns generalizing s with
  | nil =>
    cases hs
    exact nil pre
  | cons n ns ih =>
    rw [List.forall_mem_cons] at h
    rw [printAllAt] at hs
    obtain ⟨first, hfirst, hs⟩ := bind_eq_ok.1 hs
    obtain ⟨others, hothers, hs⟩ := bind_eq_ok.1 hs
    cases hs
    exact cons pre n ns first others (h.1 first hfirst) (ih h.2 hothers)

variable (text : ∀ pre s, R pre (.text s) (printText pre s)) (raw : ∀ pre s, R pre (.raw s) s)
  (root : ∀ pre children s, S pre children s → R pre (.root children) s)
  (void : ∀ pre tag attrs children, isVoid tag = true →
    R pre (.element tag attrs children) ('<' :: tag ++ attrs.print ++ " />".toList))
  (element : ∀ pre tag attrs children inner, isVoid tag = false →
    S (pre || isPreformatted tag) children inner → R pre (.element tag attrs children)
      ('<' :: tag ++ attrs.print ++ ['>'] ++ inner ++ "</".toList ++ tag ++ ['>']))

include text raw root void element

/-- Tags enclose the written content of an element, unless it is void. -/
theorem printAt_ok_induct (n : Node) : ∀ (pre : Bool) (depth : Nat) (s : List Char),
      n.printAt limit pre depth = .ok s → R pre n s := by
  induction n using Node.induct with
  | text s => exact fun pre _ _ h => by cases h; exact text pre s
  | raw s => exact fun pre _ _ h => by cases h; exact raw pre s
  | root children ih =>
    intro pre depth s hs
    rw [printAt] at hs
    exact root pre children s
      (printAllAt_of_each nil cons (fun c hc s => ih c hc pre depth s) hs)
  | element tag attrs children ih =>
    intro pre depth s hs
    cases hv : isVoid tag with
    | true =>
      rw [printAt] at hs
      obtain ⟨_, _, hs⟩ := bind_eq_ok.1 hs
      rw [if_pos hv] at hs
      cases hs
      exact void pre tag attrs children hv
    | false =>
      obtain ⟨inner, hinner, rfl⟩ := printAt_element hv hs
      exact element pre tag attrs children inner hv
        (printAllAt_of_each nil cons (fun c hc s => ih c hc _ (depth + 1) s) hinner)

theorem printAll_ok_induct {ns : List Node} {s : List Char} (hs : printAll limit ns = .ok s) :
    S false ns s :=
  printAllAt_of_each nil cons
    (fun n _ s hn => printAt_ok_induct nil cons text raw root void element n false 0 s hn) hs

end Node

end StorageMarkup
