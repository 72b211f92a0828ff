import StorageMarkup.Proofs.Region.FirstClosing
import StorageMarkup.Proofs.Tree.Intact
import StorageMarkup.Proofs.Tree.Restored

/-!
# What the first three passes preserve

The passes that unwrap a document, lift its markers and set its directives aside change elements
and cut texts into pieces. But for page heads, all that a tree says is said afterwards, in the same
order, up to white space; and the elements that are left have the attributes they had, but for
namespace declarations.

Results:
1. `visibleText_bodyOf`, `visibleText_liftMarkersAmong`: what a tree says.
2. `elementsOf_bodyOf`, `elementsOf_liftMarkersAmong`: the elements that are left.
3. `structure_preserved`: the three passes together.
-/

namespace StorageMarkup

open Vault

variable {v w : Vault} {s : List Char} {n : Node} {nodes : List Node}

/-! ## What a tree says -/

namespace Node

mutual

/-- What is left of a node when page heads are taken out, at any depth. -/
def withoutHead : Node → List Node
  | .element tag attrs children =>
    if tag = "head".toList then [] else [.element tag attrs (withoutHeads children)]
  | .text s => [.text s]
  | .raw s => [.raw s]
  | .root children => [.root (withoutHeads children)]

def withoutHeads : List Node → List Node
  | [] => []
  | n :: rest => n.withoutHead ++ withoutHeads rest

end

/-- What a leaf says. -/
def leafText : Node → List Char
  | .text s => s
  | .raw s => s
  | _ => []

theorem withoutHeads_eq (nodes : List Node) : withoutHeads nodes = nodes.flatMap withoutHead :=
  eq_flatMap rfl (fun _ _ => rfl) nodes

theorem leavesOf_eq (nodes : List Node) : leavesOf nodes = nodes.flatMap leaves :=
  eq_flatMap rfl (fun _ _ => rfl) nodes

end Node

/-- A text without its white space. -/
def withoutSpace (s : List Char) : List Char := s.filter (!isSpace ·)

/-- What a tree says, white space apart: its texts, with all placeholders put back, and its final
output, in document order. -/
def Vault.visibleText (v : Vault) (nodes : List Node) : List Char :=
  withoutSpace ((Node.leavesOf (v.expandNodes nodes)).flatMap Node.leafText)

theorem expandNodes_eq (v : Vault) (nodes : List Node) :
    v.expandNodes nodes = nodes.map v.expandNode := by
  induction nodes with
  | nil => rfl
  | cons n nodes ih => rw [expandNodes, ih, List.map_cons]

theorem visibleText_flatMap (v : Vault) (f : Node → List Node) (nodes : List Node) :
    v.visibleText (nodes.flatMap f) = nodes.flatMap fun n => v.visibleText (f n) := by
  simp only [visibleText, withoutSpace, expandNodes_eq, Node.leavesOf_eq, List.map_flatMap,
    List.flatMap_assoc, List.filter_flatMap]

theorem visibleText_element (tag : List Char) (attrs : Attributes) (children : List Node) :
    v.visibleText [.element tag attrs children] = v.visibleText children := by
  simp only [visibleText, expandNodes, expandNode, Node.leavesOf, Node.leaves, List.append_nil]

theorem visibleText_text (s : List Char) : v.visibleText [.text s] = withoutSpace (v.expand s) := by
  simp [visibleText, expandNodes, expandNode, Node.leavesOf, Node.leaves, Node.leafText]

theorem visibleText_bodyOf (h : ∀ n ∈ nodes, n.Restorable v) :
    v.visibleText (Node.bodyOf nodes) = v.visibleText (Node.withoutHeads nodes) := by
  simp only [Node.bodyOf_eq, Node.withoutHeads_eq, visibleText_flatMap]
  refine flatMap_eq_of_restorable (fun _ _ => rfl) (fun _ => rfl)
    (fun tag attrs children _ ih => ?_) h
  rw [← visibleText_flatMap, ← visibleText_flatMap, ← Node.bodyOf_eq, ← Node.withoutHeads_eq] at ih
  rw [Node.body, Node.withoutHead]
  split
  · rfl
  · rw [visibleText_element]
    split
    · exact ih
    · rw [visibleText_element, ih]

/-! ## Markers -/

theorem withoutSpace_append (s t : List Char) :
    withoutSpace (s ++ t) = withoutSpace s ++ withoutSpace t := List.filter_append s t

theorem withoutSpace_blank {w : List Char} (h : isBlank w = true) : withoutSpace w = [] :=
  List.filter_eq_nil_iff.2 fun c hc => by simp [isSpace_of_mem h hc]

theorem withoutSpace_unlines (ls : List (List Char)) :
    withoutSpace (unlines ls) = ls.flatMap withoutSpace := by
  induction ls with
  | nil => rfl
  | cons l ls ih =>
    cases ls with
    | nil => exact (List.append_nil _).symm
    | cons m ls =>
      rw [unlines_cons_cons, withoutSpace_append, List.flatMap_cons, ← ih]
      rfl

/-- White space at the ends of a line is all that trimming takes away. -/
theorem withoutSpace_expand_strip (hv : v.Ordered) (hs : Intact (· < v.size) s) :
    withoutSpace (v.expand (strip s)) = withoutSpace (v.expand s) := by
  obtain ⟨w, w', hw, hw', he⟩ := exists_blank_strip s
  have hfree := startMark_not_mem_blank hw
  have hfree' := startMark_not_mem_blank hw'
  conv => rhs; rw [he]
  rw [hv.expand_append ((Intact.of_free hfree).append hs.strip) (.of_free hfree'),
    hv.expand_append (.of_free hfree) hs.strip, expand_eq_self hfree, expand_eq_self hfree',
    withoutSpace_append, withoutSpace_append, withoutSpace_blank hw, withoutSpace_blank hw',
    List.nil_append, List.append_nil]

/-- A text says what its lines say. -/
theorem withoutSpace_contentLines (hv : v.Ordered) (hs : Intact (· < v.size) s) :
    ((contentLines s).flatMap fun line => withoutSpace (v.expand line)) =
      withoutSpace (v.expand s) := by
  have hblank : ∀ l, isBlank l = true → withoutSpace (v.expand l) = [] := fun l hl => by
    rw [expand_eq_self (startMark_not_mem_blank hl), withoutSpace_blank hl]
  have hlines : ∀ ls : List (List Char), (∀ l ∈ ls, Intact (· < v.size) l) →
      (((ls.filter (!isBlank ·)).map strip).flatMap fun line => withoutSpace (v.expand line)) =
        ls.flatMap fun line => withoutSpace (v.expand line) := by
    intro ls hls
    induction ls with
    | nil => rfl
    | cons l ls ih =>
      rw [List.forall_mem_cons] at hls
      rw [List.flatMap_cons, ← ih hls.2, List.filter_cons]
      split
      · rw [List.map_cons, List.flatMap_cons, withoutSpace_expand_strip hv hls.1]
      · next hl =>
        rw [hblank l (by simpa using hl), List.nil_append]
  conv => rhs; rw [← unlines_lines s]
  rw [contentLines, hlines _ hs.lines, hv.expand_unlines hs.lines, withoutSpace_unlines,
    List.flatMap_map]

theorem visibleText_cons (v : Vault) (n : Node) (nodes : List Node) :
    v.visibleText (n :: nodes) = v.visibleText [n] ++ v.visibleText nodes := by
  simp only [visibleText, expandNodes, Node.leavesOf, List.append_nil, List.flatMap_append,
    withoutSpace_append]

theorem visibleText_markers (v : Vault) (ls : List (List Char)) :
    v.visibleText (markers ls) = ls.flatMap fun line => withoutSpace (v.expand line) := by
  fun_induction markers ls with
  | case1 => rfl
  | case2 line => rw [visibleText_text, List.flatMap_singleton]
  | case3 line rest _ ih =>
    have hfeed : withoutSpace (v.expand ['\n']) = [] := by
      rw [expand_eq_self (by decide)]
      rfl
    rw [visibleText_cons v (.text line), visibleText_cons v (.text ['\n']), visibleText_text,
      visibleText_text, hfeed, ih, List.nil_append, List.flatMap_cons]

/-- A paragraph of markers holds one text, and the markers are its lines. -/
theorem markersOf?_eq_some {tag : List Char} {children : List Node} {ls : List (List Char)}
    (h : markersOf? (some v) tag children = some ls) :
    ∃ s, children = [.text s] ∧ ls = contentLines s := by
  unfold markersOf? at h
  split at h
  · next s =>
    simp only [Option.ite_none_right_eq_some, Option.some.injEq] at h
    exact ⟨s, rfl, h.2.symm⟩
  · cases h

theorem visibleText_liftMarkersAmong (hv : v.Ordered) (h : ∀ n ∈ nodes, n.Restorable v) :
    v.visibleText (Node.liftMarkersAmong (some v) nodes) = v.visibleText nodes := by
  have heach : ∀ ns, v.visibleText ns = ns.flatMap fun n => v.visibleText [n] := fun ns => by
    rw [← visibleText_flatMap, List.flatMap_singleton']
  rw [heach nodes, Node.liftMarkersAmong_eq, visibleText_flatMap]
  refine flatMap_eq_of_restorable (fun _ _ => rfl) (fun _ => rfl)
    (fun tag attrs children hc ih => ?_) h
  rw [← visibleText_flatMap, ← Node.liftMarkersAmong_eq, ← heach] at ih
  rw [Node.liftMarkers]
  split
  · next ls hls =>
    obtain ⟨s, rfl, rfl⟩ := markersOf?_eq_some hls
    cases hc _ List.mem_cons_self with
    | text hs =>
      rw [visibleText_markers, visibleText_element, visibleText_text,
        withoutSpace_contentLines hv hs]
  · rw [visibleText_element, visibleText_element, ih]

/-! ## The trees between the passes -/

theorem restorable_bodyOf (h : ∀ n ∈ nodes, n.Restorable v) :
    ∀ m ∈ Node.bodyOf nodes, m.Restorable v := by
  rw [Node.bodyOf_eq, List.forall_mem_flatMap]
  intro n hn
  have hnode := h n hn
  clear hn
  induction hnode with
  | text h => exact List.forall_mem_singleton.2 (.text h)
  | raw s => exact List.forall_mem_singleton.2 (.raw s)
  | @element tag attrs children hattrs _ ih =>
    have hinner : ∀ m ∈ Node.bodyOf children, m.Restorable v := by
      rw [Node.bodyOf_eq, List.forall_mem_flatMap]
      exact ih
    rw [Node.body]
    split
    · exact fun m hm => absurd hm List.not_mem_nil
    · split
      · exact hinner
      · exact List.forall_mem_singleton.2
          (.element (fun a ha => hattrs a (List.mem_filter.1 ha).1) hinner)

theorem restorable_markers {ls : List (List Char)} (h : ∀ line ∈ ls, Intact (· < v.size) line) :
    ∀ m ∈ markers ls, m.Restorable v := by
  fun_induction markers ls with
  | case1 => exact fun m hm => absurd hm List.not_mem_nil
  | case2 line => exact List.forall_mem_singleton.2 (.text (h line List.mem_cons_self))
  | case3 line rest _ ih =>
    rw [List.forall_mem_cons] at h
    exact List.forall_mem_cons.2 ⟨.text h.1,
      List.forall_mem_cons.2 ⟨.text (.of_free (by decide)), ih h.2⟩⟩

theorem restorable_liftMarkersAmong (h : ∀ n ∈ nodes, n.Restorable v) :
    ∀ m ∈ Node.liftMarkersAmong (some v) nodes, m.Restorable v := by
  rw [Node.liftMarkersAmong_eq, List.forall_mem_flatMap]
  intro n hn
  have hnode := h n hn
  clear hn
  induction hnode with
  | text h => exact List.forall_mem_singleton.2 (.text h)
  | raw s => exact List.forall_mem_singleton.2 (.raw s)
  | @element tag attrs children hattrs hc ih =>
    rw [Node.liftMarkers]
    split
    · next ls hls =>
      obtain ⟨s, rfl, rfl⟩ := markersOf?_eq_some hls
      cases hc _ List.mem_cons_self with
      | text hs => exact restorable_markers (intact_contentLines hs)
    · refine List.forall_mem_singleton.2 (.element hattrs ?_)
      rw [Node.liftMarkersAmong_eq, List.forall_mem_flatMap]
      exact ih

/-! ## The elements that are left -/

/-- The element as unwrapping leaves it. -/
def Element.unwrapped (e : Element) : Element :=
  ⟨e.tag, e.attributes.withoutNamespaces, Node.bodyOf e.children⟩

/-- Lifting markers keeps the element. -/
def Element.holdsMore (v : Vault) (e : Element) : Bool :=
  (markersOf? (some v) e.tag e.children).isNone

/-- The element is no wrapper of a page, and no paragraph of markers once it is unwrapped. -/
def Element.stays (v : Vault) (e : Element) : Bool :=
  !isWrapper e.tag && e.unwrapped.holdsMore v

theorem bodyOf_withoutHeads (h : ∀ n ∈ nodes, n.Restorable v) :
    Node.bodyOf (Node.withoutHeads nodes) = Node.bodyOf nodes := by
  simp only [Node.bodyOf_eq, Node.withoutHeads_eq, List.flatMap_assoc]
  refine flatMap_eq_of_restorable (fun _ _ => rfl) (fun _ => rfl)
    (fun tag attrs children _ ih => ?_) h
  rw [← List.flatMap_assoc, ← Node.withoutHeads_eq, ← Node.bodyOf_eq, ← Node.bodyOf_eq] at ih
  rw [Node.withoutHead]
  split
  · next htag => rw [Node.body, if_pos htag, List.flatMap_nil]
  · rw [List.flatMap_singleton, Node.body, Node.body, ih]

theorem elementsOf_bodyOf (h : ∀ n ∈ nodes, n.Restorable v) :
    Node.elementsOf (Node.bodyOf nodes) =
      ((Node.elementsOf (Node.withoutHeads nodes)).filter (!isWrapper ·.tag)).map
        Element.unwrapped := by
  have hbody : ∀ ns, Node.elementsOf (Node.bodyOf ns) =
      ns.flatMap fun n => Node.elementsOf n.body := fun ns => by
    simp only [Node.bodyOf_eq, Node.elementsOf_eq, List.flatMap_assoc]
  have hkept : ∀ ns, ((Node.elementsOf (Node.withoutHeads ns)).filter (!isWrapper ·.tag)).map
      Element.unwrapped = ns.flatMap fun n =>
        ((Node.elementsOf n.withoutHead).filter (!isWrapper ·.tag)).map Element.unwrapped :=
    fun ns => by
      simp only [Node.withoutHeads_eq, Node.elementsOf_eq, List.flatMap_assoc, List.filter_flatMap,
        List.map_flatMap]
  rw [hbody, hkept]
  refine flatMap_eq_of_restorable (fun _ _ => rfl) (fun _ => rfl)
    (fun tag attrs children hc ih => ?_) h
  rw [← hbody, ← hkept] at ih
  rw [Node.body, Node.withoutHead]
  split
  · rfl
  · rw [Node.elementsOf_singleton]
    split
    · next hwrapper => rw [List.filter_cons_of_neg (by simpa using hwrapper), ih]
    · next hwrapper =>
      rw [Node.elementsOf_singleton, List.filter_cons_of_pos (by simpa using hwrapper),
        List.map_cons, ih, Element.unwrapped, bodyOf_withoutHeads hc]

theorem elementsOf_markers (ls : List (List Char)) : Node.elementsOf (markers ls) = [] := by
  fun_induction markers ls with
  | case1 => rfl
  | case2 => rfl
  | case3 line rest _ ih => exact ih

/-- The name and the attributes of an element. -/
def Element.head (e : Element) : List Char × Attributes := (e.tag, e.attributes)

theorem elementsOf_liftMarkersAmong (h : ∀ n ∈ nodes, n.Restorable v) :
    (Node.elementsOf (Node.liftMarkersAmong (some v) nodes)).map Element.head =
      ((Node.elementsOf nodes).filter (Element.holdsMore v)).map Element.head := by
  have hlifted : ∀ ns, (Node.elementsOf (Node.liftMarkersAmong (some v) ns)).map Element.head =
      ns.flatMap fun n => (Node.elementsOf (n.liftMarkers (some v))).map Element.head := by
    intro ns
    simp only [Node.liftMarkersAmong_eq, Node.elementsOf_eq, List.flatMap_assoc, List.map_flatMap]
  have hkept : ∀ ns, ((Node.elementsOf ns).filter (Element.holdsMore v)).map Element.head =
      ns.flatMap fun n => (n.elements.filter (Element.holdsMore v)).map Element.head := fun ns => by
    simp only [Node.elementsOf_eq, List.filter_flatMap, List.map_flatMap]
  rw [hlifted, hkept]
  refine flatMap_eq_of_restorable (fun _ _ => rfl) (fun _ => rfl)
    (fun tag attrs children hc ih => ?_) h
  rw [← hlifted, ← hkept] at ih
  rw [Node.liftMarkers, Node.elements]
  split
  · next ls hls =>
    obtain ⟨s, rfl, rfl⟩ := markersOf?_eq_some hls
    rw [elementsOf_markers, List.filter_cons_of_neg (by simp [Element.holdsMore, hls])]
    rfl
  · next hnone =>
    rw [Node.elementsOf_singleton, List.filter_cons_of_pos (by simp [Element.holdsMore, hnone]),
      List.map_cons, List.map_cons, ih]
    rfl

theorem elementsOf_expandNodes (v : Vault) (nodes : List Node) :
    (Node.elementsOf (v.expandNodes nodes)).map Element.head =
      (Node.elementsOf nodes).map fun e => (e.tag, v.expandAttributes e.attributes) := by
  simp only [expandNodes_eq, Node.elementsOf_eq, List.flatMap_map, List.map_flatMap]
  refine List.flatMap_congr fun n hn => ?_
  clear hn
  induction n using Node.induct with
  | text | raw => rfl
  | element tag attrs children ih =>
    rw [expandNode, Node.elements, Node.elements, List.map_cons, List.map_cons, expandNodes_eq,
      Node.elementsOf_eq, Node.elementsOf_eq, List.flatMap_map, List.map_flatMap, List.map_flatMap,
      List.flatMap_congr ih]
    rfl
  | root children ih =>
    rw [expandNode, Node.elements, Node.elements, expandNodes_eq, Node.elementsOf_eq,
      Node.elementsOf_eq, List.flatMap_map, List.map_flatMap, List.map_flatMap,
      List.flatMap_congr ih]

theorem expandAttributes_withoutNamespaces (v : Vault) (attrs : Attributes) :
    v.expandAttributes attrs.withoutNamespaces = (v.expandAttributes attrs).withoutNamespaces := by
  simp only [expandAttributes, Attributes.withoutNamespaces, List.filter_map]
  rfl

theorem tag_ne_head (nodes : List Node) :
    ∀ e ∈ Node.elementsOf (Node.withoutHeads nodes), e.tag ≠ "head".toList := by
  simp only [Node.withoutHeads_eq, Node.elementsOf_eq, List.forall_mem_flatMap]
  intro n hn
  clear hn
  induction n using Node.induct with
  | text | raw => exact fun _ hm => List.mem_singleton.1 hm ▸ fun _ he => absurd he List.not_mem_nil
  | element tag attrs children ih =>
    rw [Node.withoutHead]
    split
    · exact fun m hm => absurd hm List.not_mem_nil
    · next htag =>
      rw [List.forall_mem_singleton, Node.elements, List.forall_mem_cons, Node.withoutHeads_eq,
        Node.elementsOf_eq]
      simp only [List.forall_mem_flatMap]
      exact ⟨htag, ih⟩
  | root children ih =>
    rw [Node.withoutHead, List.forall_mem_singleton, Node.elements, Node.withoutHeads_eq,
      Node.elementsOf_eq]
    simp only [List.forall_mem_flatMap]
    exact ih

/-! ## The three passes -/

/-- Elements with the names and attributes of elements outside heads and of no wrappers, the
attributes taken without namespaces. -/
theorem legal_of_heads {out origins : List Element}
    (h : (out.map fun e => (e.tag, w.expandAttributes e.attributes)) =
      origins.map fun e => (e.tag, (v.expandAttributes e.attributes).withoutNamespaces))
    (horigins : ∀ e ∈ origins, e.tag ≠ "head".toList ∧ isWrapper e.tag = false) :
    ∀ e ∈ out, e.tag ≠ "head".toList ∧ isWrapper e.tag = false ∧
      ∀ a ∈ e.attributes, isNamespace a.1 = false := by
  intro e he
  have hmem : (e.tag, w.expandAttributes e.attributes) ∈
      origins.map fun e => (e.tag, (v.expandAttributes e.attributes).withoutNamespaces) := by
    rw [← h]
    exact List.mem_map_of_mem he
  obtain ⟨origin, horigin, heq⟩ := List.mem_map.1 hmem
  obtain ⟨htag, hattrs⟩ := Prod.mk.inj heq
  refine ⟨htag ▸ (horigins origin horigin).1, htag ▸ (horigins origin horigin).2, fun a ha => ?_⟩
  have hnamed : (a.1, w.expandValue a.2) ∈
      (v.expandAttributes origin.attributes).withoutNamespaces := by
    rw [hattrs]
    exact List.mem_map_of_mem (f := fun a : List Char × Value => (a.1, w.expandValue a.2)) ha
  simpa using (List.mem_filter.1 hnamed).2

theorem runEach_structure {ctx : Context} (hctx : ctx.vault = some v) (nodes : List Node) :
    let shielded := v.shieldNodes (Node.liftMarkersAmong (some v) (Node.bodyOf nodes))
    TreePass.runEach ctx nodes [.body, .markers, .directives] =
      ({ ctx with vault := some shielded.1 }, pure shielded.2) := by
  simp only [TreePass.runEach, TreePass.run, hctx]
  rfl

/-- Unwrapping a document, lifting its markers and setting its directives aside succeeds. What the
tree says without its page heads it says afterwards. No wrapper of a page, no page head and no
namespace declaration is left; and the elements that are left are, in document order, those outside
page heads that are neither wrappers nor paragraphs of markers, with the attributes that they had
but for namespace declarations. -/
theorem structure_preserved (ctx : Context) (v : Vault) (nodes : List Node)
    (hctx : ctx.vault = some v) (hv : v.Ordered) (hnodes : ∀ n ∈ nodes, n.Restorable v) :
    ∃ w out, TreePass.runEach ctx nodes [.body, .markers, .directives] =
        ({ ctx with vault := some w }, pure out) ∧ v.Extends w ∧
      w.visibleText out = v.visibleText (Node.withoutHeads nodes) ∧
      (∀ e ∈ Node.elementsOf out, e.tag ≠ "head".toList ∧ isWrapper e.tag = false ∧
        ∀ a ∈ e.attributes, isNamespace a.1 = false) ∧
      ((Node.elementsOf out).map fun e => (e.tag, w.expandAttributes e.attributes)) =
        ((Node.elementsOf (Node.withoutHeads nodes)).filter (Element.stays v)).map fun e =>
          (e.tag, (v.expandAttributes e.attributes).withoutNamespaces) := by
  have hbody := restorable_bodyOf hnodes
  have hlifted := restorable_liftMarkersAmong hbody
  have hrun := runEach_structure hctx nodes
  obtain ⟨-, hgrown, hback⟩ := expandNodes_shieldNodes hv hlifted
  -- from here on only what putting back makes of the result matters
  generalize v.shieldNodes (Node.liftMarkersAmong (some v) (Node.bodyOf nodes)) = shielded at *
  obtain ⟨w, out⟩ := shielded
  have hkept : (Node.elementsOf (Node.bodyOf nodes)).filter (Element.holdsMore v) =
      ((Node.elementsOf (Node.withoutHeads nodes)).filter (Element.stays v)).map
        Element.unwrapped := by
    rw [elementsOf_bodyOf hnodes, List.filter_map, List.filter_filter]
    exact congrArg (List.map _) (List.filter_congr fun e _ => Bool.and_comm _ _)
  have hheads : ((Node.elementsOf out).map fun e => (e.tag, w.expandAttributes e.attributes)) =
      ((Node.elementsOf (Node.withoutHeads nodes)).filter (Element.stays v)).map fun e =>
        (e.tag, (v.expandAttributes e.attributes).withoutNamespaces) := by
    have hhead : ∀ es : List Element, (es.map fun e => (e.tag, v.expandAttributes e.attributes)) =
        (es.map Element.head).map fun head => (head.1, v.expandAttributes head.2) := fun es => by
      rw [List.map_map]
      rfl
    rw [← elementsOf_expandNodes, hback, elementsOf_expandNodes, hhead,
      elementsOf_liftMarkersAmong hbody, hkept, List.map_map, List.map_map]
    refine List.map_congr_left fun e _ => ?_
    rw [← expandAttributes_withoutNamespaces]
    rfl
  refine ⟨w, out, hrun, hgrown, ?_, legal_of_heads hheads fun e he => ?_, hheads⟩
  · rw [visibleText, hback, ← visibleText, visibleText_liftMarkersAmong hv hbody,
      visibleText_bodyOf hnodes]
  · obtain ⟨hmem, hstays⟩ := List.mem_filter.1 he
    exact ⟨tag_ne_head nodes e hmem, by simpa using (Bool.and_eq_true_iff.1 hstays).1⟩

/-- A page with a head, a marker that is set aside already, and a directive in an attribute. -/
theorem structure_preserved_page :
    let opened := "\x7b\x7b#a\x7d\x7d".toList
    let v : Vault := ⟨[opened]⟩
    let nodes : List Node := [.element "html".toList [] [
      .element "head".toList [] [.text "T".toList],
      .element "body".toList [] [
        .element "p".toList [] [.text (' ' :: placeholder 0)],
        .element "div".toList [("xmlns".toList, .text "u".toList),
          ("title".toList, .text "\x7b\x7bb\x7d\x7d".toList)] [.text "x y".toList]]]]
    v.Ordered ∧ (∀ n ∈ nodes, n.Restorable v) ∧
      ∃ w out, TreePass.runEach ⟨.standard, some v, none⟩ nodes [.body, .markers, .directives] =
          (⟨.standard, some w, none⟩, pure out) ∧
        w.visibleText out = opened ++ "xy".toList ∧
        ((Node.elementsOf out).map fun e => (e.tag, w.expandAttributes e.attributes)) =
          [("div".toList, [("title".toList, .text "\x7b\x7bb\x7d\x7d".toList)])] := by
  intro opened v nodes
  have hv : v.Ordered := by
    intro number original h
    have hmem : original ∈ [opened] := List.mem_of_getElem? h
    rw [List.mem_singleton.1 hmem]
    exact .of_free (by decide)
  have hnodes : ∀ n ∈ nodes, n.Restorable v := by
    have htoken : Intact (· < v.size) (' ' :: placeholder 0) :=
      (Intact.placeholder (by decide)).cons (by decide)
    have hplain : ∀ {s}, startMark ∉ s → (Node.text s).Restorable v := fun hs => .text (.of_free hs)
    have hbare : ∀ a ∈ ([] : Attributes), ∀ s ∈ a.2.ownTexts, Intact (· < v.size) s :=
      fun a ha => absurd ha List.not_mem_nil
    refine List.forall_mem_singleton.2 (.element hbare (List.forall_mem_cons.2 ⟨?_, ?_⟩))
    · exact .element hbare (List.forall_mem_singleton.2 (hplain (by decide)))
    · refine List.forall_mem_singleton.2 (.element hbare (List.forall_mem_cons.2 ⟨?_, ?_⟩))
      · exact .element hbare (List.forall_mem_singleton.2 (.text htoken))
      · refine List.forall_mem_singleton.2 (.element ?_ (List.forall_mem_singleton.2
          (hplain (by decide))))
        refine List.forall_mem_cons.2 ⟨?_, List.forall_mem_singleton.2 ?_⟩ <;>
          exact List.forall_mem_singleton.2 (.of_free (by decide))
  have hvisible : v.visibleText (Node.withoutHeads nodes) = opened ++ "xy".toList := by
    decide +kernel
  have hstays : (((Node.elementsOf (Node.withoutHeads nodes)).filter (Element.stays v)).map
      fun e => (e.tag, (v.expandAttributes e.attributes).withoutNamespaces)) =
        [("div".toList, [("title".toList, .text "\x7b\x7bb\x7d\x7d".toList)])] := by
    with_unfolding_all rfl
  obtain ⟨w, out, hrun, -, hsaid, -, hheads⟩ :=
    structure_preserved ⟨.standard, some v, none⟩ v nodes rfl hv hnodes
  exact ⟨hv, hnodes, w, out, hrun, hsaid.trans hvisible, hheads.trans hstays⟩

end StorageMarkup
