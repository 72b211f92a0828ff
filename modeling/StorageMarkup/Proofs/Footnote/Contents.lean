import Mathlib.Data.List.Perm.Basic
import StorageMarkup.Proofs.Document.Nesting
import StorageMarkup.Proofs.Footnote.Ids
import StorageMarkup.Proofs.Node.Each

/-!
# The content of settled containers

A container is written as its definitions, one after the other, each with all that is inside it.
A definition may be in no item or inside another item, so a leaf of a container is written once for
every definition it is in: never, if it is in none, and twice, if one definition is inside another.
All other leaves are written once.

Results:
1. `Composed`: a text put together from leaves and markup, each leaf as often as it is listed.
2. `composed_printAll`, `composed_settled`: what is written of a tree, and of a settled one.
3. `written_settledLeavesOf`: how often each leaf comes to be written.
4. `settled_content_once`: exactly once, if each leaf of a container is in exactly one definition.
5. `settled_content_lost`: what else happens.
-/

namespace StorageMarkup

variable {P : List Char → Prop} {n : Node} {nodes out leaves : List Node} {s t : List Char}
  {index : Footnote.Index} {heading : Value} {limit : Limit} {m : Int}

/-! ## Leaves and what they are written as -/

namespace Node

mutual

/-- The leaves of a node that are written: its final output, and its texts but for those that are
white space alone. What is inside a void element is not written. -/
def content : Node → List Node
  | .text s => if StorageMarkup.isBlank s then [] else [.text s]
  | .raw s => [.raw s]
  | .root children => contentOf children
  | .element tag _ children => if isVoid tag then [] else contentOf children

def contentOf : List Node → List Node
  | [] => []
  | n :: rest => n.content ++ contentOf rest

end

/-- What a leaf is written as: a text escaped, final output as it stands. -/
inductive WrittenAs : Node → List Char → Prop
  | text (pre : Bool) (s : List Char) : WrittenAs (.text s) (printText pre s)
  | raw (s : List Char) : WrittenAs (.raw s) s

end Node

/-- The text is put together from the leaves, each written once and in this order, and from parts
with the property. A stretch of it may have been trimmed. -/
inductive Composed (P : List Char → Prop) : List Node → List Char → Prop
  | nil : Composed P [] []
  | part {p s : List Char} {leaves : List Node} (hp : P p) (h : Composed P leaves s) :
      Composed P leaves (p ++ s)
  | leaf {n : Node} {t s : List Char} {leaves : List Node} (hn : n.WrittenAs t)
      (h : Composed P leaves s) : Composed P (n :: leaves) (t ++ s)
  | trimmed {s t : List Char} {leaves others : List Node} (h : Composed P leaves s)
      (ht : Composed P others t) : Composed P (leaves ++ others) (strip s ++ t)

namespace Composed

theorem append {others : List Node} (h : Composed P leaves s) (ht : Composed P others t) :
    Composed P (leaves ++ others) (s ++ t) := by
  induction h with
  | nil => exact ht
  | part hp _ ih =>
    rw [List.append_assoc]
    exact .part hp ih
  | leaf hn _ ih =>
    rw [List.append_assoc]
    exact .leaf hn ih
  | trimmed hs _ _ ih =>
    rw [List.append_assoc, List.append_assoc]
    exact .trimmed hs ih

theorem of_part (h : P s) : Composed P [] s := by
  have hs : Composed P [] (s ++ []) := .part h .nil
  rwa [List.append_nil] at hs

theorem of_leaf (h : n.WrittenAs s) : Composed P [n] s := by
  have hs : Composed P [n] (s ++ []) := .leaf h .nil
  rwa [List.append_nil] at hs

end Composed

namespace Footnote

/-! ## Written trees -/

/-- What is written besides the leaves: the tags of the elements, the heading of a container and the
anchors of its definitions, and white space. -/
inductive Markup (heading : Value) (elements : List Element) : List Char → Prop
  | startTag {e : Element} (he : e ∈ elements) :
      Markup heading elements ('<' :: e.tag ++ e.attributes.print ++ ['>'])
  | endTag {e : Element} (he : e ∈ elements) :
      Markup heading elements ("</".toList ++ e.tag ++ ['>'])
  | void {e : Element} (he : e ∈ elements) :
      Markup heading elements ('<' :: e.tag ++ e.attributes.print ++ " />".toList)
  | heading {title : List Char} (h : heading.text? = some title) :
      Markup heading elements ("<h2>".toList ++ escapeText title ++ "</h2>\n".toList)
  | anchor (id : List Char) : Markup heading elements (Directive.anchor (anchorName id))
  | blank (pre : Bool) {s : List Char} (h : isBlank s = true) :
      Markup heading elements (Node.printText pre s)

variable {elements : List Element}

/-- The tree has no other tags than the elements. -/
abbrev TagsFrom (elements : List Element) (n : Node) : Prop :=
  n.Each (fun _ => True) fun tag attrs => ∃ e ∈ elements, e.tag = tag ∧ e.attributes = attrs

theorem tagsFrom_elementsOf (hn : n ∈ nodes) : TagsFrom (Node.elementsOf nodes) n := by
  refine Node.each_of_elements n fun e he => ⟨e, ?_, rfl, rfl⟩
  rw [Node.elementsOf_eq]
  exact List.mem_flatMap.2 ⟨n, hn, he⟩

theorem composed_printAllAt_of_each {pre : Bool} {depth : Nat}
    (h : ∀ n ∈ nodes, ∀ s, n.printAt limit pre depth = .ok s → Composed P n.content s)
    (hs : Node.printAllAt limit pre depth nodes = .ok s) : Composed P (Node.contentOf nodes) s :=
  Node.printAllAt_of_each (R := fun _ n s => Composed P n.content s)
    (S := fun _ ns s => Composed P (Node.contentOf ns) s) (fun _ => .nil)
    (fun _ _ _ _ _ hfirst hothers => hfirst.append hothers) h hs

/-- The content of an element between its tags. -/
theorem composed_tagged {e : Element} (he : e ∈ elements)
    (h : Composed (Markup heading elements) leaves s) :
    Composed (Markup heading elements) leaves
      ('<' :: e.tag ++ e.attributes.print ++ ['>'] ++ s ++ "</".toList ++ e.tag ++ ['>']) := by
  have hend := h.append (.of_part (.endTag he))
  rw [List.append_nil] at hend
  have hall := Composed.part (.startTag he) hend
  simpa only [List.append_assoc, List.cons_append] using hall

/-- A tree is written as its content among its tags. -/
theorem composed_printAt (n : Node) : TagsFrom elements n →
    ∀ (pre : Bool) (depth : Nat) (s : List Char), n.printAt limit pre depth = .ok s →
      Composed (Markup heading elements) n.content s := by
  induction n using Node.induct with
  | text s =>
    intro _ pre depth out hout
    cases hout
    rw [Node.content]
    split
    · next hblank => exact .of_part (.blank pre hblank)
    · exact .of_leaf (.text pre s)
  | raw s =>
    intro _ pre depth out hout
    cases hout
    exact .of_leaf (.raw s)
  | root children ih =>
    intro htags pre depth s hs
    cases htags with
    | root htags =>
      exact composed_printAllAt_of_each (fun c hc s => ih c hc (htags c hc) pre depth s) hs
  | element tag attrs children ih =>
    intro htags pre depth s hs
    obtain ⟨⟨e, he, rfl, rfl⟩, hchildren⟩ := htags.of_element
    rw [Node.content]
    cases hv : isVoid e.tag with
    | true =>
      rw [Node.printAt] at hs
      obtain ⟨_, _, hs⟩ := bind_eq_ok.1 hs
      rw [if_pos hv] at hs
      cases hs
      exact .of_part (.void he)
    | false =>
      obtain ⟨inner, hinner, rfl⟩ := Node.printAt_element hv hs
      exact composed_tagged he (composed_printAllAt_of_each
        (fun c hc s => ih c hc (hchildren c hc) _ (depth + 1) s) hinner)

theorem composed_printAll (htags : ∀ n ∈ nodes, TagsFrom elements n)
    (hs : Node.printAll limit nodes = .ok s) :
    Composed (Markup heading elements) (Node.contentOf nodes) s :=
  composed_printAllAt_of_each (fun n hn s => composed_printAt n (htags n hn) false 0 s) hs

/-! ## Settled trees -/

/-- What a list item contributes to its container: all it contains, if it is a definition. -/
def definedContent (item : Element) : List Node :=
  if item.definition?.isSome then Node.contentOf item.children else []

end Footnote

namespace Node

mutual

/-- The leaves of a node in which every container is a section, in the order of the output. -/
def settledContent : Node → List Node
  | .text s => (Node.text s).content
  | .raw s => (Node.raw s).content
  | .root children => (Node.root children).content
  | .element tag attrs children =>
    if Element.holdsFootnotes ⟨tag, attrs, children⟩ then
      (Node.element tag attrs children).elements.flatMap Footnote.definedContent
    else if isVoid tag then []
    else settledContentOf children

def settledContentOf : List Node → List Node
  | [] => []
  | n :: rest => n.settledContent ++ settledContentOf rest

end

end Node

namespace Footnote

variable {elements : List Element}

/-- Definitions are written one after the other, each with its whole content. -/
theorem composed_definitionTexts {items : List Element}
    (htags : ∀ item ∈ items, ∀ c ∈ item.children, TagsFrom elements c)
    (hs : definitionTexts index limit items = .ok s) :
    Composed (Markup heading elements) (items.flatMap definedContent) s := by
  induction items generalizing s with
  | nil =>
    cases hs
    exact .nil
  | cons item items ih =>
    rw [List.forall_mem_cons] at htags
    rw [definitionTexts] at hs
    rw [List.flatMap_cons, definedContent]
    split at hs
    · next hnone =>
      rw [hnone]
      exact ih htags.2 hs
    · next id hid =>
      obtain ⟨body, hbody, hs⟩ := bind_eq_ok.1 hs
      obtain ⟨others, hothers, hs⟩ := bind_eq_ok.1 hs
      cases hs
      have hanchor : Composed (Markup heading elements) []
          (if index.isLinked id then Directive.anchor (anchorName id) else []) := by
        split
        · exact .of_part (.anchor id)
        · exact .nil
      have hgap : Markup heading elements "\n\n".toList :=
        show Markup heading elements (Node.printText true "\n\n".toList) from .blank true rfl
      have hbodies : Composed (Markup heading elements) _ _ :=
        (composed_printAll htags.1 hbody).trimmed (.part hgap (ih htags.2 hothers))
      have hrest := hanchor.append hbodies
      rw [hid, Option.isSome_some, if_pos rfl]
      simpa only [List.append_assoc, List.nil_append] using hrest

theorem TagsFrom.children (h : TagsFrom elements n) :
    ∀ item ∈ n.elements, ∀ c ∈ item.children, TagsFrom elements c := by
  induction h with
  | text | raw => exact fun item hitem => absurd hitem List.not_mem_nil
  | element he hchildren ih =>
    rw [Node.elements, List.forall_mem_cons, Node.elementsOf_eq, List.forall_mem_flatMap]
    exact ⟨hchildren, ih⟩
  | root _ ih =>
    rw [Node.elements, Node.elementsOf_eq, List.forall_mem_flatMap]
    exact ih

theorem composed_section {e : Element} (htags : TagsFrom elements e.toNode)
    (hs : sectionText index heading limit e = .ok s) :
    Composed (Markup heading elements) (e.toNode.elements.flatMap definedContent) s := by
  unfold sectionText at hs
  obtain ⟨title, htitle, hs⟩ := bind_eq_ok.1 hs
  obtain ⟨definitions, hdefinitions, hs⟩ := bind_eq_ok.1 hs
  cases hs
  have hheading : heading.text? = some title := by
    cases hvalue : heading.text? with
    | none =>
      rw [hvalue] at htitle
      cases htitle
    | some text =>
      rw [hvalue] at htitle
      cases htitle
      rfl
  exact .part (.heading hheading) (composed_definitionTexts htags.children hdefinitions)

theorem composed_settled_of_each {limit' : Limit} {pre : Bool} {depth : Nat}
    (h : ∀ n ∈ nodes, ∀ settled s, n.settleFootnotes index heading limit = .ok settled →
      settled.printAt limit' pre depth = .ok s → Composed P n.settledContent s)
    (hout : Node.settleFootnotesAmong index heading limit nodes = .ok out)
    (hs : Node.printAllAt limit' pre depth out = .ok s) :
    Composed P (Node.settledContentOf nodes) s := by
  induction nodes generalizing out s with
  | nil =>
    cases hout
    cases hs
    exact .nil
  | cons n nodes ih =>
    rw [List.forall_mem_cons] at h
    rw [Node.settleFootnotesAmong] at hout
    obtain ⟨first, hfirst, hout⟩ := bind_eq_ok.1 hout
    obtain ⟨others, hothers, hout⟩ := bind_eq_ok.1 hout
    cases hout
    rw [Node.printAllAt] at hs
    obtain ⟨t, ht, hs⟩ := bind_eq_ok.1 hs
    obtain ⟨rest, hrest, hs⟩ := bind_eq_ok.1 hs
    cases hs
    exact (h.1 first t hfirst ht).append (ih h.2 hothers hrest)

/-- A settled node is written as its content and that of its containers. -/
theorem composed_settleFootnotes {limit' : Limit} (n : Node) : TagsFrom elements n →
    ∀ (pre : Bool) (depth : Nat) (settled : Node) (s : List Char),
      n.settleFootnotes index heading limit = .ok settled →
      settled.printAt limit' pre depth = .ok s →
      Composed (Markup heading elements) n.settledContent s := by
  induction n using Node.induct with
  | text | raw | root =>
    intro htags pre depth settled s hsettled hs
    cases hsettled
    exact composed_printAt _ htags pre depth s hs
  | element tag attrs children ih =>
    intro htags pre depth settled s hsettled hs
    rw [Node.settledContent]
    cases hholds : Element.holdsFootnotes ⟨tag, attrs, children⟩ with
    | true =>
      obtain ⟨text, htext, rfl⟩ :=
        Node.settleFootnotes_container (e := ⟨tag, attrs, children⟩) hholds hsettled
      cases hs
      exact composed_section (e := ⟨tag, attrs, children⟩) htags htext
    | false =>
      obtain ⟨inside, hinside, rfl⟩ := Node.settleFootnotes_element hholds hsettled
      obtain ⟨⟨e, he, rfl, rfl⟩, hchildren⟩ := htags.of_element
      cases hv : isVoid e.tag with
      | true =>
        rw [Node.printAt] at hs
        obtain ⟨_, _, hs⟩ := bind_eq_ok.1 hs
        rw [if_pos hv] at hs
        cases hs
        exact .of_part (.void he)
      | false =>
        obtain ⟨inner, hinner, rfl⟩ := Node.printAt_element hv hs
        exact composed_tagged he (composed_settled_of_each
          (fun c hc => ih c hc (hchildren c hc) _ (depth + 1)) hinside hinner)

theorem composed_settled (hout : Node.settleFootnotesAmong index heading limit nodes = .ok out)
    (hs : Node.printAll limit out = .ok s) :
    Composed (Markup heading (Node.elementsOf nodes)) (Node.settledContentOf nodes) s :=
  composed_settled_of_each
    (fun n hn => composed_settleFootnotes n (tagsFrom_elementsOf hn) false 0) hout hs

/-! ## How often a leaf is written -/

/-- A leaf of a document, whether it is outside void elements, and how often it comes to be
written. -/
structure Leaf where
  node : Node
  shown : Bool
  copies : Nat
  deriving Repr

def Leaf.written (leaf : Leaf) : List Node := List.replicate leaf.copies leaf.node

end Footnote

namespace Node

open Footnote (Leaf)

mutual

/-- The leaves of a node in a container, in document order. Each is written once for every
definition around it, if no void element is between the two. -/
def notedLeaves (shown : Bool) (definitions : Nat) : Node → List Leaf
  | .text s => if StorageMarkup.isBlank s then [] else [⟨.text s, shown, definitions⟩]
  | .raw s => [⟨.raw s, shown, definitions⟩]
  | .root children => notedLeavesOf shown definitions children
  | .element tag attrs children =>
    if isVoid tag then notedLeavesOf false 0 children
    else if (Element.definition? ⟨tag, attrs, children⟩).isSome then
      notedLeavesOf shown (definitions + 1) children
    else notedLeavesOf shown definitions children

def notedLeavesOf (shown : Bool) (definitions : Nat) : List Node → List Leaf
  | [] => []
  | n :: rest => n.notedLeaves shown definitions ++ notedLeavesOf shown definitions rest

end

mutual

/-- The leaves of a node outside containers. All that are in no container are written once. -/
def settledLeaves : Node → List Leaf
  | .text s => (Node.text s).content.map (⟨·, true, 1⟩)
  | .raw s => (Node.raw s).content.map (⟨·, true, 1⟩)
  | .root children => (Node.root children).content.map (⟨·, true, 1⟩)
  | .element tag attrs children =>
    if Element.holdsFootnotes ⟨tag, attrs, children⟩ then
      (Node.element tag attrs children).notedLeaves true 0
    else if isVoid tag then []
    else settledLeavesOf children

def settledLeavesOf : List Node → List Leaf
  | [] => []
  | n :: rest => n.settledLeaves ++ settledLeavesOf rest

end

theorem contentOf_eq (nodes : List Node) : contentOf nodes = nodes.flatMap content :=
  eq_flatMap rfl (fun _ _ => rfl) nodes

theorem settledContentOf_eq (nodes : List Node) :
    settledContentOf nodes = nodes.flatMap settledContent :=
  eq_flatMap rfl (fun _ _ => rfl) nodes

theorem settledLeavesOf_eq (nodes : List Node) :
    settledLeavesOf nodes = nodes.flatMap settledLeaves :=
  eq_flatMap rfl (fun _ _ => rfl) nodes

theorem notedLeavesOf_eq (shown : Bool) (definitions : Nat) (nodes : List Node) :
    notedLeavesOf shown definitions nodes = nodes.flatMap (notedLeaves shown definitions) :=
  eq_flatMap rfl (fun _ _ => rfl) nodes

end Node

namespace Footnote

/-- So many copies of neighbours are so many of each. -/
theorem perm_copies_append {α : Type} (k : Nat) (a b : List α) :
    (List.replicate k (a ++ b)).flatten.Perm
      ((List.replicate k a).flatten ++ (List.replicate k b).flatten) := by
  have h := List.flatMap_append_perm (List.replicate k ()) (fun _ => a) (fun _ => b)
  simpa only [List.flatMap_replicate] using h.symm

theorem written_notedLeavesOf_of_each {shown : Bool} {k : Nat}
    (h : ∀ n ∈ nodes, ((n.notedLeaves shown k).flatMap Leaf.written).Perm
      ((List.replicate k n.content).flatten ++ n.elements.flatMap definedContent)) :
    ((Node.notedLeavesOf shown k nodes).flatMap Leaf.written).Perm
      ((List.replicate k (Node.contentOf nodes)).flatten ++
        (Node.elementsOf nodes).flatMap definedContent) := by
  induction nodes with
  | nil => simp [Node.notedLeavesOf, Node.contentOf, Node.elementsOf]
  | cons n nodes ih =>
    rw [List.forall_mem_cons] at h
    rw [Node.notedLeavesOf, Node.contentOf, Node.elementsOf, List.flatMap_append,
      List.flatMap_append]
    -- the definitions of the first node and the copies of the others change places
    have hcopies := (perm_copies_append k n.content (Node.contentOf nodes)).symm.append_right
      (n.elements.flatMap definedContent ++ (Node.elementsOf nodes).flatMap definedContent)
    refine ((h.1.append (ih h.2)).trans ?_).trans hcopies
    rw [List.append_assoc, List.append_assoc]
    exact (List.perm_append_comm_assoc _ _ _).append_left _

/-- Each definition writes the leaves inside it, so a leaf is written for every definition it
is in. -/
theorem written_notedLeaves (n : Node) : ∀ (shown : Bool) (k : Nat),
    ((n.notedLeaves shown k).flatMap Leaf.written).Perm
      ((List.replicate k n.content).flatten ++ n.elements.flatMap definedContent) := by
  induction n using Node.induct with
  | text s =>
    intro shown k
    rw [Node.notedLeaves, Node.content]
    split <;> simp [Node.elements, Leaf.written]
  | raw s =>
    intro shown k
    simp [Node.notedLeaves, Node.content, Node.elements, Leaf.written]
  | root children ih =>
    exact fun shown k => written_notedLeavesOf_of_each fun c hc => ih c hc shown k
  | element tag attrs children ih =>
    intro shown k
    have hinside (shown : Bool) (k : Nat) :=
      written_notedLeavesOf_of_each fun c hc => ih c hc shown k
    rw [Node.notedLeaves, Node.content, Node.elements, List.flatMap_cons, definedContent]
    cases hv : isVoid tag with
    | true =>
      have hnone : Element.definition? ⟨tag, attrs, children⟩ = none := by
        cases hd : Element.definition? ⟨tag, attrs, children⟩ with
        | none => rfl
        | some id =>
          have hli : tag = "li".toList := (exists_of_definition? hd).1
          rw [hli] at hv
          cases hv
      have hcontent := hinside false 0
      rw [hnone]
      simpa using hcontent
    | false =>
      cases hd : (Element.definition? ⟨tag, attrs, children⟩).isSome with
      | true =>
        have hcontent := hinside shown (k + 1)
        rw [List.replicate_succ', List.flatten_append, List.flatten_singleton,
          List.append_assoc] at hcontent
        exact hcontent
      | false => exact hinside shown k

theorem written_settledLeaves (n : Node) :
    (n.settledLeaves.flatMap Leaf.written).Perm n.settledContent := by
  induction n using Node.induct with
  | text | raw | root =>
    rw [Node.settledLeaves, Node.settledContent]
    simp [List.flatMap_map, Leaf.written]
  | element tag attrs children ih =>
    rw [Node.settledLeaves, Node.settledContent]
    split
    · exact written_notedLeaves _ true 0
    · split
      · exact .refl _
      · rw [Node.settledLeavesOf_eq, Node.settledContentOf_eq, List.flatMap_assoc]
        exact List.Perm.flatMap_left _ ih

/-- What is written are the leaves, each as often as it comes to be written. -/
theorem written_settledLeavesOf (nodes : List Node) :
    ((Node.settledLeavesOf nodes).flatMap Leaf.written).Perm (Node.settledContentOf nodes) := by
  rw [Node.settledLeavesOf_eq, Node.settledContentOf_eq, List.flatMap_assoc]
  exact List.Perm.flatMap_left _ fun n _ => written_settledLeaves n

/-- The leaves that are outside void elements. -/
def shownLeaves (leaves : List Leaf) : List Node := (leaves.filter (·.shown)).map (·.node)

theorem shownLeaves_flatMap {f : Node → List Leaf} {g : Node → List Node}
    (h : ∀ n ∈ nodes, shownLeaves (f n) = g n) :
    shownLeaves (nodes.flatMap f) = nodes.flatMap g := by
  induction nodes with
  | nil => rfl
  | cons n nodes ih =>
    rw [List.forall_mem_cons] at h
    rw [List.flatMap_cons, List.flatMap_cons, ← h.1, ← ih h.2, shownLeaves, List.filter_append,
      List.map_append]
    rfl

theorem shownLeaves_notedLeavesOf {shown : Bool} {k : Nat}
    (h : ∀ n ∈ nodes, shownLeaves (n.notedLeaves shown k) = if shown then n.content else []) :
    shownLeaves (Node.notedLeavesOf shown k nodes) =
      if shown then Node.contentOf nodes else [] := by
  rw [Node.notedLeavesOf_eq, shownLeaves_flatMap h, Node.contentOf_eq]
  cases shown with
  | true => rfl
  | false => exact List.flatMap_eq_nil_iff.2 fun _ _ => rfl

theorem shownLeaves_notedLeaves (n : Node) : ∀ (shown : Bool) (k : Nat),
    shownLeaves (n.notedLeaves shown k) = if shown then n.content else [] := by
  induction n using Node.induct with
  | text s =>
    intro shown k
    rw [Node.notedLeaves, Node.content]
    cases isBlank s <;> cases shown <;> rfl
  | raw s =>
    intro shown k
    cases shown <;> rfl
  | root children ih => exact fun shown k => shownLeaves_notedLeavesOf fun c hc => ih c hc shown k
  | element tag attrs children ih =>
    intro shown k
    have hinside (shown : Bool) (k : Nat) :=
      shownLeaves_notedLeavesOf fun c hc => ih c hc shown k
    rw [Node.notedLeaves, Node.content]
    split
    · rw [hinside false 0]
      cases shown <;> rfl
    · split <;> exact hinside _ _

theorem shownLeaves_settledLeaves (n : Node) : shownLeaves n.settledLeaves = n.content := by
  have hall : ∀ nodes : List Node, shownLeaves (nodes.map (⟨·, true, 1⟩)) = nodes := fun nodes => by
    simp [shownLeaves, List.filter_map, Function.comp_def]
  induction n using Node.induct with
  | text | raw | root => exact hall _
  | element tag attrs children ih =>
    rw [Node.settledLeaves]
    split
    · exact shownLeaves_notedLeaves _ true 0
    · rw [Node.content]
      split
      · rfl
      · rw [Node.settledLeavesOf_eq, shownLeaves_flatMap ih, Node.contentOf_eq]

/-- Of the leaves none is left out. -/
theorem shownLeaves_settledLeavesOf (nodes : List Node) :
    shownLeaves (Node.settledLeavesOf nodes) = Node.contentOf nodes := by
  rw [Node.settledLeavesOf_eq, shownLeaves_flatMap fun n _ => shownLeaves_settledLeaves n,
    Node.contentOf_eq]

/-- Every leaf of a container is in exactly one of its definitions; what is inside void elements
does not matter. -/
def EachDefinedOnce (nodes : List Node) : Prop :=
  ∀ leaf ∈ Node.settledLeavesOf nodes, leaf.shown = true → leaf.copies = 1

instance (nodes : List Node) : Decidable (EachDefinedOnce nodes) :=
  inferInstanceAs (Decidable (∀ leaf ∈ _, _))

/-- What is written of definitions inside void elements. -/
def hiddenContent (nodes : List Node) : List Node :=
  ((Node.settledLeavesOf nodes).filter (!·.shown)).flatMap Leaf.written

theorem EachDefinedOnce.perm (h : EachDefinedOnce nodes) :
    ((Node.settledLeavesOf nodes).flatMap Leaf.written).Perm
      (Node.contentOf nodes ++ hiddenContent nodes) := by
  have hshown : ((Node.settledLeavesOf nodes).filter (·.shown)).flatMap Leaf.written =
      Node.contentOf nodes := by
    rw [← shownLeaves_settledLeavesOf, shownLeaves, List.map_eq_flatMap]
    refine List.flatMap_congr fun leaf hleaf => ?_
    obtain ⟨hmem, hleaf⟩ := List.mem_filter.1 hleaf
    rw [Leaf.written, h leaf hmem hleaf]
    rfl
  have hsplit :=
    List.filter_append_perm (fun leaf : Leaf => leaf.shown) (Node.settledLeavesOf nodes)
  have hwritten := hsplit.symm.flatMap_right Leaf.written
  rw [List.flatMap_append, hshown] at hwritten
  simpa [hiddenContent] using hwritten

/-! ## Settling within the limit -/

theorem exists_settledAmong_of_each
    (h : ∀ n ∈ nodes, ∃ settled, n.settleFootnotes index heading limit = .ok settled) :
    ∃ out, Node.settleFootnotesAmong index heading limit nodes = .ok out := by
  induction nodes with
  | nil => exact ⟨[], rfl⟩
  | cons n nodes ih =>
    rw [List.forall_mem_cons] at h
    obtain ⟨first, hfirst⟩ := h.1
    obtain ⟨others, hothers⟩ := ih h.2
    refine ⟨first :: others, ?_⟩
    rw [Node.settleFootnotesAmong, hfirst, ok_bind, hothers]
    rfl

/-- A heading that is a text and nesting within the limit are all that settling asks for. -/
theorem exists_settled {title : List Char} (hm : limit.levels? = some m)
    (htitle : heading.text? = some title) (n : Node) : (n.height : Int) ≤ m →
      ∃ settled, n.settleFootnotes index heading limit = .ok settled := by
  induction n using Node.induct with
  | text | raw | root => exact fun _ => ⟨_, rfl⟩
  | element tag attrs children ih =>
    intro hheight
    rw [Node.settleFootnotes]
    split
    · have hlow : ∀ item ∈ (Node.element tag attrs children).elements,
          (Node.heightOf item.children : Int) ≤ m := fun item hitem => by
        have := heightOf_elements _ item hitem
        omega
      obtain ⟨definitions, hdefinitions⟩ : ∃ s, definitionTexts index limit
          (Element.toNode ⟨tag, attrs, children⟩).elements = .ok s := definitionTexts_ok hm hlow
      rw [sectionText, htitle, hdefinitions]
      exact ⟨_, rfl⟩
    · have hchildren : ∀ c ∈ children,
          ∃ settled, c.settleFootnotes index heading limit = .ok settled := fun c hc => by
        have := Node.height_le_heightOf hc
        rw [Node.height] at hheight
        exact ih c hc (by omega)
      obtain ⟨inside, hinside⟩ := exists_settledAmong_of_each hchildren
      rw [hinside]
      exact ⟨_, rfl⟩

/-- Settling and writing within the limit. -/
theorem exists_settled_printed {title : List Char} (hm : limit.levels? = some m)
    (htitle : heading.text? = some title) (hheight : (Node.heightOf nodes : Int) ≤ m) :
    ∃ out s, Node.settleFootnotesAmong index heading limit nodes = .ok out ∧
      Node.printAll limit out = .ok s := by
  have hnodes : ∀ n ∈ nodes, ∃ settled, n.settleFootnotes index heading limit = .ok settled :=
    fun n hn => exists_settled hm htitle n (by
      have := Node.height_le_heightOf hn
      omega)
  obtain ⟨out, hout⟩ := exists_settledAmong_of_each hnodes
  have hlow := heightOf_settled hout
  obtain ⟨s, hs⟩ : ∃ s, Node.printAll limit out = .ok s := Node.printAll_ok hm (by omega)
  exact ⟨out, s, hout, hs⟩

/-- A settled tree is written as markup and leaves. Those of the leaves that are in no container
are written once, the others once for every definition that they are in. So if each leaf of a
container is in exactly one definition, every leaf is written exactly once. -/
theorem settled_content_once (index : Index) (heading : Value) (limit : Limit) (nodes : List Node) :
    (∀ out s, Node.settleFootnotesAmong index heading limit nodes = .ok out →
      Node.printAll limit out = .ok s →
      ∃ leaves, Composed (Markup heading (Node.elementsOf nodes)) leaves s ∧
        leaves.Perm ((Node.settledLeavesOf nodes).flatMap Leaf.written) ∧
        (EachDefinedOnce nodes → leaves.Perm (Node.contentOf nodes ++ hiddenContent nodes))) ∧
    ∀ m title, limit.levels? = some m → heading.text? = some title →
      (Node.heightOf nodes : Int) ≤ m →
      ∃ out s, Node.settleFootnotesAmong index heading limit nodes = .ok out ∧
        Node.printAll limit out = .ok s := by
  refine ⟨fun out s hout hs => ⟨Node.settledContentOf nodes, composed_settled hout hs, ?_, ?_⟩, ?_⟩
  · exact (written_settledLeavesOf nodes).symm
  · exact fun honce => (written_settledLeavesOf nodes).symm.trans honce.perm
  · exact fun m title hm htitle hheight => exists_settled_printed hm htitle hheight

/-- A paragraph and a definition with a text and final output. -/
theorem settled_content_once_definition :
    let nodes : List Node := [.element ['p'] [] [.text ['x']],
      .element "section".toList [("data-footnotes".toList, .flag true)] [.element "ol".toList []
        [.element "li".toList [("id".toList, .text (idStem ++ "fn1".toList))]
          [.element ['p'] [] [.text ['y']], .raw ['z']]]]]
    let s := "<p>x</p><h2>Footnotes</h2>\n<p>y</p>z\n\n".toList
    EachDefinedOnce nodes ∧
      ∃ out, Node.settleFootnotesAmong (.ofNodes nodes) (.text "Footnotes".toList) .standard nodes =
          .ok out ∧ Node.printAll .standard out = .ok s ∧
        ∃ leaves, Composed (Markup (.text "Footnotes".toList) (Node.elementsOf nodes)) leaves s ∧
          leaves.Perm [.text ['x'], .text ['y'], .raw ['z']] := by
  intro nodes s
  have honce : EachDefinedOnce nodes := by decide +kernel
  have hout : Node.settleFootnotesAmong (.ofNodes nodes) (.text "Footnotes".toList) .standard
      nodes = .ok [.element ['p'] [] [.text ['x']], .raw "<h2>Footnotes</h2>\n<p>y</p>z\n\n".toList] := rfl
  have hs : Node.printAll .standard [.element ['p'] [] [.text ['x']],
      .raw "<h2>Footnotes</h2>\n<p>y</p>z\n\n".toList] = .ok s := rfl
  obtain ⟨leaves, hcomposed, -, hperm⟩ :=
    (settled_content_once (.ofNodes nodes) (.text "Footnotes".toList) .standard nodes).1 _ s hout hs
  exact ⟨honce, _, hout, hs, leaves, hcomposed, hperm honce⟩

/-- The item that defines no footnote is not written, and the definition inside another one is
written twice. -/
theorem settled_content_lost :
    let item (id : List Char) (children : List Node) : Node :=
      .element "li".toList [("id".toList, .text id)] children
    let nodes : List Node := [.element "ol".toList [("data-footnotes".toList, .flag true)]
      [item [] [.text ['X']], item (idStem ++ "fn1".toList)
        [.text ['Y'], .element "ul".toList [] [item (idStem ++ "fn2".toList) [.text ['Z']]]]]]
    let s := ("<h2>N</h2>\nY<ul><li id=\"user-content-fn2\">Z</li></ul>\n\n" ++
      "Z\n\n").toList
    Node.contentOf nodes = [.text ['X'], .text ['Y'], .text ['Z']] ∧
      ∃ out, Node.settleFootnotesAmong (.ofNodes nodes) (.text ['N']) .standard nodes = .ok out ∧
        Node.printAll .standard out = .ok s ∧ s.count 'X' = 0 ∧ s.count 'Y' = 1 ∧
        s.count 'Z' = 2 := by
  intro item nodes s
  exact ⟨rfl, _, rfl, rfl, by decide, by decide, by decide⟩

end Footnote

end StorageMarkup
