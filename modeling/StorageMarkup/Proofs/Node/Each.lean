import StorageMarkup.Proofs.Node.Depth

/-!
# Texts and elements of a tree

Results:
1. `Node.texts`, `Node.Each`: the texts of a tree, and a property of its texts and elements.
2. `Node.each_of_texts`, `Node.each_of_elements`, `Node.Each.elements`: a property of either
   alone.
-/

namespace StorageMarkup

namespace Node

mutual

/-- The texts at and below a node. Final output is no text. -/
def texts : Node → List (List Char)
  | .text s => [s]
  | .raw _ => []
  | .element _ _ children => textsOf children
  | .root children => textsOf children

def textsOf : List Node → List (List Char)
  | [] => []
  | n :: rest => n.texts ++ textsOf rest

end

/-- Every text of the tree has the one property, every element, by tag and attributes, the other. -/
inductive Each (T : List Char → Prop) (E : List Char → Attributes → Prop) : Node → Prop
  | text {s : List Char} (h : T s) : Each T E (.text s)
  | raw (s : List Char) : Each T E (.raw s)
  | element {tag : List Char} {attrs : Attributes} {children : List Node} (he : E tag attrs)
      (h : ∀ c ∈ children, Each T E c) : Each T E (.element tag attrs children)
  | root {children : List Node} (h : ∀ c ∈ children, Each T E c) : Each T E (.root children)

variable {T : List Char → Prop} {E : List Char → Attributes → Prop}

namespace Each

variable {tag s : List Char} {attrs : Attributes} {children : List Node}

theorem of_text (h : (Node.text s).Each T E) : T s := by
  cases h with
  | text h => exact h

theorem mono {T' : List Char → Prop} {E' : List Char → Attributes → Prop} {n : Node}
    (h : n.Each T E) (hT : ∀ s, T s → T' s) (hE : ∀ tag attrs, E tag attrs → E' tag attrs) :
    n.Each T' E' := by
  induction h with
  | text h => exact .text (hT _ h)
  | raw s => exact .raw s
  | element he _ ih => exact .element (hE _ _ he) ih
  | root _ ih => exact .root ih

theorem of_element (h : (Node.element tag attrs children).Each T E) :
    E tag attrs ∧ ∀ c ∈ children, c.Each T E := by
  cases h with
  | element he h => exact ⟨he, h⟩

end Each

theorem textsOf_eq (nodes : List Node) : textsOf nodes = nodes.flatMap texts :=
  eq_flatMap rfl (fun _ _ => rfl) nodes

theorem elementsOf_eq (nodes : List Node) : elementsOf nodes = nodes.flatMap elements :=
  eq_flatMap rfl (fun _ _ => rfl) nodes

theorem elementsOf_singleton (tag : List Char) (attrs : Attributes) (children : List Node) :
    elementsOf [.element tag attrs children] = ⟨tag, attrs, children⟩ :: elementsOf children := by
  rw [elementsOf, elements, elementsOf, List.append_nil]

theorem characterDataOf_eq (nodes : List Node) :
    characterDataOf nodes = nodes.flatMap characterData :=
  eq_flatMap rfl (fun _ _ => rfl) nodes

theorem each_of_texts (n : Node) (h : ∀ s ∈ n.texts, T s) : n.Each T fun _ _ => True := by
  induction n using Node.induct with
  | text s => exact .text (h s List.mem_cons_self)
  | raw s => exact .raw s
  | element tag attrs children ih =>
    rw [texts, textsOf_eq] at h
    exact .element trivial fun c hc => ih c hc fun s hs => h s (List.mem_flatMap.2 ⟨c, hc, hs⟩)
  | root children ih =>
    rw [texts, textsOf_eq] at h
    exact .root fun c hc => ih c hc fun s hs => h s (List.mem_flatMap.2 ⟨c, hc, hs⟩)

theorem each_of_elements (n : Node) (h : ∀ e ∈ n.elements, E e.tag e.attributes) :
    n.Each (fun _ => True) E := by
  induction n using Node.induct with
  | text s => exact .text trivial
  | raw s => exact .raw s
  | element tag attrs children ih =>
    rw [elements, List.forall_mem_cons, elementsOf_eq] at h
    exact .element h.1 fun c hc => ih c hc fun e he => h.2 e (List.mem_flatMap.2 ⟨c, hc, he⟩)
  | root children ih =>
    rw [elements, elementsOf_eq] at h
    exact .root fun c hc => ih c hc fun e he => h e (List.mem_flatMap.2 ⟨c, hc, he⟩)

theorem Each.elements {n : Node} (h : n.Each T E) : ∀ e ∈ n.elements, E e.tag e.attributes := by
  induction h with
  | text | raw => exact fun e he => absurd he List.not_mem_nil
  | element he _ ih =>
    rw [Node.elements, List.forall_mem_cons, elementsOf_eq, List.forall_mem_flatMap]
    exact ⟨he, ih⟩
  | root _ ih =>
    rw [Node.elements, elementsOf_eq, List.forall_mem_flatMap]
    exact ih

end Node

end StorageMarkup
