import StorageMarkup.Node.Attributes

/-
  The document tree. A document is the list of nodes below its root; every pass
  takes such a list and builds a new one.
-/

namespace StorageMarkup

/-- `text` is character data, `raw` is final output that no pass looks into, and `root` is a
    document taken whole, which a tree built by hand may hold anywhere. -/
inductive Node where
  | root (children : List Node)
  | element (tag : List Char) (attributes : Attributes) (children : List Node)
  | text (value : List Char)
  | raw (value : List Char)
  deriving Repr, BEq

/-- An element on its own, as a rule about elements sees it. -/
structure Element where
  tag : List Char
  attributes : Attributes
  children : List Node

def Element.toNode (e : Element) : Node := .element e.tag e.attributes e.children

/-- The elements that have no content and no end tag. -/
def voidTags : List (List Char) :=
  ["area".toList, "base".toList, "br".toList, "col".toList, "embed".toList, "hr".toList,
    "img".toList, "input".toList, "link".toList, "meta".toList, "param".toList, "source".toList,
    "track".toList, "wbr".toList]

def isVoid (tag : List Char) : Bool := voidTags.contains tag

namespace Node

mutual

/-- The character data below a node. Final output is no character data. -/
def characterData : Node → List Char
  | .text s => s
  | .raw _ => []
  | .element _ _ children => characterDataOf children
  | .root children => characterDataOf children

def characterDataOf : List Node → List Char
  | [] => []
  | n :: rest => n.characterData ++ characterDataOf rest

end

mutual

/-- The elements at and below a node, each before those inside it. -/
def elements : Node → List Element
  | .element tag attrs children => ⟨tag, attrs, children⟩ :: elementsOf children
  | .root children => elementsOf children
  | .text _ => []
  | .raw _ => []

def elementsOf : List Node → List Element
  | [] => []
  | n :: rest => n.elements ++ elementsOf rest

end

/-- The nodes right below a node. -/
def children : Node → List Node
  | .element _ _ children => children
  | .root children => children
  | .text _ => []
  | .raw _ => []

/-- How many elements are around the children of a node that `above` elements are around. -/
def depthInside (above : Nat) : Node → Nat
  | .element .. => above + 1
  | _ => above

mutual

/-- How many nodes there are, the node and all below it. -/
def count : Node → Nat
  | .text _ => 1
  | .raw _ => 1
  | .element _ _ children => countAmong children + 1
  | .root children => countAmong children + 1

def countAmong : List Node → Nat
  | [] => 0
  | n :: rest => n.count + countAmong rest

end

theorem countAmong_append (a b : List Node) :
    countAmong (a ++ b) = countAmong a + countAmong b := by
  induction a with
  | nil => rw [List.nil_append, countAmong, Nat.zero_add]
  | cons n rest ih => rw [List.cons_append, countAmong, countAmong, ih, Nat.add_assoc]

theorem countAmong_children_lt (n : Node) : countAmong n.children < n.count := by
  cases n with
  | root children => exact Nat.lt_succ_self _
  | element tag attributes children => exact Nat.lt_succ_self _
  | text value => exact Nat.one_pos
  | raw value => exact Nat.one_pos

/-- Visits the nodes still waiting, each with the number of elements around it, and keeps the
    greatest depth. The waiting nodes stand in a list, so no tree is too deep to be measured. -/
def deepest (found : Nat) : List (Node × Nat) → Nat
  | [] => found
  | (n, above) :: waiting =>
    let depth := n.depthInside above
    deepest (max found depth) (n.children.map (·, depth) ++ waiting)
termination_by waiting => countAmong (waiting.map Prod.fst)
decreasing_by
  have hchildren : (n.children.map (·, depth)).map Prod.fst = n.children := by
    rw [List.map_map]
    exact List.map_id n.children
  rw [List.map_append, hchildren, countAmong_append, List.map_cons, countAmong]
  exact Nat.add_lt_add_right (countAmong_children_lt n) _

/-- How many elements are nested in each other at the deepest place of neighbours. -/
def depthOf (nodes : List Node) : Nat := deepest 0 (nodes.map (·, 0))

/-- The same for a node, which counts if it is an element. -/
def depth (n : Node) : Nat := depthOf [n]

/-- White space between elements. -/
def isBlank : Node → Bool
  | .text s => StorageMarkup.isBlank s
  | _ => false

/-- The trimmed text of a node that holds nothing but text: a text, or an element around one. -/
def onlyText? : Node → Option (List Char)
  | .text s => some (strip s)
  | .element _ _ [.text s] => some (strip s)
  | _ => none

/-- True of an element with this tag. -/
def hasTag (tag : List Char) : Node → Bool
  | .element t _ _ => t = tag
  | _ => false

def isElement : Node → Bool
  | .element .. => true
  | _ => false

/-- True of an element with one of the tags, of any element if none is named. -/
def hasTagAmong (tags : List (List Char)) : Node → Bool
  | .element t _ _ => tags.isEmpty || tags.contains t
  | _ => false

end Node

end StorageMarkup
