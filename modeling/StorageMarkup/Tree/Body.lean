import StorageMarkup.Node.Basic

/-
  The body of a document: what remains when the wrappers of a whole page and its
  namespace declarations are gone.
-/

namespace StorageMarkup

def isWrapper (tag : List Char) : Bool := tag = "html".toList || tag = "body".toList

def isNamespace (name : List Char) : Bool :=
  name = "xmlns".toList || name = "xmlns:ac".toList || name = "xmlns:ri".toList

def Attributes.withoutNamespaces (attrs : Attributes) : Attributes :=
  attrs.filter fun (name, _) => !isNamespace name

mutual

/-- The nodes that take a node's place: the content of a wrapper, nothing for a page head, and for
    any other element the same with its own content unwrapped. -/
def Node.body : Node → List Node
  | .element tag attrs children =>
    if tag = "head".toList then []
    else if isWrapper tag then Node.bodyOf children
    else [.element tag attrs.withoutNamespaces (Node.bodyOf children)]
  | .text s => [.text s]
  | .raw s => [.raw s]
  | .root children => [.root children]

def Node.bodyOf : List Node → List Node
  | [] => []
  | n :: rest => n.body ++ Node.bodyOf rest

end

end StorageMarkup
