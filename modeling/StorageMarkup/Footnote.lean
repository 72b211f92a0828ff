import StorageMarkup.Directive.Build
import StorageMarkup.Node.Printer
import StorageMarkup.Options

/-
  Footnotes. The markdown reader writes a reference as a link to a list item, that
  item in a container of its own, and a link back. Storage markup has anchors and
  links to anchors instead; a footnote takes that form when the document both
  defines it and refers to it, and stays as it is otherwise.
-/

namespace StorageMarkup

/-- The footnotes that a document defines and those it refers to. -/
structure Footnote.Index where
  definitions : List (List Char)
  references : List (List Char)
  deriving Repr, DecidableEq

namespace Footnote

/-- A footnote's id is not empty, holds no white space and reaches to the end of the text, where
    one line feed may follow. -/
def idThroughEnd? (s : List Char) : Option (List Char) :=
  let id := s.takeWhile (!isSpace ·)
  let rest := s.dropWhile (!isSpace ·)
  if !id.isEmpty && (rest.isEmpty || rest = ['\n']) then some id else none

/-- The readings of what follows a stem: without the hyphen that may join stem and id, and with it. -/
def readings : List Char → List (List Char)
  | '-' :: rest => [rest, '-' :: rest]
  | s => [s]

/-- The id after the stem of a definition, which no back-reference's stem is. -/
def definitionTail? (s : List Char) : Option (List Char) :=
  (readings s).findSome? fun t => if "ref".toList.isPrefixOf t then none else idThroughEnd? t

def backReferenceTail? (s : List Char) : Option (List Char) := (readings s).findSome? idThroughEnd?

/-- The footnote that the id of a list item defines. -/
def definition? (id : List Char) : Option (List Char) :=
  (dropStart? (idStem ++ "fn".toList) id).bind definitionTail?

/-- The footnote that a link refers to. -/
def reference? (href : List Char) : Option (List Char) :=
  (dropStart? ('#' :: idStem ++ "fn".toList) href).bind definitionTail?

/-- The footnote that a link leads back to. -/
def backReference? (href : List Char) : Option (List Char) :=
  (dropStart? ('#' :: idStem ++ "fnref".toList) href).bind backReferenceTail?

end Footnote

namespace Element

/-- A container of footnotes says so by an attribute, a class or its role. -/
def holdsFootnotes (e : Element) : Bool :=
  (e.attributes.get? "data-footnotes".toList).isSome ||
    e.attributes.inClass "footnotes".toList ||
    e.attributes.text? "role".toList == some "doc-endnotes".toList

/-- The footnote that a list item defines. -/
def definition? (e : Element) : Option (List Char) :=
  if e.tag = "li".toList then (e.attributes.text? "id".toList).bind Footnote.definition? else none

/-- The footnote that a link refers to. -/
def reference? (e : Element) : Option (List Char) :=
  if e.tag = "a".toList then (e.attributes.text? "href".toList).bind Footnote.reference? else none

end Element

namespace Footnote.Index

/-- What one element brings: a container all definitions in it, a link its reference. -/
def definitionsIn (e : Element) : List (List Char) :=
  if e.holdsFootnotes then e.toNode.elements.filterMap Element.definition? else []

def referenceOf? (e : Element) : Option (List Char) :=
  if e.holdsFootnotes then none else e.reference?

/-- The index of a document. -/
def ofNodes (nodes : List Node) : Footnote.Index where
  definitions := (Node.elementsOf nodes).flatMap definitionsIn
  references := (Node.elementsOf nodes).filterMap referenceOf?

/-- A footnote is linked if it is both defined and referred to. -/
def isLinked (index : Footnote.Index) (id : List Char) : Bool :=
  index.definitions.contains id && index.references.contains id

end Footnote.Index

namespace Footnote

def anchorName (id : List Char) : Value := .text ("footnote-".toList ++ id)

def referenceAnchorName (id : List Char) : Value := .text ("footnote-ref-".toList ++ id)

def backLabel : Value := .text ['↩']

def backTooltip : Value := .text "Back to reference".toList

/-- The link back from a definition. -/
def backLink (id : List Char) : List Char :=
  Directive.anchorLink backLabel (referenceAnchorName id) backTooltip

/-- An anchor to come back to, and the link to the definition. -/
def referenceLink (id label : List Char) : List Char :=
  Directive.anchor (referenceAnchorName id) ++
    Directive.anchorLink (.text label) (anchorName id) .absent

/-- What a link to or from a linked footnote becomes; any other link stays. -/
def link? (index : Footnote.Index) (e : Element) : Option (List Char) :=
  match e.attributes.text? "href".toList with
  | none => none
  | some href =>
    match backReference? href, reference? href with
    | some id, _ => if index.isLinked id then some (backLink id) else none
    | none, some id =>
      if index.isLinked id then some (referenceLink id (strip (Node.characterDataOf e.children)))
      else none
    | none, none => none

/-- The definitions of a container, one after the other, each with its anchor if it is linked. -/
def definitionTexts (index : Footnote.Index) (limit : Limit) :
    List Element → Except Failure (List Char)
  | [] => .ok []
  | item :: rest =>
    match item.definition? with
    | none => definitionTexts index limit rest
    | some id => do
      let anchor := if index.isLinked id then Directive.anchor (anchorName id) else []
      let body ← Node.printAll limit item.children
      let others ← definitionTexts index limit rest
      return anchor ++ strip body ++ "\n\n".toList ++ others

/-- A container as a section of its own: a heading, which has to be text, then its definitions. -/
def sectionText (index : Footnote.Index) (heading : Value) (limit : Limit) (container : Element) :
    Except Failure (List Char) := do
  let title ← heading.text?.elim (throw .notText) pure
  let definitions ← definitionTexts index limit container.toNode.elements
  return "<h2>".toList ++ escapeText title ++ "</h2>\n".toList ++ definitions

end Footnote

mutual

/-- A node in which every footnote container is a section. -/
def Node.settleFootnotes (index : Footnote.Index) (heading : Value) (limit : Limit) :
    Node → Except Failure Node
  | .element tag attrs children =>
    if Element.holdsFootnotes ⟨tag, attrs, children⟩ then do
      let text ← Footnote.sectionText index heading limit ⟨tag, attrs, children⟩
      return .raw text
    else do
      let children ← Node.settleFootnotesAmong index heading limit children
      return .element tag attrs children
  | .text s => .ok (.text s)
  | .raw s => .ok (.raw s)
  | .root children => .ok (.root children)

def Node.settleFootnotesAmong (index : Footnote.Index) (heading : Value) (limit : Limit) :
    List Node → Except Failure (List Node)
  | [] => .ok []
  | n :: rest => do
    let first ← n.settleFootnotes index heading limit
    let others ← Node.settleFootnotesAmong index heading limit rest
    return first :: others

end

end StorageMarkup
