import StorageMarkup.Node.Basic
import StorageMarkup.Vault

/-
  Markers: block tokens that stand between elements instead of inside a paragraph.
  A reader of markdown wraps a directive line in a paragraph; pairing open and close
  tokens needs them beside the content they enclose.
-/

namespace StorageMarkup

/-- The element that a directive line ends up in. -/
def isParagraph (tag : List Char) : Bool := tag = "p".toList

/-- True of a region set aside whole: several lines, from an open token to its close token. -/
def isRegionText (s : List Char) : Bool :=
  let ls := lines (strip s)
  match ls, ls.getLast? with
  | first :: _ :: _, some last =>
    match Directive.openName? first with
    | some name => Directive.closeName? last = some name
    | none => false
  | _, _ => false

/-- True of a line that stands for a block token or for a whole region. -/
def isMarkerLine (v : Option Vault) (line : List Char) : Bool :=
  let said := Vault.reveal v line
  Directive.isOpenOrClose said || isRegionText said

/-- The lines of a text that are not blank, trimmed. -/
def contentLines (s : List Char) : List (List Char) := ((lines s).filter (!isBlank ·)).map strip

/-- The marker lines of an element, if it is a paragraph of nothing else. -/
def markersOf? (v : Option Vault) (tag : List Char) (children : List Node) :
    Option (List (List Char)) :=
  match children with
  | [.text s] =>
    let ls := contentLines s
    if isParagraph tag && !ls.isEmpty && ls.all (isMarkerLine v) then some ls else none
  | _ => none

/-- Markers side by side, a line feed between each two. -/
def markers : List (List Char) → List Node
  | [] => []
  | [line] => [.text line]
  | line :: rest => .text line :: .text ['\n'] :: markers rest

mutual

/-- The nodes that take a node's place when paragraphs of markers are lifted. -/
def Node.liftMarkers (v : Option Vault) : Node → List Node
  | .element tag attrs children =>
    match markersOf? v tag children with
    | some ls => markers ls
    | none => [.element tag attrs (Node.liftMarkersAmong v children)]
  | .text s => [.text s]
  | .raw s => [.raw s]
  | .root children => [.root children]

def Node.liftMarkersAmong (v : Option Vault) : List Node → List Node
  | [] => []
  | n :: rest => n.liftMarkers v ++ Node.liftMarkersAmong v rest

end

end StorageMarkup
