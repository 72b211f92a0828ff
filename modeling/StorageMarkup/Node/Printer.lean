import StorageMarkup.Failure
import StorageMarkup.Node.Basic
import StorageMarkup.Text.Escape

/-
  Trees written as markup: text is escaped, final output is written as it stands,
  and an element without content closes itself. Nesting beyond the limit is refused
  before the element that reaches it is written.
-/

namespace StorageMarkup

/-- One attribute with the blank before it. `true` is written bare; what is neither `true`, text
    nor a list of texts is not written. -/
def attributeText : List Char × Value → List Char
  | (name, .flag true) => ' ' :: name
  | (name, .text s) => ' ' :: name ++ "=\"".toList ++ escapeQuoted s ++ ['"']
  | (name, .list items) =>
    match Value.texts? items with
    | some texts => ' ' :: name ++ "=\"".toList ++ escapeQuoted (joinWith [' '] texts) ++ ['"']
    | none => []
  | _ => []

def Attributes.print (attrs : Attributes) : List Char := attrs.flatMap attributeText

/-- Elements that keep the white space of their text. -/
def isPreformatted (tag : List Char) : Bool :=
  tag = "pre".toList || tag = "code".toList || tag = "textarea".toList

namespace Node

/-- Character data as written; outside preformatted elements blank runs are folded. -/
def printText (preformatted : Bool) (s : List Char) : List Char :=
  if preformatted then escapeText s else foldBlankRuns (escapeText s)

mutual

/-- The markup of a node that `depth` elements enclose. -/
def printAt (limit : Limit) (preformatted : Bool) (depth : Nat) : Node → Except Failure (List Char)
  | .raw s => .ok s
  | .text s => .ok (printText preformatted s)
  | .root children => printAllAt limit preformatted depth children
  | .element tag attrs children => do
    withinLimit (depth + 1) limit
    if isVoid tag then return '<' :: tag ++ attrs.print ++ " />".toList
    let inner ← printAllAt limit (preformatted || isPreformatted tag) (depth + 1) children
    return '<' :: tag ++ attrs.print ++ ['>'] ++ inner ++ "</".toList ++ tag ++ ['>']

def printAllAt (limit : Limit) (preformatted : Bool) (depth : Nat) :
    List Node → Except Failure (List Char)
  | [] => .ok []
  | n :: rest => do
    let first ← n.printAt limit preformatted depth
    let others ← printAllAt limit preformatted depth rest
    return first ++ others

end

def print (limit : Limit) (n : Node) : Except Failure (List Char) :=
  n.printAt limit.orStandard false 0

/-- The markup of neighbours, nothing between them. -/
def printAll (limit : Limit) (nodes : List Node) : Except Failure (List Char) :=
  printAllAt limit.orStandard false 0 nodes

end Node

end StorageMarkup
