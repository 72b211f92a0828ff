import StorageMarkup.Failure
import StorageMarkup.Html.Token

/-
  The tree that markup denotes. An end tag closes the nearest open element of its
  name and everything inside it, the end of the text closes the rest, and nothing
  else is ever opened or closed.
-/

namespace StorageMarkup.Html

/-- An element still open, with the nodes it holds so far, the newest first. -/
structure Frame where
  tag : List Char
  attributes : Attributes
  content : List Node

def Frame.close (f : Frame) : Node := .element f.tag f.attributes f.content.reverse

/-- The nodes at the top, the newest first, and the open elements, the innermost first. -/
structure Builder where
  top : List Node
  stack : List Frame

/-- Attributes that hold a list of words, by tag; `class` and the two others do on every tag. -/
def holdsWords (tag name : List Char) : Bool :=
  let among (names : List String) := names.any fun n => name = n.toList
  let on (tags : List String) := tags.any fun t => tag = t.toList
  among ["class", "accesskey", "dropzone"] ||
    (on ["a", "link"] && among ["rel", "rev"]) ||
    (on ["area"] && among ["rel"]) ||
    (on ["td", "th"] && among ["headers"]) ||
    (on ["form"] && among ["accept-charset"]) ||
    (on ["object"] && among ["archive"]) ||
    (on ["icon"] && among ["sizes"]) ||
    (on ["iframe"] && among ["sandbox"]) ||
    (on ["output"] && among ["for"])

def attributeValue (tag name value : List Char) : Value :=
  if holdsWords tag name then .list ((words value).map .text) else .text value

/-- A name written twice keeps its first place and its last value. -/
def attributesOf (tag : List Char) (written : List (List Char × List Char)) : Attributes :=
  written.foldl (fun attrs (name, value) => attrs.set name (attributeValue tag name value)) []

/-- The white space that a string can be reduced to. -/
def isLayout (c : Char) : Bool := c = ' ' || c = '\n' || c = '\t' || c = '\x0c' || c = '\r'

/-- A string of white space alone counts as one line feed if it holds one, else as one blank;
    where white space is kept it stays. -/
def layoutText (keep : Bool) (s : List Char) : List Char :=
  if keep || !s.all isLayout then s else if '\n' ∈ s then ['\n'] else [' ']

namespace Builder

def empty : Builder := ⟨[], []⟩

def add (b : Builder) (n : Node) : Builder :=
  match b.stack with
  | [] => { b with top := n :: b.top }
  | f :: rest => { b with stack := { f with content := n :: f.content } :: rest }

/-- True inside the elements whose text keeps its white space. -/
def keepsLayout (b : Builder) : Bool :=
  b.stack.any fun f => f.tag = "pre".toList || f.tag = "textarea".toList

/-- Closes the innermost open element. -/
def closeTop (b : Builder) : Builder :=
  match b.stack with
  | [] => b
  | f :: rest => Builder.add { b with stack := rest } f.close

/-- Closes `n` elements, from the innermost outwards. -/
def closeMany : Nat → Builder → Builder
  | 0, b => b
  | n + 1, b => closeMany n b.closeTop

/-- How many elements an end tag closes, if one of its name is open. -/
def opened? (name : List Char) : List Frame → Option Nat
  | [] => none
  | f :: rest => if f.tag = name then some 1 else (opened? name rest).map (· + 1)

def step (b : Builder) : Token → Builder
  | .text s => b.add (.text (layoutText b.keepsLayout s))
  | .comment s => b.add (.raw ("<!--".toList ++ layoutText b.keepsLayout s ++ "-->".toList))
  | .cdata s => b.add (.raw ("<![CDATA[".toList ++ layoutText b.keepsLayout s ++ "]]>".toList))
  | .skipped => b
  | .startTag name written selfClosing =>
    let attributes := attributesOf name written
    if selfClosing || isVoid name then b.add (.element name attributes [])
    else { b with stack := ⟨name, attributes, []⟩ :: b.stack }
  | .endTag name => closeMany ((opened? name b.stack).getD 0) b

def finish (b : Builder) : List Node := (closeMany b.stack.length b).top.reverse

end Builder

/-- The nodes that markup denotes, however deep. -/
def parse (markup : List Char) : List Node := ((tokens markup).foldl Builder.step .empty).finish

mutual

/-- Checks every list of children below a node that `depth` elements enclose. -/
def checkNode (limit : Limit) (depth : Nat) : Node → Except Failure Unit
  | .element _ _ children => do
    withinLimit (depth + 2) limit
    checkNodes limit (depth + 1) children
  | _ => .ok ()

def checkNodes (limit : Limit) (depth : Nat) : List Node → Except Failure Unit
  | [] => .ok ()
  | n :: rest => do
    checkNode limit depth n
    checkNodes limit depth rest

end

/-- The nodes that markup denotes, if every list of children, the outermost being the first level,
    lies within the limit. -/
def read (limit : Limit) (markup : List Char) : Except Failure (List Node) := do
  let nodes := parse markup
  withinLimit 1 limit
  checkNodes limit 0 nodes
  return nodes

end StorageMarkup.Html
