import StorageMarkup.Directive.Token
import StorageMarkup.Value

/-
  Directives written out: parameters first, then the directives that a conversion
  puts in place of images, code, sections and footnote links.
-/

namespace StorageMarkup.Directive

abbrev Param := List Char × Value

/-- A parameter value without the quote that would end it. -/
def quoteValue (value : Value) : List Char := replaceAll ['"'] "&quot;".toList value.toText

/-- One parameter; `false` and a missing value write none, `true` is written bare. -/
def param? : Param → Option (List Char)
  | (_, .absent) => none
  | (_, .flag false) => none
  | (key, .flag true) => some (key ++ "=true".toList)
  | (key, value) => some (key ++ "=\"".toList ++ quoteValue value ++ ['"'])

/-- Parameters in the order given, one blank between each two. -/
def params (ps : List Param) : List Char := joinWith [' '] (ps.filterMap param?)

/-- The inside of a token: its name, then its parameters if any are written. -/
def nameAndParams (name : List Char) (ps : List Param) : List Char :=
  let rendered := params ps
  if rendered.isEmpty then name else name ++ ' ' :: rendered

def inline (name : List Char) (ps : List Param) : List Char :=
  '{' :: '{' :: nameAndParams name ps ++ ['}', '}']

def opening (name : List Char) (ps : List Param) : List Char :=
  '{' :: '{' :: '#' :: nameAndParams name ps ++ ['}', '}']

/-- A body between an open and a close token, each token on a line of its own. -/
def region (head body name : List Char) : List Char := head ++ '\n' :: body ++ '\n' :: closing name

def block (name body : List Char) (ps : List Param) : List Char := region (opening name ps) body name

/-- Sizes that are not set are left out; references to a quote around the path are dropped from it. -/
def image (src : List Char) (alt width height : Value) (extra : List Param) : List Char :=
  let size (key : String) (value : Value) : List Param :=
    if value.isSet then [(key.toList, .text value.toText)] else []
  inline "confluence-image".toList
    ([("src".toList, .text (replaceAll "%22".toList [] src)), ("alt".toList, alt)] ++
      size "width" width ++ size "height" height ++
      extra.map fun (key, value) => (key, .text value.toText))

def code (body : List Char) (language lineNumbers : Value) : List Char :=
  block "confluence-code".toList (stripRight body)
    [("language".toList, language), ("linenumbers".toList, lineNumbers)]

def expand (title : Value) (body : List Char) : List Char :=
  block "confluence-expand".toList body [("title".toList, title)]

def anchor (name : Value) : List Char := inline "confluence-anchor".toList [("name".toList, name)]

def anchorLink (label target tooltip : Value) : List Char :=
  inline "confluence-link".toList
    [("type".toList, .text "anchor".toList), ("text".toList, label), ("anchor".toList, target),
      ("tooltip".toList, tooltip)]

end StorageMarkup.Directive
