import StorageMarkup.Value

/-
  File paths as text: names with slashes between them. Empty names and single dots
  say nothing and are dropped.
-/

namespace StorageMarkup

/-- The slashes a path starts with (none, one, or exactly two), and its names. -/
structure Path where
  root : List Char
  names : List (List Char)
  deriving Repr, DecidableEq

namespace Path

def rootOf (s : List Char) : List Char :=
  match (s.takeWhile (· = '/')).length with
  | 0 => []
  | 2 => "//".toList
  | _ => ['/']

def ofText (s : List Char) : Path :=
  ⟨rootOf s, (pieces (· == '/') s).filter fun name => name ≠ [] ∧ name ≠ ['.']⟩

/-- The path of no names is a dot. -/
def toText (p : Path) : List Char :=
  if p.root.isEmpty && p.names.isEmpty then ['.'] else p.root ++ joinWith ['/'] p.names

/-- The last name. -/
def name (p : Path) : List Char := p.names.getLast?.getD []

def parent (p : Path) : Path := { p with names := p.names.dropLast }

/-- The path continued by the names of a text. -/
def append (p : Path) (s : List Char) : Path := { p with names := p.names ++ (ofText s).names }

/-- The part of a name before its last dot. A dot at either end of the name does not count. -/
def stem (name : List Char) : List Char :=
  let tail := name.reverse.takeWhile (· ≠ '.')
  let before := (name.reverse.drop (tail.length + 1)).reverse
  if tail.isEmpty || before.isEmpty then name else before

/-- A suffix is empty, or a dot with something other than slashes after it. -/
def isSuffix (s : List Char) : Bool :=
  !s.contains '/' && (s.isEmpty || (s.head? = some '.' && s ≠ ['.']))

/-- The path with another suffix, if that is one. The new name stays even where it says nothing: a
    name of dots can be left when its suffix is dropped. -/
def withSuffix? (p : Path) (suffix : List Char) : Option Path :=
  if isSuffix suffix then some { p with names := p.names.dropLast ++ [stem p.name ++ suffix] }
  else none

end Path

end StorageMarkup
