import StorageMarkup.Value

/-
  The attributes of an element: names with values, in the order they were written,
  each name once.
-/

namespace StorageMarkup

abbrev Attributes := List (List Char × Value)

namespace Attributes

def get? (attrs : Attributes) (name : List Char) : Option Value := List.lookup name attrs

/-- The value as text, if it is one. -/
def text? (attrs : Attributes) (name : List Char) : Option (List Char) :=
  (attrs.get? name).bind Value.text?

/-- A name that is there keeps its place, a new one goes last. -/
def set : Attributes → List Char → Value → Attributes
  | [], name, value => [(name, value)]
  | (key, old) :: rest, name, value =>
    if key = name then (key, value) :: rest else (key, old) :: set rest name value

def erase (attrs : Attributes) (name : List Char) : Attributes :=
  attrs.filter fun (key, _) => key ≠ name

/-- The classes, whether written as text or kept as a list. -/
def classes (attrs : Attributes) : List Value :=
  match attrs.get? "class".toList with
  | some (.text s) => (words s).map .text
  | some (.list items) => items
  | _ => []

def classNames (attrs : Attributes) : List (List Char) := attrs.classes.filterMap Value.text?

def inClass (attrs : Attributes) (name : List Char) : Bool := attrs.classNames.contains name

end Attributes

end StorageMarkup
