import StorageMarkup.Text.Search
import StorageMarkup.Text.Space

/-
  The lexicon of directives, the template tokens that a conversion passes through.

      {{name key="value"}}                     an inline directive
      {{#name key="value"}} ... {{/name}}      a block directive, opened and closed

  Braces never nest inside a token, so one token ends before the next can begin.
-/

namespace StorageMarkup.Directive

def isBrace (c : Char) : Bool := c == '{' || c == '}'

/-- A name runs up to white space or a brace. -/
def isNameChar (c : Char) : Bool := !isSpace c && !isBrace c

/-- The token a text starts with, and its length less one. -/
def read : List Char → Option (List Char × Nat)
  | '{' :: '{' :: rest =>
    let inner := rest.takeWhile (!isBrace ·)
    match rest.dropWhile (!isBrace ·) with
    | '}' :: '}' :: _ => some ('{' :: '{' :: inner ++ ['}', '}'], inner.length + 3)
    | _ => none
  | _ => none

/-- A text cut into its directives and the characters around them. -/
def split (s : List Char) : List (Piece (List Char)) := scan read s

/-- The directives of a text and where they start, left to right. -/
def find (s : List Char) : List (Nat × List Char) := hitsFrom List.length 0 (split s)

/-- The text between doubled braces, if the text is that and nothing else. -/
def inside? : List Char → Option (List Char)
  | '{' :: '{' :: rest =>
    let inner := rest.takeWhile (· ≠ '}')
    if rest.dropWhile (· ≠ '}') = ['}', '}'] then some inner else none
  | _ => none

/-- The name that the inside of a token starts with, if parameters may follow it. -/
def leadingName? (inner : List Char) : Option (List Char) :=
  let name := inner.takeWhile isNameChar
  if name.isEmpty || inner.any isBrace then none else some name

/-- The name, if the inside of a token is a name alone. -/
def soleName? (inner : List Char) : Option (List Char) :=
  if inner.isEmpty || !inner.all isNameChar then none else some inner

/-- True of a text that is a single open or close token. -/
def isOpenOrClose (s : List Char) : Bool :=
  match inside? (strip s) with
  | some (mark :: inner) => (mark == '#' || mark == '/') && !inner.isEmpty
  | _ => false

/-- The name of a text that is exactly one open token. -/
def openName? (s : List Char) : Option (List Char) :=
  match inside? (strip s) with
  | some ('#' :: inner) => leadingName? inner
  | _ => none

/-- The name of a text that is exactly one close token. -/
def closeName? (s : List Char) : Option (List Char) :=
  match inside? (strip s) with
  | some ('/' :: inner) => soleName? inner
  | _ => none

/-- The name of a text that is exactly one inline directive. -/
def inlineName? (s : List Char) : Option (List Char) :=
  match inside? (strip s) with
  | some ('#' :: _) => none
  | some ('/' :: _) => none
  | some inner => leadingName? inner
  | none => none

/-- The token that ends a block named `name`. -/
def closing (name : List Char) : List Char := "\x7b\x7b/".toList ++ name ++ "\x7d\x7d".toList

/-- The text before and after the first close token for `name`. -/
def cutClosing (name s : List Char) : Option (List Char × List Char) := cutAt (closing name) s

end StorageMarkup.Directive
