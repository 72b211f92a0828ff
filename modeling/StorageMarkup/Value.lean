import StorageMarkup.Text.Search
import StorageMarkup.Text.Space
import StorageMarkup.Text.Visible

/-
  The values that attributes, directive parameters and options hold, and how one
  that is not text is written out as text.
-/

namespace StorageMarkup

/-- A value as a document or its settings give it. `other` keeps what the library has no use for
    (a fraction) in the notation it came in. -/
inductive Value where
  | absent
  | flag (on : Bool)
  | number (n : Int)
  | text (s : List Char)
  | list (items : List Value)
  | record (entries : List (List Char × Value))
  | other (written : List Char)
  deriving Repr, BEq, Inhabited

namespace Value

/-- The hexadecimal digits of `n`, at least `width` of them. -/
def hexDigits (width n : Nat) : List Char :=
  let digits := Nat.toDigits 16 n
  List.replicate (width - digits.length) '0' ++ digits

/-- One character of a quoted text. The quote in use, the backslash and the three common controls
    have short escapes, the invisible characters go by code point. -/
def quotedChar (quote c : Char) : List Char :=
  if c = quote || c = '\\' then ['\\', c]
  else if c = '\n' then "\\n".toList
  else if c = '\r' then "\\r".toList
  else if c = '\t' then "\\t".toList
  else if isVisible c then [c]
  else if c.toNat < 0x100 then "\\x".toList ++ hexDigits 2 c.toNat
  else if c.toNat < 0x10000 then "\\u".toList ++ hexDigits 4 c.toNat
  else "\\U".toList ++ hexDigits 8 c.toNat

/-- Single quotes enclose a text, double ones a text that holds single quotes only. -/
def quoted (s : List Char) : List Char :=
  let quote := if '\'' ∈ s ∧ '"' ∉ s then '"' else '\''
  quote :: s.flatMap (quotedChar quote) ++ [quote]

def numeral (n : Int) : List Char :=
  match n with
  | .ofNat k => Nat.toDigits 10 k
  | .negSucc k => '-' :: Nat.toDigits 10 (k + 1)

mutual

/-- The text of a value as part of another: there, a text is quoted. -/
def display : Value → List Char
  | .text s => quoted s
  | .absent => "None".toList
  | .flag true => "True".toList
  | .flag false => "False".toList
  | .number n => numeral n
  | .list items => '[' :: joinWith ", ".toList (displayItems items) ++ [']']
  | .record entries => '{' :: joinWith ", ".toList (displayEntries entries) ++ ['}']
  | .other written => written

def displayItems : List Value → List (List Char)
  | [] => []
  | item :: rest => item.display :: displayItems rest

def displayEntries : List (List Char × Value) → List (List Char)
  | [] => []
  | (key, value) :: rest =>
    (quoted key ++ ':' :: ' ' :: value.display) :: displayEntries rest

end

/-- The text of a value on its own: a text is itself. -/
def toText : Value → List Char
  | .text s => s
  | v => v.display

/-- False of what counts as nothing: no value, `false`, zero, empty text and what has no items. -/
def isSet : Value → Bool
  | .absent => false
  | .flag on => on
  | .number n => n != 0
  | .text s => !s.isEmpty
  | .list items => !items.isEmpty
  | .record entries => !entries.isEmpty
  | .other _ => true

def text? : Value → Option (List Char)
  | .text s => some s
  | _ => none

/-- The items of a list of texts. -/
def texts? (items : List Value) : Option (List (List Char)) := items.mapM text?

end Value

end StorageMarkup
