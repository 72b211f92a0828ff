import StorageMarkup.Text.Search
import StorageMarkup.Text.Space

/-
  Character references in markup: named ones, and code points in decimal or
  hexadecimal digits.
-/

namespace StorageMarkup.Html

/-- The characters that have a name. -/
def namedChars : List (List Char × Char) :=
  [("amp".toList, '&'), ("lt".toList, '<'), ("gt".toList, '>'), ("quot".toList, '"'),
    ("nbsp".toList, '\u00a0'), ("copy".toList, '\u00a9'), ("hellip".toList, '\u2026'),
    ("mdash".toList, '\u2014'), ("ndash".toList, '\u2013'), ("eacute".toList, '\u00e9')]

def hexDigit? (c : Char) : Option Nat :=
  if c.isDigit then some (c.toNat - '0'.toNat)
  else if 'a' ≤ c ∧ c ≤ 'f' then some (c.toNat - 'a'.toNat + 10)
  else if 'A' ≤ c ∧ c ≤ 'F' then some (c.toNat - 'A'.toNat + 10)
  else none

def decimalDigit? (c : Char) : Option Nat := if c.isDigit then some (c.toNat - '0'.toNat) else none

/-- The number that digits of a base write, if there are any and all are of the base. -/
def readNumber (base : Nat) (digit? : Char → Option Nat) (s : List Char) : Option Nat :=
  if s.isEmpty then none else s.foldlM (fun n c => (digit? c).map (base * n + ·)) 0

def charOfCode? (n : Nat) : Option Char := if n.isValidChar then some (Char.ofNat n) else none

/-- The character that the inside of a reference stands for, the `&` and the `;` left out. -/
def charOfReference? : List Char → Option Char
  | '#' :: 'x' :: digits => (readNumber 16 hexDigit? digits).bind charOfCode?
  | '#' :: 'X' :: digits => (readNumber 16 hexDigit? digits).bind charOfCode?
  | '#' :: digits => (readNumber 10 decimalDigit? digits).bind charOfCode?
  | name => namedChars.lookup name

/-- The reference a text starts with: its character, and its length less one. -/
def readReference : List Char → Option (Char × Nat)
  | '&' :: rest =>
    let inside := rest.takeWhile fun c => c.isAlphanum || c = '#'
    match rest.dropWhile fun c => c.isAlphanum || c = '#' with
    | ';' :: _ => (charOfReference? inside).map fun c => (c, inside.length + 1)
    | _ => none
  | _ => none

/-- Text with its references resolved. What only looks like a reference is text. -/
def decode (s : List Char) : List Char := spell (fun c => [c]) (scan readReference s)

/-- The code points that Unicode keeps free of characters for good: the last two of every plane and
    a row of thirty-two. -/
def isNoncharacter (c : Char) : Bool :=
  let n := c.toNat
  (0xFDD0 ≤ n && n ≤ 0xFDEF) || 0xFFFE ≤ n % 0x10000

/-- An attribute value with its references resolved; those to noncharacters leave nothing. -/
def decodeValue (s : List Char) : List Char :=
  spell (fun c => if isNoncharacter c then [] else [c]) (scan readReference s)

end StorageMarkup.Html
