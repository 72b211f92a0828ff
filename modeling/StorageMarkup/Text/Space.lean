/-
  White space, and the cuts that go by it: trimming, words and lines.

  Text is a list of characters throughout the library, so that every cut is a
  structural recursion and every length counts characters.
-/

namespace StorageMarkup

/-- The characters that separate words: the ASCII controls from tab to carriage return and from
    file separator to unit separator, the blank, next line, and Unicode's space, line and
    paragraph separators. The zero-width ones are not among them. -/
def isSpace (c : Char) : Bool :=
  let n := c.toNat
  (9 ≤ n && n ≤ 13) || (28 ≤ n && n ≤ 32) || n == 0x85 || n == 0xA0 || n == 0x1680 ||
    (0x2000 ≤ n && n ≤ 0x200A) || n == 0x2028 || n == 0x2029 || n == 0x202F || n == 0x205F ||
    n == 0x3000

/-- True of text that holds nothing but white space. -/
def isBlank (s : List Char) : Bool := s.all isSpace

def stripLeft (s : List Char) : List Char := s.dropWhile isSpace

def stripRight : List Char → List Char
  | [] => []
  | c :: rest =>
    match stripRight rest with
    | [] => if isSpace c then [] else [c]
    | kept => c :: kept

/-- The text without the white space at its two ends. -/
def strip (s : List Char) : List Char := stripRight (stripLeft s)

/-- The white space a text starts with. -/
def indentation (s : List Char) : List Char := s.takeWhile isSpace

/-- The pieces between the separators; there is always one more piece than separators. -/
def pieces (separator : Char → Bool) : List Char → List (List Char)
  | [] => [[]]
  | c :: rest =>
    if separator c then [] :: pieces separator rest
    else
      match pieces separator rest with
      | [] => [[c]]
      | first :: others => (c :: first) :: others

/-- Lines end at the line feed only. -/
def lines (s : List Char) : List (List Char) := pieces (· == '\n') s

/-- Joins with a separator between each two neighbours, none at the ends. -/
def joinWith (separator : List Char) : List (List Char) → List Char
  | [] => []
  | [s] => s
  | s :: rest => s ++ separator ++ joinWith separator rest

def unlines (ls : List (List Char)) : List Char := joinWith ['\n'] ls

/-- The maximal runs of characters that are not white space. -/
def words (s : List Char) : List (List Char) := (pieces isSpace s).filter (!·.isEmpty)

end StorageMarkup
