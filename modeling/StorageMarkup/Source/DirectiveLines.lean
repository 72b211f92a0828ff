import StorageMarkup.Directive.Token
import StorageMarkup.Source.Fence

/-
  Directive lines of a markdown source. A line right after a list item or a
  paragraph is read as part of it, so a line that is one block token gets blank
  lines around it. Its indentation stays, and so do fenced blocks.
-/

namespace StorageMarkup

/-- True of a line outside fences that is one block token. -/
def isDirectiveLine : List Char × Bool → Bool
  | (line, inFence) => !inFence && Directive.isOpenOrClose line

/-- The lines with the empty ones put in. `gap` says that the line before was a directive line,
    `nonBlank` that it was not blank. -/
def setLinesApartFrom (gap nonBlank : Bool) : List (List Char × Bool) → List (List Char)
  | [] => []
  | (line, inFence) :: rest =>
    let blank := isBlank line
    let token := isDirectiveLine (line, inFence)
    let before := (gap && !blank) || (token && nonBlank)
    let others := line :: setLinesApartFrom token (!blank) rest
    if before then [] :: others else others

/-- Blank lines set every directive line apart. -/
def setLinesApart (text : List Char) : List Char :=
  unlines (setLinesApartFrom false false (linesWithFences (lines text)))

end StorageMarkup
