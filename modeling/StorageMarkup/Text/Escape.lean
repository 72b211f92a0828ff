import StorageMarkup.Text.Search
import StorageMarkup.Text.Space

/-
  How character data and attribute values are written in markup, and the two
  rules about blank lines: one for each text, one for the whole output.
-/

namespace StorageMarkup

def escapeTextChar (c : Char) : List Char :=
  if c = '&' then "&amp;".toList
  else if c = '<' then "&lt;".toList
  else if c = '>' then "&gt;".toList
  else [c]

/-- Character data: `&`, `<` and `>` become references, quotes stay. -/
def escapeText (s : List Char) : List Char := s.flatMap escapeTextChar

def escapeQuotedChar (c : Char) : List Char :=
  if c = '"' then "&quot;".toList
  else if c = '\'' then "&#x27;".toList
  else escapeTextChar c

/-- A value between double quotes: both kinds of quotes become references too. -/
def escapeQuoted (s : List Char) : List Char := s.flatMap escapeQuotedChar

/-- The number of characters up to and including the last line feed, if there is one. -/
def throughLastNewline : List Char → Option Nat
  | [] => none
  | c :: rest =>
    match throughLastNewline rest with
    | some n => some (n + 1)
    | none => if c = '\n' then some 1 else none

/-- A stretch of white space from one line feed to the last one after it, the text between them
    being white space alone. -/
def readBlankRun : List Char → Option (Unit × Nat)
  | '\n' :: rest => (throughLastNewline (rest.takeWhile isSpace)).map fun n => ((), n)
  | _ => none

/-- A run of white space that holds several line feeds keeps one in place of all from the first
    to the last. -/
def foldBlankRuns (s : List Char) : List Char := spell (fun _ => ['\n']) (scan readBlankRun s)

/-- Every run of three or more line feeds keeps two. -/
def capNewlineRuns : List Char → List Char
  | [] => []
  | c :: rest =>
    if c = '\n' && "\n\n".toList.isPrefixOf rest then capNewlineRuns rest
    else c :: capNewlineRuns rest

end StorageMarkup
