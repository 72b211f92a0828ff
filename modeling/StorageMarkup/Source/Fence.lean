import StorageMarkup.Text.Space

/-
  Fenced blocks of a markdown source, line by line.
-/

namespace StorageMarkup

/-- The run of backticks or tildes that marks a fence. -/
structure Fence where
  mark : Char
  length : Nat
  deriving Repr, DecidableEq

namespace Fence

/-- The run a line starts with, after at most three blanks and if it is at least three long. -/
def ofLine? (line : List Char) : Option Fence :=
  let indent := (line.takeWhile (· = ' ')).length
  match line.dropWhile (· = ' ') with
  | [] => none
  | mark :: rest =>
    let length := (rest.takeWhile (· = mark)).length + 1
    if indent ≤ 3 ∧ (mark = '`' ∨ mark = '~') ∧ 3 ≤ length then some ⟨mark, length⟩ else none

/-- A line closes a fence with the same character, at least as many of it, and nothing else. -/
def closedBy (fence : Fence) (line : List Char) : Bool :=
  match ofLine? line with
  | some run =>
    run.mark = fence.mark && fence.length ≤ run.length && isBlank ((strip line).drop run.length)
  | none => false

end Fence

/-- Whether each line belongs to a fenced block, its first and last line included. A block that
    nothing closes reaches to the end. -/
def fencedFrom : Option Fence → List (List Char) → List Bool
  | _, [] => []
  | none, line :: rest =>
    match Fence.ofLine? line with
    | some fence => true :: fencedFrom (some fence) rest
    | none => false :: fencedFrom none rest
  | some fence, line :: rest =>
    true :: fencedFrom (if fence.closedBy line then none else some fence) rest

def fenced (ls : List (List Char)) : List Bool := fencedFrom none ls

/-- Each line with its flag. -/
def linesWithFences (ls : List (List Char)) : List (List Char × Bool) := ls.zip (fenced ls)

end StorageMarkup
