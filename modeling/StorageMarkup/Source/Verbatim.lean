import StorageMarkup.Options
import StorageMarkup.Source.Fence
import StorageMarkup.Vault

/-
  Verbatim regions of a markdown source: the lines from an open token on a line of
  its own to its close token, for directives whose body is no markdown. Such a
  region is set aside whole and its placeholder stands as a paragraph of its own.
-/

namespace StorageMarkup

/-- The directives with verbatim bodies. `holdsMissing` says that a missing name is listed among
    the names, `isEmpty` that nothing is listed at all. -/
structure VerbatimNames where
  names : List (List Char)
  holdsMissing : Bool
  isEmpty : Bool
  deriving Repr, DecidableEq

namespace VerbatimNames

/-- True of what can be listed as a name. -/
def isKey : Value → Bool
  | .list _ => false
  | .record _ => false
  | _ => true

/-- The names that an option lists: a text lists its characters, a record its keys. -/
def ofValue : Value → Except Failure VerbatimNames
  | .text s => .ok ⟨s.map fun c => [c], false, s.isEmpty⟩
  | .record entries => .ok ⟨entries.map Prod.fst, false, entries.isEmpty⟩
  | .list items =>
    if items.all isKey then
      .ok ⟨items.filterMap Value.text?, items.any (· matches .absent), items.isEmpty⟩
    else .error .badNames
  | _ => .error .badNames

end VerbatimNames

/-- The lines up to and including the first that is the close token for `name`. -/
def takeThroughClosing (name : List Char) : List (List Char) → Option (List (List Char))
  | [] => none
  | line :: rest =>
    if strip line = Directive.closing name then some [line]
    else (takeThroughClosing name rest).map (line :: ·)

/-- The name that a line opens a region by, fenced lines opening none. -/
def openedName? : List Char × Bool → Option (List Char)
  | (line, inFence) => if inFence then none else Directive.openName? line

/-- The lines of the region, without the first, that starts with a line before `rest`. A line that
    opens nothing has the missing name; where that is listed, there is no token to close it. -/
def regionAfter? (listed : VerbatimNames) (line : List Char × Bool) (rest : List (List Char)) :
    Except Failure (Option (List (List Char))) :=
  match openedName? line with
  | some name =>
    .ok (if listed.names.contains name then takeThroughClosing name rest else none)
  | none => if listed.holdsMissing then .error .badNames else .ok none

/-- Sets regions aside, `skip` lines of the current one still to pass. -/
def setRegionsAsideFrom (listed : VerbatimNames) (v : Vault) :
    Nat → List (List Char × Bool) → Vault × Except Failure (List (List Char))
  | _, [] => (v, .ok [])
  | skip + 1, _ :: rest => setRegionsAsideFrom listed v skip rest
  | 0, line :: rest =>
    match regionAfter? listed line (rest.map Prod.fst) with
    | .error e => (v, .error e)
    | .ok (some body) =>
      let (v, token) := v.deposit (unlines (line.1 :: body))
      let (v, others) := setRegionsAsideFrom listed v body.length rest
      (v, others.map fun ls => [] :: (indentation line.1 ++ token) :: [] :: ls)
    | .ok none =>
      let (v, others) := setRegionsAsideFrom listed v 0 rest
      (v, others.map (line.1 :: ·))

/-- True of a text that may hold a verbatim region at all. -/
def mayHoldRegions (listed : VerbatimNames) (text : List Char) : Bool :=
  !listed.isEmpty && contains "\x7b\x7b#".toList text

/-- Every verbatim region gives way to its placeholder, between empty lines. What was set aside
    before a failure stays aside. -/
def setRegionsAside (listed : VerbatimNames) (v : Vault) (text : List Char) :
    Vault × Except Failure (List Char) :=
  if mayHoldRegions listed text then
    let (v, ls) := setRegionsAsideFrom listed v 0 (linesWithFences (lines text))
    (v, ls.map unlines)
  else (v, .ok text)

end StorageMarkup
