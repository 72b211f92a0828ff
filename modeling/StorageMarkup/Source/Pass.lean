import StorageMarkup.Context
import StorageMarkup.Source.DirectiveLines
import StorageMarkup.Source.Verbatim

/-
  The passes over a markdown source before it is read: verbatim regions are set
  aside, directive lines are set apart, and the directives left are set aside too.
-/

namespace StorageMarkup

inductive SourcePass where
  | verbatimRegions
  | directiveLines
  | directives
  deriving Repr, DecidableEq

namespace SourcePass

/-- Verbatim regions come first, before anything touches their lines. -/
def all : List SourcePass := [.verbatimRegions, .directiveLines, .directives]

/-- Verbatim regions need a vault only if there may be some. -/
def setRegionsAside (ctx : Context) (text : List Char) : Context × Except Failure (List Char) :=
  match VerbatimNames.ofValue ctx.options.verbatim with
  | .error e => (ctx, .error e)
  | .ok listed =>
    match ctx.vault with
    | some v =>
      let (v, text) := StorageMarkup.setRegionsAside listed v text
      ({ ctx with vault := some v }, text)
    | none => (ctx, if mayHoldRegions listed text then .error .noVault else .ok text)

/-- A pass that fails may have set something aside already. -/
def run (ctx : Context) (text : List Char) : SourcePass → Context × Except Failure (List Char)
  | .verbatimRegions => setRegionsAside ctx text
  | .directiveLines => (ctx, .ok (setLinesApart text))
  | .directives =>
    match ctx.vault with
    | some v =>
      let (v, text) := v.shield text
      ({ ctx with vault := some v }, .ok text)
    | none => (ctx, .error .noVault)

/-- Passes in order, until one fails. -/
def runEach (ctx : Context) (text : List Char) :
    List SourcePass → Context × Except Failure (List Char)
  | [] => (ctx, .ok text)
  | pass :: rest =>
    match pass.run ctx text with
    | (ctx, .ok text) => runEach ctx text rest
    | (ctx, .error e) => (ctx, .error e)

def runAll (ctx : Context) (text : List Char) : Context × Except Failure (List Char) :=
  runEach ctx text all

end SourcePass

/-- A new document's source as the markdown reader gets it, and the vault that goes with it. -/
def prepareSource (options : Options) (text : List Char) : Except Failure (Vault × List Char) := do
  let listed ← VerbatimNames.ofValue options.verbatim
  let (v, regionless) := setRegionsAside listed .empty text
  return v.shield (setLinesApart (← regionless))

end StorageMarkup
