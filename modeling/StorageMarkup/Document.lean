import StorageMarkup.Html.Tree
import StorageMarkup.Source.Pass
import StorageMarkup.Tree.Pass

/-
  Whole documents: a tree converted to storage markup, and a markdown source
  converted by way of the markup that an external reader makes of it.
-/

namespace StorageMarkup

/-- The passes over the written markup: what was set aside comes back, then blank lines are
    normalised. -/
inductive OutputPass where
  | restoration
  | blankLines
  deriving Repr, DecidableEq

namespace OutputPass

def all : List OutputPass := [.restoration, .blankLines]

def run (v : Option Vault) (text : List Char) : OutputPass → List Char
  | .restoration => Vault.reveal v text
  | .blankLines => capNewlineRuns text

def runAll (v : Option Vault) (text : List Char) : List Char :=
  all.foldl (fun text pass => pass.run v text) text

end OutputPass

/-- The storage markup of a tree, and the vault as the conversion leaves it. Depth is checked
    before anything else; a footnote index kept for another tree plays no part. -/
def convertWith (options : Options) (v : Vault) (nodes : List Node) :
    Vault × Traced (List Char) :=
  match withinLimit (Node.depthOf nodes) options.limit with
  | .error e => (v, .lift (.error e))
  | .ok () =>
    let (ctx, passed) := TreePass.runAll ⟨options, some v, none⟩ nodes
    let written := passed.bind fun nodes => .lift (Node.printAll options.limit nodes)
    (ctx.vault.getD v, written.bind fun text => pure (OutputPass.runAll ctx.vault text))

/-- A tree converted in a context: its vault takes part if it has one, its footnote index does not. -/
def Context.convert (ctx : Context) (nodes : List Node) : Context × Traced (List Char) :=
  let (v, done) := convertWith ctx.options (ctx.vault.getD .empty) nodes
  ({ ctx with vault := ctx.vault.map fun _ => v }, done)

/-- A tree converted on its own. -/
def convert (options : Options) (nodes : List Node) : Traced (List Char) :=
  (convertWith options .empty nodes).2

/-- The external program that makes markup of a markdown source. -/
abbrev Reader := List Char → Except ReaderFailure (List Char)

/-- The markup that a reader makes of a source. -/
def readMarkup (reader : Reader) (text : List Char) : Except Failure (List Char) :=
  (reader text).mapError Failure.ofReader

/-- The tree that a reader makes of a source. -/
def readTree (reader : Reader) (options : Options) (text : List Char) :
    Except Failure (List Node) := do
  let markup ← readMarkup reader text
  Html.read options.limit markup

/-- What the reader is handed for a document: its prepared source, if it can be prepared. -/
def sentFor (options : Options) (text : List Char) : List (List Char) :=
  match prepareSource options text with
  | .ok (_, source) => [source]
  | .error _ => []

/-- A markdown source with directives as storage markup. -/
def render (reader : Reader) (options : Options) (text : List Char) : Except Failure (List Char) := do
  let (v, source) ← prepareSource options text
  let nodes ← readTree reader options source
  (convertWith options v nodes).2.result

end StorageMarkup
