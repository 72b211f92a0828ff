import StorageMarkup.Context
import StorageMarkup.Mapping
import StorageMarkup.Tree.Body
import StorageMarkup.Tree.Protection

/-
  The passes over a document tree, in the order in which a conversion makes them.
-/

namespace StorageMarkup

inductive TreePass where
  | body
  | markers
  | directives
  | mapping
  | regions
  | footnotes
  deriving Repr, DecidableEq

namespace TreePass

def all : List TreePass := [.body, .markers, .directives, .mapping, .regions, .footnotes]

/-- One pass over the nodes below a root. What a pass has put into the context stays there even if
    the pass fails. -/
def run (ctx : Context) (nodes : List Node) : TreePass → Context × Traced (List Node)
  | .body => (ctx, pure (Node.bodyOf nodes))
  | .markers => (ctx, pure (Node.liftMarkersAmong ctx.vault nodes))
  | .directives =>
    match ctx.vault with
    | some v =>
      let (v, nodes) := v.shieldNodes nodes
      ({ ctx with vault := some v }, pure nodes)
    | none => (ctx, .lift (.error .noVault))
  | .mapping =>
    (ctx.withIndex nodes, Mapping.nodes ⟨ctx.options, ctx.vault, ctx.indexFor nodes⟩ 0 nodes)
  | .regions => (ctx, Region.foldAll ctx.options.limit ctx.vault nodes)
  | .footnotes =>
    (ctx.withIndex nodes,
      .lift (Node.settleFootnotesAmong (ctx.indexFor nodes) ctx.options.footnotesHeading
        ctx.options.limit nodes))

/-- Passes one after the other, each on what the one before left. -/
def runEach (ctx : Context) (nodes : List Node) : List TreePass → Context × Traced (List Node)
  | [] => (ctx, pure nodes)
  | pass :: rest =>
    let (ctx, done) := pass.run ctx nodes
    match done.result with
    | .error e => (ctx, ⟨done.events, .error e⟩)
    | .ok nodes =>
      let (ctx, others) := runEach ctx nodes rest
      (ctx, ⟨done.events ++ others.events, others.result⟩)

def runAll (ctx : Context) (nodes : List Node) : Context × Traced (List Node) :=
  runEach ctx nodes all

end TreePass

end StorageMarkup
