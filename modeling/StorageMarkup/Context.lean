import StorageMarkup.Footnote
import StorageMarkup.Vault

/-
  What the passes over one document share: its options, its vault, and its footnote
  index once a pass has asked for it.
-/

namespace StorageMarkup

structure Context where
  options : Options
  vault : Option Vault
  footnotes : Option Footnote.Index

namespace Context

/-- The context of a new document. -/
def fresh (options : Options) : Context := ⟨options, some .empty, none⟩

/-- The index of the document, taken from `nodes` if there is none yet. -/
def indexFor (ctx : Context) (nodes : List Node) : Footnote.Index :=
  ctx.footnotes.getD (.ofNodes nodes)

/-- The context in which that index is kept. -/
def withIndex (ctx : Context) (nodes : List Node) : Context :=
  { ctx with footnotes := some (ctx.indexFor nodes) }

end Context

end StorageMarkup
