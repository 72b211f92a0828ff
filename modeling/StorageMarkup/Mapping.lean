import StorageMarkup.Footnote
import StorageMarkup.Region

/-
  Elements of markup mapped to storage markup: images, footnote links, code blocks
  and folding sections become directives, table cells say their alignment as style.
  An element's content is mapped before the element itself.
-/

namespace StorageMarkup.Mapping

/-- What the rules go by. -/
structure Env where
  options : Options
  vault : Option Vault
  footnotes : Footnote.Index

/-- An image with a path becomes a directive. -/
def image (e : Element) : List Node :=
  match e.attributes.text? "src".toList with
  | none => [e.toNode]
  | some [] => [e.toNode]
  | some src =>
    let alt := (e.attributes.text? "alt".toList).getD []
    let size (name : String) := (e.attributes.get? name.toList).getD .absent
    [.raw (Directive.image src (.text alt) (size "width") (size "height") [])]

def link (env : Env) (e : Element) : List Node :=
  match Footnote.link? env.footnotes e with
  | some directives => [.raw directives]
  | none => [e.toNode]

/-- Classes of code blocks that name no language. -/
def isHighlighterClass (name : List Char) : Bool :=
  name = "sourceCode".toList || name = "numberSource".toList || name = "numberLines".toList ||
    name = "hljs".toList

/-- The name after `language-`, if one follows. -/
def markedLanguage? (name : List Char) : Option (List Char) :=
  (dropStart? "language-".toList name).filter (!·.isEmpty)

/-- The first language that a class is marked with. The classes before it have to be text, and all
    of them if there is none. -/
def markedIn? : List Value → Except Failure (Option (List Char))
  | [] => .ok none
  | .text name :: rest =>
    match markedLanguage? name with
    | some language => .ok (some language)
    | none => markedIn? rest
  | _ => .error .notText

/-- The language of a code block: the first class marked as one, else the first that is none of
    a highlighter's. The code's own classes come before those of the block around it. -/
def languageOf? (code block : Attributes) : Except Failure (Option (List Char)) := do
  let marked ← markedIn? (code.classes ++ block.classes)
  return marked.or ((code.classNames ++ block.classNames).find? (!isHighlighterClass ·))

def content (nodes : List Node) : List Node := nodes.filter (!·.isBlank)

/-- A preformatted block of code alone becomes a directive. -/
def codeBlock (env : Env) (e : Element) : Except Failure (List Node) :=
  match content e.children with
  | [.element tag attrs children] =>
    if tag = "code".toList then do
      let language := match ← languageOf? attrs e.attributes with
        | some (c :: name) => .text (c :: name)
        | _ => env.options.codeLanguage
      let body := Node.characterDataOf children
      return [.raw (Directive.code body language env.options.codeLineNumbers)]
    else return [e.toNode]
  | _ => return [e.toNode]

def isRaw : Node → Bool
  | .raw _ => true
  | _ => false

/-- A highlighter's wrapper gives way to its content once that is final. -/
def codeWrapper (e : Element) : List Node :=
  let inner := content e.children
  if e.attributes.inClass "sourceCode".toList && !inner.isEmpty && inner.all isRaw then inner
  else [e.toNode]

/-- A style that aligns text, before the style that was there. -/
def alignedStyle (align : List Char) (style : Option (List Char)) : List Char :=
  let rule := "text-align: ".toList ++ strip align ++ [';']
  match style with
  | some s => if isBlank s then rule else rule ++ ' ' :: strip s
  | none => rule

/-- The attributes of a table cell with its alignment as a style. -/
def cellAttributes (header : Bool) (attrs : Attributes) : Attributes :=
  let rest := attrs.erase "align".toList
  let styled := match attrs.text? "align".toList with
    | some align =>
      if isBlank align then rest
      else rest.set "style".toList (.text (alignedStyle align (rest.text? "style".toList)))
    | none => rest
  if header then styled.set "scope".toList (.text "col".toList) else styled

def tableCell (header : Bool) (e : Element) : List Node :=
  [.element e.tag (cellAttributes header e.attributes) e.children]

/-- The first summary of a folding section, and the other nodes. -/
def takeSummary : List Node → Option Node × List Node
  | [] => (none, [])
  | n :: rest =>
    if n.hasTag "summary".toList then (some n, rest)
    else
      let (summary, others) := takeSummary rest
      (summary, n :: others)

/-- A folding section becomes a directive around its content. The regions inside it are folded
    before it is written. -/
def foldingSection (env : Env) (e : Element) : Traced (List Node) := do
  let (summary, others) := takeSummary e.children
  let title := strip ((summary.map Node.characterData).getD [])
  let body ← Region.foldAll env.options.limit env.vault others
  let text ← Traced.lift (Node.printAll env.options.limit body)
  let shown := if title.isEmpty then env.options.expandTitle else .text title
  return [.raw (Directive.expand shown (strip text))]

/-- The rule for an element whose content is mapped already. Elements without a rule stay. -/
def element (env : Env) (e : Element) : Traced (List Node) :=
  if e.tag = "img".toList then pure (image e)
  else if e.tag = "a".toList then pure (link env e)
  else if e.tag = "pre".toList then .lift (codeBlock env e)
  else if e.tag = "div".toList then pure (codeWrapper e)
  else if e.tag = "th".toList then pure (tableCell true e)
  else if e.tag = "td".toList then pure (tableCell false e)
  else if e.tag = "details".toList then foldingSection env e
  else pure [e.toNode]

mutual

/-- The nodes that take a node's place, `depth` elements being around it. -/
def node (env : Env) (depth : Nat) : Node → Traced (List Node)
  | .element tag attrs children => do
    Traced.lift (withinLimit (depth + 1) env.options.limit)
    let mapped ← nodes env (depth + 1) children
    element env ⟨tag, attrs, mapped⟩
  | .text s => pure [.text s]
  | .raw s => pure [.raw s]
  | .root children => pure [.root children]

def nodes (env : Env) (depth : Nat) : List Node → Traced (List Node)
  | [] => pure []
  | n :: rest => do
    let first ← node env depth n
    let others ← nodes env depth rest
    return first ++ others

end

end StorageMarkup.Mapping
