import StorageMarkup.Directive.Build
import StorageMarkup.Node.Printer
import StorageMarkup.Traced
import StorageMarkup.Tree.Marker

/-
  Directive regions: an open marker, the nodes after it, and the close token, which
  may stand beside them or anywhere inside one of them. Neighbours are read from
  left to right. An open marker pairs with the first close token of exactly its
  name, close tokens of other names are content, and an open marker without a close
  token is text. A region becomes final output once the regions inside it have.
-/

namespace StorageMarkup

/-- The open token and the name of a node that is an open marker: a text, or a paragraph of text
    only, that stands for one open token. -/
def Node.openingMarker? (v : Option Vault) (n : Node) : Option (List Char × List Char) :=
  let candidate : Bool := match n with
    | .text _ => true
    | .element tag _ _ => isParagraph tag
    | _ => false
  if !candidate then none
  else n.onlyText?.bind fun s =>
    let head := strip (Vault.reveal v s)
    (Directive.openName? head).map fun name => (head, name)

/-- The text before and after the first placeholder that stands for a close token of `name`. -/
def cutClosingPlaceholder (v : Option Vault) (name s : List Char) : Option (List Char × List Char) :=
  v.bind fun v =>
    cutHit Vault.Entry.placeholder (fun e => Directive.closeName? e.original = some name) (v.split s)

/-- The text before and after the first close token for `name`, spelled out or set aside. -/
def cutFirstClosing (v : Option Vault) (name s : List Char) : Option (List Char × List Char) :=
  match Directive.cutClosing name s, cutClosingPlaceholder v name s with
  | some cut, some cut' => if cut'.1.length < cut.1.length then some cut' else some cut
  | some cut, none => some cut
  | none, other => other

mutual

/-- Takes the first close token for `name` out of a node. `none` if there is none; else what is
    left of the node, which is nothing if it held the token alone. -/
def Node.takeClosing (v : Option Vault) (name : List Char) : Node → Option (Option Node)
  | .text s =>
    (cutFirstClosing v name s).map fun (before, after) =>
      let left := stripRight (before ++ after)
      if StorageMarkup.isBlank left then none else some (.text left)
  | .element tag attrs children =>
    (Node.takeClosingAmong v name children).map fun left =>
      if isParagraph tag && left.all Node.isBlank then none else some (.element tag attrs left)
  | .raw _ => none
  | .root _ => none

/-- The same for neighbours: only the first that holds the token changes. -/
def Node.takeClosingAmong (v : Option Vault) (name : List Char) : List Node → Option (List Node)
  | [] => none
  | n :: rest =>
    match n.takeClosing v name with
    | some left => some (left.toList ++ rest)
    | none => (Node.takeClosingAmong v name rest).map (n :: ·)

end

namespace Region

/-- The nodes up to the one that holds the close token for `name`, that one without the token, and
    the nodes after it. -/
def span? (v : Option Vault) (name : List Char) : List Node → Option (List Node × List Node)
  | [] => none
  | n :: rest =>
    match n.takeClosing v name with
    | some left => some (left.toList, rest)
    | none => (span? v name rest).map fun (span, after) => (n :: span, after)

theorem span?_length {v : Option Vault} {name : List Char} {nodes span after : List Node}
    (h : span? v name nodes = some (span, after)) : span.length + after.length ≤ nodes.length := by
  induction nodes generalizing span after with
  | nil => simp [span?] at h
  | cons n rest ih =>
    simp only [span?] at h
    split at h
    · next left _ =>
      simp only [Option.some.injEq, Prod.mk.injEq] at h
      obtain ⟨rfl, rfl⟩ := h
      cases left with
      | none => simp
      | some m => simp; omega
    · obtain ⟨⟨s, a⟩, hs, he⟩ := Option.map_eq_some_iff.1 h
      simp only [Prod.mk.injEq] at he
      obtain ⟨rfl, rfl⟩ := he
      have := ih hs
      simp only [List.length_cons]
      omega

/-- Folds the regions of neighbours, `depth` regions or elements being around them. -/
def foldAmong (limit : Limit) (v : Option Vault) (depth : Nat) : List Node → Traced (List Node)
  | [] => pure []
  | n :: rest =>
    match n.openingMarker? v with
    | none => do
      let others ← foldAmong limit v depth rest
      return n :: others
    | some (head, name) =>
      match h : span? v name rest with
      | none => do
        Traced.emit (.unclosed name)
        let others ← foldAmong limit v depth rest
        return n :: others
      | some (span, after) => do
        have := span?_length h
        Traced.lift (withinLimit (depth + 1) limit)
        let inner ← foldAmong limit v (depth + 1) span
        let body ← Traced.lift (Node.printAll limit inner)
        Traced.emit (.folded name)
        let others ← foldAmong limit v depth after
        return .raw (Directive.region head (strip body) name) :: others
termination_by nodes => nodes.length
decreasing_by all_goals (simp only [List.length_cons]; omega)

mutual

/-- A node in which the regions of every list of children are folded. -/
def foldBelow (limit : Limit) (v : Option Vault) (depth : Nat) : Node → Traced Node
  | .element tag attrs children => do
    Traced.lift (withinLimit (depth + 1) limit)
    let mapped ← foldBelowAll limit v (depth + 1) children
    let folded ← foldAmong limit v (depth + 1) mapped
    return .element tag attrs folded
  | .text s => pure (.text s)
  | .raw s => pure (.raw s)
  | .root children => pure (.root children)

def foldBelowAll (limit : Limit) (v : Option Vault) (depth : Nat) : List Node → Traced (List Node)
  | [] => pure []
  | n :: rest => do
    let first ← foldBelow limit v depth n
    let others ← foldBelowAll limit v depth rest
    return first :: others

end

/-- Folds every region of neighbours and below them: those inside one neighbour first, then those
    that span several. -/
def foldAll (limit : Limit) (v : Option Vault) (nodes : List Node) : Traced (List Node) := do
  Traced.lift (withinLimit 0 limit)
  let mapped ← foldBelowAll limit v 0 nodes
  foldAmong limit v 0 mapped

end Region

end StorageMarkup
