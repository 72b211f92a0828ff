import StorageMarkup.Node.Basic
import StorageMarkup.Vault

/-
  Directives of a tree set aside: those in its text and those in its attribute
  values, in the order in which they are written.
-/

namespace StorageMarkup

def Vault.shieldItems (v : Vault) : List Value → Vault × List Value
  | [] => (v, [])
  | .text s :: rest =>
    let (v, s) := v.shield s
    let (v, others) := v.shieldItems rest
    (v, .text s :: others)
  | item :: rest =>
    let (v, others) := v.shieldItems rest
    (v, item :: others)

def Vault.shieldValue (v : Vault) : Value → Vault × Value
  | .text s =>
    let (v, s) := v.shield s
    (v, .text s)
  | .list items =>
    let (v, items) := v.shieldItems items
    (v, .list items)
  | value => (v, value)

def Vault.shieldAttributes (v : Vault) : Attributes → Vault × Attributes
  | [] => (v, [])
  | (name, value) :: rest =>
    let (v, value) := v.shieldValue value
    let (v, others) := v.shieldAttributes rest
    (v, (name, value) :: others)

mutual

/-- A node without directives in its text, and the vault that holds them; an element's attributes
    come before its content. -/
def Vault.shieldNode (v : Vault) : Node → Vault × Node
  | .text s =>
    let (v, s) := v.shield s
    (v, .text s)
  | .element tag attrs children =>
    let (v, attrs) := v.shieldAttributes attrs
    let (v, children) := v.shieldNodes children
    (v, .element tag attrs children)
  | .raw s => (v, .raw s)
  | .root children => (v, .root children)

def Vault.shieldNodes (v : Vault) : List Node → Vault × List Node
  | [] => (v, [])
  | n :: rest =>
    let (v, n) := v.shieldNode n
    let (v, others) := v.shieldNodes rest
    (v, n :: others)

end

end StorageMarkup
