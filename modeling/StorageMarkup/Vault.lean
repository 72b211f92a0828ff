import StorageMarkup.Directive.Token

/-
  The vault of a document: texts that the passes must not see, each kept under a
  placeholder that no pass takes apart. Placeholder `n` is the decimal number of
  the text between two private-use characters.
-/

namespace StorageMarkup

/-- The texts set aside so far, the oldest first; a text's position is its number. -/
structure Vault where
  originals : List (List Char)
  deriving Repr, DecidableEq

namespace Vault

def empty : Vault := ⟨[]⟩

def size (v : Vault) : Nat := v.originals.length

def startMark : Char := '\ue000'

def endMark : Char := '\ue001'

def placeholder (n : Nat) : List Char :=
  startMark :: 'h' :: 'b' :: 's' :: Nat.toDigits 10 n ++ [endMark]

/-- The number written by decimal digits. -/
def readDigits (digits : List Char) : Nat :=
  digits.foldl (fun n c => 10 * n + (c.toNat - '0'.toNat)) 0

/-- The number of the placeholder a text starts with, and the placeholder's length less one. A
    number has one spelling only, the one `placeholder` gives it. -/
def readPlaceholder : List Char → Option (Nat × Nat)
  | s@(c :: 'h' :: 'b' :: 's' :: rest) =>
    let n := readDigits (rest.takeWhile Char.isDigit)
    if c = startMark ∧ (placeholder n).isPrefixOf s then some (n, (placeholder n).length - 1)
    else none
  | _ => none

/-- A placeholder that the vault has handed out, and what it stands for. -/
structure Entry where
  number : Nat
  original : List Char
  deriving Repr, DecidableEq

def Entry.placeholder (e : Entry) : List Char := Vault.placeholder e.number

def read (v : Vault) (s : List Char) : Option (Entry × Nat) :=
  match readPlaceholder s with
  | some (n, more) => v.originals[n]?.map fun original => (⟨n, original⟩, more)
  | none => none

/-- A text cut into the placeholders of this vault and the characters around them. -/
def split (v : Vault) (s : List Char) : List (Piece Entry) := scan v.read s

/-- The known placeholders of a text and where they start, left to right. -/
def find (v : Vault) (s : List Char) : List (Nat × Entry) :=
  hitsFrom (fun e => e.placeholder.length) 0 (v.split s)

/-- All entries, in the order in which they came in. -/
def entries (v : Vault) : List Entry := v.originals.zipIdx.map fun (original, n) => ⟨n, original⟩

/-- What a text stands for, if it is a known placeholder. -/
def original? (v : Vault) (s : List Char) : Option (List Char) :=
  match v.read s with
  | some (e, _) => if s = e.placeholder then some e.original else none
  | none => none

/-- Sets a text aside; the placeholder returned is new. -/
def deposit (v : Vault) (text : List Char) : Vault × List Char :=
  (⟨v.originals ++ [text]⟩, placeholder v.size)

/-- Sets the hits aside, from left to right, and writes their placeholders. -/
def shieldHits (v : Vault) : List (Piece (List Char)) → Vault × List Char
  | [] => (v, [])
  | .char c :: rest =>
    let (v, s) := v.shieldHits rest
    (v, c :: s)
  | .hit text :: rest =>
    let (v, token) := v.deposit text
    let (v, s) := v.shieldHits rest
    (v, token ++ s)

/-- Sets every directive of a text aside. -/
def shield (v : Vault) (s : List Char) : Vault × List Char := v.shieldHits (Directive.split s)

/-- One round of putting back: each known placeholder gives way to its text. -/
def expandOnce (v : Vault) (s : List Char) : List Char := spell Entry.original (v.split s)

/-- Rounds of putting back until nothing changes, at most `rounds` of them. -/
def expandUpTo (v : Vault) : Nat → List Char → List Char
  | 0, s => s
  | rounds + 1, s =>
    let t := v.expandOnce s
    if t = s then s else v.expandUpTo rounds t

/-- More rounds than a conversion can take. No bound follows from the sizes of vault and text:
    placeholders may come about where two texts meet, and then texts rewrite each other like the
    rules of a string rewriting system. -/
def manyRounds : Nat := 0x10000000000000000

/-- Puts every text back, also those inside texts put back before. Placeholders of another vault
    stay as they are. Texts that refer to older ones only need no more rounds than there are
    texts. -/
def expand (v : Vault) (s : List Char) : List Char :=
  if startMark ∈ s then v.expandUpTo (v.size + manyRounds) s else s

/-- What a text says once the vault's placeholders are resolved; without a vault it says itself. -/
def reveal (v : Option Vault) (s : List Char) : List Char :=
  match v with
  | some v => v.expand s
  | none => s

end Vault

end StorageMarkup
