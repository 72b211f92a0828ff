/-
  Left-to-right search: a text is read once from its start, each stretch that a
  recogniser accepts is one hit, and all else is kept character by character.
  Directives, placeholders, references and fixed strings are all found this way.
-/

namespace StorageMarkup

/-- A character outside every hit, or the value of a hit. -/
inductive Piece (α : Type) where
  | char (c : Char)
  | hit (value : α)
  deriving Repr, DecidableEq

/-- Reads on with `skip` characters of the current hit still to pass. A recogniser is asked at
    every position outside a hit; its number is the length of the hit less one. -/
def scanFrom {α : Type} (read : List Char → Option (α × Nat)) : Nat → List Char → List (Piece α)
  | _, [] => []
  | skip + 1, _ :: rest => scanFrom read skip rest
  | 0, c :: rest =>
    match read (c :: rest) with
    | some (value, more) => .hit value :: scanFrom read more rest
    | none => .char c :: scanFrom read 0 rest

/-- The text as characters and hits, leftmost hits first and none overlapping. -/
def scan {α : Type} (read : List Char → Option (α × Nat)) (s : List Char) : List (Piece α) :=
  scanFrom read 0 s

/-- The text of a scan in which each hit is written by `write`. -/
def spell {α : Type} (write : α → List Char) : List (Piece α) → List Char
  | [] => []
  | .char c :: rest => c :: spell write rest
  | .hit value :: rest => write value ++ spell write rest

/-- The hits with the positions at which they start, `width` being the length of a hit. -/
def hitsFrom {α : Type} (width : α → Nat) : Nat → List (Piece α) → List (Nat × α)
  | _, [] => []
  | start, .char _ :: rest => hitsFrom width (start + 1) rest
  | start, .hit value :: rest => (start, value) :: hitsFrom width (start + width value) rest

/-- The text before and after the first hit that `wanted` maps to `true`. -/
def cutHit {α : Type} (write : α → List Char) (wanted : α → Bool) :
    List (Piece α) → Option (List Char × List Char)
  | [] => none
  | .char c :: rest => (cutHit write wanted rest).map fun (before, after) => (c :: before, after)
  | .hit value :: rest =>
    if wanted value then some ([], spell write rest)
    else (cutHit write wanted rest).map fun (before, after) => (write value ++ before, after)

/-- The text before and after the first occurrence of `needle`. -/
def cutAt (needle : List Char) : List Char → Option (List Char × List Char)
  | [] => if needle.isEmpty then some ([], []) else none
  | c :: rest =>
    if needle.isPrefixOf (c :: rest) then some ([], (c :: rest).drop needle.length)
    else (cutAt needle rest).map fun (before, after) => (c :: before, after)

theorem cutAt_length {needle s : List Char} {cut : List Char × List Char}
    (h : cutAt needle s = some cut) : cut.2.length ≤ s.length := by
  induction s generalizing cut with
  | nil =>
    simp only [cutAt] at h
    split at h
    · cases h
      simp
    · simp at h
  | cons c rest ih =>
    simp only [cutAt] at h
    split at h
    · simp only [Option.some.injEq] at h
      simp only [← h, List.length_drop]
      omega
    · obtain ⟨inner, hi, he⟩ := Option.map_eq_some_iff.1 h
      have := ih hi
      simp only [← he, List.length_cons]
      omega

def contains (needle s : List Char) : Bool := (cutAt needle s).isSome

/-- The text after `start`, if it starts so. -/
def dropStart? (start s : List Char) : Option (List Char) :=
  if start.isPrefixOf s then some (s.drop start.length) else none

/-- Every occurrence of the non-empty `needle`, left to right, becomes `new`. -/
def replaceAll (needle new s : List Char) : List Char :=
  spell (fun _ => new) (scan (fun t => if needle.isPrefixOf t then some ((), needle.length - 1) else none) s)

end StorageMarkup
