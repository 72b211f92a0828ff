import StorageMarkup.Command.Switch
import StorageMarkup.Value

/-
  The words of a command line read as a request. Operands are taken from the first
  stretch of words that holds one; those of a later stretch are not understood.
-/

namespace StorageMarkup.Command

/-- What a run of the command is asked to do. Suffix and verbosity have standards; a switch can take
    them away without giving another. -/
structure Request where
  paths : List (List Char)
  output : Option (List Char)
  outputDir : Option (List Char)
  suffix : Option (List Char)
  print : Bool
  verbosity : Option Nat
  noColor : Bool
  forceColor : Bool
  deriving Repr, DecidableEq

/-- Why a command line is no request; the last two are requests of another kind. -/
inductive ArgumentFault where
  | noPaths
  | notUnderstood (words : List (List Char))
  | ambiguous (word : List Char) (spellings : List (List Char))
  | valueMissing (s : Switch)
  | valueRefused (s : Switch) (value : List Char)
  | notANumber (s : Switch) (value : List Char)
  | notAChoice (s : Switch) (value : Int)
  | colorConflict
  | help
  | version
  deriving Repr, DecidableEq

/-- True of a command line that asks about the command itself. -/
def ArgumentFault.isInquiry : ArgumentFault → Bool
  | .help => true
  | .version => true
  | _ => false

def verbosityChoices : List Nat := [0, 1, 2, 3]

def ArgumentFault.message : ArgumentFault → List Char
  | .noPaths => "Error: the following arguments are required: paths".toList
  | .notUnderstood words => "Error: unrecognized arguments: ".toList ++ joinWith [' '] words
  | .ambiguous word spellings =>
    "Error: ambiguous option: ".toList ++ word ++ " could match ".toList ++
      joinWith ", ".toList spellings
  | .valueMissing s => "Error: argument ".toList ++ s.label ++ ": expected one argument".toList
  | .valueRefused s value =>
    "Error: argument ".toList ++ s.label ++ ": ignored explicit argument ".toList ++
      Value.quoted value
  | .notANumber s value =>
    "Error: argument ".toList ++ s.label ++ ": invalid int value: ".toList ++ Value.quoted value
  | .notAChoice s value =>
    "Error: argument ".toList ++ s.label ++ ": invalid choice: ".toList ++ Value.numeral value ++
      " (choose from ".toList ++ joinWith ", ".toList (verbosityChoices.map (Nat.toDigits 10)) ++
      ")".toList
  | .colorConflict => "The --no-color and --force-color options can't be used together.".toList
  | .help => "usage: [options] paths [paths ...]".toList
  | .version => "1.0".toList

/-- The white space that may stand around a number; the ASCII separators do not count. -/
def isNumberSpace (c : Char) : Bool := isSpace c && !(28 ≤ c.toNat && c.toNat ≤ 31)

/-- The most digits that a number may have. -/
def mostDigits : Nat := 4300

/-- A number as typed: white space around it, a sign, digits of any script, and single underscores
    between digits are allowed. -/
def readInteger (s : List Char) : Option Int := do
  let trimmed := ((s.dropWhile isNumberSpace).reverse.dropWhile isNumberSpace).reverse
  let (negative, digits) := match trimmed with
    | '-' :: rest => (true, rest)
    | '+' :: rest => (false, rest)
    | rest => (false, rest)
  let groups := pieces (· == '_') digits
  if groups.any List.isEmpty || mostDigits < groups.flatten.length then none
  let n := ofDecimals (← groups.flatten.mapM decimalValue?)
  return if negative then -(n : Int) else n

/-- The request that nothing has been added to. -/
def Request.empty : Request where
  paths := []
  output := none
  outputDir := none
  suffix := some ".xhtml".toList
  print := false
  verbosity := some 1
  noColor := false
  forceColor := false

def Request.setFlag (r : Request) : Switch → Except ArgumentFault Request
  | .print => .ok { r with print := true }
  | .noColor => .ok { r with noColor := true }
  | .forceColor => .ok { r with forceColor := true }
  | .help => .error .help
  | .version => .error .version
  | _ => .ok r

/-- What a switch sets no longer has a value. -/
def Request.clear (r : Request) : Switch → Request
  | .output => { r with output := none }
  | .outputDir => { r with outputDir := none }
  | .suffix => { r with suffix := none }
  | .verbosity => { r with verbosity := none }
  | _ => r

/-- Gives a switch its value. The double dash is none, and takes away the value there was. -/
def Request.setValue (r : Request) (s : Switch) (value : List Char) :
    Except ArgumentFault Request :=
  if value = "--".toList then .ok (r.clear s)
  else
    match s with
    | .output => .ok { r with output := some value }
    | .outputDir => .ok { r with outputDir := some value }
    | .suffix => .ok { r with suffix := some value }
    | .verbosity =>
      match readInteger value with
      | none => .error (.notANumber s value)
      | some n =>
        if 0 ≤ n ∧ n.toNat ∈ verbosityChoices then .ok { r with verbosity := some n.toNat }
        else .error (.notAChoice s n)
    | _ => .ok r

/-- Short switches joined behind one dash: `s`, and those that its attached text goes on with. What
    is left over is attached to the last, if that takes a value. -/
def unjoin (s : Switch) : List Char → Except ArgumentFault (List Switch × Mention)
  | [] => .error (.valueRefused s [])
  | c :: rest =>
    match Switch.table.lookup ['-', c] with
    | none => .error (.valueRefused s (c :: rest))
    | some next =>
      if rest.isEmpty then .ok ([s], ⟨['-', c], next, none⟩)
      else if next.takesValue then .ok ([s], ⟨['-', c], next, some rest⟩)
      else (unjoin next rest).map fun (flags, last) => (s :: flags, last)

/-- The switches that a word mentions: flags, and a last one that may take a value. -/
def Mention.switches (m : Mention) : Except ArgumentFault (List Switch × Mention) :=
  match m.attached with
  | some text =>
    if m.switch.takesValue then .ok ([], m)
    else if m.isShort then unjoin m.switch text
    else .error (.valueRefused m.switch text)
  | none => .ok ([], m)

/-- What is known of the words after the double dash, which are operands all. -/
inductive Slot where
  | word (text : List Char) (kind : Word)
  | dashes
  deriving Repr, DecidableEq

/-- The words with their kinds. -/
def slots : List (List Char) → Except ArgumentFault (List Slot)
  | [] => .ok []
  | text :: rest =>
    if text = "--".toList then .ok (.dashes :: rest.map fun t => .word t .operand)
    else
      match classify text with
      | .error spellings => .error (.ambiguous text spellings)
      | .ok kind => (slots rest).map (.word text kind :: ·)

/-- The words of a stretch as typed. -/
def Slot.text : Slot → List Char
  | .word t _ => t
  | .dashes => "--".toList

def Slot.operand? : Slot → Option (List Char)
  | .word t .operand => some t
  | _ => none

/-- What reading has come to: the request so far, and the words not understood. -/
structure Reading where
  request : Request
  left : List (List Char)

/-- A stretch of words without switches. The first that holds an operand names the paths. -/
def Reading.takeStretch (r : Reading) (stretch : List Slot) : Reading :=
  let operands := stretch.filterMap Slot.operand?
  if r.request.paths.isEmpty && !operands.isEmpty then
    { r with request := { r.request with paths := operands } }
  else { r with left := r.left ++ stretch.map Slot.text }

/-- Reads words from left to right; `stretch` holds those since the last switch. -/
def readSlots (r : Reading) (stretch : List Slot) : List Slot → Except ArgumentFault Reading
  | [] => .ok (r.takeStretch stretch)
  | .word text .unknown :: rest =>
    let r := r.takeStretch stretch
    readSlots { r with left := r.left ++ [text] } [] rest
  | .word _ (.switch m) :: rest => do
    let r := r.takeStretch stretch
    let (flags, last) ← m.switches
    let s := last.switch
    if s.takesValue then
      match last.attached, rest with
      | some value, rest =>
        let request ← flags.foldlM Request.setFlag r.request
        readSlots { r with request := ← request.setValue s value } [] rest
      | none, .word value .operand :: rest =>
        let request ← flags.foldlM Request.setFlag r.request
        readSlots { r with request := ← request.setValue s value } [] rest
      | none, _ => throw (.valueMissing s)
    else
      let request ← (flags ++ [s]).foldlM Request.setFlag r.request
      readSlots { r with request } [] rest
  | slot :: rest => readSlots r (stretch ++ [slot]) rest

/-- The request that a command line makes. -/
def readArguments (args : List (List Char)) : Except ArgumentFault Request := do
  let r ← readSlots ⟨.empty, []⟩ [] (← slots args)
  if r.request.paths.isEmpty then throw .noPaths
  if !r.left.isEmpty then throw (.notUnderstood r.left)
  if r.request.noColor && r.request.forceColor then throw .colorConflict
  return r.request

end StorageMarkup.Command
