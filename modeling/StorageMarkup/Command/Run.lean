import StorageMarkup.Command.Arguments
import StorageMarkup.Document
import StorageMarkup.Files.Store

/-
  The command that converts files. It goes through its inputs in order, stops at
  the first that fails, and keeps what it has written until then.
-/

namespace StorageMarkup.Command

/-- How much the library reports while it works. -/
inductive Level where
  | error
  | warning
  | info
  | debug
  deriving Repr, DecidableEq

def Level.ofVerbosity : Nat → Level
  | 0 => .error
  | 1 => .warning
  | 2 => .info
  | _ => .debug

/-- Why the command stops early. -/
inductive CommandFailure where
  | badArguments (fault : ArgumentFault)
  | severalInputs
  | noSuchFile (path : Path)
  | notConverted (path : Path) (cause : Failure)
  /-- A failure that does not lie in the document. -/
  | conversion (cause : Failure)
  | file (cause : FileFailure)
  | badSuffix (suffix : List Char)
  /-- A value is needed that a switch has taken away. -/
  | noValue (s : Switch)
  deriving Repr, DecidableEq

def CommandFailure.message : CommandFailure → List Char
  | .badArguments fault => fault.message
  | .severalInputs => "--output can only be used with a single input file".toList
  | .noSuchFile path => "No such file: ".toList ++ path.toText
  | .notConverted path cause =>
    "Could not convert ".toList ++ path.toText ++ ": ".toList ++ cause.message
  | .conversion cause => cause.message
  | .file cause => cause.message
  | .badSuffix suffix => "Invalid suffix ".toList ++ Value.quoted suffix
  | .noValue s => "no value for ".toList ++ s.label

/-- What a run has done so far: the files as they are, the sources handed to the markdown reader,
    and the text written to the two outputs. -/
structure Progress where
  store : Store
  sent : List (List Char)
  out : List Char
  err : List Char

/-- A message ends with a line feed. -/
def message (s : List Char) : List Char := if s.getLast? = some '\n' then s else s ++ ['\n']

def Progress.say (p : Progress) (s : List Char) : Progress := { p with out := p.out ++ message s }

def Progress.note (p : Progress) (s : List Char) : Progress := { p with err := p.err ++ message s }

/-- What stands for a step that may fail: what was done stays done. -/
abbrev Step := Progress × Except CommandFailure Unit

/-- The input's path with the suffix asked for. -/
def suffixed (r : Request) (input : Path) : Except CommandFailure Path := do
  let suffix ← r.suffix.elim (throw (.noValue .suffix)) pure
  (input.withSuffix? suffix).elim (throw (.badSuffix suffix)) pure

/-- The file that the conversion of an input goes to. -/
def target (r : Request) (input : Path) : Except CommandFailure Path :=
  match r.output, r.outputDir with
  | some (c :: name), _ => .ok (.ofText (c :: name))
  | _, some (c :: name) =>
    (suffixed r input).map fun path => (Path.ofText (c :: name)).append path.name
  | _, _ => suffixed r input

/-- The paths that a request may read or write. -/
def Request.touched (r : Request) : List Path :=
  let inputs := r.paths.map Path.ofText
  inputs ++ (r.outputDir.map Path.ofText).toList ++
    inputs.filterMap fun input => (target r input).toOption

def ofConversion (input : Path) (cause : Failure) : CommandFailure :=
  match cause with
  | .tooDeep .. => .notConverted input cause
  | .unreadable _ => .notConverted input cause
  | _ => .conversion cause

/-- Writes a conversion to its file and says so. -/
def deliver (r : Request) (input : Path) (result : List Char) (p : Progress) : Step :=
  if r.print then (p.say result, .ok ())
  else
    match target r input with
    | .error e => (p, .error e)
    | .ok path =>
      match p.store.write path result with
      | .error e => (p, .error (.file e))
      | .ok store => ({ p with store }.say ("  Wrote ".toList ++ path.toText), .ok ())

/-- Converts the input at `position`, the first being 1. -/
def convertInput (reader : Reader) (options : Options) (r : Request) (verbosity position : Nat)
    (input : Path) (p : Progress) : Step :=
  match p.store.isFile input with
  | .error e => (p, .error (.file e))
  | .ok false => (p, .error (.noSuchFile input))
  | .ok true =>
    let p := if verbosity > 1 then
        p.note ('[' :: Nat.toDigits 10 position ++ '/' :: Nat.toDigits 10 r.paths.length ++
          "] Converting: ".toList ++ input.toText)
      else p
    match p.store.read input with
    | .error e => (p, .error (.file e))
    | .ok text =>
      let p := { p with sent := p.sent ++ sentFor options text }
      match render reader options text with
      | .error e => (p, .error (ofConversion input e))
      | .ok result => deliver r input result p

/-- Converts inputs until one fails; the one at `position` goes through `readerAt position`. -/
def convertInputs (readerAt : Nat → Reader) (options : Options) (r : Request)
    (verbosity position : Nat) (p : Progress) : List Path → Step
  | [] => (p, .ok ())
  | input :: rest =>
    match convertInput (readerAt position) options r verbosity (position + 1) input p with
    | (p, .error e) => (p, .error e)
    | (p, .ok ()) => convertInputs readerAt options r verbosity (position + 1) p rest

/-- Makes the output directory if one is asked for. -/
def makeOutputDir (r : Request) (store : Store) : Except FileFailure Store :=
  match r.outputDir with
  | some (c :: name) => store.makeDirs (.ofText (c :: name))
  | _ => .ok store

/-- A request carried out on the files given. -/
def carryOut (readerAt : Nat → Reader) (options : Options) (r : Request) (verbosity : Nat)
    (store : Store) : Step :=
  let start : Progress := ⟨store, [], [], []⟩
  if r.output.any (!·.isEmpty) && r.paths.length > 1 then (start, .error .severalInputs)
  else
    match makeOutputDir r store with
    | .error e => (start, .error (.file e))
    | .ok store =>
      let inputs := r.paths.map Path.ofText
      match convertInputs readerAt options r verbosity 0 { start with store } inputs with
      | (p, .error e) => (p, .error e)
      | (p, .ok ()) =>
        if r.print then (p, .ok ())
        else
          (p.say ("\nCompleted! Converted ".toList ++ Nat.toDigits 10 r.paths.length ++
            " file(s)".toList), .ok ())

/-- What a run leaves behind. -/
structure Report where
  progress : Progress
  level : Level
  ending : Except CommandFailure Unit

/-- The command on its arguments and the files given. Until arguments and verbosity are settled,
    nothing is touched and the level is that of a warning. -/
def run (readerAt : Nat → Reader) (options : Options) (args : List (List Char)) (store : Store) :
    Report :=
  let unsettled (e : CommandFailure) : Report := ⟨⟨store, [], [], []⟩, .warning, .error e⟩
  match readArguments args with
  | .error fault => unsettled (.badArguments fault)
  | .ok r =>
    match r.verbosity with
    | none => unsettled (.noValue .verbosity)
    | some verbosity =>
      let (progress, ending) := carryOut readerAt options r verbosity store
      ⟨progress, .ofVerbosity verbosity, ending⟩

end StorageMarkup.Command
