import StorageMarkup.Text.Digit
import StorageMarkup.Text.Search
import StorageMarkup.Text.Space

/-
  The switches of the command line: their spellings, and how a word is taken for one
  of them. A long spelling may be cut short as long as it stays unambiguous.
-/

namespace StorageMarkup.Command

inductive Switch where
  | help
  | version
  | verbosity
  | settings
  | searchPath
  | traceback
  | noColor
  | forceColor
  | skipChecks
  | output
  | outputDir
  | suffix
  | print
  deriving Repr, DecidableEq

namespace Switch

def all : List Switch :=
  [.help, .version, .verbosity, .settings, .searchPath, .traceback, .noColor, .forceColor,
    .skipChecks, .output, .outputDir, .suffix, .print]

def spellings : Switch → List (List Char)
  | .help => ["-h".toList, "--help".toList]
  | .version => ["--version".toList]
  | .verbosity => ["-v".toList, "--verbosity".toList]
  | .settings => ["--settings".toList]
  | .searchPath => ["--pythonpath".toList]
  | .traceback => ["--traceback".toList]
  | .noColor => ["--no-color".toList]
  | .forceColor => ["--force-color".toList]
  | .skipChecks => ["--skip-checks".toList]
  | .output => ["--output".toList]
  | .outputDir => ["--output-dir".toList]
  | .suffix => ["--suffix".toList]
  | .print => ["--print".toList]

/-- What messages call a switch: all its spellings. -/
def label (s : Switch) : List Char := joinWith ['/'] s.spellings

/-- The switches that need a value. -/
def takesValue : Switch → Bool
  | .verbosity => true
  | .settings => true
  | .searchPath => true
  | .output => true
  | .outputDir => true
  | .suffix => true
  | _ => false

/-- Every spelling with its switch. -/
def table : List (List Char × Switch) := all.flatMap fun s => s.spellings.map fun text => (text, s)

end Switch

/-- A switch as a word gives it: the spelling meant, and what is attached to it. -/
structure Mention where
  spelling : List Char
  switch : Switch
  attached : Option (List Char)
  deriving Repr, DecidableEq

/-- A short spelling has one dash. -/
def Mention.isShort (m : Mention) : Bool := !"--".toList.isPrefixOf m.spelling

/-- What a word of the command line is. -/
inductive Word where
  | operand
  | switch (m : Mention)
  | unknown
  deriving Repr, DecidableEq

/-- A word before and after its first equals sign. -/
def cutEquals (s : List Char) : List Char × Option (List Char) :=
  match cutAt ['='] s with
  | some (before, after) => (before, some after)
  | none => (s, none)

/-- The switches that a word can stand for. To one dash and a letter the rest of the word is
    attached, to two dashes and a name what follows an equals sign. -/
def candidates (word : List Char) : List Mention :=
  match word with
  | '-' :: '-' :: _ =>
    let (stem, attached) := cutEquals word
    Switch.table.filterMap fun (text, s) =>
      if stem.isPrefixOf text then some ⟨text, s, attached⟩ else none
  | _ =>
    Switch.table.filterMap fun (text, s) =>
      if text = word.take 2 then some ⟨text, s, some (word.drop 2)⟩
      else if word.isPrefixOf text then some ⟨text, s, none⟩
      else none

/-- Digits to the end of a word, where one line feed may follow. -/
def isDigitRun (s : List Char) : Bool :=
  let rest := s.dropWhile isDecimal
  s.head?.any isDecimal && (rest.isEmpty || rest = ['\n'])

/-- True of a negative number, whole or with a decimal point. -/
def isNegativeNumber : List Char → Bool
  | '-' :: rest =>
    match rest.dropWhile isDecimal with
    | '.' :: fraction => isDigitRun fraction
    | _ => isDigitRun rest
  | _ => false

/-- What a word is, or the spellings between which it leaves the choice. -/
def classify (word : List Char) : Except (List (List Char)) Word :=
  match word with
  | '-' :: _ :: _ =>
    match Switch.table.lookup word, (cutEquals word) with
    | some s, _ => .ok (.switch ⟨word, s, none⟩)
    | none, (stem, attached) =>
      match Switch.table.lookup stem, attached with
      | some s, some value => .ok (.switch ⟨stem, s, some value⟩)
      | _, _ =>
        match candidates word with
        | [m] => .ok (.switch m)
        | [] => .ok (if isNegativeNumber word || word.contains ' ' then .operand else .unknown)
        | several => .error (several.map Mention.spelling)
  | _ => .ok .operand

end StorageMarkup.Command
