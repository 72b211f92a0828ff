import StorageMarkup.Document
import StorageMarkup.Files.Store

/-
  One file converted: its text is rendered, and the result is returned or written.
-/

namespace StorageMarkup

/-- Why a file is not converted. -/
inductive FileConversionFailure where
  | file (cause : FileFailure)
  | conversion (cause : Failure)
  deriving Repr, DecidableEq

/-- What the conversion of a file leaves: the files, the sources handed to the markdown reader, and
    the result if it was not written. -/
structure FileConversion where
  store : Store
  sent : List (List Char)
  returned : Except FileConversionFailure (Option (List Char))

/-- Writes a result if there is a file for it. -/
def keepResult (store : Store) (sent : List (List Char)) (output : Option Path)
    (result : List Char) : FileConversion :=
  match output with
  | none => ⟨store, sent, .ok (some result)⟩
  | some path =>
    match store.write path result with
    | .ok store => ⟨store, sent, .ok none⟩
    | .error e => ⟨store, sent, .error (.file e)⟩

/-- Converts the file at `input`, into the file at `output` if one is named. -/
def convertFile (reader : Reader) (options : Options) (store : Store) (input : Path)
    (output : Option Path) : FileConversion :=
  match store.read input with
  | .error e => ⟨store, [], .error (.file e)⟩
  | .ok text =>
    let sent := sentFor options text
    match render reader options text with
    | .error e => ⟨store, sent, .error (.conversion e)⟩
    | .ok result => keepResult store sent output result

end StorageMarkup
