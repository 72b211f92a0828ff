import StorageMarkup.Document

/-
  Conversions as jobs of a queue: a document that cannot be converted is a result
  like any other, so one of them does not stop the rest.
-/

namespace StorageMarkup

inductive JobResult where
  | converted (content : List Char)
  | failed (message : List Char)
  deriving Repr, DecidableEq

/-- True of the failures that lie in the document. -/
def Failure.isOfDocument : Failure → Bool
  | .tooDeep .. => true
  | .unreadable _ => true
  | _ => false

/-- What a conversion is as the result of a job. Failures that do not lie in the document fail the
    job itself. -/
def JobResult.ofResult : Except Failure (List Char) → Except Failure JobResult
  | .ok content => .ok (.converted content)
  | .error e => if e.isOfDocument then .ok (.failed e.message) else .error e

/-- Converts one document. -/
def runJob (reader : Reader) (options : Options) (text : List Char) : Except Failure JobResult :=
  JobResult.ofResult (render reader options text)

/-- Converts documents in order, the one at position `n` with the `n`-th reader. -/
def runJobs (readerAt : Nat → Reader) (options : Options) (texts : List (List Char)) :
    Except Failure (List JobResult) :=
  texts.zipIdx.mapM fun (text, n) => runJob (readerAt n) options text

end StorageMarkup
