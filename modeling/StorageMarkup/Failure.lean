import StorageMarkup.Limit

/-
  What can go wrong in a conversion.
-/

namespace StorageMarkup

/-- How the external markdown reader fails: it breaks down on the document, it cannot be run, or
    it refuses the request. -/
inductive ReaderFailure where
  | brokeDown (message : List Char)
  | unavailable (message : List Char)
  | refused (message : List Char)
  deriving Repr, DecidableEq

/-- Why a conversion ends without output. -/
inductive Failure where
  /-- Elements or directive regions nest `depth` deep where only `limit` is allowed. -/
  | tooDeep (depth : Int) (limit : Limit)
  /-- The markdown reader could not turn the source into markup. -/
  | unreadable (cause : ReaderFailure)
  /-- The markdown reader refused the request. -/
  | refused (message : List Char)
  /-- Directives are to be set aside and there is no vault to take them. -/
  | noVault
  /-- Nesting is to be limited and the limit is no number. -/
  | badLimit
  /-- Verbatim directives are to be looked for and their names are not given as names. -/
  | badNames
  /-- A heading or a class is not text. -/
  | notText
  deriving Repr, DecidableEq

def ReaderFailure.message : ReaderFailure → List Char
  | .brokeDown m => m
  | .unavailable m => m
  | .refused m => m

/-- A refusal stands for itself, the other two are failures to parse the document. -/
def Failure.ofReader : ReaderFailure → Failure
  | .refused m => .refused m
  | cause => .unreadable cause

def Failure.message : Failure → List Char
  | .tooDeep depth limit =>
    "Document is too deeply nested (".toList ++ Value.numeral depth ++ " levels, limit ".toList ++
      limit.toValue.toText ++ ")".toList
  | .unreadable cause => "Could not parse markdown: ".toList ++ cause.message
  | .refused m => m
  | .noVault => "no vault to set directives aside in".toList
  | .badLimit => "the nesting limit is not a number".toList
  | .badNames => "the verbatim directives are not names".toList
  | .notText => "a heading or a class is not text".toList

/-- A depth is allowed up to and including the limit. -/
def withinLimit (depth : Int) (limit : Limit) : Except Failure Unit :=
  match limit.levels? with
  | some n => if depth > n then .error (.tooDeep depth limit) else .ok ()
  | none => .error .badLimit

end StorageMarkup
