import StorageMarkup.Html.Reference
import StorageMarkup.Node.Basic

/-
  Markup cut into tags, comments and the strings between them. Names are ASCII and
  read without regard to case; attribute values stand between quotes.
-/

namespace StorageMarkup.Html

/-- `selfClosing` marks a start tag that ends its element at once; `skipped` stands for document
    types and processing instructions, which leave nothing behind. -/
inductive Token where
  | text (s : List Char)
  | startTag (name : List Char) (attributes : List (List Char × List Char)) (selfClosing : Bool)
  | endTag (name : List Char)
  | comment (s : List Char)
  | cdata (s : List Char)
  | skipped
  deriving Repr, DecidableEq

/-- The white space that ends names inside a tag. -/
def isTagSpace (c : Char) : Bool := c = ' ' || c = '\n' || c = '\t' || c = '\r' || c = '\x0c'

def lowerCase (s : List Char) : List Char := s.map Char.toLower

def isNameEnd (c : Char) : Bool := isTagSpace c || c = '/' || c = '>' || c = '='

/-- The value after an attribute name, and the rest. A name without a value has the empty one. -/
def readValue (s : List Char) : List Char × List Char :=
  match s.dropWhile isTagSpace with
  | '=' :: rest =>
    match rest.dropWhile isTagSpace with
    | '"' :: rest => (decodeValue (rest.takeWhile (· ≠ '"')), (rest.dropWhile (· ≠ '"')).drop 1)
    | '\'' :: rest => (decodeValue (rest.takeWhile (· ≠ '\'')), (rest.dropWhile (· ≠ '\'')).drop 1)
    | rest =>
      let bare := fun c => !isTagSpace c && c ≠ '>'
      (decodeValue (rest.takeWhile bare), rest.dropWhile bare)
  | _ => ([], s)

theorem length_dropWhile_le (p : Char → Bool) (s : List Char) :
    (s.dropWhile p).length ≤ s.length :=
  (List.dropWhile_suffix p).length_le

theorem readValue_length (s : List Char) : (readValue s).2.length ≤ s.length := by
  have hs := length_dropWhile_le isTagSpace s
  simp only [readValue]
  split
  · next rest h =>
    have hr := length_dropWhile_le isTagSpace rest
    simp only [h, List.length_cons] at hs
    split
    · next quoted hq =>
      have := length_dropWhile_le (· ≠ '"') quoted
      simp only [hq, List.length_cons] at hr
      simp only [List.length_drop]
      omega
    · next quoted hq =>
      have := length_dropWhile_le (· ≠ '\'') quoted
      simp only [hq, List.length_cons] at hr
      simp only [List.length_drop]
      omega
    · have := length_dropWhile_le (fun c => !isTagSpace c && decide (c ≠ '>'))
        (rest.dropWhile isTagSpace)
      simp only
      omega
  · exact Nat.le_refl _

/-- The attributes of a start tag, whether it closes itself, and what follows the tag. -/
def readAttributes (s : List Char) : List (List Char × List Char) × Bool × List Char :=
  match _h : s.dropWhile isTagSpace with
  | [] => ([], false, [])
  | '>' :: rest => ([], false, rest)
  | '/' :: '>' :: rest => ([], true, rest)
  | '/' :: rest => readAttributes rest
  | c :: rest =>
    let name := lowerCase (c :: rest.takeWhile (!isNameEnd ·))
    let after := readValue (rest.dropWhile (!isNameEnd ·))
    let (others, selfClosing, rest) := readAttributes after.2
    ((name, after.1) :: others, selfClosing, rest)
termination_by s.length
decreasing_by
  · have := length_dropWhile_le isTagSpace s
    simp only [_h, List.length_cons] at this
    omega
  · have hs := length_dropWhile_le isTagSpace s
    have hv := readValue_length (rest.dropWhile (!isNameEnd ·))
    have := length_dropWhile_le (!isNameEnd ·) rest
    simp only [_h, List.length_cons] at hs
    omega

theorem readAttributes_length (s : List Char) : (readAttributes s).2.2.length ≤ s.length := by
  fun_induction readAttributes s with
  | case1 => simp
  | case2 s rest h =>
    have := length_dropWhile_le isTagSpace s
    simp only [h, List.length_cons] at this
    exact Nat.le_of_succ_le this
  | case3 s rest h =>
    have := length_dropWhile_le isTagSpace s
    simp only [h, List.length_cons] at this
    exact Nat.le_trans (Nat.le_add_right _ 2) this
  | case4 s rest _ h ih =>
    have := length_dropWhile_le isTagSpace s
    simp only [h, List.length_cons] at this
    omega
  | case5 s c rest _ _ _ h name after others selfClosing rest' ih' ih =>
    have hs := length_dropWhile_le isTagSpace s
    have hv := readValue_length (rest.dropWhile (!isNameEnd ·))
    have := length_dropWhile_le (!isNameEnd ·) rest
    simp only [h, List.length_cons] at hs
    simp only [ih'] at ih
    exact Nat.le_trans ih (Nat.le_trans hv (by omega))

/-- True of what makes the angle bracket before it the start of a tag, a comment or the like. -/
def startsMarkup : List Char → Bool
  | c :: _ => c.isAlpha || c = '/' || c = '!' || c = '?'
  | [] => false

/-- The characters before the next markup. Other angle brackets are text. -/
def textRun : List Char → List Char
  | [] => []
  | c :: rest => if c = '<' && startsMarkup rest then [] else c :: textRun rest

def afterBracket (s : List Char) : List Char := (s.dropWhile (· ≠ '>')).drop 1

/-- A comment or the like up to its end mark, or to the end of the text if there is none. -/
def readUpTo (endMark s : List Char) : List Char × List Char := (cutAt endMark s).getD (s, [])

/-- The markup after an angle bracket, and the rest. -/
def readMarkup : List Char → Token × List Char
  | '!' :: '-' :: '-' :: rest =>
    let (inner, rest) := readUpTo "-->".toList rest
    (.comment inner, rest)
  | '!' :: rest =>
    if "[CDATA[".toList.isPrefixOf rest then
      let (inner, rest) := readUpTo "]]>".toList (rest.drop "[CDATA[".length)
      (.cdata inner, rest)
    else (.skipped, afterBracket rest)
  | '?' :: rest => (.skipped, afterBracket rest)
  | '/' :: rest => (.endTag (lowerCase (rest.takeWhile (!isNameEnd ·))), afterBracket rest)
  | rest =>
    let name := lowerCase (rest.takeWhile (!isNameEnd ·))
    let (attributes, selfClosing, rest) := readAttributes (rest.dropWhile (!isNameEnd ·))
    (.startTag name attributes selfClosing, rest)

theorem afterBracket_length (s : List Char) : (afterBracket s).length ≤ s.length := by
  have := length_dropWhile_le (· ≠ '>') s
  simp only [afterBracket, List.length_drop]
  omega

theorem readUpTo_length (endMark s : List Char) : (readUpTo endMark s).2.length ≤ s.length := by
  simp only [readUpTo]
  cases h : cutAt endMark s with
  | none => simp
  | some cut => simpa using cutAt_length h

theorem readMarkup_length (s : List Char) : (readMarkup s).2.length ≤ s.length := by
  unfold readMarkup
  split
  · next rest =>
    have := readUpTo_length "-->".toList rest
    simp only [List.length_cons]
    omega
  · next rest _ =>
    have := readUpTo_length "]]>".toList (rest.drop "[CDATA[".length)
    have := afterBracket_length rest
    simp only [List.length_drop] at *
    split <;> (simp only [List.length_cons]; omega)
  · next rest =>
    have := afterBracket_length rest
    simp only [List.length_cons]
    omega
  · next rest =>
    have := afterBracket_length rest
    simp only [List.length_cons]
    omega
  · exact Nat.le_trans (readAttributes_length _) (length_dropWhile_le _ _)

/-- What a text starts with, and the rest. -/
def readToken : List Char → Option (Token × List Char)
  | [] => none
  | c :: rest =>
    if c = '<' && startsMarkup rest then some (readMarkup rest)
    else
      let run := textRun rest
      some (.text (decode (c :: run)), rest.drop run.length)

/-- Every token uses up some of the text. -/
theorem readToken_length {s rest : List Char} {token : Token}
    (h : readToken s = some (token, rest)) : rest.length < s.length := by
  cases s with
  | nil => simp [readToken] at h
  | cons c tail =>
    simp only [readToken] at h
    split at h
    · have := readMarkup_length tail
      simp only [Option.some.injEq] at h
      simp only [h] at this
      simp only [List.length_cons]
      omega
    · simp only [Option.some.injEq, Prod.mk.injEq] at h
      simp only [← h.2, List.length_drop, List.length_cons]
      omega

/-- The whole of a markup text, token by token. -/
def tokens (s : List Char) : List Token :=
  match _h : readToken s with
  | some (token, rest) => token :: tokens rest
  | none => []
termination_by s.length
decreasing_by exact readToken_length _h

end StorageMarkup.Html
