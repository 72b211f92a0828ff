import StorageMarkup.Files.Path

/-
  A file store: files and directories, each by the names that lead to it, and one
  directory that paths start from. A write goes to a directory that is there, and
  never over a directory.
-/

namespace StorageMarkup

/-- What a file holds: text, or bytes that are no text. -/
inductive Content where
  | text (s : List Char)
  | bytes (b : List UInt8)
  deriving Repr, DecidableEq

/-- Why a file operation fails. -/
inductive FileFailure where
  | notFound
  | alreadyThere
  | notText
  /-- A directory where a file is wanted. -/
  | isDirectory
  /-- A file where a directory is wanted. -/
  | notDirectory
  /-- A name or a path that is too long. -/
  | tooLong
  /-- A path that holds the null character, which ends every path. -/
  | cutShort
  deriving Repr, DecidableEq

def FileFailure.message : FileFailure → List Char
  | .notFound => "no such file or directory".toList
  | .alreadyThere => "there is a file of that name".toList
  | .notText => "the file is not UTF-8 text".toList
  | .isDirectory => "is a directory".toList
  | .notDirectory => "not a directory".toList
  | .tooLong => "the name is too long".toList
  | .cutShort => "embedded null byte".toList

/-- Where a file or directory lies: the names that lead to it from the root. -/
abbrev Place := List (List Char)

/-- Files by place, the directories there are beside the root, and the working directory. -/
structure Store where
  files : List (Place × Content)
  dirs : List Place
  home : Place
  deriving Repr

namespace Store

/-- The directories on the way to a place. -/
def above : Place → List Place
  | [] => []
  | [_] => []
  | name :: rest => [name] :: (above rest).map (name :: ·)

/-- Files below a working directory, with the directories that they lie in. -/
def ofFiles (home : Place) (files : List (Place × Content)) : Store where
  files := files.map fun (place, content) => (home ++ place, content)
  dirs := above home ++ [home] ++ files.flatMap fun (place, _) => above (home ++ place)
  home := home

/-- The files below the working directory, each by the names that lead to it from there. -/
def listing (s : Store) : List (Place × Content) :=
  s.files.filterMap fun (place, content) =>
    if s.home.isPrefixOf place then some (place.drop s.home.length, content) else none

def file? (s : Store) (place : Place) : Option Content := s.files.lookup place

def isDir (s : Store) (place : Place) : Bool := place.isEmpty || s.dirs.contains place

/-- The bytes that a text takes up. -/
def byteCount (s : List Char) : Nat := s.foldl (fun count c => count + c.utf8Size) 0

/-- The longest name a directory can hold, in bytes. -/
def longestName : Nat := 255

/-- The longest path that can be asked for, in bytes. -/
def longestPath : Nat := 4095

/-- One name further, from a directory. A dot stays there, two dots lead one directory up, and from
    the root nowhere. -/
def enter (s : Store) (place : Place) (name : List Char) : Except FileFailure Place :=
  if !s.isDir place then .error (if (s.file? place).isSome then .notDirectory else .notFound)
  else if longestName < byteCount name then .error .tooLong
  else if name = ['.'] then .ok place
  else if name = "..".toList then .ok place.dropLast
  else .ok (place ++ [name])

/-- Where a path starts from. -/
def start (s : Store) (p : Path) : Place := if p.root.isEmpty then s.home else []

/-- Refuses the paths that cannot be asked for at all. -/
def checkPath (p : Path) : Except FileFailure Unit :=
  if '\x00' ∈ p.toText then .error .cutShort
  else if longestPath < byteCount p.toText then .error .tooLong
  else .ok ()

/-- The place that names lead to; the last name need not be there. -/
def walk (s : Store) (place : Place) (names : List (List Char)) : Except FileFailure Place :=
  names.foldlM s.enter place

/-- The place a path leads to. -/
def locate (s : Store) (p : Path) : Except FileFailure Place := do
  checkPath p
  s.walk (s.start p) p.names

/-- Whether a path leads to a file. What is too long has no answer. -/
def isFile (s : Store) (p : Path) : Except FileFailure Bool :=
  match s.locate p with
  | .ok place => .ok (s.file? place).isSome
  | .error .tooLong => .error .tooLong
  | .error _ => .ok false

/-- Whether a path leads to a directory. -/
def leadsToDir (s : Store) (p : Path) : Bool :=
  match s.locate p with
  | .ok place => s.isDir place
  | .error _ => false

/-- Line ends of all kinds become line feeds. -/
def unifyNewlines : List Char → List Char
  | [] => []
  | '\r' :: '\n' :: rest => '\n' :: unifyNewlines rest
  | '\r' :: rest => '\n' :: unifyNewlines rest
  | c :: rest => c :: unifyNewlines rest

/-- The text of a file. -/
def read (s : Store) (p : Path) : Except FileFailure (List Char) := do
  let place ← s.locate p
  match s.file? place with
  | some (.text t) => return unifyNewlines t
  | some (.bytes _) => throw .notText
  | none => throw (if s.isDir place then .isDirectory else .notFound)

/-- The files with one more, or with another content for it. -/
def put : List (Place × Content) → Place → Content → List (Place × Content)
  | [], place, content => [(place, content)]
  | (here, old) :: rest, place, content =>
    if here = place then (here, content) :: rest else (here, old) :: put rest place content

/-- Writes a file, or another text to it. -/
def write (s : Store) (p : Path) (text : List Char) : Except FileFailure Store := do
  let place ← s.locate p
  if s.isDir place then throw .isDirectory
  return { s with files := put s.files place (.text text) }

/-- Makes a directory where there is nothing yet; the way there has to exist. -/
def makeDir (s : Store) (p : Path) : Except FileFailure Store := do
  let place ← s.locate p
  if s.isDir place || (s.file? place).isSome then throw .alreadyThere
  return { s with dirs := s.dirs ++ [place] }

/-- Makes a directory unless it is there. -/
def keepDir (s : Store) (p : Path) : Except FileFailure Store :=
  match s.makeDir p with
  | .error .notFound => .error .notFound
  | .error e => if s.leadsToDir p then .ok s else .error e
  | made => made

/-- The same, the directories on the way being made first if need be. -/
def makeDirs (s : Store) (p : Path) : Except FileFailure Store :=
  match _h : p.names with
  | [] => s.keepDir p
  | _ :: _ =>
    match s.keepDir p with
    | .error .notFound => do
      let s ← s.makeDirs p.parent
      s.keepDir p
    | done => done
termination_by p.names.length
decreasing_by simp [Path.parent, _h]

end Store

end StorageMarkup
