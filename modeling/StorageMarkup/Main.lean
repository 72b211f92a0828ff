import StorageMarkup.Command.Run

/-
  The command line. It takes a picture of the files that a request touches, lets the
  command run on it, and carries what has changed back to the disk.

  The markdown reader is a program that runs beside this one. It takes a source from
  one file and leaves the markup in another, usually two named pipes; the environment
  says which.
-/

namespace StorageMarkup.Main

/-- The environment variables that name the reader's two files. -/
def sourceVariable : String := "STORAGE_READER_SOURCE"

def markupVariable : String := "STORAGE_READER_MARKUP"

/-- Hands one source to the reader and waits for its markup. -/
def ask (source : List Char) : IO (Except ReaderFailure (List Char)) := do
  match ← IO.getEnv sourceVariable, ← IO.getEnv markupVariable with
  | some sourceFile, some markupFile =>
    try
      IO.FS.writeFile sourceFile (String.ofList source)
      return .ok (← IO.FS.readFile markupFile).toList
    catch e => return .error (.unavailable e.toString.toList)
  | _, _ => return .error (.unavailable "no markdown reader is set up".toList)

def placeText (place : Place) : String := String.ofList ('/' :: joinWith ['/'] place)

/-- The store with what the disk has at a place. What is there and cannot be read as a file counts
    as a directory. -/
def observe (s : Store) (place : Place) : IO Store := do
  try
    let bytes ← IO.FS.readBinFile (placeText place)
    let content := match String.fromUTF8? bytes with
      | some text => Content.text text.toList
      | none => .bytes bytes.toList
    return { s with files := Store.put s.files place content }
  catch
    | .noFileOrDirectory .. => return s
    | _ => return { s with dirs := s.dirs ++ [place] }

/-- One name further, as far as names alone can tell. -/
def advance (place : Place) (name : List Char) : Place :=
  if name = ['.'] then place else if name = "..".toList then place.dropLast else place ++ [name]

/-- The places that the leading parts of a path come to. -/
def trail (start : Place) (names : List (List Char)) : List Place :=
  (List.range (names.length + 1)).map fun n => (names.take n).foldl advance start

/-- The store that a request sees: the working directory and all that its paths lead through. -/
def picture (r : Command.Request) : IO Store := do
  let home := (Path.ofText (← IO.currentDir).toString.toList).names
  let empty := Store.ofFiles home []
  let places := (r.touched.flatMap fun p => trail (empty.start p) p.names).eraseDups
  places.foldlM (fun s place => if s.isDir place then pure s else observe s place) empty

/-- Runs a command again with one more answer of the reader until it needs no further one. -/
def converse (run : (Nat → Reader) → Command.Report) :
    Nat → List (Except ReaderFailure (List Char)) → IO Command.Report
  | rounds, answers => do
    let report := run fun n _ => answers[n]?.getD (.error (.unavailable []))
    match rounds, report.progress.sent[answers.length]? with
    | rounds + 1, some source => converse run rounds (answers ++ [← ask source])
    | _, _ => return report

/-- Carries the directories and files that differ back to the disk. -/
def save (before after : Store) : IO Unit := do
  for place in after.dirs do
    if !before.isDir place then IO.FS.createDirAll (placeText place)
  for (place, content) in after.files do
    if before.file? place ≠ some content then
      match content with
      | .text s => IO.FS.writeFile (placeText place) (String.ofList s)
      | .bytes b => IO.FS.writeBinFile (placeText place) ⟨b.toArray⟩

/-- Carries a request out. -/
def perform (args : List (List Char)) (r : Command.Request) : IO UInt32 := do
  let before ← picture r
  let run readerAt := Command.run readerAt .standard args before
  let report ← converse run r.paths.length []
  save before report.progress.store
  IO.print (String.ofList report.progress.out)
  IO.eprint (String.ofList report.progress.err)
  match report.ending with
  | .ok () => return 0
  | .error e =>
    IO.eprintln (String.ofList e.message)
    return 1

end StorageMarkup.Main

def main (words : List String) : IO UInt32 := do
  let args := words.map String.toList
  match StorageMarkup.Command.readArguments args with
  | .ok r => StorageMarkup.Main.perform args r
  | .error fault =>
    if fault.isInquiry then
      IO.println (String.ofList fault.message)
      return 0
    IO.eprintln (String.ofList fault.message)
    return 1
