import Mathlib.Data.List.Forall2
import StorageMarkup.Command.Run
import StorageMarkup.Proofs.Files.Store

/-!
# What a run does to documents

A run reads each input when its turn comes and writes its conversion to a file that goes by the
input's own path. It does not ask whether another input is converted to the same file, or whether
that file is itself an input. So a conversion is found where it was announced unless a later one was
written over it, it is that of the original text unless an earlier one was written over the input,
and an input is as it was unless it is one of the files written.

Results:
1. `deliver_eq_ok`, `convertInput_eq_ok`: what is done for one input.
2. `Delivered.step`, `convertInputs_eq_ok`: for one input and those behind it.
3. `run_delivers`: for all inputs of a run.
4. `run_overwrites`: two inputs with one file between them, and an input that is its own.
-/

namespace StorageMarkup

namespace Command

open Store

variable {r : Request} {input : Path} {p q : Progress} {reader : Reader} {readerAt : Nat → Reader}
  {options : Options} {verbosity position n : Nat} {result text : List Char} {before after : Store}

/-- Where an input lies, the path that its conversion is announced under, and where that leads. -/
structure Route where
  source : Place
  path : Path
  goal : Place

/-- The line that announces the file. -/
def Route.announcement (route : Route) : List Char :=
  message ("  Wrote ".toList ++ route.path.toText)

/-- The route of an input, in the store as it is. -/
structure Route.Of (r : Request) (s : Store) (input : Path) (route : Route) : Prop where
  source : s.locate input = .ok route.source
  path : target r input = .ok route.path
  goal : s.locate route.path = .ok route.goal

theorem Route.Of.widen {route : Route} (h : Route.Of r before input route)
    (hwiden : Widens before after) : Route.Of r after input route :=
  ⟨hwiden.locate h.source, h.path, hwiden.locate h.goal⟩

/-- What a run along some routes does to a store, the first of them being that of the input at
position `n`. -/
structure Delivered (readerAt : Nat → Reader) (options : Options) (n : Nat) (before after : Store)
    (routes : List Route) : Prop where
  /-- What is no goal stays as it was. -/
  untouched : ∀ place, place ∉ routes.map Route.goal → after.file? place = before.file? place
  /-- A source that no route before had for its goal is converted as it was, and the conversion is
  found at the goal if no route behind has the same. -/
  held : ∀ first route last, routes = first ++ route :: last →
    route.source ∉ first.map Route.goal → route.goal ∉ last.map Route.goal →
    ∃ text result, before.file? route.source = some (.text text) ∧
      render (readerAt (n + first.length)) options (unifyNewlines text) = .ok result ∧
      after.file? route.goal = some (.text result)

/-! ## One input -/

theorem deliver_eq_ok (hprint : r.print = false) (h : deliver r input result p = (q, .ok ())) :
    ∃ path place, target r input = .ok path ∧ p.store.locate path = .ok place ∧
      q.store = p.store.keep place result ∧
      q.out = p.out ++ message ("  Wrote ".toList ++ path.toText) := by
  unfold deliver at h
  rw [if_neg (Bool.eq_false_iff.1 hprint)] at h
  split at h
  · cases h
  · next path hpath =>
    split at h
    · cases h
    · next store hwrite =>
      obtain ⟨place, hplace, rfl⟩ := write_eq_ok hwrite
      cases h
      exact ⟨path, place, hpath, hplace, rfl, rfl⟩

/-- An input that is converted is read where it lies, and its conversion is written and
announced. -/
theorem convertInput_eq_ok (hprint : r.print = false)
    (h : convertInput reader options r verbosity position input p = (q, .ok ())) :
    ∃ route text result, Route.Of r p.store input route ∧
      p.store.file? route.source = some (.text text) ∧
      render reader options (unifyNewlines text) = .ok result ∧
      q.store = p.store.keep route.goal result ∧ q.out = p.out ++ route.announcement := by
  unfold convertInput at h
  split at h
  · cases h
  · cases h
  · next hfile =>
    simp only at h
    -- the note that may be made of it touches neither files nor output
    generalize hnoted : ite (verbosity > 1) _ p = noted at h
    have hsame : noted.store = p.store ∧ noted.out = p.out := by
      rw [← hnoted]
      split <;> exact ⟨rfl, rfl⟩
    rw [← hsame.1, ← hsame.2]
    split at h
    · cases h
    · next text hread =>
      split at h
      · cases h
      · next result hrender =>
        obtain ⟨source, written, hsource, hwritten, rfl⟩ := read_eq_ok hread
        obtain ⟨path, goal, hpath, hgoal, hkeep, hsaid⟩ := deliver_eq_ok hprint h
        exact ⟨⟨source, path, goal⟩, written, result, ⟨hsource, hpath, hgoal⟩, hwritten, hrender,
          hkeep, hsaid⟩

/-! ## All inputs -/

theorem Delivered.nil (s : Store) : Delivered readerAt options n s s [] where
  untouched _ _ := rfl
  held first _ last h := by
    cases first <;> cases h

/-- One conversion written, then those behind it. -/
theorem Delivered.step {route : Route} {routes : List Route}
    (htext : before.file? route.source = some (.text text))
    (hrender : render (readerAt n) options (unifyNewlines text) = .ok result)
    (h : Delivered readerAt options (n + 1) (before.keep route.goal result) after routes) :
    Delivered readerAt options n before after (route :: routes) where
  untouched place hplace := by
    rw [List.map_cons, List.mem_cons, not_or] at hplace
    rw [h.untouched place hplace.2, file?_keep_of_ne hplace.1]
  held first other last hroutes hsource hgoal := by
    cases first with
    | nil =>
      obtain ⟨rfl, rfl⟩ := List.cons.inj hroutes
      refine ⟨text, result, htext, hrender, ?_⟩
      rw [h.untouched _ hgoal, file?_keep_self]
    | cons head first =>
      obtain ⟨hhead, hrest⟩ := List.cons.inj hroutes
      rw [← hhead, List.map_cons, List.mem_cons, not_or] at hsource
      obtain ⟨text, result, htext, hrender, hresult⟩ :=
        h.held first other last hrest hsource.2 hgoal
      rw [file?_keep_of_ne hsource.1] at htext
      refine ⟨text, result, htext, ?_, hresult⟩
      rwa [List.length_cons, Nat.add_comm first.length, ← Nat.add_assoc]

/-- Inputs are converted one behind the other, each with its route. -/
theorem convertInputs_eq_ok {inputs : List Path} (hprint : r.print = false)
    (h : convertInputs readerAt options r verbosity n p inputs = (q, .ok ())) :
    ∃ routes, List.Forall₂ (Route.Of r q.store) inputs routes ∧ Widens p.store q.store ∧
      Delivered readerAt options n p.store q.store routes ∧
      q.out = p.out ++ routes.flatMap Route.announcement := by
  induction inputs generalizing n p with
  | nil =>
    cases h
    exact ⟨[], .nil, .refl _, .nil _, (List.append_nil _).symm⟩
  | cons input inputs ih =>
    rw [convertInputs] at h
    split at h
    · cases h
    · next between hinput =>
      obtain ⟨route, text, result, hroute, htext, hrender, hstore, hout⟩ :=
        convertInput_eq_ok hprint hinput
      obtain ⟨routes, hroutes, hwiden, hdelivered, hrest⟩ := ih h
      rw [hstore] at hdelivered hwiden
      have hall := (widens_keep p.store route.goal result).trans hwiden
      refine ⟨route :: routes, .cons (hroute.widen hall) hroutes, hall,
        hdelivered.step htext hrender, ?_⟩
      rw [hrest, hout, List.append_assoc, List.flatMap_cons]

theorem makeOutputDir_widens (h : makeOutputDir r before = .ok after) :
    after.files = before.files ∧ Widens before after := by
  unfold makeOutputDir at h
  split at h
  · exact makeDirs_widens h
  · cases h
    exact ⟨rfl, .refl _⟩

theorem Delivered.of_files {routes : List Route} {s : Store} (hfiles : before.files = s.files)
    (h : Delivered readerAt options n before after routes) :
    Delivered readerAt options n s after routes := by
  have hsame : s.file? = before.file? := by
    funext place
    rw [file?, file?, hfiles]
  exact ⟨hsame ▸ h.untouched, hsame ▸ h.held⟩

/-- What is said when all inputs are converted. -/
def completion (r : Request) : List Char :=
  message ("\nCompleted! Converted ".toList ++ Nat.toDigits 10 r.paths.length ++ " file(s)".toList)

theorem carryOut_eq_ok {s : Store} (hprint : r.print = false)
    (h : carryOut readerAt options r verbosity s = (q, .ok ())) :
    Widens s q.store ∧ ∃ routes,
      List.Forall₂ (Route.Of r q.store) (r.paths.map Path.ofText) routes ∧
        Delivered readerAt options 0 s q.store routes ∧
        q.out = routes.flatMap Route.announcement ++ completion r := by
  unfold carryOut at h
  simp only at h
  split at h
  · cases h
  · split at h
    · cases h
    · next opened hopened =>
      obtain ⟨hfiles, hopen⟩ := makeOutputDir_widens hopened
      split at h
      · cases h
      · next between hinputs =>
        rw [if_neg (Bool.eq_false_iff.1 hprint)] at h
        obtain ⟨routes, hroutes, hwiden, hdelivered, hout⟩ := convertInputs_eq_ok hprint hinputs
        cases h
        refine ⟨hopen.trans hwiden, routes, hroutes, hdelivered.of_files hfiles, ?_⟩
        exact congrArg (· ++ completion r) (hout.trans (List.nil_append _))

/-- A run that ends well has announced a file for each input. That file holds the conversion of the
input's original text if no earlier input was converted to the input's own file and no later one to
the same file, and an input that is none of these files is as it was. Paths lead where they led. -/
theorem run_delivers {args : List (List Char)} {s : Store} (hargs : readArguments args = .ok r)
    (hprint : r.print = false) (hok : (run readerAt options args s).ending = .ok ()) :
    let done := (run readerAt options args s).progress
    (∃ routes, List.Forall₂ (Route.Of r done.store) (r.paths.map Path.ofText) routes ∧
      Delivered readerAt options 0 s done.store routes ∧
      done.out = routes.flatMap Route.announcement ++ completion r) ∧
    ∀ path place, s.locate path = .ok place → done.store.locate path = .ok place := by
  have hrun : ∃ verbosity, carryOut readerAt options r verbosity s =
      ((run readerAt options args s).progress, .ok ()) := by
    unfold run at hok ⊢
    simp only [hargs] at hok ⊢
    cases hverbosity : r.verbosity with
    | none =>
      rw [hverbosity] at hok
      cases hok
    | some verbosity =>
      rw [hverbosity] at hok
      exact ⟨verbosity, Prod.ext rfl hok⟩
  obtain ⟨verbosity, hcarried⟩ := hrun
  obtain ⟨hwiden, hroutes⟩ := carryOut_eq_ok hprint hcarried
  exact ⟨hroutes, fun _ _ => hwiden.locate⟩

/-- Two inputs of different names, and a directory that is made for what they are converted to. -/
theorem run_delivers_directory :
    let s := Store.ofFiles [] [(["a.md".toList], .text ['a']), (["b.md".toList], .text ['b'])]
    let args := ["a.md".toList, "b.md".toList, "--output-dir".toList, "out".toList]
    let done := (run (fun _ => .ok) .standard args s).progress
    (run (fun _ => .ok) .standard args s).ending = .ok () ∧
      ∃ routes, routes.length = 2 ∧ Delivered (fun _ => .ok) .standard 0 s done.store routes := by
  intro s args done
  have hargs : readArguments args = .ok { Request.empty with
      paths := ["a.md".toList, "b.md".toList], outputDir := some "out".toList } := by
    decide +kernel
  have hok : (run (fun _ => .ok) .standard args s).ending = .ok () := by decide +kernel
  obtain ⟨⟨routes, hroutes, hdelivered, -⟩, -⟩ := run_delivers hargs rfl hok
  exact ⟨hok, routes, hroutes.length_eq.symm, hdelivered⟩

/-- Two inputs of one name in different directories are converted to one file of the output
directory: both are announced there, and it holds the second. An input whose suffix is the one asked
for is its own file: its text is gone. -/
theorem run_overwrites :
    let reader : Reader := fun text => .ok ("<p>".toList ++ text ++ "</p>".toList)
    let s := Store.ofFiles [] [(["x".toList, "a.md".toList], .text ['x']),
      (["y".toList, "a.md".toList], .text ['y'])]
    let shared := run (fun _ => reader) .standard
      ["x/a.md".toList, "y/a.md".toList, "--output-dir".toList, "out".toList] s
    let own := run (fun _ => reader) .standard ["x/a.md".toList, "--suffix".toList, ".md".toList] s
    (render reader .standard ['x'] = .ok "<p>x</p>".toList ∧ shared.ending = .ok () ∧
      shared.progress.out = ("  Wrote out/a.xhtml\n  Wrote out/a.xhtml\n" ++
        "\nCompleted! Converted 2 file(s)\n").toList ∧
      shared.progress.store.file? ["out".toList, "a.xhtml".toList] =
        some (.text "<p>y</p>".toList)) ∧
      own.ending = .ok () ∧
      own.progress.store.file? ["x".toList, "a.md".toList] = some (.text "<p>x</p>".toList) := by
  decide +kernel

end Command

end StorageMarkup
