import StorageMarkup.Files.Store
import StorageMarkup.Proofs.Outcome

/-!
# What file operations leave alone

Where a path leads depends on the directories alone, and each one that is made leaves all ways as
they were. A write gives one file its text and touches nothing else.

Results:
1. `file?_put`: one file put.
2. `Widens.locate`: more directories lead each path where it led.
3. `read_eq_ok`, `write_eq_ok`, `makeDirs_widens`: what an operation that succeeds has done.
-/

namespace StorageMarkup

namespace Store

variable {s t : Store} {p : Path} {place : Place}

/-! ## Files -/

theorem lookup_cons_eq (place here : Place) (content : Content) (files : List (Place × Content)) :
    ((here, content) :: files).lookup place =
      if place = here then some content else files.lookup place := by
  rw [List.lookup_cons]
  by_cases h : place = here
  · rw [if_pos h, beq_iff_eq.2 h]
  · rw [if_neg h, beq_eq_false_iff_ne.2 h]

theorem lookup_put (files : List (Place × Content)) (place other : Place) (content : Content) :
    (put files place content).lookup other =
      if other = place then some content else files.lookup other := by
  induction files with
  | nil => rw [put, lookup_cons_eq]
  | cons entry files ih =>
    obtain ⟨here, old⟩ := entry
    rw [put]
    split
    · next hhere =>
      subst hhere
      rw [lookup_cons_eq, lookup_cons_eq]
      split <;> rfl
    · next hhere =>
      rw [lookup_cons_eq, lookup_cons_eq, ih]
      split
      · next hother => rw [if_neg fun h => hhere (hother.symm.trans h)]
      · rfl

/-- The store with a text in one of its files. -/
def keep (s : Store) (place : Place) (text : List Char) : Store :=
  { s with files := put s.files place (.text text) }

theorem file?_keep (s : Store) (place other : Place) (text : List Char) :
    (s.keep place text).file? other =
      if other = place then some (.text text) else s.file? other :=
  lookup_put s.files place other (.text text)

theorem file?_keep_self (s : Store) (place : Place) (text : List Char) :
    (s.keep place text).file? place = some (.text text) := by
  rw [file?_keep, if_pos rfl]

theorem file?_keep_of_ne {other : Place} (h : other ≠ place) (s : Store) (text : List Char) :
    (s.keep place text).file? other = s.file? other := by
  rw [file?_keep, if_neg h]

/-! ## Ways -/

/-- The second store has the directories of the first and starts from the same one. -/
structure Widens (s t : Store) : Prop where
  home : t.home = s.home
  dirs : s.dirs ⊆ t.dirs

namespace Widens

theorem refl (s : Store) : Widens s s := ⟨rfl, List.Subset.refl _⟩

theorem trans {u : Store} (h : Widens s t) (h' : Widens t u) : Widens s u :=
  ⟨h'.home.trans h.home, fun _ hd => h'.dirs (h.dirs hd)⟩

theorem isDir (h : Widens s t) (hdir : s.isDir place = true) : t.isDir place = true := by
  rw [Store.isDir, Bool.or_eq_true, List.contains_iff_mem] at hdir ⊢
  exact hdir.imp id fun hd => h.dirs hd

theorem enter (h : Widens s t) {name : List Char} {next : Place}
    (hs : s.enter place name = .ok next) : t.enter place name = .ok next := by
  unfold Store.enter at hs ⊢
  cases hdir : s.isDir place with
  | false =>
    rw [hdir] at hs
    cases hs
  | true =>
    rw [hdir] at hs
    rw [h.isDir hdir]
    exact hs

theorem walk (h : Widens s t) {names : List (List Char)} {next : Place}
    (hs : s.walk place names = .ok next) : t.walk place names = .ok next := by
  induction names generalizing place with
  | nil => exact hs
  | cons name names ih =>
    rw [Store.walk, List.foldlM_cons] at hs ⊢
    obtain ⟨between, hname, hs⟩ := bind_eq_ok.1 hs
    exact bind_eq_ok.2 ⟨between, h.enter hname, ih hs⟩

/-- A path leads where it led. -/
theorem locate (h : Widens s t) (hs : s.locate p = .ok place) : t.locate p = .ok place := by
  obtain ⟨_, hcheck, hs⟩ := bind_eq_ok.1 hs
  have hstart : t.start p = s.start p := by
    rw [Store.start, Store.start, h.home]
  refine bind_eq_ok.2 ⟨_, hcheck, ?_⟩
  rw [hstart]
  exact h.walk hs

end Widens

theorem widens_keep (s : Store) (place : Place) (text : List Char) : Widens s (s.keep place text) :=
  ⟨rfl, List.Subset.refl _⟩

/-! ## Operations -/

theorem read_eq_ok {text : List Char} (h : s.read p = .ok text) :
    ∃ place written, s.locate p = .ok place ∧ s.file? place = some (.text written) ∧
      text = unifyNewlines written := by
  obtain ⟨place, hplace, h⟩ := bind_eq_ok.1 h
  split at h
  · next written hfile =>
    cases h
    exact ⟨place, written, hplace, hfile, rfl⟩
  · cases h
  · cases h

theorem write_eq_ok {text : List Char} (h : s.write p text = .ok t) :
    ∃ place, s.locate p = .ok place ∧ t = s.keep place text := by
  obtain ⟨place, hplace, h⟩ := bind_eq_ok.1 h
  split at h
  · cases h
  · cases h
    exact ⟨place, hplace, rfl⟩

theorem makeDir_widens (h : s.makeDir p = .ok t) : t.files = s.files ∧ Widens s t := by
  obtain ⟨place, -, h⟩ := bind_eq_ok.1 h
  split at h
  · cases h
  · cases h
    exact ⟨rfl, rfl, List.subset_append_left _ _⟩

theorem keepDir_widens (h : s.keepDir p = .ok t) : t.files = s.files ∧ Widens s t := by
  unfold keepDir at h
  split at h
  · cases h
  · split at h
    · cases h
      exact ⟨rfl, .refl s⟩
    · cases h
  · exact makeDir_widens h

/-- Directories are made and no file is touched. -/
theorem makeDirs_widens (h : s.makeDirs p = .ok t) : t.files = s.files ∧ Widens s t := by
  fun_induction makeDirs s p generalizing t with
  | case1 p hp => exact keepDir_widens h
  | case2 p _ _ _ _ ih =>
    obtain ⟨between, hparent, hlast⟩ := bind_eq_ok.1 h
    obtain ⟨hfiles, hwiden⟩ := ih hparent
    obtain ⟨hfiles', hwiden'⟩ := keepDir_widens hlast
    exact ⟨hfiles'.trans hfiles, hwiden.trans hwiden'⟩
  | case3 p _ _ _ _ => exact keepDir_widens h

end Store

end StorageMarkup
