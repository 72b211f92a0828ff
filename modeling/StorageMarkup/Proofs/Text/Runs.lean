import Mathlib.Data.List.DropRight
import Mathlib.Data.List.SplitBy
import StorageMarkup.Proofs.Text.Scan
import StorageMarkup.Proofs.Text.Trim
import StorageMarkup.Text.Escape

/-!
# Blank runs

Blank runs are folded by a search for a line feed with more white space and another
line feed behind it. What that comes to is said run by run: a text is cut where white
space and other characters meet, and each stretch is folded by itself.

Results:
1. `foldBlankRuns_append_cons`: no fold reaches across a character that is no white space.
2. `eq_flatMap_splitBy`: from stretches, each before characters of another kind, to maximal runs.
3. `foldBlankRuns_eq`: folding goes by the maximal runs of a text.
-/

namespace StorageMarkup

variable {s t : List Char}

/-- The maximal runs of white space, and the stretches between them. -/
def runs (s : List Char) : List (List Char) := s.splitBy fun c d => isSpace c == isSpace d

/-- A run that holds several line feeds, with one in place of all from the first to the last. -/
def foldRun (run : List Char) : List Char :=
  if 1 < run.count '\n' then run.takeWhile (· ≠ '\n') ++ '\n' :: run.rtakeWhile (· ≠ '\n') else run

/-! ## Searching -/

theorem takeWhile_append_cons {p : Char → Bool} {c : Char} (hc : p c = false) (s t : List Char) :
    (s ++ c :: t).takeWhile p = s.takeWhile p := by
  induction s with
  | nil => rw [List.nil_append, List.takeWhile_cons_of_neg (by rw [hc]; decide), List.takeWhile_nil]
  | cons d s ih => rw [List.cons_append, List.takeWhile_cons, List.takeWhile_cons, ih]

theorem throughLastNewline_eq_none : throughLastNewline s = none ↔ '\n' ∉ s := by
  induction s with
  | nil => exact ⟨fun _ => List.not_mem_nil, fun _ => rfl⟩
  | cons c s ih =>
    rw [List.mem_cons, not_or, ← ih, throughLastNewline]
    cases throughLastNewline s with
    | some n => simp
    | none =>
      rw [eq_comm (b := c)]
      simp

theorem throughLastNewline_append (s : List Char) (ht : '\n' ∉ t) :
    throughLastNewline (s ++ '\n' :: t) = some (s.length + 1) := by
  induction s with
  | nil =>
    rw [List.nil_append, throughLastNewline, throughLastNewline_eq_none.2 ht, if_pos rfl]
    rfl
  | cons c s ih => rw [List.cons_append, throughLastNewline, ih]; rfl

/-- The number that a run of white space is read with stays inside the white space. -/
theorem throughLastNewline_le {n : Nat} (h : throughLastNewline s = some n) : n ≤ s.length := by
  induction s generalizing n with
  | nil => cases h
  | cons c s ih =>
    rw [throughLastNewline] at h
    split at h
    · next k hk =>
      cases h
      have := ih hk
      rw [List.length_cons]
      omega
    · split at h
      · cases h
        rw [List.length_cons]
        omega
      · cases h

theorem readBlankRun_of_ne {c : Char} (hc : c ≠ '\n') (s : List Char) :
    readBlankRun (c :: s) = none := by
  unfold readBlankRun
  split
  · next he => exact absurd (List.cons.inj he).1 hc
  · rfl

theorem readBlankRun_newline (s : List Char) :
    readBlankRun ('\n' :: s) = (throughLastNewline (s.takeWhile isSpace)).map fun n => ((), n) :=
  rfl

theorem readBlankRun_le {c : Char} {b : Unit} {more : Nat}
    (h : readBlankRun (c :: s) = some (b, more)) : more ≤ (s.takeWhile isSpace).length := by
  by_cases hc : c = '\n'
  · rw [hc, readBlankRun_newline] at h
    obtain ⟨n, hn, he⟩ := Option.map_eq_some_iff.1 h
    cases he
    exact throughLastNewline_le hn
  · rw [readBlankRun_of_ne hc] at h
    cases h

theorem isSpace_of_readBlankRun {r : List Char} {b : Unit} {more : Nat}
    (h : readBlankRun r = some (b, more)) : ∀ c ∈ r.take (more + 1), isSpace c = true := by
  cases r with
  | nil => exact fun c hc => absurd hc List.not_mem_nil
  | cons d r =>
    have hle := readBlankRun_le h
    have hd : isSpace d = true := by
      by_cases hd : d = '\n'
      · rw [hd]
        decide
      · rw [readBlankRun_of_ne hd] at h
        cases h
    have htake : r.take more = (r.takeWhile isSpace).take more := by
      conv => lhs; rw [← List.takeWhile_append_dropWhile (p := isSpace) (l := r)]
      exact List.take_append_of_le_length hle
    rw [List.take_succ_cons, htake]
    refine List.forall_mem_cons.2 ⟨hd, fun c hc => ?_⟩
    exact List.all_eq_true.1 List.all_takeWhile c (List.mem_of_mem_take hc)

@[simp]
theorem foldBlankRuns_nil : foldBlankRuns [] = [] := rfl

/-- A text without line feeds passes. -/
theorem foldBlankRuns_append_of_not_mem (hs : '\n' ∉ s) (t : List Char) :
    foldBlankRuns (s ++ t) = s ++ foldBlankRuns t := by
  have hnone : ∀ c ∈ s, ∀ r, readBlankRun (c :: r) = none := fun c hc r =>
    readBlankRun_of_ne (fun he => hs (he ▸ hc)) r
  rw [foldBlankRuns, scan_append_of_none hnone, spell_append, spell_chars, foldBlankRuns]

theorem foldBlankRuns_of_not_mem (hs : '\n' ∉ s) : foldBlankRuns s = s := by
  have := foldBlankRuns_append_of_not_mem hs []
  rwa [foldBlankRuns_nil, List.append_nil] at this

/-- No fold reaches across a character that is no white space. -/
theorem foldBlankRuns_append_cons {c : Char} (hc : isSpace c = false) (s t : List Char) :
    foldBlankRuns (s ++ c :: t) = foldBlankRuns s ++ foldBlankRuns (c :: t) := by
  induction hn : s.length using Nat.strongRecOn generalizing s with
  | ind n ih =>
    cases s with
    | nil => rfl
    | cons d s =>
      have hread : readBlankRun (d :: (s ++ c :: t)) = readBlankRun (d :: s) := by
        by_cases hd : d = '\n'
        · rw [hd, readBlankRun, readBlankRun, takeWhile_append_cons hc]
        · rw [readBlankRun_of_ne hd, readBlankRun_of_ne hd]
      cases hr : readBlankRun (d :: s) with
      | none =>
        have hrest := ih s.length (by simp [← hn]) s rfl
        rw [foldBlankRuns, foldBlankRuns] at hrest
        rw [List.cons_append, foldBlankRuns, foldBlankRuns, scan_char (hread.trans hr),
          scan_char hr, spell, spell, hrest]
        rfl
      | some hit =>
        obtain ⟨⟨⟩, more⟩ := hit
        have hmore : more ≤ s.length :=
          Nat.le_trans (readBlankRun_le hr) (List.takeWhile_sublist _).length_le
        have hlt : (s.drop more).length < n := by
          rw [List.length_drop, ← hn, List.length_cons]
          omega
        have hrest := ih _ hlt (s.drop more) rfl
        rw [foldBlankRuns, foldBlankRuns] at hrest
        rw [List.cons_append, foldBlankRuns, foldBlankRuns, scan_hit (hread.trans hr), scan_hit hr,
          spell, spell, List.drop_append_of_le_length hmore, hrest, List.append_assoc]

/-! ## Run by run -/

theorem foldRun_of_not_mem (hs : '\n' ∉ s) : foldRun s = s := by
  rw [foldRun, List.count_eq_zero.2 hs]
  rfl

/-- From the first line feed to the last. -/
theorem foldRun_append {a b c : List Char} (ha : '\n' ∉ a) (hc : '\n' ∉ c) :
    foldRun (a ++ '\n' :: b ++ '\n' :: c) = a ++ '\n' :: c := by
  have hcount : 1 < (a ++ '\n' :: b ++ '\n' :: c).count '\n' := by
    rw [List.count_append, List.count_append, List.count_cons_self, List.count_cons_self]
    omega
  have hbefore : (a ++ '\n' :: (b ++ '\n' :: c)).takeWhile (· ≠ '\n') = a := by
    rw [takeWhile_append_cons (by decide)]
    exact List.takeWhile_eq_self_iff.2 fun d hd => decide_eq_true fun he => ha (he ▸ hd)
  have hafter : (a ++ '\n' :: b ++ '\n' :: c).rtakeWhile (· ≠ '\n') = c := by
    rw [List.rtakeWhile, List.reverse_append, List.reverse_cons, List.append_assoc,
      List.singleton_append, takeWhile_append_cons (by decide), ← List.rtakeWhile]
    exact List.rtakeWhile_eq_self_iff.2 fun d hd => decide_eq_true fun he => hc (he ▸ hd)
  rw [foldRun, if_pos hcount, hafter, List.append_assoc, List.cons_append, hbefore]

theorem exists_last_of_mem {c : Char} (h : c ∈ s) : ∃ a b, s = a ++ c :: b ∧ c ∉ b := by
  obtain ⟨b, a, hs, hb⟩ := List.eq_append_cons_of_mem (List.mem_reverse.2 h)
  refine ⟨a.reverse, b.reverse, ?_, fun hm => hb (List.mem_reverse.1 hm)⟩
  rw [← List.reverse_reverse s, hs, List.reverse_append, List.reverse_cons, List.append_assoc,
    List.singleton_append]

theorem foldBlankRuns_of_blank (hs : isBlank s = true) : foldBlankRuns s = foldRun s := by
  by_cases hfirst : '\n' ∈ s
  · obtain ⟨a, r, rfl, ha⟩ := List.eq_append_cons_of_mem hfirst
    have hr : r.takeWhile isSpace = r := by
      refine List.takeWhile_eq_self_iff.2 fun c hc => isSpace_of_mem hs ?_
      exact List.mem_append_right a (List.mem_cons_of_mem _ hc)
    rw [foldBlankRuns_append_of_not_mem ha]
    by_cases hlast : '\n' ∈ r
    · obtain ⟨b, c, rfl, hc⟩ := exists_last_of_mem hlast
      have hread : readBlankRun ('\n' :: (b ++ '\n' :: c)) = some ((), b.length + 1) := by
        rw [readBlankRun_newline, hr, throughLastNewline_append b hc]
        rfl
      have hfold : foldBlankRuns ('\n' :: (b ++ '\n' :: c)) = '\n' :: foldBlankRuns c := by
        rw [foldBlankRuns, scan_hit hread, spell, List.drop_append,
          List.drop_of_length_le (by omega), Nat.add_sub_cancel_left]
        rfl
      rw [hfold, foldBlankRuns_of_not_mem hc, ← foldRun_append ha hc (b := b), List.append_assoc,
        List.cons_append]
    · have hread : readBlankRun ('\n' :: r) = none := by
        rw [readBlankRun_newline, hr, throughLastNewline_eq_none.2 hlast]
        rfl
      have hcount : ¬ 1 < (a ++ '\n' :: r).count '\n' := by
        rw [List.count_append, List.count_cons_self, List.count_eq_zero.2 ha,
          List.count_eq_zero.2 hlast]
        decide
      rw [foldBlankRuns, scan_char hread, spell, ← foldBlankRuns, foldBlankRuns_of_not_mem hlast,
        foldRun, if_neg hcount]
  · rw [foldBlankRuns_of_not_mem hfirst, foldRun_of_not_mem hfirst]

theorem not_newline_mem_of_not_space (hs : ∀ c ∈ s, isSpace c = false) : '\n' ∉ s := fun hm =>
  absurd (hs _ hm) (by decide)

/-- All characters of a run are of the kind of the first. -/
theorem exists_kind_of_isChain {p : Char → Bool}
    (h : s.IsChain fun c d => (p c == p d) = true) : ∃ kind, ∀ c ∈ s, p c = kind := by
  cases s with
  | nil => exact ⟨true, fun c hc => absurd hc List.not_mem_nil⟩
  | cons c s =>
    have : IsTrans Char fun c d => (p c == p d) = true :=
      ⟨fun _ _ _ h h' => beq_iff_eq.2 ((beq_iff_eq.1 h).trans (beq_iff_eq.1 h'))⟩
    refine ⟨p c, List.forall_mem_cons.2 ⟨rfl, fun d hd => ?_⟩⟩
    exact (beq_iff_eq.1 (List.rel_of_pairwise_cons (List.isChain_iff_pairwise.1 h) hd)).symm

/-- What takes a text one stretch after the other, whenever characters of another kind follow, goes
by the maximal runs of a kind. -/
theorem eq_flatMap_splitBy {p : Char → Bool} {f g : List Char → List Char} (hnil : f [] = [])
    (hrun : ∀ kind run rest, (∀ c ∈ run, p c = kind) → (∀ d ∈ rest.head?, p d = !kind) →
      f (run ++ rest) = g run ++ f rest) (s : List Char) :
    f s = (s.splitBy fun c d => p c == p d).flatMap g := by
  obtain ⟨hs, -, halike, hturn⟩ :=
    List.splitBy_eq_iff.1 (rfl : s.splitBy (fun c d => p c == p d) = _)
  generalize s.splitBy (fun c d => p c == p d) = rs at hs halike hturn ⊢
  induction rs generalizing s with
  | nil => exact hs ▸ hnil
  | cons run rs ih =>
    rw [List.forall_mem_cons] at halike
    obtain ⟨kind, hkind⟩ := exists_kind_of_isChain halike.1
    have hrest := ih rs.flatten rfl halike.2 hturn.tail
    have hnext : ∀ d ∈ rs.flatten.head?, p d = !kind := by
      cases rs with
      | nil => exact fun d hd => nomatch hd
      | cons next rs =>
        obtain ⟨hr, hnext, hne⟩ := (List.isChain_cons_cons.1 hturn).1
        obtain ⟨c, next, rfl⟩ := List.exists_cons_of_ne_nil hnext
        rw [hkind _ (List.getLast_mem hr)] at hne
        intro d hd
        cases hd
        exact Bool.eq_not_of_ne fun he => absurd (beq_iff_eq.2 he.symm) (Bool.eq_false_iff.1 hne)
    rw [hs, List.flatten_cons, List.flatMap_cons, hrun kind run _ hkind hnext, hrest]

/-- Folding goes by the maximal runs of a text. -/
theorem foldBlankRuns_eq (s : List Char) : foldBlankRuns s = (runs s).flatMap foldRun := by
  refine eq_flatMap_splitBy foldBlankRuns_nil (fun kind run rest hkind hnext => ?_) s
  cases kind with
  | true =>
    rw [← foldBlankRuns_of_blank (List.all_eq_true.2 hkind)]
    cases rest with
    | nil => rw [List.append_nil, foldBlankRuns_nil, List.append_nil]
    | cons c rest => exact foldBlankRuns_append_cons (hnext c rfl) run rest
  | false =>
    have hn := not_newline_mem_of_not_space hkind
    rw [foldBlankRuns_append_of_not_mem hn, foldRun_of_not_mem hn]

example : foldBlankRuns "a \n \t\n b \nc".toList = "a \n b \nc".toList := by decide

end StorageMarkup
