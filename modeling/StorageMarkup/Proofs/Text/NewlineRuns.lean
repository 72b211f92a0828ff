import StorageMarkup.Proofs.Text.Runs
import StorageMarkup.Proofs.Text.Search

/-!
# Runs of line feeds

Blank lines are normalised by capping: a run of three line feeds or more keeps two. A line
feed goes when two more follow it, so a run is capped from the left and a text keeps its
first two characters. A character in front sees no more of a text than these, hence what
is capped alike is capped alike behind anything.

A text is not capped part by part, since a run goes on where two parts meet in line feeds.
But the parts may be capped before they are put together, and a part that no run reaches
into or out of stays.

Results:
1. `capNewlineRuns_eq_self_iff`: the texts that stay.
2. `capNewlineRuns_append_left`, `capNewlineRuns_append_right`: parts that are capped beforehand.
3. `capNewlineRuns_append`, `infix_capNewlineRuns`: a stretch without long runs stays as it is.
4. `capNewlineRuns_eq`: capping goes by the maximal runs of line feeds.
5. `capNewlineRuns_eq_spell`: it is a search for long runs, each replaced by two line feeds.
6. `newline_runs_capped`: what normalising blank lines comes to.
-/

namespace StorageMarkup

variable {c : Char} {s t : List Char}

/-- The maximal runs of line feeds, and the stretches between them. -/
def newlineRuns (s : List Char) : List (List Char) :=
  s.splitBy fun c d => (c == '\n') == (d == '\n')

/-- A run of three line feeds or more shortened to two, anything else as it is. -/
def capRun (run : List Char) : List Char := if 3 ≤ run.count '\n' then "\n\n".toList else run

/-! ## Three line feeds -/

theorem feeds_prefix_iff : "\n\n\n".toList <+: s ↔ 3 ≤ (s.takeWhile (· = '\n')).length := by
  constructor
  · rintro ⟨r, rfl⟩
    show 3 ≤ ('\n' :: '\n' :: '\n' :: r.takeWhile (· = '\n')).length
    rw [List.length_cons, List.length_cons, List.length_cons]
    omega
  · intro hn
    have hrun : "\n\n\n".toList <+: List.replicate (s.takeWhile (· = '\n')).length '\n' :=
      List.prefix_replicate_iff.2 ⟨hn, rfl⟩
    rw [eq_run_append '\n' s]
    exact hrun.trans (List.prefix_append _ _)

theorem feeds_prefix_cons : "\n\n\n".toList <+: c :: s ↔ '\n' = c ∧ "\n\n".toList <+: s :=
  List.cons_prefix_cons

/-! ## One character -/

/-- The first of three line feeds goes. -/
theorem capNewlineRuns_cons_of_feeds (h : "\n\n\n".toList <+: c :: s) :
    capNewlineRuns (c :: s) = capNewlineRuns s := by
  obtain ⟨rfl, hs⟩ := feeds_prefix_cons.1 h
  rw [capNewlineRuns, List.isPrefixOf_iff_prefix.2 hs]
  rfl

theorem capNewlineRuns_cons_of_not_feeds (h : ¬ "\n\n\n".toList <+: c :: s) :
    capNewlineRuns (c :: s) = c :: capNewlineRuns s := by
  rw [capNewlineRuns, if_neg]
  rw [Bool.and_eq_true, decide_eq_true_eq, List.isPrefixOf_iff_prefix]
  exact fun hrun => h (feeds_prefix_cons.2 ⟨hrun.1.symm, hrun.2⟩)

theorem capNewlineRuns_cons_of_ne (hc : c ≠ '\n') (s : List Char) :
    capNewlineRuns (c :: s) = c :: capNewlineRuns s :=
  capNewlineRuns_cons_of_not_feeds fun h => hc (feeds_prefix_cons.1 h).1.symm

/-- Capping runs of line feeds only takes characters away. -/
theorem capNewlineRuns_sublist (s : List Char) : (capNewlineRuns s).Sublist s := by
  induction s with
  | nil => exact List.Sublist.refl []
  | cons c s ih =>
    by_cases h : "\n\n\n".toList <+: c :: s
    · rw [capNewlineRuns_cons_of_feeds h]
      exact ih.cons c
    · rw [capNewlineRuns_cons_of_not_feeds h]
      exact ih.cons_cons c

theorem mem_of_capNewlineRuns (h : c ∈ capNewlineRuns s) : c ∈ s :=
  (capNewlineRuns_sublist s).subset h

/-- The first two characters stay. -/
theorem take_two_capNewlineRuns (s : List Char) : (capNewlineRuns s).take 2 = s.take 2 := by
  induction s with
  | nil => rfl
  | cons c s ih =>
    by_cases h : "\n\n\n".toList <+: c :: s
    · rw [capNewlineRuns_cons_of_feeds h, ih]
      obtain ⟨r, hr⟩ := h
      obtain ⟨rfl, rfl⟩ := List.cons.inj hr
      rfl
    · have hone : (capNewlineRuns s).take 1 = s.take 1 := by
        have := congrArg (List.take 1) ih
        rwa [List.take_take, List.take_take] at this
      rw [capNewlineRuns_cons_of_not_feeds h, List.take_succ_cons, List.take_succ_cons, hone]

theorem exists_capNewlineRuns_cons (c : Char) (s : List Char) :
    ∃ t, capNewlineRuns (c :: s) = c :: t := by
  have hstart := take_two_capNewlineRuns (c :: s)
  cases h : capNewlineRuns (c :: s) with
  | nil =>
    rw [h] at hstart
    cases hstart
  | cons d t =>
    rw [h, List.take_succ_cons, List.take_succ_cons] at hstart
    exact ⟨t, (List.cons.inj hstart).1 ▸ rfl⟩

/-- What a capped text starts with, up to its first line feed, the text starts with. -/
theorem prefix_of_prefix_capNewlineRuns {u s : List Char} (hu : '\n' ∉ u)
    (h : u <+: capNewlineRuns s) : u <+: s := by
  induction s generalizing u with
  | nil => exact h
  | cons d s ih =>
    cases u with
    | nil => exact List.nil_prefix
    | cons c u =>
      rw [List.mem_cons, not_or] at hu
      obtain ⟨t, ht⟩ := exists_capNewlineRuns_cons d s
      rw [ht, List.cons_prefix_cons] at h
      obtain ⟨rfl, h⟩ := h
      rw [capNewlineRuns_cons_of_ne (Ne.symm hu.1), List.cons.injEq] at ht
      exact List.cons_prefix_cons.2 ⟨rfl, ih hu.2 (ht.2 ▸ h)⟩

/-- A character in front sees no more of a text than what capping leaves. -/
theorem capNewlineRuns_cons_congr (c : Char) (h : capNewlineRuns s = capNewlineRuns t) :
    capNewlineRuns (c :: s) = capNewlineRuns (c :: t) := by
  have hstart : s.take 2 = t.take 2 := by
    rw [← take_two_capNewlineRuns s, h, take_two_capNewlineRuns]
  have hrun : "\n\n".toList.isPrefixOf s = "\n\n".toList.isPrefixOf t := by
    rw [Bool.eq_iff_iff, List.isPrefixOf_iff_prefix, List.isPrefixOf_iff_prefix,
      List.prefix_iff_eq_take, List.prefix_iff_eq_take]
    exact hstart ▸ Iff.rfl
  rw [capNewlineRuns, capNewlineRuns, hrun, h]

/-! ## Texts that stay -/

theorem not_infix_capNewlineRuns (s : List Char) : ¬ "\n\n\n".toList <:+: capNewlineRuns s := by
  induction s with
  | nil => decide
  | cons c s ih =>
    by_cases h : "\n\n\n".toList <+: c :: s
    · rwa [capNewlineRuns_cons_of_feeds h]
    · rw [capNewlineRuns_cons_of_not_feeds h, List.infix_cons_iff, not_or]
      refine ⟨fun hp => h ?_, ih⟩
      -- the two line feeds that follow were there before
      rw [feeds_prefix_cons, List.prefix_iff_eq_take] at hp ⊢
      exact ⟨hp.1, hp.2.trans (take_two_capNewlineRuns s)⟩

/-- A text stays if no three line feeds follow each other in it, and only then. -/
theorem capNewlineRuns_eq_self_iff : capNewlineRuns s = s ↔ ¬ "\n\n\n".toList <:+: s := by
  refine ⟨fun h => h ▸ not_infix_capNewlineRuns s, fun h => ?_⟩
  induction s with
  | nil => rfl
  | cons c s ih =>
    rw [List.infix_cons_iff, not_or] at h
    rw [capNewlineRuns_cons_of_not_feeds h.1, ih h.2]

theorem capNewlineRuns_capNewlineRuns (s : List Char) :
    capNewlineRuns (capNewlineRuns s) = capNewlineRuns s :=
  capNewlineRuns_eq_self_iff.2 (not_infix_capNewlineRuns s)

/-! ## Parts that are capped beforehand -/

/-- Texts that are capped alike are capped alike behind anything. -/
theorem capNewlineRuns_append_congr (u : List Char) (h : capNewlineRuns s = capNewlineRuns t) :
    capNewlineRuns (u ++ s) = capNewlineRuns (u ++ t) := by
  induction u with
  | nil => exact h
  | cons c u ih => exact capNewlineRuns_cons_congr c ih

theorem capNewlineRuns_append_right (s t : List Char) :
    capNewlineRuns (s ++ capNewlineRuns t) = capNewlineRuns (s ++ t) :=
  capNewlineRuns_append_congr s (capNewlineRuns_capNewlineRuns t)

theorem capNewlineRuns_append_left (s t : List Char) :
    capNewlineRuns (capNewlineRuns s ++ t) = capNewlineRuns (s ++ t) := by
  induction s with
  | nil => rfl
  | cons c s ih =>
    by_cases h : "\n\n\n".toList <+: c :: s
    · have hlong : "\n\n\n".toList <+: c :: (s ++ t) := h.trans (List.prefix_append (c :: s) t)
      rw [capNewlineRuns_cons_of_feeds h, ih, List.cons_append, capNewlineRuns_cons_of_feeds hlong]
    · rw [capNewlineRuns_cons_of_not_feeds h]
      exact capNewlineRuns_cons_congr c ih

example : let a := "a\n\n".toList
    let b := "\n\nb".toList
    capNewlineRuns a ++ capNewlineRuns b ≠ capNewlineRuns (a ++ b) := by decide

/-! ## Parts that stay -/

/-- No run of line feeds that is capped starts in the text, whatever follows it. -/
structure Narrow (u : List Char) : Prop where
  short : ¬ "\n\n\n".toList <:+: u
  ends : ∀ w, u ≠ w ++ ['\n']

theorem Narrow.of_cons {c : Char} {u : List Char} (h : Narrow (c :: u)) : Narrow u where
  short := fun hi => h.short (hi.trans (List.suffix_cons c u).isInfix)
  ends := fun w hw => h.ends (c :: w) (by rw [hw, List.cons_append])

theorem narrow_of_not_mem {u : List Char} (h : '\n' ∉ u) : Narrow u where
  short := not_infix_of_not_mem h
  ends := fun w hw => h (by rw [hw]; exact List.mem_append_right w List.mem_cons_self)

theorem capNewlineRuns_append {u : List Char} (h : Narrow u) (s : List Char) :
    capNewlineRuns (u ++ s) = u ++ capNewlineRuns s := by
  induction u with
  | nil => rfl
  | cons c u ih =>
    have hrun : ¬ "\n\n\n".toList <+: c :: (u ++ s) := by
      intro hp
      -- such a run would be long inside the text, or reach its end
      rcases List.prefix_or_prefix_of_prefix hp (List.prefix_append (c :: u) s) with hlong | hend
      · exact h.short hlong.isInfix
      · have hfeeds : c :: u = List.replicate (u.length + 1) '\n' :=
          (List.prefix_replicate_iff (n := 3)).1 hend |>.2
        exact h.ends (List.replicate u.length '\n') (hfeeds.trans List.replicate_succ')
    rw [List.cons_append, capNewlineRuns_cons_of_not_feeds hrun, ih h.of_cons, List.cons_append]

/-- A run ends before any other character, whatever follows it. -/
theorem capNewlineRuns_append_cons (hc : c ≠ '\n') (u s : List Char) :
    capNewlineRuns (u ++ c :: s) = capNewlineRuns u ++ capNewlineRuns (c :: s) := by
  induction u with
  | nil => rfl
  | cons d u ih =>
    have hrun : "\n\n\n".toList <+: d :: (u ++ c :: s) ↔ "\n\n\n".toList <+: d :: u := by
      rw [feeds_prefix_iff, feeds_prefix_iff, ← List.cons_append,
        takeWhile_append_cons (decide_eq_false hc)]
    rw [List.cons_append]
    by_cases h : "\n\n\n".toList <+: d :: u
    · rw [capNewlineRuns_cons_of_feeds h, capNewlineRuns_cons_of_feeds (hrun.2 h), ih]
    · rw [capNewlineRuns_cons_of_not_feeds h, capNewlineRuns_cons_of_not_feeds (mt hrun.1 h), ih,
        List.cons_append]

theorem capNewlineRuns_concat (hc : c ≠ '\n') (u : List Char) :
    capNewlineRuns (u ++ [c]) = capNewlineRuns u ++ [c] := by
  rw [capNewlineRuns_append_cons hc, capNewlineRuns_cons_of_ne hc]
  rfl

/-- A run starts behind any other character, whatever stands before it. -/
theorem capNewlineRuns_concat_append (hc : c ≠ '\n') (u s : List Char) :
    capNewlineRuns (u ++ [c] ++ s) = capNewlineRuns (u ++ [c]) ++ capNewlineRuns s := by
  rw [List.append_assoc, List.singleton_append, capNewlineRuns_append_cons hc,
    capNewlineRuns_concat hc, capNewlineRuns_cons_of_ne hc, List.append_assoc,
    List.singleton_append]

/-- A stretch that no run of line feeds reaches into stays. -/
theorem infix_capNewlineRuns {c : Char} {u s : List Char} (hc : c ≠ '\n') (h : Narrow (c :: u))
    (hu : c :: u <:+: s) : c :: u <:+: capNewlineRuns s := by
  obtain ⟨a, b, rfl⟩ := hu
  rw [List.append_assoc, List.cons_append, capNewlineRuns_append_cons hc, ← List.cons_append,
    capNewlineRuns_append h, ← List.append_assoc]
  exact ⟨_, _, rfl⟩

/-! ## Trimming -/

theorem ne_newline_of_not_space (h : isSpace c = false) : c ≠ '\n' := by
  rintro rfl
  cases h

theorem isBlank_capNewlineRuns (h : isBlank s = true) : isBlank (capNewlineRuns s) = true :=
  List.all_eq_true.2 fun _ hd => isSpace_of_mem h (mem_of_capNewlineRuns hd)

/-- Nothing is capped across the ends of a text that is trimmed. -/
theorem capNewlineRuns_around (ht : Capped t) (s u : List Char) :
    capNewlineRuns (s ++ t ++ u) = capNewlineRuns s ++ capNewlineRuns t ++ capNewlineRuns u := by
  have hstart : capNewlineRuns (s ++ t) = capNewlineRuns s ++ capNewlineRuns t := by
    obtain ⟨c, rest, rfl, hc⟩ := ht.starts
    exact capNewlineRuns_append_cons (ne_newline_of_not_space hc) s rest
  have hend : capNewlineRuns (s ++ t ++ u) = capNewlineRuns (s ++ t) ++ capNewlineRuns u := by
    obtain ⟨rest, c, rfl, hc⟩ := ht.ends
    rw [← List.append_assoc]
    exact capNewlineRuns_concat_append (ne_newline_of_not_space hc) (s ++ rest) u
  rw [hend, hstart]

theorem capped_capNewlineRuns (h : Capped s) : Capped (capNewlineRuns s) where
  starts := by
    obtain ⟨c, rest, rfl, hc⟩ := h.starts
    exact ⟨c, _, capNewlineRuns_cons_of_ne (ne_newline_of_not_space hc) rest, hc⟩
  ends := by
    obtain ⟨rest, c, rfl, hc⟩ := h.ends
    exact ⟨_, c, capNewlineRuns_concat (ne_newline_of_not_space hc) rest, hc⟩

/-- Trimming and capping commute. -/
theorem strip_capNewlineRuns (s : List Char) :
    strip (capNewlineRuns s) = capNewlineRuns (strip s) := by
  obtain ⟨w, w', hw, hw', hs⟩ := exists_blank_strip s
  by_cases hnil : strip s = []
  · have hblank : isBlank s = true := by
      rw [hs, hnil, List.append_nil, isBlank_append, hw, hw']
      rfl
    have hcapped := strip_blank_append (isBlank_capNewlineRuns hblank) []
    rw [List.append_nil] at hcapped
    rw [hcapped, hnil]
    rfl
  · have ht := capped_strip hnil
    generalize strip s = t at hs ht
    rw [hs, capNewlineRuns_around ht, strip_eq (isBlank_capNewlineRuns hw)
      (isBlank_capNewlineRuns hw') (capped_capNewlineRuns ht)]

/-! ## Run by run -/

/-- A run that has come to its end. -/
theorem capNewlineRuns_replicate_append (hs : s.head? ≠ some '\n') (n : Nat) :
    capNewlineRuns (List.replicate n '\n' ++ s) =
      List.replicate (min n 2) '\n' ++ capNewlineRuns s := by
  induction n with
  | zero => rfl
  | succ n ih =>
    have hlong : "\n\n\n".toList <+: '\n' :: (List.replicate n '\n' ++ s) ↔ 3 ≤ n + 1 := by
      rw [← List.cons_append, ← List.replicate_succ, feeds_prefix_iff, takeWhile_run hs,
        List.length_replicate]
    rw [List.replicate_succ, List.cons_append]
    by_cases hn : 3 ≤ n + 1
    · rw [capNewlineRuns_cons_of_feeds (hlong.2 hn), ih, Nat.min_eq_right (by omega),
        Nat.min_eq_right (by omega)]
    · rw [capNewlineRuns_cons_of_not_feeds (mt hlong.1 hn), ih, Nat.min_eq_left (by omega),
        Nat.min_eq_left (by omega), List.replicate_succ, List.cons_append]

theorem capRun_replicate (n : Nat) :
    capRun (List.replicate n '\n') = List.replicate (min n 2) '\n' := by
  rw [capRun, List.count_replicate_self]
  split
  · rw [Nat.min_eq_right (by omega)]
    rfl
  · rw [Nat.min_eq_left (by omega)]

theorem capRun_of_not_mem (h : '\n' ∉ s) : capRun s = s := by
  rw [capRun, List.count_eq_zero.2 h]
  rfl

/-- Capping goes by the maximal runs of line feeds. -/
theorem capNewlineRuns_eq (s : List Char) : capNewlineRuns s = (newlineRuns s).flatMap capRun := by
  refine eq_flatMap_splitBy rfl (fun kind run rest hkind hnext => ?_) s
  cases kind with
  | true =>
    have hrest : rest.head? ≠ some '\n' := fun h => absurd (hnext '\n' h) (by decide)
    have hrun : run = List.replicate run.length '\n' :=
      List.eq_replicate_length.2 fun c hc => beq_iff_eq.1 (hkind c hc)
    rw [hrun, capNewlineRuns_replicate_append hrest, capRun_replicate]
  | false =>
    have hn : '\n' ∉ run := fun hm => absurd (hkind '\n' hm) (by decide)
    rw [capNewlineRuns_append (narrow_of_not_mem hn), capRun_of_not_mem hn]

example : capNewlineRuns "a\n\n\n\nb\n\nc \n\n\n".toList = "a\n\nb\n\nc \n\n".toList := by decide

/-! ## Searching -/

/-- A run of three line feeds or more, up to its end. -/
def readLongRun (s : List Char) : Option (Unit × Nat) :=
  let n := (s.takeWhile (· = '\n')).length
  if 3 ≤ n then some ((), n - 1) else none

theorem readLongRun_replicate_append (hs : s.head? ≠ some '\n') {n : Nat} (hn : 2 ≤ n) :
    readLongRun ('\n' :: (List.replicate n '\n' ++ s)) = some ((), n) := by
  rw [← List.cons_append, ← List.replicate_succ, readLongRun, takeWhile_run hs,
    List.length_replicate, if_pos (by omega), Nat.add_sub_cancel]

/-- Capping is a search for long runs, each replaced by two line feeds. -/
theorem capNewlineRuns_eq_spell (s : List Char) :
    capNewlineRuns s = spell (fun _ => "\n\n".toList) (scan readLongRun s) := by
  induction hlen : s.length using Nat.strongRecOn generalizing s with
  | ind len ih =>
    cases s with
    | nil => rfl
    | cons c s =>
      by_cases h : "\n\n\n".toList <+: c :: s
      · obtain ⟨n, rest, hrest, rfl⟩ := exists_run '\n' s
        obtain ⟨rfl, -⟩ := feeds_prefix_cons.1 h
        rw [feeds_prefix_iff, ← List.cons_append, ← List.replicate_succ, takeWhile_run hrest,
          List.length_replicate] at h
        have hlt : rest.length < len := by
          rw [← hlen, List.length_cons, List.length_append]
          omega
        rw [scan_hit (readLongRun_replicate_append hrest (by omega)), spell,
          List.drop_left' List.length_replicate, ← ih _ hlt rest rfl, ← List.cons_append,
          ← List.replicate_succ, capNewlineRuns_replicate_append hrest, Nat.min_eq_right (by omega)]
        rfl
      · have hread : readLongRun (c :: s) = none := by
          rw [readLongRun, if_neg (mt feeds_prefix_iff.2 h)]
        rw [scan_char hread, spell, ← ih s.length (by simp [← hlen]) s rfl,
          capNewlineRuns_cons_of_not_feeds h]

/-! ## Normalising blank lines -/

/-- Normalising blank lines shortens each maximal run of three line feeds or more to two and keeps
all else as it stands. So no three line feeds follow each other any more, normalising again changes
nothing, and parts can be normalised before they are put together. -/
theorem newline_runs_capped (s t : List Char) :
    capNewlineRuns s = (newlineRuns s).flatMap capRun ∧
      ¬ "\n\n\n".toList <:+: capNewlineRuns s ∧
      capNewlineRuns (capNewlineRuns s) = capNewlineRuns s ∧
      capNewlineRuns (s ++ t) = capNewlineRuns (capNewlineRuns s ++ capNewlineRuns t) := by
  refine ⟨capNewlineRuns_eq s, not_infix_capNewlineRuns s, capNewlineRuns_capNewlineRuns s, ?_⟩
  rw [capNewlineRuns_append_left, capNewlineRuns_append_right]

end StorageMarkup
