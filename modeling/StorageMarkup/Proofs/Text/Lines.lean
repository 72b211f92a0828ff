import StorageMarkup.Proofs.Text.Search
import StorageMarkup.Text.Space

/-!
# Lines

Cutting a text into pieces takes the separators away and nothing else, so lines that
are joined again are the text they came from.

Results:
1. `joinWith_induct`: what pieces have and joining keeps.
2. `pieces_joinWith`: pieces that are joined are found again.
3. `unlines_lines`, `lines_unlines`, `words_joinWith`: lines and texts are the same data, and words
   are found again.
-/

namespace StorageMarkup

variable {separator : Char → Bool} {s : List Char}

/-! ## Joining -/

/-- A property of the pieces and of what stands between them that joining keeps. -/
theorem joinWith_induct {P : List Char → Prop} (nil : P [])
    (append : ∀ s t, P s → P t → P (s ++ t)) {between : List Char} (hbetween : P between)
    {parts : List (List Char)} (h : ∀ part ∈ parts, P part) : P (joinWith between parts) := by
  fun_induction joinWith between parts with
  | case1 => exact nil
  | case2 part => exact h part List.mem_cons_self
  | case3 part rest _ ih =>
    rw [List.forall_mem_cons] at h
    exact append _ _ (append _ _ h.1 hbetween) (ih h.2)

/-- Every part stands in the text that is joined. -/
theorem infix_joinWith {between part : List Char} {parts : List (List Char)} (h : part ∈ parts) :
    part <:+: joinWith between parts := by
  induction parts with
  | nil => exact absurd h List.not_mem_nil
  | cons first rest ih =>
    cases rest with
    | nil =>
      rw [List.mem_singleton.1 h]
      exact List.infix_rfl
    | cons second rest =>
      rw [joinWith]
      · rcases List.mem_cons.1 h with rfl | h
        · exact ⟨[], between ++ joinWith between (second :: rest), by simp⟩
        · exact (ih h).trans (List.suffix_append _ _).isInfix
      · exact List.cons_ne_nil second rest

theorem prefix_joinWith (between first : List Char) (rest : List (List Char)) :
    first <+: joinWith between (first :: rest) := by
  cases rest with
  | nil => exact List.prefix_rfl
  | cons second rest =>
    rw [joinWith]
    · exact (List.prefix_append first between).trans (List.prefix_append _ _)
    · exact List.cons_ne_nil second rest

theorem joinWith_cons_cons (c : Char) (l m : List Char) (ls : List (List Char)) :
    joinWith [c] (l :: m :: ls) = l ++ c :: joinWith [c] (m :: ls) := by
  rw [joinWith, List.append_assoc, List.singleton_append]
  exact List.cons_ne_nil m ls

theorem unlines_cons_cons (l m : List Char) (ls : List (List Char)) :
    unlines (l :: m :: ls) = l ++ '\n' :: unlines (m :: ls) := joinWith_cons_cons '\n' l m ls

/-- The last line has nothing behind it. -/
theorem unlines_append_singleton (ls : List (List Char)) (last : List Char) :
    unlines (ls ++ [last]) = ls.flatMap (· ++ ['\n']) ++ last := by
  induction ls with
  | nil => rfl
  | cons l ls ih =>
    have hcons : unlines (l :: (ls ++ [last])) = l ++ '\n' :: unlines (ls ++ [last]) := by
      cases ls with
      | nil => exact unlines_cons_cons l last []
      | cons m ls => exact unlines_cons_cons l m (ls ++ [last])
    rw [List.cons_append, hcons, ih, List.flatMap_cons]
    simp

/-! ## Pieces -/

/-- There is always a first piece. -/
theorem exists_pieces_eq_cons (separator : Char → Bool) (s : List Char) :
    ∃ first others, pieces separator s = first :: others := by
  induction s with
  | nil => exact ⟨[], [], rfl⟩
  | cons c s ih =>
    obtain ⟨first, others, hs⟩ := ih
    rw [pieces, hs]
    split
    · exact ⟨_, _, rfl⟩
    · exact ⟨_, _, rfl⟩

/-- Text without separators becomes the start of the first piece. -/
theorem pieces_append {u first : List Char} {others : List (List Char)}
    (hu : ∀ c ∈ u, separator c = false) (hs : pieces separator s = first :: others) :
    pieces separator (u ++ s) = (u ++ first) :: others := by
  induction u with
  | nil => exact hs
  | cons c u ih =>
    rw [List.forall_mem_cons] at hu
    rw [List.cons_append, pieces, ih hu.2, hu.1]
    rfl

/-- Pieces that are joined by a separator are found again. -/
theorem pieces_joinWith {c : Char} (hc : separator c = true) {ls : List (List Char)} (hne : ls ≠ [])
    (h : ∀ l ∈ ls, ∀ d ∈ l, separator d = false) : pieces separator (joinWith [c] ls) = ls := by
  induction ls with
  | nil => exact absurd rfl hne
  | cons l ls ih =>
    rw [List.forall_mem_cons] at h
    cases ls with
    | nil =>
      have hlast := pieces_append h.1 (rfl : pieces separator [] = [[]])
      rwa [List.append_nil] at hlast
    | cons m ls =>
      have hrest : pieces separator (c :: joinWith [c] (m :: ls)) = [] :: m :: ls := by
        rw [pieces, if_pos hc]
        exact congrArg ([] :: ·) (ih (List.cons_ne_nil m ls) h.2)
      rw [joinWith_cons_cons, pieces_append h.1 hrest, List.append_nil]

theorem separator_of_mem_pieces {piece : List Char} (h : piece ∈ pieces separator s) :
    ∀ c ∈ piece, separator c = false := by
  induction s generalizing piece with
  | nil =>
    rw [List.mem_singleton.1 h]
    exact fun c hc => absurd hc List.not_mem_nil
  | cons c s ih =>
    obtain ⟨first, others, hs⟩ := exists_pieces_eq_cons separator s
    rw [hs] at ih
    rw [pieces, hs] at h
    cases hsep : separator c with
    | true =>
      rw [hsep] at h
      rcases List.mem_cons.1 h with rfl | h
      · exact fun c hc => absurd hc List.not_mem_nil
      · exact ih h
    | false =>
      rw [hsep] at h
      rcases List.mem_cons.1 h with rfl | h
      · exact List.forall_mem_cons.2 ⟨hsep, ih List.mem_cons_self⟩
      · exact ih (List.mem_cons_of_mem _ h)

theorem subset_of_mem_pieces {piece : List Char} (h : piece ∈ pieces separator s) : piece ⊆ s := by
  induction s generalizing piece with
  | nil => exact List.mem_singleton.1 h ▸ List.Subset.refl _
  | cons c s ih =>
    obtain ⟨first, others, hs⟩ := exists_pieces_eq_cons separator s
    rw [hs] at ih
    rw [pieces, hs] at h
    split at h
    · rcases List.mem_cons.1 h with rfl | h
      · exact List.nil_subset _
      · exact List.subset_cons_of_subset c (ih h)
    · rcases List.mem_cons.1 h with rfl | h
      · exact List.cons_subset_cons c (ih List.mem_cons_self)
      · exact List.subset_cons_of_subset c (ih (List.mem_cons_of_mem _ h))

/-! ## Lines -/

theorem not_mem_of_mem_lines {l : List Char} (h : l ∈ lines s) : '\n' ∉ l := fun hm =>
  absurd (separator_of_mem_pieces h _ hm) (by decide)

theorem not_newline {l : List Char} (h : '\n' ∉ l) : ∀ c ∈ l, (c == '\n') = false := fun _ hc =>
  beq_false_of_ne fun he => h (he ▸ hc)

theorem lines_of_not_mem (h : '\n' ∉ s) : lines s = [s] := by
  have hnil : pieces (· == '\n') [] = [[]] := rfl
  have := pieces_append (not_newline h) hnil
  rwa [List.append_nil] at this

theorem unlines_lines (s : List Char) : unlines (lines s) = s := by
  induction s with
  | nil => rfl
  | cons c s ih =>
    obtain ⟨first, others, hs⟩ := exists_pieces_eq_cons (· == '\n') s
    rw [lines, hs] at ih
    rw [lines, pieces, hs]
    cases hc : c == '\n' with
    | true =>
      rw [if_pos rfl, unlines_cons_cons, ih, eq_of_beq hc, List.nil_append]
    | false =>
      rw [if_neg Bool.false_ne_true]
      cases others with
      | nil => exact congrArg (c :: ·) ih
      | cons m others =>
        rw [unlines_cons_cons] at ih ⊢
        exact congrArg (c :: ·) ih

theorem infix_of_mem_lines {l : List Char} (h : l ∈ lines s) : l <:+: s := by
  have hin : l <:+: unlines (lines s) := infix_joinWith h
  rwa [unlines_lines] at hin

theorem lines_unlines {ls : List (List Char)} (hne : ls ≠ []) (h : ∀ l ∈ ls, '\n' ∉ l) :
    lines (unlines ls) = ls := pieces_joinWith (by decide) hne fun l hl => not_newline (h l hl)

/-! ## Words -/

/-- Words that are joined by blanks are found again. -/
theorem words_joinWith {ws : List (List Char)}
    (h : ∀ w ∈ ws, w ≠ [] ∧ ∀ c ∈ w, isSpace c = false) : words (joinWith [' '] ws) = ws := by
  cases ws with
  | nil => rfl
  | cons w ws =>
    rw [words, pieces_joinWith (by decide) (List.cons_ne_nil w ws) fun w hw => (h w hw).2]
    refine List.filter_eq_self.2 fun w hw => ?_
    rw [List.isEmpty_eq_false_iff.2 (h w hw).1]
    rfl

end StorageMarkup
