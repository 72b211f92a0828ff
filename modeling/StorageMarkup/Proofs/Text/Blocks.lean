import Mathlib.Data.List.Forall2
import StorageMarkup.Proofs.Text.Lines
import StorageMarkup.Proofs.Text.Trim
import StorageMarkup.Tree.Marker

/-!
# Blocks of lines

Where texts are joined with line feeds between them, the lines of the whole are the
lines of the texts, one text after the other.

Results:
1. `lines_unlines_flatMap`, `contentLines_unlines`: lines of a joined text.
2. `InOrder`: blocks that stand one after the other.
3. `InOrder.unlines`: blocks of lines are blocks of the text.
-/

namespace StorageMarkup

/-! ## Lines of joined texts -/

theorem lines_append_feed (s t : List Char) : lines (s ++ '\n' :: t) = lines s ++ lines t := by
  induction s with
  | nil => rfl
  | cons c s ih =>
    obtain ⟨first, others, hs⟩ := exists_pieces_eq_cons (· == '\n') s
    have ih : pieces (· == '\n') (s ++ '\n' :: t) = pieces (· == '\n') s ++ lines t := ih
    show pieces _ (c :: (s ++ '\n' :: t)) = pieces _ (c :: s) ++ lines t
    rw [pieces, pieces, ih, hs]
    split
    · rfl
    · rfl

theorem lines_unlines_flatMap {ls : List (List Char)} (hne : ls ≠ []) :
    lines (unlines ls) = ls.flatMap lines := by
  induction ls with
  | nil => exact absurd rfl hne
  | cons l ls ih =>
    cases ls with
    | nil => exact (List.append_nil _).symm
    | cons m ls =>
      rw [unlines_cons_cons, lines_append_feed, ih (List.cons_ne_nil m ls)]
      rfl

theorem contentLines_unlines (ls : List (List Char)) :
    contentLines (unlines ls) = ls.flatMap contentLines := by
  cases ls with
  | nil => rfl
  | cons l ls =>
    rw [contentLines, lines_unlines_flatMap (List.cons_ne_nil l ls), List.filter_flatMap,
      List.map_flatMap]
    rfl

theorem contentLines_eq_flatMap (s : List Char) :
    contentLines s = (lines s).flatMap contentLines := by
  rw [← contentLines_unlines, unlines_lines]

theorem unlines_append {ls ms : List (List Char)} (hl : ls ≠ []) (hm : ms ≠ []) :
    unlines (ls ++ ms) = unlines ls ++ '\n' :: unlines ms := by
  induction ls with
  | nil => exact absurd rfl hl
  | cons l ls ih =>
    cases ls with
    | nil =>
      cases ms with
      | nil => exact absurd rfl hm
      | cons m ms => exact unlines_cons_cons l m ms
    | cons l' ls =>
      rw [List.cons_append, List.cons_append, unlines_cons_cons, ← List.cons_append,
        ih (List.cons_ne_nil l' ls), unlines_cons_cons, List.append_assoc, List.cons_append]

/-! ## Lines with content -/

theorem contentLines_cons_of_space {c : Char} (hc : isSpace c = true) (s : List Char) :
    contentLines (c :: s) = contentLines s := by
  obtain ⟨first, others, hs⟩ := exists_pieces_eq_cons (· == '\n') s
  have hcons : isBlank (c :: first) = isBlank first := by
    rw [isBlank_cons, hc, Bool.true_and]
  have hstrip : strip (c :: first) = strip first :=
    strip_blank_append (w := [c]) (by rw [isBlank_cons, hc]; rfl) first
  rw [contentLines, contentLines, lines, lines, pieces, hs]
  split
  · rfl
  · rw [List.filter_cons, List.filter_cons, hcons]
    split
    · rw [List.map_cons, List.map_cons, hstrip]
    · rfl

theorem contentLines_blank_append {w : List Char} (hw : isBlank w = true) (s : List Char) :
    contentLines (w ++ s) = contentLines s := by
  induction w with
  | nil => rfl
  | cons c w ih =>
    rw [isBlank_cons, Bool.and_eq_true] at hw
    rw [List.cons_append, contentLines_cons_of_space hw.1, ih hw.2]

/-- A text of one line with blanks around it has that line. -/
theorem contentLines_of_strip {s u : List Char} (hu : Capped u) (hline : '\n' ∉ u)
    (hs : strip s = u) : contentLines s = [u] := by
  obtain ⟨w, w', hw, hw', he⟩ := exists_blank_strip s
  obtain ⟨first, others, hls⟩ := exists_pieces_eq_cons (· == '\n') w'
  have hblank : (first :: others).filter (!isBlank ·) = [] := by
    have hnone : contentLines w' = [] := by
      have := contentLines_blank_append hw' []
      rwa [List.append_nil] at this
    rw [contentLines, lines, hls] at hnone
    exact List.map_eq_nil_iff.1 hnone
  rw [List.filter_eq_nil_iff, List.forall_mem_cons] at hblank
  have hfirst : isBlank first = true := by simpa using hblank.1
  have hcontent : isBlank (u ++ first) = false := by
    rw [isBlank_append, hu.isBlank_eq_false, Bool.false_and]
  rw [he, hs, List.append_assoc, contentLines_blank_append hw, contentLines, lines,
    pieces_append (not_newline hline) hls, List.filter_cons_of_pos (by rw [hcontent]; rfl),
    List.filter_eq_nil_iff.2 hblank.2, List.map_cons, strip_append_blank hfirst, hu.strip]
  rfl

/-! ## Blocks in order -/

/-- The blocks stand in the list one after the other, each whole and none reaching into the next. -/
inductive InOrder {α : Type} : List (List α) → List α → Prop
  | nil (s : List α) : InOrder [] s
  | cons (before : List α) {block : List α} {blocks : List (List α)} {s : List α}
      (h : InOrder blocks s) : InOrder (block :: blocks) (before ++ (block ++ s))

namespace InOrder

variable {α : Type} {blocks inner : List (List α)} {s : List α}

theorem append_left (h : InOrder blocks s) (t : List α) : InOrder blocks (t ++ s) := by
  cases h with
  | nil => exact .nil _
  | cons before h =>
    rw [← List.append_assoc]
    exact .cons (t ++ before) h

/-- Parts of blocks in order are in order. -/
theorem mono (h : InOrder blocks s) (hinner : List.Forall₂ (· <:+: ·) inner blocks) :
    InOrder inner s := by
  induction h generalizing inner with
  | nil s =>
    rw [List.forall₂_nil_right_iff] at hinner
    rw [hinner]
    exact .nil s
  | @cons before block blocks s h ih =>
    obtain ⟨part, parts, hpart, hparts, rfl⟩ := List.forall₂_cons_right_iff.1 hinner
    obtain ⟨u, w, rfl⟩ := hpart
    have hcut : before ++ (u ++ part ++ w ++ s) = before ++ u ++ (part ++ (w ++ s)) := by simp
    rw [hcut]
    exact .cons _ ((ih hparts).append_left w)

theorem of_sublist {parts : List (List α)} (h : blocks.Sublist parts) :
    InOrder blocks parts.flatten := by
  induction h with
  | slnil => exact .nil _
  | cons part _ ih => exact ih.append_left part
  | cons_cons part _ ih => exact .cons [] ih

/-- Blocks of lines, each of one line at least, are blocks of the joined text. -/
theorem unlines {blocks : List (List (List Char))} {ls : List (List Char)}
    (h : InOrder blocks ls) (hne : ∀ block ∈ blocks, block ≠ []) :
    InOrder (blocks.map StorageMarkup.unlines) (StorageMarkup.unlines ls) := by
  induction h with
  | nil => exact .nil _
  | @cons before block blocks s h ih =>
    rw [List.forall_mem_cons] at hne
    -- what stands behind the block, the line feed between included
    obtain ⟨rest, hrest, hjoined⟩ : ∃ rest, InOrder (blocks.map StorageMarkup.unlines) rest ∧
        StorageMarkup.unlines (block ++ s) = StorageMarkup.unlines block ++ rest := by
      by_cases hs : s = []
      · subst hs
        exact ⟨[], ih hne.2, by rw [List.append_nil, List.append_nil]⟩
      · exact ⟨_, (ih hne.2).append_left ['\n'], unlines_append hne.1 hs⟩
    by_cases hbefore : before = []
    · subst hbefore
      rw [List.nil_append, hjoined]
      exact .cons [] hrest
    · have hblock : block ++ s ≠ [] := fun hnil => hne.1 (List.append_eq_nil_iff.1 hnil).1
      rw [unlines_append hbefore hblock, hjoined]
      exact ((InOrder.cons [] hrest).append_left ['\n']).append_left _

end InOrder

end StorageMarkup
