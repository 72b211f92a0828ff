import StorageMarkup.Proofs.Source.Conserved

/-!
# Directive lines, set apart

An empty line is put between two lines just in case one of them is a directive line and the other
is not blank. It is put next to a directive line, so outside of fences, where it opens none: the
flags of all lines stay, and the lines of the result are as far apart as they have to be.

Results:
1. `apartBehind_cons`: where an empty line is put.
2. `exists_flagged_apartBehind`: the flags behind it.
3. `spread_apartBehind`, `isChain_apartBehind`, `apartBehind_of_isChain`: what is put in, what it
   achieves, and that this is all there is to do.
4. `directiveLines_setApart`: a whole text.
-/

namespace StorageMarkup

variable {prev : List Char × Bool} {fence? : Option Fence}

/-- Of two neighbours, neither needs an empty line to stand apart from the other. -/
def Apart (a b : List Char × Bool) : Prop :=
  (isDirectiveLine a = true → isBlank b.1 = true) ∧ (isDirectiveLine b = true → isBlank a.1 = true)

instance : DecidableRel Apart := fun _ _ => inferInstanceAs (Decidable (_ ∧ _))

/-- The second lines are the first with empty lines put in, each outside of fences and right behind
or right before a directive line. -/
inductive Spread : List (List Char × Bool) → List (List Char × Bool) → Prop
  | nil : Spread [] []
  | kept {ls out : List (List Char × Bool)} (line : List Char × Bool) (h : Spread ls out) :
      Spread (line :: ls) (line :: out)
  | behind {ls out : List (List Char × Bool)} {line : List Char × Bool}
      (hline : isDirectiveLine line = true) (h : Spread ls out) :
      Spread (line :: ls) (line :: ([], false) :: out)
  | before {ls out : List (List Char × Bool)} {line : List Char × Bool}
      (hline : isDirectiveLine line = true) (h : Spread (line :: ls) (line :: out)) :
      Spread (line :: ls) (([], false) :: line :: out)

/-! ## Line by line -/

/-- The lines behind `prev`, set apart. -/
abbrev apartBehind (prev : List Char × Bool) (ls : List (List Char × Bool)) : List (List Char) :=
  setLinesApartFrom (isDirectiveLine prev) (!isBlank prev.1) ls

theorem apartBehind_cons (prev line : List Char × Bool) (ls : List (List Char × Bool)) :
    apartBehind prev (line :: ls) =
      if Apart prev line then line.1 :: apartBehind line ls
      else [] :: line.1 :: apartBehind line ls := by
  have hbefore : (isDirectiveLine prev && !isBlank line.1 ||
      isDirectiveLine line && !isBlank prev.1) = true ↔ ¬ Apart prev line := by
    unfold Apart
    cases isDirectiveLine prev <;> cases isDirectiveLine line <;> simp [imp_iff_not_or]
  rw [apartBehind, setLinesApartFrom]
  simp only [hbefore, ite_not]

theorem flaggedFrom_nil (fence? : Option Fence) : flaggedFrom fence? [] = [] := List.zip_nil_left

/-- A line that has no flag stands outside of fences and opens none. -/
theorem exists_flaggedFrom_cons (fence? : Option Fence) (line : List Char) :
    ∃ inFence after?, (inFence = false → fence? = none ∧ after? = none) ∧
      ∀ ls, flaggedFrom fence? (line :: ls) = (line, inFence) :: flaggedFrom after? ls := by
  cases fence? with
  | some fence =>
    exact ⟨true, if fence.closedBy line then none else some fence, nofun, fun _ => rfl⟩
  | none =>
    cases hline : Fence.ofLine? line with
    | some fence =>
      refine ⟨true, some fence, nofun, fun ls => ?_⟩
      rw [flaggedFrom, fencedFrom, hline]
      rfl
    | none =>
      refine ⟨false, none, fun _ => ⟨rfl, rfl⟩, fun ls => ?_⟩
      rw [flaggedFrom, fencedFrom, hline]
      rfl

theorem not_inFence {line : List Char} {inFence : Bool}
    (h : isDirectiveLine (line, inFence) = true) : inFence = false := by
  cases inFence with
  | false => rfl
  | true => cases h

/-- The flags behind `prev` stay, where it leaves no fence open if it is a directive line; and an
empty line that is put in has none. -/
theorem exists_flagged_apartBehind (hprev : isDirectiveLine prev = true → fence? = none)
    (line : List Char) (ls : List (List Char)) :
    ∃ cur after?, (isDirectiveLine cur = true → after? = none) ∧
      flaggedFrom fence? (line :: ls) = cur :: flaggedFrom after? ls ∧
      flaggedFrom fence? (apartBehind prev (flaggedFrom fence? (line :: ls))) =
        if Apart prev cur then cur :: flaggedFrom after? (apartBehind cur (flaggedFrom after? ls))
        else
          ([], false) :: cur :: flaggedFrom after? (apartBehind cur (flaggedFrom after? ls)) := by
  obtain ⟨inFence, after?, hoff, hcons⟩ := exists_flaggedFrom_cons fence? line
  refine ⟨(line, inFence), after?, fun h => (hoff (not_inFence h)).2, hcons ls, ?_⟩
  rw [hcons, apartBehind_cons]
  split
  · exact hcons _
  · next hapart =>
    have hnone : fence? = none := by
      by_contra hopen
      exact hapart ⟨fun h => absurd (hprev h) hopen, fun h => absurd (hoff (not_inFence h)).1 hopen⟩
    rw [← hcons, hnone]
    rfl

/-! ## All lines -/

theorem spread_apartBehind (hprev : isDirectiveLine prev = true → fence? = none)
    (ls : List (List Char)) :
    Spread (prev :: flaggedFrom fence? ls)
      (prev :: flaggedFrom fence? (apartBehind prev (flaggedFrom fence? ls))) := by
  induction ls generalizing prev fence? with
  | nil =>
    rw [flaggedFrom_nil]
    exact .kept prev .nil
  | cons line ls ih =>
    obtain ⟨cur, after?, hcur, hls, hout⟩ := exists_flagged_apartBehind hprev line ls
    rw [hout, hls]
    split
    · exact .kept prev (ih hcur)
    · next hapart =>
      by_cases hdirective : isDirectiveLine prev = true
      · exact .behind hdirective (ih hcur)
      · have hline : isDirectiveLine cur = true := by
          by_contra hline
          exact hapart ⟨fun h => absurd h hdirective, fun h => absurd h hline⟩
        exact .kept prev (.before hline (ih hcur))

theorem isChain_apartBehind (hprev : isDirectiveLine prev = true → fence? = none)
    (ls : List (List Char)) :
    (prev :: flaggedFrom fence? (apartBehind prev (flaggedFrom fence? ls))).IsChain Apart := by
  induction ls generalizing prev fence? with
  | nil =>
    rw [flaggedFrom_nil]
    exact .singleton prev
  | cons line ls ih =>
    obtain ⟨cur, after?, hcur, -, hout⟩ := exists_flagged_apartBehind hprev line ls
    rw [hout]
    split
    · next hapart => exact .cons_cons hapart (ih hcur)
    · exact .cons_cons ⟨fun _ => rfl, nofun⟩ (.cons_cons ⟨nofun, fun _ => rfl⟩ (ih hcur))

/-- Where all lines are apart, none is put in. -/
theorem apartBehind_of_isChain {ls : List (List Char × Bool)} (h : (prev :: ls).IsChain Apart) :
    apartBehind prev ls = ls.map Prod.fst := by
  induction ls generalizing prev with
  | nil => rfl
  | cons line ls ih =>
    obtain ⟨hapart, h⟩ := List.isChain_cons_cons.1 h
    rw [apartBehind_cons, if_pos hapart, ih h, List.map_cons]

theorem Spread.tail {prev : List Char × Bool} {ls out : List (List Char × Bool)}
    (hprev : isDirectiveLine prev = false) (h : Spread (prev :: ls) (prev :: out)) :
    Spread ls out := by
  cases h with
  | kept _ h => exact h
  | behind h _ => exact absurd (hprev.symm.trans h) Bool.false_ne_true
  | before h _ => exact absurd (hprev.symm.trans h) Bool.false_ne_true

theorem lines_setLinesApart (text : List Char) :
    lines (setLinesApart text) = setLinesApartFrom false false (linesWithFences (lines text)) := by
  have hfst : (linesWithFences (lines text)).map Prod.fst = lines text :=
    map_fst_flaggedFrom none (lines text)
  refine lines_unlines (fun hnil => ?_) (fun l hl => ?_)
  · have happart := sublist_setLinesApartFrom false false (linesWithFences (lines text))
    rw [hnil, hfst] at happart
    exact lines_ne_nil text (List.sublist_nil.1 happart)
  · exact forall_setLinesApartFrom (P := ('\n' ∉ ·)) List.not_mem_nil
      (fun l hl => not_mem_of_mem_lines (mem_linesWithFences hl)) l hl

/-- Setting directive lines apart puts empty lines in and does nothing else: each outside of fences
and next to a directive line, the lines of the text staying in order and with their flags. In the
result only blank lines and the ends of the text stand next to a directive line, and it is set apart
no further. -/
theorem directiveLines_setApart (text : List Char) :
    Spread (linesWithFences (lines text)) (linesWithFences (lines (setLinesApart text))) ∧
      (linesWithFences (lines (setLinesApart text))).IsChain Apart ∧
      setLinesApart (setLinesApart text) = setLinesApart text := by
  -- the text as if an empty line stood before it
  have hstart : isDirectiveLine ([], false) = true → (none : Option Fence) = none := fun _ => rfl
  have hspread := spread_apartBehind hstart (lines text)
  have hchain := isChain_apartBehind hstart (lines text)
  have hout : linesWithFences (lines (setLinesApart text)) =
      flaggedFrom none (apartBehind ([], false) (flaggedFrom none (lines text))) :=
    congrArg linesWithFences (lines_setLinesApart text)
  rw [← hout] at hspread hchain
  refine ⟨hspread.tail rfl, hchain.tail, ?_⟩
  have hsame : unlines (apartBehind ([], false) (linesWithFences (lines (setLinesApart text)))) =
      setLinesApart text := by
    rw [apartBehind_of_isChain hchain]
    exact (congrArg unlines (map_fst_flaggedFrom none _)).trans (unlines_lines _)
  exact hsame

end StorageMarkup
