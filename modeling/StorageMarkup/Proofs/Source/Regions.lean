import StorageMarkup.Proofs.Directive.Lexicon
import StorageMarkup.Proofs.Text.Lines
import StorageMarkup.Proofs.Text.NewlineRuns
import StorageMarkup.Proofs.Source.Intact
import StorageMarkup.Tree.Marker

/-!
# The verbatim regions of a source

What is set aside for a verbatim region is its lines as they stand in the source. A
text of that form is recognised as a region wherever its placeholder is looked at, and
it is neither an open token nor a close token itself.

Results:
1. `setRegionsAside_stands`: what is set aside stands in the source.
2. `IsRegion.isRegionText`: the marker pass knows a region.
3. `IsRegion.openName?_eq_none`, `IsRegion.closeName?_eq_none`: a region is no token.
-/

namespace StorageMarkup

open Vault

variable {listed : VerbatimNames} {name region text : List Char}

/-! ## Regions in a source -/

/-- The region is made of neighbouring lines: one outside fences that opens a listed name, and those
after it up to the first that closes the name. -/
def StandsIn (listed : VerbatimNames) (ls : List (List Char × Bool)) (region : List Char) : Prop :=
  ∃ before line after name body, ls = before ++ line :: after ∧ openedName? line = some name ∧
    listed.names.contains name = true ∧
    takeThroughClosing name (after.map Prod.fst) = some body ∧ region = unlines (line.1 :: body)

theorem StandsIn.cons {ls : List (List Char × Bool)} (h : StandsIn listed ls region)
    (line : List Char × Bool) : StandsIn listed (line :: ls) region := by
  obtain ⟨before, first, after, name, body, rfl, hrest⟩ := h
  exact ⟨line :: before, first, after, name, body, rfl, hrest⟩

theorem StandsIn.of_regionAfter? {line : List Char × Bool} {rest : List (List Char × Bool)}
    {body : List (List Char)}
    (h : regionAfter? listed line (rest.map Prod.fst) = .ok (some body)) :
    StandsIn listed (line :: rest) (unlines (line.1 :: body)) := by
  unfold regionAfter? at h
  split at h
  · next name hname =>
    split at h
    · next hlisted =>
      exact ⟨[], line, rest, name, body, rfl, hname, hlisted, Except.ok.inj h, rfl⟩
    · cases h
  · split at h <;> cases h

theorem original_deposit {v : Vault} {s original : List Char} {k : Nat}
    (h : (v.deposit s).1.originals[k]? = some original) :
    v.originals[k]? = some original ∨ original = s := by
  rcases Nat.lt_or_ge k v.size with hk | hk
  · left
    rw [← h]
    exact (List.getElem?_append_left hk).symm
  · right
    have hlt := lt_size_of_original h
    rw [size_deposit] at hlt
    have hk : k = v.size := by omega
    rw [hk, deposit_original] at h
    exact (Option.some.inj h).symm

/-- Each step sets aside a region of the lines that are left, or nothing. -/
theorem setRegionsAsideFrom_stands {ls : List (List Char × Bool)} : ∀ {skip : Nat} {v w : Vault}
    {out : List (List Char)}, setRegionsAsideFrom listed v skip ls = (w, .ok out) →
      ∀ k : Nat, w.originals[k]? = some region → v.originals[k]? = some region ∨
        StandsIn listed ls region := by
  induction ls with
  | nil =>
    intro skip v w out hset k hk
    rw [setRegionsAsideFrom] at hset
    cases hset
    exact .inl hk
  | cons line rest ih =>
    intro skip v w out hset k hk
    cases skip with
    | succ skip => exact (ih hset k hk).imp (fun h => h) fun h => h.cons line
    | zero =>
      rcases setRegionsAsideFrom_cons_eq_ok hset with ⟨body, others, hbody, hr, _⟩ | ⟨others, hr, _⟩
      · rcases ih hr k hk with h | h
        · rcases original_deposit h with h | h
          · exact .inl h
          · rw [h]
            exact .inr (.of_regionAfter? hbody)
        · exact .inr (h.cons line)
      · exact (ih hr k hk).imp (fun h => h) fun h => h.cons line

/-- What is set aside stands in the source. -/
theorem setRegionsAside_stands {w : Vault} {regionless : List Char}
    (hset : setRegionsAside listed .empty text = (w, .ok regionless)) {k : Nat}
    (hk : w.originals[k]? = some region) :
    StandsIn listed (linesWithFences (lines text)) region := by
  rcases setRegionsAside_eq_ok hset with ⟨ls, hr, _⟩ | ⟨rfl, _⟩
  · exact (setRegionsAsideFrom_stands hr k hk).resolve_left fun h => nomatch h
  · cases hk

/-- A region of a source holds no start mark unless the source does. -/
theorem StandsIn.unmarked (htext : startMark ∉ text)
    (h : StandsIn listed (linesWithFences (lines text)) region) : startMark ∉ region := by
  obtain ⟨before, line, after, name, body, hls, _, _, hbody, rfl⟩ := h
  have hline : ∀ l ∈ line :: after, startMark ∉ l.1 := fun l hl =>
    lines_unmarked htext l.1 (mem_linesWithFences (hls ▸ List.mem_append_right before hl))
  rw [List.forall_mem_cons] at hline
  refine unlines_unmarked (List.forall_mem_cons.2 ⟨hline.1, fun l hl => ?_⟩)
  obtain ⟨l', hl', rfl⟩ := List.mem_map.1 (mem_of_takeThroughClosing hbody l hl)
  exact hline.2 l' hl'

/-! ## Texts that are regions -/

/-- Lines from an open token to the close token of its name, joined. -/
inductive IsRegion : List Char → Prop
  | mk {line last name : List Char} {mid : List (List Char)}
      (hopen : Directive.openName? line = some name) (hclose : strip last = Directive.closing name)
      (hlines : ∀ l ∈ line :: (mid ++ [last]), '\n' ∉ l) :
      IsRegion (unlines (line :: (mid ++ [last])))

theorem takeThroughClosing_eq_some {ls body : List (List Char)}
    (h : takeThroughClosing name ls = some body) :
    ∃ mid last, body = mid ++ [last] ∧ strip last = Directive.closing name := by
  induction ls generalizing body with
  | nil => cases h
  | cons line ls ih =>
    rw [takeThroughClosing] at h
    split at h
    · next hc =>
      cases h
      exact ⟨[], line, rfl, hc⟩
    · obtain ⟨others, ho, rfl⟩ := Option.map_eq_some_iff.1 h
      obtain ⟨mid, last, rfl, hc⟩ := ih ho
      exact ⟨line :: mid, last, rfl, hc⟩

theorem StandsIn.isRegion (h : StandsIn listed (linesWithFences (lines text)) region) :
    IsRegion region := by
  obtain ⟨before, line, after, name, body, hls, hname, _, hbody, rfl⟩ := h
  have hopen : Directive.openName? line.1 = some name := by
    obtain ⟨line, inFence⟩ := line
    rw [openedName?] at hname
    split at hname
    · cases hname
    · exact hname
  have hmem : ∀ l ∈ line.1 :: body, l ∈ lines text := by
    have hline : ∀ l ∈ line :: after, l.1 ∈ lines text := fun l hl =>
      mem_linesWithFences (hls ▸ List.mem_append_right before hl)
    rw [List.forall_mem_cons] at hline
    refine List.forall_mem_cons.2 ⟨hline.1, fun l hl => ?_⟩
    obtain ⟨l', hl', rfl⟩ := List.mem_map.1 (mem_of_takeThroughClosing hbody l hl)
    exact hline.2 l' hl'
  obtain ⟨mid, last, rfl, hclose⟩ := takeThroughClosing_eq_some hbody
  exact .mk hopen hclose fun l hl => not_mem_of_mem_lines (hmem l hl)

namespace IsRegion

variable (h : IsRegion region)

include h

/-- Trimmed, a region is still made of such lines. -/
theorem strip_eq : ∃ first mid last name, strip region = unlines (first :: (mid ++ [last])) ∧
    Directive.openName? first = some name ∧ Directive.closeName? last = some name ∧
    ∀ l ∈ first :: (mid ++ [last]), '\n' ∉ l := by
  obtain @⟨line, last, name, mid, hopen, hclose, hlines⟩ := h
  obtain ⟨w, w1, hw, hw1, hline⟩ := exists_blank_strip line
  obtain ⟨w2, w3, hw2, hw3, hlast⟩ := exists_blank_strip last
  have hcapped := (Directive.isToken_of_openName? hopen).capped
  have hcapped' : Capped (strip last) := hclose ▸ Directive.capped_closing name
  have hunlines : ∀ a b : List Char, unlines (a :: (mid ++ [b])) =
      a ++ '\n' :: (mid.flatMap (· ++ ['\n']) ++ b) := fun a b => by
    rw [← List.cons_append, unlines_append_singleton, List.flatMap_cons]
    simp
  -- trimming takes away what stands before the open token and behind the close token
  refine ⟨strip line ++ w1, mid, w2 ++ strip last, name, ?_, ?_, ?_, ?_⟩
  · have hregion : unlines (line :: (mid ++ [last])) = w ++ (strip line ++
        (w1 ++ '\n' :: (mid.flatMap (· ++ ['\n']) ++ w2)) ++ strip last) ++ w3 := by
      rw [hunlines]
      conv => lhs; rw [hline, hlast]
      simp
    rw [hregion, StorageMarkup.strip_eq hw hw3 (hcapped.around hcapped' _), hunlines]
    simp
  · rw [← Directive.openName?_strip, strip_append_blank hw1, strip_strip,
      Directive.openName?_strip, hopen]
  · rw [← Directive.closeName?_strip, strip_blank_append hw2, strip_strip, hclose]
    exact Directive.closeName?_closing (Directive.isName_of_openName? hopen)
  · rw [List.forall_mem_cons, List.forall_mem_append, List.forall_mem_singleton] at hlines ⊢
    obtain ⟨hl, hmid, hl'⟩ := hlines
    rw [hline] at hl
    rw [hlast] at hl'
    refine ⟨fun hm => hl ?_, hmid, fun hm => hl' ?_⟩
    · rw [List.append_assoc]
      exact List.mem_append_right w hm
    · exact List.mem_append_left w3 hm

/-- The marker pass knows a region. -/
theorem isRegionText : isRegionText region = true := by
  obtain ⟨first, mid, last, name, hs, hopen, hclose, hlines⟩ := h.strip_eq
  obtain ⟨m, ms, hm⟩ : ∃ m ms, mid ++ [last] = m :: ms := by
    cases mid with
    | nil => exact ⟨last, [], rfl⟩
    | cons m mid => exact ⟨m, mid ++ [last], rfl⟩
  have hlast : (first :: m :: ms).getLast? = some last := by
    rw [← hm, ← List.cons_append, List.getLast?_append]
    rfl
  unfold StorageMarkup.isRegionText
  rw [hs, lines_unlines (List.cons_ne_nil _ _) hlines, hm]
  simp only [hlast, hopen, hclose]
  rfl

theorem closingStart_infix : Directive.closingStart <:+: strip region := by
  obtain ⟨first, mid, last, name, hs, _, hclose, _⟩ := h.strip_eq
  refine (Directive.closingStart_infix_of_closeName? hclose).trans ?_
  rw [hs]
  exact infix_joinWith (by simp)

/-- A region is no open token: it holds a close token. -/
theorem openName?_eq_none : Directive.openName? region = none := by
  cases ho : Directive.openName? region with
  | none => rfl
  | some name =>
    rw [← Directive.openName?_strip] at ho
    exact absurd h.closingStart_infix (Directive.not_infix_of_openName? ho)

/-- A region is no close token: it has two lines. -/
theorem closeName?_eq_none : Directive.closeName? region = none := by
  cases hc : Directive.closeName? region with
  | none => rfl
  | some name =>
    obtain ⟨hs, hname⟩ := Directive.closeName?_eq_some.1 hc
    obtain ⟨first, mid, last, _, hs', _⟩ := h.strip_eq
    have hm : '\n' ∈ strip region := by
      rw [hs', ← List.cons_append, unlines_append_singleton, List.flatMap_cons]
      simp
    rw [hs, Directive.closing_eq] at hm
    simp only [List.mem_cons, List.mem_append, List.not_mem_nil, or_false] at hm
    rcases hm with hm | hm | hm | hm | hm | hm
    all_goals first | exact absurd hm (by decide) | skip
    have hspace := (Directive.isNameChar_eq_true.1 (hname.2 _ hm)).1
    exact absurd hspace (by decide)

/-- The first character of a region is the first of its open line. -/
theorem exists_cons : ∃ c rest, region = c :: rest ∧ inPlaceholder c = false ∧ c ≠ '\n' := by
  obtain @⟨line, last, name, mid, hopen, _, hlines⟩ := h
  obtain ⟨w, w1, hw, _, hline⟩ := exists_blank_strip line
  obtain ⟨inner, hs, _⟩ := Directive.openName?_eq_some.1 hopen
  have hfeed : '\n' ∉ line := hlines line List.mem_cons_self
  have hregion : ∃ rest, unlines (line :: (mid ++ [last])) = line ++ rest := by
    rw [← List.cons_append, unlines_append_singleton, List.flatMap_cons]
    exact ⟨_, by rw [List.append_assoc, List.append_assoc]⟩
  obtain ⟨rest, hregion⟩ := hregion
  rw [hregion]
  rw [hs] at hline
  cases w with
  | nil =>
    rw [hline]
    exact ⟨'{', _, rfl, by decide, by decide⟩
  | cons c w =>
    rw [hline] at hfeed ⊢
    refine ⟨c, _, rfl, inPlaceholder_eq_false_of_space (isSpace_of_mem hw List.mem_cons_self), ?_⟩
    rintro rfl
    exact hfeed (by simp)

theorem solid (hfree : startMark ∉ region) : Solid region where
  starts := by
    obtain ⟨c, rest, hc, hin, _⟩ := h.exists_cons
    exact ⟨c, rest, hc, hin⟩
  unmarked := hfree

/-- The last line of a region is not empty. -/
theorem narrow (hshort : ¬ "\n\n\n".toList <:+: region) : Narrow region where
  short := hshort
  ends := by
    obtain @⟨line, last, name, mid, _, hclose, hlines⟩ := h
    have hfeed : '\n' ∉ last := hlines last (by simp)
    intro w hw
    rw [← List.cons_append, unlines_append_singleton] at hw
    rcases List.eq_nil_or_concat last with hl | ⟨rest, c, rfl⟩
    · rw [hl] at hclose
      cases hclose
    · rw [List.concat_eq_append, ← List.append_assoc] at hw
      rw [(List.cons.inj (List.append_inj' hw rfl).2).1] at hfeed
      exact hfeed (by simp)

end IsRegion

end StorageMarkup
