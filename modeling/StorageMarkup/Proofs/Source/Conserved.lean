import StorageMarkup.Document
import StorageMarkup.Proofs.Source.Continuation
import StorageMarkup.Proofs.Text.Blocks
import StorageMarkup.Proofs.Vault.Restoring

/-!
# Preparing a source loses nothing

The passes over a source put empty lines in and placeholders in the place of text. Where
the placeholders are resolved again, the source is back, up to blank lines and the white
space around a line.

Results:
1. `Reduced`, `exists_reduced`: what is sent in the place of some lines.
2. `Reduced.contentLines`, `Reduced.regions_inOrder`, `Reduced.blocks_sublist`: what
   putting the regions back gives.
3. `source_conserved`: all passes together.
-/

namespace StorageMarkup

open Vault

variable {options : Options} {listed : VerbatimNames} {text : List Char} {n : Nat}
  {ls out regions : List (List Char)}

/-! ## Lines and what is sent in their place -/

/-- The second lines are sent in the place of the first: each line stays, or it starts a region that
a placeholder stands for, the numbers going up from `n`. -/
inductive Reduced : Nat → List (List Char) → List (List Char) → List (List Char) → Prop
  | nil (n : Nat) : Reduced n [] [] []
  | kept {n : Nat} {ls out regions : List (List Char)} (line : List Char)
      (h : Reduced n ls out regions) : Reduced n (line :: ls) (line :: out) regions
  | region {n : Nat} {ls out regions : List (List Char)} {line : List Char}
      (body : List (List Char)) (hline : strip line ≠ []) (h : Reduced (n + 1) ls out regions) :
      Reduced n (line :: (body ++ ls)) ([] :: (indentation line ++ placeholder n) :: [] :: out)
        (unlines (line :: body) :: regions)

theorem Reduced.refl (ls : List (List Char)) : Reduced n ls ls [] := by
  induction ls with
  | nil => exact .nil n
  | cons line ls ih => exact .kept line ih

theorem takeThroughClosing_prefix {name : List Char} {body : List (List Char)}
    (h : takeThroughClosing name ls = some body) : body <+: ls := by
  induction ls generalizing body with
  | nil => cases h
  | cons line ls ih =>
    rw [takeThroughClosing] at h
    split at h
    · cases h
      exact List.prefix_append [line] ls
    · obtain ⟨others, ho, rfl⟩ := Option.map_eq_some_iff.1 h
      exact List.cons_prefix_cons.2 ⟨rfl, ih ho⟩

theorem openName?_of_openedName? {line : List Char × Bool} {name : List Char}
    (h : openedName? line = some name) : Directive.openName? line.1 = some name := by
  obtain ⟨line, inFence⟩ := line
  rw [openedName?] at h
  split at h
  · cases h
  · exact h

theorem regionAfter?_eq_some {line : List Char × Bool} {body : List (List Char)}
    (h : regionAfter? listed line ls = .ok (some body)) : strip line.1 ≠ [] ∧ body <+: ls := by
  unfold regionAfter? at h
  split at h
  · next name hname =>
    split at h
    · exact ⟨(Directive.isToken_of_openName? (openName?_of_openedName? hname)).ne_nil,
        takeThroughClosing_prefix (Except.ok.inj h)⟩
    · cases h
  · split at h <;> cases h

/-- Setting regions aside reduces the lines, and the vault gets the regions. -/
theorem exists_reduced {flagged : List (List Char × Bool)} : ∀ {skip : Nat} {v w : Vault}
    {out : List (List Char)}, setRegionsAsideFrom listed v skip flagged = (w, .ok out) →
      ∃ regions, w.originals = v.originals ++ regions ∧
        Reduced v.size ((flagged.map Prod.fst).drop skip) out regions := by
  induction flagged with
  | nil =>
    intro skip v w out h
    rw [setRegionsAsideFrom] at h
    cases h
    rw [List.map_nil, List.drop_nil]
    exact ⟨[], (List.append_nil _).symm, .nil _⟩
  | cons line rest ih =>
    intro skip v w out h
    cases skip with
    | succ skip => exact ih h
    | zero =>
      rcases setRegionsAsideFrom_cons_eq_ok h with
        ⟨body, others, hbody, hr, rfl⟩ | ⟨others, hr, rfl⟩
      · obtain ⟨regions, hw, hreduced⟩ := ih hr
        obtain ⟨hline, more, hmore⟩ := regionAfter?_eq_some hbody
        rw [size_deposit, ← hmore, List.drop_left] at hreduced
        refine ⟨unlines (line.1 :: body) :: regions, ?_, ?_⟩
        · rw [hw, deposit, List.append_assoc, List.singleton_append]
        · rw [List.drop_zero, List.map_cons, ← hmore]
          exact .region body hline hreduced
      · obtain ⟨regions, hw, hreduced⟩ := ih hr
        exact ⟨regions, hw, .kept line.1 hreduced⟩

theorem exists_reduced_setRegionsAside {w : Vault} {regionless : List Char}
    (h : setRegionsAside listed .empty text = (w, .ok regionless)) :
    ∃ out, regionless = unlines out ∧ Reduced 0 (lines text) out w.originals := by
  rcases setRegionsAside_eq_ok h with ⟨out, hr, rfl⟩ | ⟨rfl, rfl⟩
  · obtain ⟨regions, hw, hreduced⟩ := exists_reduced hr
    rw [List.drop_zero, linesWithFences, fenced, ← flaggedFrom, map_fst_flaggedFrom] at hreduced
    exact ⟨out, rfl, by rwa [hw]⟩
  · exact ⟨lines regionless, (unlines_lines regionless).symm, .refl _⟩

theorem indentation_append {s : List Char} (hs : strip s ≠ []) (t : List Char) :
    indentation (s ++ t) = indentation s := by
  obtain ⟨w, w', hw, _, hcut⟩ := exists_blank_strip s
  obtain ⟨c, rest, hstrip, hc⟩ := (capped_strip hs).starts
  have hcut_w : ∀ u, indentation (w ++ c :: u) = w := fun u => by
    rw [indentation, List.takeWhile_append_of_pos fun _ => isSpace_of_mem hw,
      List.takeWhile_cons_of_neg (by rw [hc]; exact Bool.false_ne_true), List.append_nil]
  rw [hstrip] at hcut
  have happend : s ++ t = w ++ c :: (rest ++ w' ++ t) := by rw [hcut]; simp
  have halone : s = w ++ c :: (rest ++ w') := by rw [hcut]; simp
  rw [happend, hcut_w]
  conv => rhs; rw [halone, hcut_w]

/-- The first line of a text, if it is not blank, has the white space that the text starts with. -/
theorem indentation_unlines {line : List Char} (hline : strip line ≠ []) (body : List (List Char)) :
    indentation (unlines (line :: body)) = indentation line := by
  cases body with
  | nil => rfl
  | cons second body => rw [unlines_cons_cons, indentation_append hline]

theorem lines_ne_nil (s : List Char) : lines s ≠ [] := by
  obtain ⟨first, others, hs⟩ := exists_pieces_eq_cons (· == '\n') s
  exact ne_of_eq_of_ne hs (List.cons_ne_nil first others)

namespace Reduced

theorem ne_nil (h : Reduced n ls out regions) (hne : ls ≠ []) : out ≠ [] := by
  cases h with
  | nil => exact hne
  | kept => exact List.cons_ne_nil _ _
  | region => exact List.cons_ne_nil _ _

theorem not_feed (h : Reduced n ls out regions) (hfeed : ∀ l ∈ ls, '\n' ∉ l) :
    ∀ l ∈ out, '\n' ∉ l := by
  induction h with
  | nil => exact hfeed
  | kept line _ ih =>
    rw [List.forall_mem_cons] at hfeed ⊢
    exact ⟨hfeed.1, ih hfeed.2⟩
  | @region n ls out regions line body hline h ih =>
    rw [List.forall_mem_cons, List.forall_mem_append] at hfeed
    have htoken : '\n' ∉ indentation line ++ placeholder n := by
      rw [List.mem_append, not_or]
      exact ⟨fun hm => hfeed.1 ((List.takeWhile_prefix _).subset hm),
        not_mem_placeholder (by decide)⟩
    simp only [List.forall_mem_cons]
    exact ⟨List.not_mem_nil, htoken, List.not_mem_nil, ih hfeed.2.2⟩

/-- The regions are blocks of the lines, in order. -/
theorem regions_inOrder (h : Reduced n ls out regions) (hfeed : ∀ l ∈ ls, '\n' ∉ l) :
    InOrder (regions.map lines) ls := by
  induction h with
  | nil => exact .nil _
  | kept line _ ih =>
    rw [List.forall_mem_cons] at hfeed
    exact (ih hfeed.2).append_left [line]
  | @region n ls out regions line body hline h ih =>
    rw [List.forall_mem_cons, List.forall_mem_append] at hfeed
    have hlines : lines (unlines (line :: body)) = line :: body :=
      lines_unlines (List.cons_ne_nil _ _) (List.forall_mem_cons.2 ⟨hfeed.1, hfeed.2.1⟩)
    rw [List.map_cons, hlines]
    exact .cons [] (ih hfeed.2.2)

/-! ## Putting the regions back -/

variable {w : Vault}

/-- Numbers and regions go together: what a placeholder is written for is what it stands for. -/
theorem expand_token (hfree : startMark ∉ unlines ls) {older : List (List Char)}
    (hw : w.Ordered) (hrest : w.originals = older ++ unlines ls :: regions) (line : List Char) :
    w.expand (indentation line ++ placeholder older.length) = indentation line ++ unlines ls := by
  have horiginal : w.originals[older.length]? = some (unlines ls) := by
    rw [hrest, List.getElem?_append_right (Nat.le_refl _), Nat.sub_self, List.getElem?_cons_zero]
  have hblank := startMark_not_mem_blank (isBlank_indentation line)
  rw [hw.expand_append (.of_free hblank) (.placeholder (lt_size_of_original horiginal)),
    hw.expand_number horiginal, expand_eq_self hblank, expand_eq_self hfree]

variable {older : List (List Char)}

theorem contentLines_expand (h : Reduced n ls out regions) (hfree : ∀ l ∈ ls, startMark ∉ l)
    (hw : w.Ordered) (hn : older.length = n) (hrest : w.originals = older ++ regions) :
    (out.flatMap fun l => contentLines (w.expand l)) = ls.flatMap contentLines := by
  induction h generalizing older with
  | nil => rfl
  | kept line _ ih =>
    rw [List.forall_mem_cons] at hfree
    rw [List.flatMap_cons, List.flatMap_cons, ih hfree.2 hn hrest, expand_eq_self hfree.1]
  | @region n ls out regions line body hline h ih =>
    rw [List.forall_mem_cons, List.forall_mem_append] at hfree
    subst hn
    have hregion : startMark ∉ unlines (line :: body) :=
      unlines_unmarked (List.forall_mem_cons.2 ⟨hfree.1, hfree.2.1⟩)
    have hlength : (older ++ [unlines (line :: body)]).length = older.length + 1 :=
      List.length_append
    have hothers := ih hfree.2.2 hlength
      (by rw [hrest, List.append_assoc, List.singleton_append])
    have hempty : contentLines (w.expand []) = [] := by
      rw [expand_eq_self List.not_mem_nil]
      rfl
    rw [List.flatMap_cons, List.flatMap_cons, List.flatMap_cons, hempty, hothers,
      expand_token hregion hw hrest, contentLines_blank_append (isBlank_indentation _),
      contentLines_unlines, ← List.cons_append, List.flatMap_append, List.nil_append,
      List.nil_append]

/-- A region comes back behind the white space that its first line starts with. -/
theorem blocks_sublist (h : Reduced n ls out regions) (hfree : ∀ l ∈ ls, startMark ∉ l)
    (hw : w.Ordered) (hn : older.length = n) (hrest : w.originals = older ++ regions) :
    (regions.map fun region => lines (indentation region ++ region)).Sublist
      (out.map fun l => lines (w.expand l)) := by
  induction h generalizing older with
  | nil => exact .slnil
  | kept line _ ih =>
    rw [List.forall_mem_cons] at hfree
    exact (ih hfree.2 hn hrest).cons _
  | @region n ls out regions line body hline h ih =>
    rw [List.forall_mem_cons, List.forall_mem_append] at hfree
    subst hn
    have hregion : startMark ∉ unlines (line :: body) :=
      unlines_unmarked (List.forall_mem_cons.2 ⟨hfree.1, hfree.2.1⟩)
    have hlength : (older ++ [unlines (line :: body)]).length = older.length + 1 :=
      List.length_append
    have hothers := ih hfree.2.2 hlength
      (by rw [hrest, List.append_assoc, List.singleton_append])
    have hblock : lines (indentation (unlines (line :: body)) ++ unlines (line :: body)) =
        lines (w.expand (indentation line ++ placeholder older.length)) := by
      rw [indentation_unlines hline, expand_token hregion hw hrest]
    rw [List.map_cons, List.map_cons, List.map_cons, List.map_cons, hblock]
    exact ((hothers.cons _).cons_cons _).cons _

end Reduced

/-! ## Empty lines -/

theorem flatMap_setLinesApartFrom {f : List Char → List (List Char)} (hf : f [] = [])
    (gap nonBlank : Bool) (flagged : List (List Char × Bool)) :
    (setLinesApartFrom gap nonBlank flagged).flatMap f = (flagged.map Prod.fst).flatMap f := by
  induction flagged generalizing gap nonBlank with
  | nil => rfl
  | cons line flagged ih =>
    have hothers : (line.1 :: setLinesApartFrom (isDirectiveLine line) (!isBlank line.1)
        flagged).flatMap f = ((line :: flagged).map Prod.fst).flatMap f := by
      rw [List.flatMap_cons, ih, List.map_cons, List.flatMap_cons]
    rw [setLinesApartFrom]
    split
    · rw [List.flatMap_cons, hf, List.nil_append]
      exact hothers
    · exact hothers

theorem sublist_setLinesApartFrom (gap nonBlank : Bool) (flagged : List (List Char × Bool)) :
    (flagged.map Prod.fst).Sublist (setLinesApartFrom gap nonBlank flagged) := by
  induction flagged generalizing gap nonBlank with
  | nil => exact .slnil
  | cons line flagged ih =>
    have hothers := (ih (isDirectiveLine line) (!isBlank line.1)).cons_cons line.1
    rw [setLinesApartFrom]
    split
    · exact hothers.cons []
    · exact hothers

/-! ## The whole source -/

/-- The passes over a new document's source prepare it. -/
theorem runAll_fresh_eq_ok {ctx : Context} {source : List Char} :
    SourcePass.runAll (.fresh options) text = (ctx, .ok source) ↔
      ∃ v, ctx = ⟨options, some v, none⟩ ∧ prepareSource options text = .ok (v, source) := by
  unfold SourcePass.runAll SourcePass.all prepareSource
  rw [SourcePass.runEach, SourcePass.run, SourcePass.setRegionsAside, Context.fresh]
  cases VerbatimNames.ofValue options.verbatim with
  | error e => exact ⟨fun h => (nomatch h), fun ⟨_, _, h⟩ => (nomatch h)⟩
  | ok listed =>
    simp only [ok_bind]
    generalize setRegionsAside listed .empty text = set
    obtain ⟨w, regionless⟩ := set
    cases regionless with
    | error e => exact ⟨fun h => (nomatch (Prod.mk.inj h).2), fun ⟨_, _, h⟩ => (nomatch h)⟩
    | ok t =>
      constructor
      · intro h
        cases h
        exact ⟨_, rfl, rfl⟩
      · rintro ⟨v, rfl, h⟩
        have hshield : w.shield (setLinesApart t) = (v, source) := pure_eq_ok.1 h
        show ((⟨options, some (w.shield (setLinesApart t)).1, none⟩ : Context),
          Except.ok (w.shield (setLinesApart t)).2) = _
        rw [hshield]

theorem setRegionsAside_ok (hnames : listed.holdsMissing = false) (v : Vault) (text : List Char) :
    ∃ w regionless, setRegionsAside listed v text = (w, .ok regionless) := by
  obtain ⟨further, out, h⟩ :=
    setRegionsAsideFrom_uniform hnames (linesWithFences (lines text)) 0 v.size
  unfold setRegionsAside
  split
  · rw [h v rfl]
    exact ⟨_, _, rfl⟩
  · exact ⟨v, text, rfl⟩

/-- What the prepared source stands for, line by line. -/
theorem expand_prepared {v w : Vault} {source : List Char} (hw : w.Ordered) (hne : out ≠ [])
    (hfeed : ∀ l ∈ out, '\n' ∉ l) (hintact : Intact (· < w.size) (unlines out))
    (hshield : w.shield (setLinesApart (unlines out)) = (v, source)) :
    v.expand source =
      unlines ((setLinesApartFrom false false (linesWithFences out)).map w.expand) := by
  have hexpand := hw.expand_shield hintact.setLinesApart (Nat.le_refl _)
  have hlines := hintact.lines
  rw [lines_unlines hne hfeed] at hlines
  rw [hshield] at hexpand
  rw [hexpand, setLinesApart, lines_unlines hne hfeed]
  exact hw.expand_unlines (forall_setLinesApartFrom (.of_free List.not_mem_nil)
    fun l hl => hlines l.1 (mem_linesWithFences hl))

/-- Putting everything back undoes the passes over a source. If no missing name is listed for
verbatim regions, the passes succeed. Then the lines with content are those of the source, trimmed;
what was set aside for verbatim regions are blocks of its lines, in order; and each region is back
in the restored text, in the same order. There the white space that its first line starts with
stands before that line once more. -/
theorem source_conserved (options : Options) (text : List Char) (htext : startMark ∉ text)
    {listed : VerbatimNames} (hlisted : VerbatimNames.ofValue options.verbatim = .ok listed) :
    (listed.holdsMissing = false → ∃ ctx source,
        SourcePass.runAll (.fresh options) text = (ctx, .ok source)) ∧
      ∀ v ctx source, SourcePass.runAll (.fresh options) text = (ctx, .ok source) →
        ctx.vault = some v →
        let restored := v.expand source
        let regions := (setRegionsAside listed .empty text).1.originals
        contentLines restored = contentLines text ∧ regions <+: v.originals ∧
          InOrder (regions.map lines) (lines text) ∧ InOrder regions restored ∧
          InOrder (regions.map fun region => lines (indentation region ++ region))
            (lines restored) := by
  constructor
  · intro hnames
    obtain ⟨w, regionless, hset⟩ := setRegionsAside_ok hnames .empty text
    have hprepared : prepareSource options text =
        .ok (w.shield (setLinesApart regionless)) := by
      rw [prepareSource, hlisted, ok_bind, hset]
      rfl
    exact ⟨_, _, runAll_fresh_eq_ok.2 ⟨_, rfl, hprepared⟩⟩
  · intro v ctx source hrun hctx
    obtain ⟨v', rfl, hprepared⟩ := runAll_fresh_eq_ok.1 hrun
    cases hctx
    obtain ⟨listed', w, regionless, hlisted', hset, hshield⟩ := prepareSource_eq_ok hprepared
    cases hlisted.symm.trans hlisted'
    rw [hset]
    obtain ⟨out, rfl, hreduced⟩ := exists_reduced_setRegionsAside hset
    obtain ⟨hw, hintact⟩ := setRegionsAside_intact htext hset
    have hfree := lines_unmarked htext
    have hfeed : ∀ l ∈ lines text, '\n' ∉ l := fun l => not_mem_of_mem_lines
    have hout := hreduced.ne_nil (lines_ne_nil text)
    have hrestored := expand_prepared hw hout (hreduced.not_feed hfeed) hintact hshield
    have hflagged : (linesWithFences out).map Prod.fst = out := map_fst_flaggedFrom none out
    have happart := sublist_setLinesApartFrom false false (linesWithFences out)
    rw [hflagged] at happart
    have hmapped : (setLinesApartFrom false false (linesWithFences out)).map w.expand ≠ [] := by
      intro hnil
      rw [List.map_eq_nil_iff.1 hnil] at happart
      exact hout (List.sublist_nil.1 happart)
    -- the restored text line by line, and the regions among its lines
    have hblocks : InOrder (w.originals.map fun region => lines (indentation region ++ region))
        (lines (v.expand source)) := by
      rw [hrestored, lines_unlines_flatMap hmapped, List.flatMap_map]
      have hkept := hreduced.blocks_sublist hfree hw List.length_nil (List.nil_append _).symm
      exact .of_sublist (hkept.trans (happart.map _))
    have hregions : List.Forall₂ (· <:+: ·) w.originals ((w.originals.map fun region =>
        lines (indentation region ++ region)).map unlines) := by
      rw [List.map_map, List.forall₂_map_right_iff, List.forall₂_same]
      intro region _
      rw [Function.comp_apply, unlines_lines]
      exact (List.suffix_append _ _).isInfix
    refine ⟨?_, ?_, hreduced.regions_inOrder hfeed, ?_, hblocks⟩
    · rw [hrestored, contentLines_unlines, List.flatMap_map,
        flatMap_setLinesApartFrom (f := fun l => contentLines (w.expand l)) ?_, hflagged,
        hreduced.contentLines_expand hfree hw List.length_nil (List.nil_append _).symm,
        ← contentLines_eq_flatMap]
      rw [expand_eq_self List.not_mem_nil]
      rfl
    · have hgrow := shield_extends w (setLinesApart (unlines out))
      rwa [hshield] at hgrow
    · have htext := hblocks.unlines fun block hblock => ?_
      · rw [unlines_lines] at htext
        exact htext.mono hregions
      · obtain ⟨region, _, rfl⟩ := List.mem_map.1 hblock
        exact lines_ne_nil _

/-- An indented region below a list item, and a directive of two lines. -/
theorem source_conserved_indented :
    let region := ("  \x7b\x7b#confluence-code\x7d\x7d\n\n  x" ++
      "\n  \x7b\x7b/confluence-code\x7d\x7d").toList
    let text := "- a\n".toList ++ region ++ "\n\x7b\x7bb\nc\x7d\x7d".toList
    let restored := "- a\n\n  ".toList ++ region ++ "\n\n\x7b\x7bb\nc\x7d\x7d".toList
    let v : Vault := ⟨[region, "\x7b\x7bb\nc\x7d\x7d".toList]⟩
    let source := "- a\n\n  ".toList ++ placeholder 0 ++ "\n\n".toList ++ placeholder 1
    startMark ∉ text ∧
      SourcePass.runAll (.fresh .standard) text = (⟨.standard, some v, none⟩, .ok source) ∧
      v.expand source = restored ∧ contentLines restored = contentLines text ∧
      InOrder [region] restored := by
  intro region text restored v source
  have hfree : startMark ∉ text := by decide +kernel
  have hlisted : VerbatimNames.ofValue Options.standard.verbatim =
      .ok ⟨["confluence-code".toList], false, false⟩ := rfl
  have hrun : SourcePass.runAll (.fresh .standard) text =
      (⟨.standard, some v, none⟩, .ok source) := by with_unfolding_all rfl
  have hrestored : v.expand source = restored := by decide +kernel
  have hset : (setRegionsAside ⟨["confluence-code".toList], false, false⟩ .empty text).1.originals =
      [region] := by decide +kernel
  obtain ⟨hlines, -, -, hregions, -⟩ :=
    (source_conserved .standard text hfree hlisted).2 v _ source hrun rfl
  rw [hrestored] at hlines hregions
  rw [hset] at hregions
  exact ⟨hfree, hrun, hrestored, hlines, hregions⟩

end StorageMarkup
