import StorageMarkup.Proofs.Source.Regions

/-!
# What follows a verbatim region

The flags that keep fenced lines from opening regions are taken from all lines of a
source, those of verbatim regions included. So a region reaches behind its close token
by one thing only: the fence that its body leaves open.

Results:
1. `fencedFrom_append`: the flags of a stretch depend on the fence left open before it.
2. `setRegionsAsideFrom_uniform`: what is set aside of some lines depends on the vault
   through its size only.
3. `continuation_independent`: bodies that leave the same fence open have the same
   continuation.
4. `continuation_depends_on_body`: a body that leaves a fence open keeps a later region
   from being set aside.
-/

namespace StorageMarkup

open Vault

variable {options : Options} {listed : VerbatimNames} {name : List Char}

/-! ## The fence that lines leave open -/

/-- The fence open behind some lines, if `fence?` is the one open before them. -/
def fenceAfter (fence? : Option Fence) : List (List Char) → Option Fence
  | [] => fence?
  | line :: rest =>
    match fence? with
    | none => fenceAfter (Fence.ofLine? line) rest
    | some fence => fenceAfter (if fence.closedBy line then none else some fence) rest

theorem fenceAfter_append (fence? : Option Fence) (before after : List (List Char)) :
    fenceAfter fence? (before ++ after) = fenceAfter (fenceAfter fence? before) after := by
  induction before generalizing fence? with
  | nil => rfl
  | cons line before ih =>
    cases fence? with
    | none => exact ih (Fence.ofLine? line)
    | some fence => exact ih (if fence.closedBy line then none else some fence)

theorem fencedFrom_append (fence? : Option Fence) (before after : List (List Char)) :
    fencedFrom fence? (before ++ after) =
      fencedFrom fence? before ++ fencedFrom (fenceAfter fence? before) after := by
  induction before generalizing fence? with
  | nil => rfl
  | cons line before ih =>
    cases fence? with
    | none =>
      rw [List.cons_append, fencedFrom, fencedFrom, fenceAfter]
      cases Fence.ofLine? line with
      | none => exact congrArg (false :: ·) (ih none)
      | some fence => exact congrArg (true :: ·) (ih (some fence))
    | some fence => rw [List.cons_append, fencedFrom, fencedFrom, fenceAfter, ih, List.cons_append]

theorem length_fencedFrom (fence? : Option Fence) (ls : List (List Char)) :
    (fencedFrom fence? ls).length = ls.length := by
  induction ls generalizing fence? with
  | nil => cases fence? <;> rfl
  | cons line ls ih =>
    cases fence? with
    | none =>
      rw [fencedFrom]
      cases Fence.ofLine? line <;> exact congrArg (· + 1) (ih _)
    | some fence => exact congrArg (· + 1) (ih _)

/-- Lines with their flags, if `fence?` is open before them. -/
def flaggedFrom (fence? : Option Fence) (ls : List (List Char)) : List (List Char × Bool) :=
  ls.zip (fencedFrom fence? ls)

theorem flaggedFrom_append (fence? : Option Fence) (before after : List (List Char)) :
    flaggedFrom fence? (before ++ after) =
      flaggedFrom fence? before ++ flaggedFrom (fenceAfter fence? before) after := by
  rw [flaggedFrom, fencedFrom_append, List.zip_append (length_fencedFrom fence? before).symm]
  rfl

theorem map_fst_flaggedFrom (fence? : Option Fence) (ls : List (List Char)) :
    (flaggedFrom fence? ls).map Prod.fst = ls :=
  List.map_fst_zip (length_fencedFrom fence? ls).ge

theorem length_flaggedFrom (fence? : Option Fence) (ls : List (List Char)) :
    (flaggedFrom fence? ls).length = ls.length := by
  rw [← List.length_map Prod.fst, map_fst_flaggedFrom]

/-- A line whose first character is a brace, blanks apart, neither opens nor closes a fence. -/
theorem Fence.ofLine?_eq_none {line rest : List Char} (h : strip line = '{' :: rest) :
    Fence.ofLine? line = none := by
  obtain ⟨w, w', hw, _, hline⟩ := exists_blank_strip line
  rw [h] at hline
  unfold Fence.ofLine?
  split
  · rfl
  · next mark more hmore =>
    refine if_neg ?_
    rintro ⟨-, hmark, -⟩
    -- the mark is one of the blanks before the brace, or the brace
    have hmem : mark ∈ w ∨ mark = '{' := by
      clear h
      subst hline
      induction w with
      | nil => exact .inr (List.cons.inj hmore).1.symm
      | cons c w ih =>
        rw [isBlank_cons, Bool.and_eq_true] at hw
        rw [List.cons_append, List.cons_append, List.dropWhile_cons] at hmore
        split at hmore
        · exact (ih hw.2 hmore).imp (List.mem_cons_of_mem c) id
        · exact .inl ((List.cons.inj hmore).1 ▸ List.mem_cons_self)
    rcases hmem with hm | rfl
    · have hspace := isSpace_of_mem hw hm
      rcases hmark with rfl | rfl <;> exact absurd hspace (by decide)
    · exact absurd hmark (by decide)

theorem fenceAfter_token (fence? : Option Fence) {line rest : List Char}
    (h : strip line = '{' :: rest) (ls : List (List Char)) :
    fenceAfter fence? (line :: ls) = fenceAfter fence? ls := by
  cases fence? with
  | none => rw [fenceAfter, Fence.ofLine?_eq_none h]
  | some fence =>
    have hopen : fence.closedBy line = false := by
      rw [Fence.closedBy, Fence.ofLine?_eq_none h]
    rw [fenceAfter, hopen]
    rfl

/-- A close line leaves alone what the body before it does to the fence. -/
theorem fenceAfter_append_close {close : List Char} (hclose : strip close = Directive.closing name)
    (fence? : Option Fence) (body : List (List Char)) :
    fenceAfter fence? (body ++ [close]) = fenceAfter fence? body := by
  rw [fenceAfter_append, fenceAfter_token (fenceAfter fence? body)
    (hclose.trans (Directive.closing_eq name)), fenceAfter]

/-- Where no fence is open, an open line has no flag and opens no fence. -/
theorem flaggedFrom_open {opening : List Char} (hopen : Directive.openName? opening = some name)
    (ls : List (List Char)) :
    flaggedFrom none (opening :: ls) = (opening, false) :: flaggedFrom none ls := by
  obtain ⟨inner, hs, _⟩ := Directive.openName?_eq_some.1 hopen
  rw [flaggedFrom, fencedFrom, Fence.ofLine?_eq_none hs]
  rfl

/-! ## Setting the regions of a stretch aside -/

/-- Lines to pass are dropped. -/
theorem setRegionsAsideFrom_skip (v : Vault) (skip : Nat) (ls : List (List Char × Bool)) :
    setRegionsAsideFrom listed v skip ls = setRegionsAsideFrom listed v 0 (ls.drop skip) := by
  induction skip generalizing ls with
  | zero => rfl
  | succ skip ih =>
    cases ls with
    | nil => rfl
    | cons line ls => exact ih ls

/-- A line that opens no listed name stays, unless the missing name is listed. -/
theorem regionAfter?_eq_none (hnames : listed.holdsMissing = false) {line : List Char × Bool}
    (hline : ∀ name, openedName? line = some name → name ∉ listed.names)
    (rest : List (List Char)) : regionAfter? listed line rest = .ok none := by
  unfold regionAfter?
  split
  · next name hname =>
    rw [if_neg fun hin => hline name hname (List.contains_iff_mem.1 hin)]
  · rw [hnames]
    rfl

theorem regionAfter?_ok (hnames : listed.holdsMissing = false) (line : List Char × Bool)
    (rest : List (List Char)) : ∃ region?, regionAfter? listed line rest = .ok region? := by
  unfold regionAfter?
  split
  · exact ⟨_, rfl⟩
  · rw [hnames]
    exact ⟨none, rfl⟩

/-- Without a missing name in the list nothing fails. What is set aside of some lines, and what
stays, depends on the vault through its size only: the texts come after those already there, and
the placeholders go on counting. -/
theorem setRegionsAsideFrom_uniform (hnames : listed.holdsMissing = false)
    (ls : List (List Char × Bool)) : ∀ skip size : Nat, ∃ further out, ∀ v : Vault,
      v.size = size →
        setRegionsAsideFrom listed v skip ls = (⟨v.originals ++ further⟩, .ok out) := by
  induction ls with
  | nil =>
    intro skip size
    refine ⟨[], [], fun v _ => ?_⟩
    rw [setRegionsAsideFrom, List.append_nil]
  | cons line rest ih =>
    intro skip size
    cases skip with
    | succ skip =>
      obtain ⟨further, out, h⟩ := ih skip size
      exact ⟨further, out, h⟩
    | zero =>
      obtain ⟨region?, hregion⟩ := regionAfter?_ok hnames line (rest.map Prod.fst)
      cases region? with
      | none =>
        obtain ⟨further, out, h⟩ := ih 0 size
        refine ⟨further, line.1 :: out, fun v hv => ?_⟩
        rw [setRegionsAsideFrom, hregion]
        simp only [h v hv]
        rfl
      | some body =>
        obtain ⟨further, out, h⟩ := ih body.length (size + 1)
        refine ⟨unlines (line.1 :: body) :: further,
          [] :: (indentation line.1 ++ placeholder size) :: [] :: out, fun v hv => ?_⟩
        have hgrown := h (v.deposit (unlines (line.1 :: body))).1 (by rw [size_deposit, hv])
        rw [setRegionsAsideFrom, hregion]
        simp only [hgrown]
        rw [deposit, ← hv, List.append_assoc]
        rfl

/-- Lines that open no region stay in front of what comes after them. -/
theorem setRegionsAsideFrom_append (hnames : listed.holdsMissing = false)
    {before after : List (List Char × Bool)}
    (hbefore : ∀ line ∈ before, ∀ name, openedName? line = some name → name ∉ listed.names)
    {v w : Vault} {out : List (List Char)}
    (hafter : setRegionsAsideFrom listed v 0 after = (w, .ok out)) :
    setRegionsAsideFrom listed v 0 (before ++ after) =
      (w, .ok (before.map Prod.fst ++ out)) := by
  induction before with
  | nil => exact hafter
  | cons line before ih =>
    rw [List.forall_mem_cons] at hbefore
    rw [List.cons_append, setRegionsAsideFrom, regionAfter?_eq_none hnames hbefore.1]
    simp only [ih hbefore.2]
    rfl

/-- A body without a close token for the name ends at the first line that is one. -/
theorem takeThroughClosing_body {body after : List (List Char)} {close : List Char}
    (hbody : ∀ l ∈ body, strip l ≠ Directive.closing name)
    (hclose : strip close = Directive.closing name) :
    takeThroughClosing name (body ++ close :: after) = some (body ++ [close]) := by
  induction body with
  | nil => rw [List.nil_append, takeThroughClosing, if_pos hclose, List.nil_append]
  | cons line body ih =>
    rw [List.forall_mem_cons] at hbody
    rw [List.cons_append, takeThroughClosing, if_neg hbody.1, ih hbody.2]
    rfl

/-! ## Two bodies -/

theorem isEmpty_of_mem (hlisted : VerbatimNames.ofValue options.verbatim = .ok listed)
    (hname : name ∈ listed.names) : listed.isEmpty = false := by
  revert hlisted
  cases options.verbatim with
  | text s =>
    rintro ⟨⟩
    cases s with
    | nil => exact absurd hname List.not_mem_nil
    | cons c s => rfl
  | record entries =>
    rintro ⟨⟩
    cases entries with
    | nil => exact absurd hname List.not_mem_nil
    | cons entry entries => rfl
  | list items =>
    rw [VerbatimNames.ofValue]
    split
    · rintro ⟨⟩
      cases items with
      | nil => exact absurd hname List.not_mem_nil
      | cons item items => rfl
    · rintro ⟨⟩
  | _ => rintro ⟨⟩

section FirstRegion

variable {before after body : List (List Char)} {opening close : List Char}
  (hlisted : VerbatimNames.ofValue options.verbatim = .ok listed)
  (hnames : listed.holdsMissing = false) (hname : name ∈ listed.names)
  (hbefore : ∀ line ∈ linesWithFences before, ∀ other,
    openedName? line = some other → other ∉ listed.names)
  (hfence : fenceAfter none before = none) (hopen : Directive.openName? opening = some name)
  (hclose : strip close = Directive.closing name)

include hlisted hnames hname hbefore hfence hopen hclose

/-- The first region of a source is set aside first; the lines behind it come after it, with the
fence open that its body leaves open. -/
theorem setRegionsAside_first (hbody : ∀ l ∈ body, strip l ≠ Directive.closing name)
    (hfeed : ∀ l ∈ before ++ opening :: (body ++ close :: after), '\n' ∉ l) {w : Vault}
    {tail : List (List Char)}
    (htail : setRegionsAsideFrom listed ⟨[unlines (opening :: (body ++ [close]))]⟩ 0
      (flaggedFrom (fenceAfter none body) after) = (w, .ok tail)) :
    setRegionsAside listed .empty (unlines (before ++ opening :: (body ++ close :: after))) =
      (w, .ok (unlines
        (before ++ [] :: (indentation opening ++ placeholder 0) :: [] :: tail))) := by
  have hmay : mayHoldRegions listed
      (unlines (before ++ opening :: (body ++ close :: after))) = true := by
    rw [mayHoldRegions, isEmpty_of_mem hlisted hname, Bool.not_false, Bool.true_and,
      contains_eq_true]
    exact (Directive.opening_infix_of_openName? hopen).trans (infix_joinWith (by simp))
  -- the open line has no flag, and the fence behind the close line is the one behind the body
  have hflags : linesWithFences (before ++ opening :: (body ++ close :: after)) =
      linesWithFences before ++ (opening, false) ::
        (flaggedFrom none (body ++ [close]) ++ flaggedFrom (fenceAfter none body) after) := by
    rw [← fenceAfter_append_close hclose none body, ← flaggedFrom_append, List.append_assoc,
      List.singleton_append, ← flaggedFrom_open hopen]
    have happend := flaggedFrom_append none before (opening :: (body ++ close :: after))
    rwa [hfence] at happend
  have hregion : regionAfter? listed (opening, false)
      ((flaggedFrom none (body ++ [close]) ++
        flaggedFrom (fenceAfter none body) after).map Prod.fst) = .ok (some (body ++ [close])) := by
    rw [List.map_append, map_fst_flaggedFrom, map_fst_flaggedFrom, List.append_assoc,
      List.singleton_append, regionAfter?, openedName?, if_neg Bool.false_ne_true, hopen]
    simp only [List.contains_iff_mem.2 hname, if_true, takeThroughClosing_body hbody hclose]
  have hrest : setRegionsAsideFrom listed ⟨[unlines (opening :: (body ++ [close]))]⟩
      (body ++ [close]).length (flaggedFrom none (body ++ [close]) ++
        flaggedFrom (fenceAfter none body) after) = (w, .ok tail) := by
    rw [setRegionsAsideFrom_skip, ← length_flaggedFrom none (body ++ [close]), List.drop_left,
      htail]
  have hstep : setRegionsAsideFrom listed .empty 0 ((opening, false) ::
      (flaggedFrom none (body ++ [close]) ++ flaggedFrom (fenceAfter none body) after)) =
        (w, .ok ([] :: (indentation opening ++ placeholder 0) :: [] :: tail)) := by
    rw [setRegionsAsideFrom, hregion]
    simp only [deposit, empty, List.nil_append, hrest]
    rfl
  rw [setRegionsAside, if_pos hmay, lines_unlines (by simp) hfeed, hflags]
  simp only [setRegionsAsideFrom_append hnames hbefore hstep]
  rw [linesWithFences, fenced, ← flaggedFrom, map_fst_flaggedFrom]
  rfl

end FirstRegion

/-- Two sources that differ in the body of their first verbatim region only, where the two bodies
leave the same fence open, have the same further regions and the same lines behind the region's
placeholder. -/
theorem continuation_independent
    (hlisted : VerbatimNames.ofValue options.verbatim = .ok listed)
    (hnames : listed.holdsMissing = false) {before after : List (List Char)}
    {opening close : List Char} (hname : name ∈ listed.names)
    (hbefore : ∀ line ∈ linesWithFences before, ∀ other,
      openedName? line = some other → other ∉ listed.names)
    (hfence : fenceAfter none before = none) (hopen : Directive.openName? opening = some name)
    (hclose : strip close = Directive.closing name) {body₁ body₂ : List (List Char)}
    (hbodies : ∀ body ∈ [body₁, body₂], (∀ l ∈ body, strip l ≠ Directive.closing name) ∧
      ∀ l ∈ before ++ opening :: (body ++ close :: after), '\n' ∉ l)
    (hsame : fenceAfter none body₁ = fenceAfter none body₂) :
    ∃ further tail, ∀ body ∈ [body₁, body₂],
      setRegionsAside listed .empty (unlines (before ++ opening :: (body ++ close :: after))) =
        (⟨unlines (opening :: (body ++ [close])) :: further⟩,
          .ok (unlines
            (before ++ [] :: (indentation opening ++ placeholder 0) :: [] :: tail))) := by
  obtain ⟨further, tail, htail⟩ := setRegionsAsideFrom_uniform hnames
    (flaggedFrom (fenceAfter none body₁) after) 0 1
  refine ⟨further, tail, fun body hbody => ?_⟩
  have hfenced : fenceAfter none body = fenceAfter none body₁ := by
    rcases List.mem_pair.1 hbody with rfl | rfl
    · rfl
    · exact hsame.symm
  obtain ⟨hunclosed, hfeed⟩ := hbodies body hbody
  refine setRegionsAside_first hlisted hnames hname hbefore hfence hopen hclose hunclosed hfeed ?_
  rw [hfenced]
  exact htail ⟨[_]⟩ rfl

/-- A body with a block of its own, fence and all, and a body without any. -/
theorem continuation_independent_balanced :
    let opening := "\x7b\x7b#confluence-code\x7d\x7d".toList
    let close := "\x7b\x7b/confluence-code\x7d\x7d".toList
    let body₁ := ["```".toList, "\x7b\x7b#confluence-code\x7d\x7d".toList, "```".toList]
    let body₂ := [['x']]
    let after := [opening, ['y'], close]
    fenceAfter none body₁ = fenceAfter none body₂ ∧
      ∃ further tail, ∀ body ∈ [body₁, body₂],
        setRegionsAside ⟨["confluence-code".toList], false, false⟩ .empty
            (unlines ([] ++ opening :: (body ++ close :: after))) =
          (⟨unlines (opening :: (body ++ [close])) :: further⟩,
            .ok (unlines ([] ++ [] :: (indentation opening ++ placeholder 0) :: [] :: tail))) := by
  intro opening close body₁ body₂ after
  have hlisted : VerbatimNames.ofValue Options.standard.verbatim =
      .ok ⟨["confluence-code".toList], false, false⟩ := rfl
  have hsame : fenceAfter none body₁ = fenceAfter none body₂ := by decide
  exact ⟨hsame, continuation_independent hlisted rfl
    (List.mem_singleton.2 rfl) (fun _ hline => absurd hline List.not_mem_nil) rfl (by decide)
    (by decide) (by decide) hsame⟩

/-- A fence that nothing in the body closes reaches into the continuation: the region there is set
aside behind `x` and left to the reader behind three backticks. -/
theorem continuation_depends_on_body :
    let listed : VerbatimNames := ⟨["confluence-code".toList], false, false⟩
    let opening := "\x7b\x7b#confluence-code\x7d\x7d".toList
    let close := "\x7b\x7b/confluence-code\x7d\x7d".toList
    let region (body : String) : List Char := unlines [opening, body.toList, close]
    let source (body : String) : List Char := unlines [region body, region "y"]
    VerbatimNames.ofValue Options.standard.verbatim = .ok listed ∧
      setRegionsAside listed .empty (source "x") = (⟨[region "x", region "y"]⟩,
        .ok (unlines [[], placeholder 0, [], [], placeholder 1, []])) ∧
      setRegionsAside listed .empty (source "```") = (⟨[region "```"]⟩,
        .ok (unlines [[], placeholder 0, [], opening, ['y'], close])) := by
  refine ⟨rfl, ?_, ?_⟩ <;> decide +kernel

end StorageMarkup
