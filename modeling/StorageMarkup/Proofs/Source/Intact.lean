import StorageMarkup.Proofs.Outcome
import StorageMarkup.Proofs.Vault.Ordered
import StorageMarkup.Source.Pass

/-!
# Sources keep placeholders whole

A source without start marks gets placeholders for its verbatim regions and for its
directives, and nothing takes them apart before the reader sees them.

Results:
1. `prepareSource_eq_ok`: what the passes over a source have made.
2. `setRegionsAsideFrom_cons_eq_ok`: what one step of setting regions aside does.
3. `prepareSource_ordered`: the vault of a source is in order and the source sent intact.
-/

namespace StorageMarkup

open Vault

variable {options : Options} {listed : VerbatimNames} {text source : List Char}

theorem prepareSource_eq_ok {v : Vault} (h : prepareSource options text = .ok (v, source)) :
    ∃ listed w regionless, VerbatimNames.ofValue options.verbatim = .ok listed ∧
      setRegionsAside listed .empty text = (w, .ok regionless) ∧
      w.shield (setLinesApart regionless) = (v, source) := by
  unfold prepareSource at h
  obtain ⟨listed, hlisted, h⟩ := bind_eq_ok.1 h
  generalize hset : setRegionsAside listed .empty text = set at h
  obtain ⟨w, regionless⟩ := set
  obtain ⟨t, ht, h⟩ := bind_eq_ok.1 h
  have hregionless : regionless = .ok t := ht
  exact ⟨listed, w, t, hlisted, by rw [hset, hregionless], pure_eq_ok.1 h⟩

/-! ## Lines -/

theorem intact_unlines {known : Nat → Prop} {ls : List (List Char)}
    (h : ∀ l ∈ ls, Intact known l) : Intact known (unlines ls) := .joinWith (by decide) h

theorem mem_linesWithFences {ls : List (List Char)} {l : List Char × Bool}
    (h : l ∈ linesWithFences ls) : l.1 ∈ ls :=
  (List.of_mem_zip h).1

theorem lines_unmarked (h : startMark ∉ text) : ∀ l ∈ lines text, startMark ∉ l := by
  have hnone : Intact (fun _ => False) text := .of_free h
  exact fun l hl => (hnone.lines l hl).free

theorem unlines_unmarked {ls : List (List Char)} (h : ∀ l ∈ ls, startMark ∉ l) :
    startMark ∉ unlines ls :=
  (intact_unlines fun l hl => .of_free (h l hl)).free

theorem forall_setLinesApartFrom {P : List Char → Prop} (hempty : P []) {gap nonBlank : Bool}
    {ls : List (List Char × Bool)} (h : ∀ l ∈ ls, P l.1) :
    ∀ l ∈ setLinesApartFrom gap nonBlank ls, P l := by
  induction ls generalizing gap nonBlank with
  | nil => exact fun l hl => absurd hl List.not_mem_nil
  | cons line ls ih =>
    rw [List.forall_mem_cons] at h
    have hothers : ∀ l ∈ line.1 :: setLinesApartFrom (isDirectiveLine line) (!isBlank line.1) ls,
        P l := List.forall_mem_cons.2 ⟨h.1, ih h.2⟩
    rw [setLinesApartFrom]
    split
    · exact List.forall_mem_cons.2 ⟨hempty, hothers⟩
    · exact hothers

theorem Vault.Intact.setLinesApart {known : Nat → Prop} (h : Intact known text) :
    Intact known (StorageMarkup.setLinesApart text) :=
  intact_unlines (forall_setLinesApartFrom (.of_free List.not_mem_nil)
    fun l hl => h.lines l.1 (mem_linesWithFences hl))

/-! ## Verbatim regions -/

theorem mem_of_takeThroughClosing {name : List Char} {ls body : List (List Char)}
    (h : takeThroughClosing name ls = some body) : ∀ l ∈ body, l ∈ ls := by
  induction ls generalizing body with
  | nil => cases h
  | cons line ls ih =>
    rw [takeThroughClosing] at h
    split at h
    · cases h
      exact fun l hl => List.mem_singleton.1 hl ▸ List.mem_cons_self
    · obtain ⟨others, ho, rfl⟩ := Option.map_eq_some_iff.1 h
      intro l hl
      rcases List.mem_cons.1 hl with rfl | hl
      · exact List.mem_cons_self
      · exact List.mem_cons_of_mem _ (ih ho l hl)

theorem mem_of_regionAfter? {line : List Char × Bool} {rest body : List (List Char)}
    (h : regionAfter? listed line rest = .ok (some body)) : ∀ l ∈ body, l ∈ rest := by
  unfold regionAfter? at h
  split at h
  · split at h
    · exact mem_of_takeThroughClosing (Except.ok.inj h)
    · cases h
  · split at h <;> cases h

/-- Where a step succeeds, it deposits a region and passes its lines, or it keeps the line. -/
theorem setRegionsAsideFrom_cons_eq_ok {line : List Char × Bool} {rest : List (List Char × Bool)}
    {v w : Vault} {out : List (List Char)}
    (h : setRegionsAsideFrom listed v 0 (line :: rest) = (w, .ok out)) :
    (∃ body others, regionAfter? listed line (rest.map Prod.fst) = .ok (some body) ∧
      setRegionsAsideFrom listed (v.deposit (unlines (line.1 :: body))).1 body.length rest =
        (w, .ok others) ∧
      out = [] :: (indentation line.1 ++ (v.deposit (unlines (line.1 :: body))).2) ::
        [] :: others) ∨
      ∃ others, setRegionsAsideFrom listed v 0 rest = (w, .ok others) ∧
        out = line.1 :: others := by
  rw [setRegionsAsideFrom] at h
  split at h
  · cases h
  · next body hbody =>
    left
    generalize hr : setRegionsAsideFrom listed (v.deposit (unlines (line.1 :: body))).1
      body.length rest = r at h
    obtain ⟨w', others⟩ := r
    simp only [hr] at h
    cases others with
    | error e => cases h
    | ok others =>
      cases h
      exact ⟨body, others, hbody, hr, rfl⟩
  · right
    generalize hr : setRegionsAsideFrom listed v 0 rest = r at h
    obtain ⟨w', others⟩ := r
    cases others with
    | error e => cases h
    | ok others =>
      cases h
      exact ⟨others, rfl, rfl⟩

theorem setRegionsAside_eq_ok {v w : Vault} {regionless : List Char}
    (h : setRegionsAside listed v text = (w, .ok regionless)) :
    (∃ ls, setRegionsAsideFrom listed v 0 (linesWithFences (lines text)) = (w, .ok ls) ∧
      regionless = unlines ls) ∨ w = v ∧ regionless = text := by
  unfold setRegionsAside at h
  split at h
  · left
    generalize hr : setRegionsAsideFrom listed v 0 (linesWithFences (lines text)) = r at h
    obtain ⟨w', ls⟩ := r
    cases ls with
    | error e => cases h
    | ok ls =>
      cases h
      exact ⟨ls, rfl, rfl⟩
  · cases h
    exact .inr ⟨rfl, rfl⟩

/-- Setting regions aside puts unmarked texts into the vault and whole placeholders into the
lines. -/
theorem setRegionsAsideFrom_intact {ls : List (List Char × Bool)}
    (h : ∀ l ∈ ls, startMark ∉ l.1) : ∀ {skip : Nat} {v w : Vault} {out : List (List Char)},
      v.Ordered → setRegionsAsideFrom listed v skip ls = (w, .ok out) →
      w.Ordered ∧ v.Extends w ∧ ∀ l ∈ out, Intact (· < w.size) l := by
  induction ls with
  | nil =>
    intro skip v w out hv hset
    rw [setRegionsAsideFrom] at hset
    cases hset
    exact ⟨hv, .refl v, fun l hl => absurd hl List.not_mem_nil⟩
  | cons line rest ih =>
    rw [List.forall_mem_cons] at h
    intro skip v w out hv hset
    cases skip with
    | succ skip => exact ih h.2 hv hset
    | zero =>
      rcases setRegionsAsideFrom_cons_eq_ok hset with
        ⟨body, others, hbody, hr, rfl⟩ | ⟨others, hr, rfl⟩
      · have hregion : startMark ∉ unlines (line.1 :: body) := by
          refine unlines_unmarked (List.forall_mem_cons.2 ⟨h.1, fun l hl => ?_⟩)
          obtain ⟨l', hl', rfl⟩ := List.mem_map.1 (mem_of_regionAfter? hbody l hl)
          exact h.2 l' hl'
        -- the number in the line is known from the deposit on
        obtain ⟨hw, hgrow, hothers⟩ := ih h.2 (hv.deposit (.of_free hregion)) hr
        have hsize := hgrow.size_le
        rw [size_deposit] at hsize
        have hline : Intact (· < w.size) (indentation line.1 ++
            (v.deposit (unlines (line.1 :: body))).2) :=
          .append (.of_free (startMark_not_mem_blank (isBlank_indentation _)))
            (.placeholder (Nat.lt_of_lt_of_le (Nat.lt_succ_self _) hsize))
        refine ⟨hw, (deposit_extends _ _).trans hgrow, List.forall_mem_cons.2 ⟨?_, ?_⟩⟩
        · exact .of_free List.not_mem_nil
        · exact List.forall_mem_cons.2 ⟨hline,
            List.forall_mem_cons.2 ⟨.of_free List.not_mem_nil, hothers⟩⟩
      · obtain ⟨hw, hgrow, hothers⟩ := ih h.2 hv hr
        exact ⟨hw, hgrow, List.forall_mem_cons.2 ⟨.of_free h.1, hothers⟩⟩

theorem setRegionsAside_intact {w : Vault} {regionless : List Char} (h : startMark ∉ text)
    (hset : setRegionsAside listed .empty text = (w, .ok regionless)) :
    w.Ordered ∧ Intact (· < w.size) regionless := by
  rcases setRegionsAside_eq_ok hset with ⟨ls, hr, rfl⟩ | ⟨rfl, rfl⟩
  · have hlines : ∀ l ∈ linesWithFences (lines text), startMark ∉ l.1 := fun l hl =>
      lines_unmarked h l.1 (mem_linesWithFences hl)
    obtain ⟨hw, _, hls⟩ := setRegionsAsideFrom_intact hlines ordered_empty hr
    exact ⟨hw, intact_unlines hls⟩
  · exact ⟨ordered_empty, .of_free h⟩

/-- The vault of a source without start marks is in order, and the source sent is intact. -/
theorem prepareSource_ordered {v : Vault} (h : startMark ∉ text)
    (hprepared : prepareSource options text = .ok (v, source)) :
    v.Ordered ∧ Intact (· < v.size) source := by
  obtain ⟨listed, w, regionless, _, hset, hshield⟩ := prepareSource_eq_ok hprepared
  obtain ⟨hw, hregionless⟩ := setRegionsAside_intact h hset
  have hsource := Ordered.shield hregionless.setLinesApart hw (Nat.le_refl _)
  rw [hshield] at hsource
  exact hsource

end StorageMarkup
