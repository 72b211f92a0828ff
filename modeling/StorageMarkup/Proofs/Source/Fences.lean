import StorageMarkup.Proofs.Text.Scan
import StorageMarkup.Proofs.Text.Trim
import StorageMarkup.Source.Fence

/-!
# Fenced blocks

A fenced block starts at a line with a run of tildes or backticks, after three blanks at most, and
ends with the first line behind that has a run of the same character, at least as long, and nothing
else; where there is none, it reaches to the end. In markdown a run of backticks does not start a
block if there is another backtick behind it in its line: such a line holds code inside a paragraph.
The flags do not make this exception.

Results:
1. `Fence.ofLine?_eq_some`, `Fence.closedBy_eq_true`: the lines that start and end a block.
2. `fencing_iff`: the blocks of a list of lines determine the flags.
3. `fenced_follows_rule`: the flags are those of blocks that any run starts, and those of markdown
   just in case outside of its blocks there is no line with code that starts like a fence.
4. `fenced_breaks_rule`: a line with code that starts like a fence.
-/

namespace StorageMarkup

variable {mark : Char} {rest line last : List Char} {ls body : List (List Char)}
  {flags : List Bool} {fence : Fence}

namespace Fence

/-! ## Lines -/

/-- The line is the run of a fence, after at most three blanks and as long as it goes, and the
rest. -/
structure Leads (fence : Fence) (rest line : List Char) : Prop where
  marked : fence.mark = '`' ∨ fence.mark = '~'
  long : 3 ≤ fence.length
  whole : rest.head? ≠ some fence.mark
  written : ∃ indent ≤ 3, line =
    List.replicate indent ' ' ++ (List.replicate fence.length fence.mark ++ rest)

/-- The line starts like a fence, whatever stands behind the run. -/
def StartsLike (fence : Fence) (line : List Char) : Prop := ∃ rest, fence.Leads rest line

/-- The line starts a block. Behind backticks there may be no further one. -/
def Opens (fence : Fence) (line : List Char) : Prop :=
  ∃ rest, fence.Leads rest line ∧ (fence.mark = '`' → '`' ∉ rest)

/-- The line ends the block of a fence: a run as long as its own or longer, then white space. -/
def Closes (fence : Fence) (line : List Char) : Prop :=
  ∃ indent length trail, indent ≤ 3 ∧ fence.length ≤ length ∧ isBlank trail = true ∧
    line = List.replicate indent ' ' ++ (List.replicate length fence.mark ++ trail)

/-- The line starts with a run of backticks and has another one behind: code in a paragraph. -/
def HasTickBehind (line : List Char) : Prop :=
  ∃ fence rest, Leads fence rest line ∧ fence.mark = '`' ∧ '`' ∈ rest

section

variable (h : fence.Leads rest line)

include h

theorem Leads.not_space : isSpace fence.mark = false := by
  rcases h.marked with hmark | hmark <;> rw [hmark] <;> decide

theorem Leads.exists_succ : ∃ n, fence.length = n + 1 :=
  Nat.exists_eq_succ_of_ne_zero fun hzero => absurd h.long (by rw [hzero]; decide)

/-- What is left of a trimmed line behind its run. -/
theorem Leads.drop_strip : (strip line).drop fence.length = stripRight rest := by
  obtain ⟨indent, -, hline⟩ := h.written
  obtain ⟨n, hn⟩ := h.exists_succ
  have hblank : isBlank (List.replicate indent ' ') = true :=
    List.all_eq_true.2 fun c hc => by rw [(List.mem_replicate.1 hc).2]; decide
  have hleft : stripLeft (List.replicate fence.length fence.mark ++ rest) =
      List.replicate fence.length fence.mark ++ rest := by
    rw [hn, List.replicate_succ, List.cons_append, stripLeft_cons_of_not_space h.not_space]
  have hright : stripRight (List.replicate fence.length fence.mark ++ rest) =
      List.replicate fence.length fence.mark ++ stripRight rest := by
    rw [hn, List.replicate_succ', List.append_assoc, List.singleton_append,
      stripRight_append_cons h.not_space, List.append_assoc, List.singleton_append]
  rw [hline, strip_blank_append hblank, strip, hleft, hright,
    List.drop_left' List.length_replicate]

end

/-- The run that a line starts with, if it starts like a fence. -/
theorem ofLine?_eq_some : ofLine? line = some fence ↔ fence.StartsLike line := by
  constructor
  · intro h
    unfold ofLine? at h
    simp only at h
    split at h
    · cases h
    · next mark more hmore =>
      obtain ⟨⟨hindent, hmark, hlength⟩, he⟩ := Option.ite_none_right_eq_some.1 h
      cases he
      refine ⟨more.dropWhile (· = mark), hmark, hlength, head_dropWhile_ne mark more, _, hindent,
        ?_⟩
      have hline := eq_run_append ' ' line
      rw [hmore] at hline
      rw [List.replicate_succ, List.cons_append, ← eq_run_append mark more]
      exact hline
  · rintro ⟨rest, h⟩
    obtain ⟨indent, hindent, rfl⟩ := h.written
    obtain ⟨n, hn⟩ := h.exists_succ
    have hhead : (List.replicate fence.length fence.mark ++ rest).head? ≠ some ' ' := by
      rw [hn, List.replicate_succ]
      intro he
      have hspace := h.not_space
      rw [Option.some.inj he] at hspace
      exact absurd hspace (by decide)
    unfold ofLine?
    simp only [takeWhile_run hhead, dropWhile_run hhead, List.length_replicate]
    rw [hn, List.replicate_succ, List.cons_append]
    simp only [takeWhile_run h.whole, List.length_replicate]
    rw [if_pos ⟨hindent, h.marked, hn ▸ h.long⟩, ← hn]

theorem closedBy_eq_true (hfence : fence.Leads rest line) {l : List Char} :
    fence.closedBy l = true ↔ fence.Closes l := by
  unfold closedBy
  constructor
  · intro h
    split at h
    · next run hrun =>
      obtain ⟨trail, hl⟩ := ofLine?_eq_some.1 hrun
      rw [hl.drop_strip, isBlank_stripRight] at h
      simp only [Bool.and_eq_true, decide_eq_true_eq] at h
      obtain ⟨⟨hmark, hlength⟩, htrail⟩ := h
      obtain ⟨indent, hindent, hwritten⟩ := hl.written
      exact ⟨indent, run.length, trail, hindent, hlength, htrail, hmark ▸ hwritten⟩
    · cases h
  · rintro ⟨indent, length, trail, hindent, hlength, htrail, hl⟩
    have hwhole : trail.head? ≠ some fence.mark := by
      intro he
      have hspace := isSpace_of_mem htrail (List.mem_of_head? he)
      exact Bool.false_ne_true (hfence.not_space.symm.trans hspace)
    have hrun : Leads ⟨fence.mark, length⟩ trail l :=
      ⟨hfence.marked, Nat.le_trans hfence.long hlength, hwhole, indent, hindent, hl⟩
    rw [ofLine?_eq_some.2 ⟨trail, hrun⟩]
    simp only [Bool.and_eq_true, decide_eq_true_eq]
    exact ⟨⟨trivial, hlength⟩, by rw [hrun.drop_strip, isBlank_stripRight, htrail]⟩

/-- The run that starts a block: none of backticks with another one behind it. -/
def opener? (line : List Char) : Option Fence :=
  (ofLine? line).filter fun fence => fence.mark ≠ '`' || line.count '`' = fence.length

theorem Leads.count_mark (h : fence.Leads rest line) :
    line.count fence.mark = fence.length + rest.count fence.mark := by
  obtain ⟨indent, -, hline⟩ := h.written
  have hindent : (List.replicate indent ' ').count fence.mark = 0 := by
    rw [List.count_eq_zero]
    intro hm
    have hspace := h.not_space
    rw [(List.mem_replicate.1 hm).2] at hspace
    exact absurd hspace (by decide)
  rw [hline, List.count_append, List.count_append, hindent, List.count_replicate_self, Nat.zero_add]

theorem opener?_eq_some : opener? line = some fence ↔ fence.Opens line := by
  have hcount : ∀ {rest}, fence.Leads rest line → fence.mark = '`' →
      (line.count '`' = fence.length ↔ '`' ∉ rest) := by
    intro rest h hmark
    have := h.count_mark
    rw [hmark] at this
    rw [this, ← List.count_eq_zero]
    omega
  unfold opener?
  rw [Option.filter_eq_some_iff, ofLine?_eq_some]
  simp only [Bool.or_eq_true, decide_eq_true_eq]
  constructor
  · rintro ⟨⟨rest, h⟩, hticks⟩
    exact ⟨rest, h, fun hmark => (hcount h hmark).1 (hticks.resolve_left fun hne => hne hmark)⟩
  · rintro ⟨rest, h, hticks⟩
    by_cases hmark : fence.mark = '`'
    · exact ⟨⟨rest, h⟩, .inr ((hcount h hmark).2 (hticks hmark))⟩
    · exact ⟨⟨rest, h⟩, .inl hmark⟩

end Fence

/-! ## Blocks -/

/-- The flags of lines that are cut into blocks and what stands between them, `opens` telling the
lines that start a block. -/
inductive Fencing (opens : Fence → List Char → Prop) : List (List Char) → List Bool → Prop
  | nil : Fencing opens [] []
  | outside {line : List Char} {ls : List (List Char)} {flags : List Bool}
      (hline : ∀ fence, ¬ opens fence line) (h : Fencing opens ls flags) :
      Fencing opens (line :: ls) (false :: flags)
  | closed {fence : Fence} {line last : List Char} {body ls : List (List Char)} {flags : List Bool}
      (hline : opens fence line) (hbody : ∀ l ∈ body, ¬ fence.Closes l) (hlast : fence.Closes last)
      (h : Fencing opens ls flags) :
      Fencing opens (line :: (body ++ last :: ls))
        (true :: (List.replicate body.length true ++ true :: flags))
  | unclosed {fence : Fence} {line : List Char} {body : List (List Char)}
      (hline : opens fence line) (hbody : ∀ l ∈ body, ¬ fence.Closes l) :
      Fencing opens (line :: body) (true :: List.replicate body.length true)

/-- The flags of lines where `open?` tells the fence that a line opens. -/
def fencedBy (open? : List Char → Option Fence) : Option Fence → List (List Char) → List Bool
  | _, [] => []
  | none, line :: rest =>
    match open? line with
    | some fence => true :: fencedBy open? (some fence) rest
    | none => false :: fencedBy open? none rest
  | some fence, line :: rest =>
    true :: fencedBy open? (if fence.closedBy line then none else some fence) rest

theorem fencedBy_ofLine? (fence? : Option Fence) (ls : List (List Char)) :
    fencedBy Fence.ofLine? fence? ls = fencedFrom fence? ls := by
  induction ls generalizing fence? with
  | nil => cases fence? <;> rfl
  | cons line ls ih =>
    cases fence? with
    | none =>
      rw [fencedBy, fencedFrom]
      cases Fence.ofLine? line with
      | none => exact congrArg (false :: ·) (ih none)
      | some fence => exact congrArg (true :: ·) (ih (some fence))
    | some fence => rw [fencedBy, fencedFrom, ih]

section

variable {open? : List Char → Option Fence}

theorem fencedBy_opened (h : open? line = some fence) (ls : List (List Char)) :
    fencedBy open? none (line :: ls) = true :: fencedBy open? (some fence) ls := by
  rw [fencedBy, h]

theorem fencedBy_outside (h : open? line = none) (ls : List (List Char)) :
    fencedBy open? none (line :: ls) = false :: fencedBy open? none ls := by
  rw [fencedBy, h]

variable (hfence : fence.Leads rest line) (hbody : ∀ l ∈ body, ¬ fence.Closes l)

include hfence hbody

/-- Lines that do not close the block are in it. -/
theorem fencedBy_body (ls : List (List Char)) :
    fencedBy open? (some fence) (body ++ ls) =
      List.replicate body.length true ++ fencedBy open? (some fence) ls := by
  induction body with
  | nil => rfl
  | cons l body ih =>
    have hl : fence.closedBy l = false := by
      rw [Bool.eq_false_iff, ne_eq, Fence.closedBy_eq_true hfence]
      exact hbody l List.mem_cons_self
    rw [List.cons_append, fencedBy, hl, if_neg Bool.false_ne_true,
      ih fun l' hl' => hbody l' (List.mem_cons_of_mem l hl'), List.length_cons, List.replicate_succ,
      List.cons_append]

theorem fencedBy_unclosed :
    fencedBy open? (some fence) body = List.replicate body.length true := by
  have h : fencedBy open? (some fence) (body ++ []) = _ := fencedBy_body hfence hbody []
  rwa [List.append_nil, fencedBy, List.append_nil] at h

theorem fencedBy_closed (hlast : fence.Closes last) (ls : List (List Char)) :
    fencedBy open? (some fence) (body ++ last :: ls) =
      List.replicate body.length true ++ true :: fencedBy open? none ls := by
  rw [fencedBy_body hfence hbody, fencedBy, if_pos ((Fence.closedBy_eq_true hfence).2 hlast)]

end

/-- The first line that closes a fence, if there is one. -/
theorem exists_first_closing (fence : Fence) (ls : List (List Char)) :
    (∀ l ∈ ls, ¬ fence.Closes l) ∨ ∃ body last after, ls = body ++ last :: after ∧
      (∀ l ∈ body, ¬ fence.Closes l) ∧ fence.Closes last := by
  induction ls with
  | nil => exact .inl fun _ hl => absurd hl List.not_mem_nil
  | cons line ls ih =>
    by_cases hline : fence.Closes line
    · exact .inr ⟨[], line, ls, rfl, fun _ hl => absurd hl List.not_mem_nil, hline⟩
    · rcases ih with hnone | ⟨body, last, after, rfl, hbody, hlast⟩
      · exact .inl (List.forall_mem_cons.2 ⟨hline, hnone⟩)
      · exact .inr ⟨line :: body, last, after, rfl, List.forall_mem_cons.2 ⟨hline, hbody⟩, hlast⟩

section

variable {opens : Fence → List Char → Prop} {open? : List Char → Option Fence}
  (hopen : ∀ {fence line}, open? line = some fence ↔ opens fence line)
  (hstart : ∀ {fence line}, opens fence line → fence.StartsLike line)

include hopen hstart

theorem fencing_fencedBy : ∀ ls, Fencing opens ls (fencedBy open? none ls)
  | [] => .nil
  | line :: ls => by
    cases hline : open? line with
    | none =>
      rw [fencedBy_outside hline]
      exact .outside (fun fence h => by rw [hopen.2 h] at hline; cases hline) (fencing_fencedBy ls)
    | some fence =>
      obtain ⟨rest, hfence⟩ := hstart (hopen.1 hline)
      rw [fencedBy_opened hline]
      -- a block takes all its lines at once, so the recursion goes on behind it
      rcases exists_first_closing fence ls with hbody | ⟨body, last, after, hls, hbody, hlast⟩
      · rw [fencedBy_unclosed hfence hbody]
        exact .unclosed (hopen.1 hline) hbody
      · rw [hls, fencedBy_closed hfence hbody hlast]
        exact .closed (hopen.1 hline) hbody hlast (fencing_fencedBy after)
termination_by ls => ls.length
decreasing_by
  · simp
  · simp [hls]; omega

/-- The blocks determine the flags. -/
theorem fencing_iff : Fencing opens ls flags ↔ fencedBy open? none ls = flags := by
  constructor
  · intro h
    induction h with
    | nil => rfl
    | @outside line ls flags hline _ ih =>
      have hnone : open? line = none :=
        Option.eq_none_iff_forall_ne_some.2 fun fence he => hline fence (hopen.1 he)
      rw [fencedBy_outside hnone, ih]
    | closed hline hbody hlast _ ih =>
      obtain ⟨rest, hfence⟩ := hstart hline
      rw [fencedBy_opened (hopen.2 hline), fencedBy_closed hfence hbody hlast, ih]
    | unclosed hline hbody =>
      obtain ⟨rest, hfence⟩ := hstart hline
      rw [fencedBy_opened (hopen.2 hline), fencedBy_unclosed hfence hbody]
  · rintro rfl
    exact fencing_fencedBy hopen hstart ls

end

/-! ## The rule of markdown -/

theorem fencing_fenced (ls : List (List Char)) : Fencing Fence.StartsLike ls (fenced ls) := by
  rw [fenced, ← fencedBy_ofLine?]
  exact fencing_fencedBy Fence.ofLine?_eq_some id ls

theorem Fence.startsLike_of_opens (h : fence.Opens line) : fence.StartsLike line := by
  obtain ⟨rest, hleads, -⟩ := h
  exact ⟨rest, hleads⟩

theorem fencing_opens_iff :
    Fencing Fence.Opens ls flags ↔ fencedBy Fence.opener? none ls = flags :=
  fencing_iff Fence.opener?_eq_some Fence.startsLike_of_opens

/-- A line that starts like a fence and starts no block holds code. -/
theorem Fence.hasTickBehind_iff (h : ∀ fence, ¬ Fence.Opens fence line) :
    Fence.HasTickBehind line ↔ ∃ fence, Fence.StartsLike fence line := by
  constructor
  · rintro ⟨fence, rest, hleads, -, -⟩
    exact ⟨fence, rest, hleads⟩
  · rintro ⟨fence, rest, hleads⟩
    have hcode : ¬ (fence.mark = '`' → '`' ∉ rest) := fun hticks => h fence ⟨rest, hleads, hticks⟩
    rw [Classical.not_imp, Classical.not_not] at hcode
    exact ⟨fence, rest, hleads, hcode⟩

theorem not_mem_zip_replicate (line : List Char) (ls : List (List Char)) (n : Nat) :
    (line, false) ∉ ls.zip (List.replicate n true) := fun h =>
  Bool.false_ne_true (List.mem_replicate.1 (List.of_mem_zip h).2).2

/-- The flags are right where no line that markdown leaves outside of blocks starts like a fence. -/
theorem fenced_eq_iff (h : Fencing Fence.Opens ls flags) :
    fenced ls = flags ↔ ∀ line, (line, false) ∈ ls.zip flags → ¬ Fence.HasTickBehind line := by
  rw [fenced, ← fencedBy_ofLine?]
  induction h with
  | nil => simp [fencedBy]
  | @outside line ls flags hline _ ih =>
    rw [List.zip_cons_cons]
    cases hstart : Fence.ofLine? line with
    | none =>
      have hcode : ¬ Fence.HasTickBehind line := by
        rw [Fence.hasTickBehind_iff hline]
        rintro ⟨fence, hfence⟩
        rw [Fence.ofLine?_eq_some.2 hfence] at hstart
        cases hstart
      rw [fencedBy_outside hstart, List.cons_inj_right, ih]
      simp [hcode]
    | some fence =>
      have hcode : Fence.HasTickBehind line :=
        (Fence.hasTickBehind_iff hline).2 ⟨fence, Fence.ofLine?_eq_some.1 hstart⟩
      rw [fencedBy_opened hstart]
      simp [hcode]
  | @closed fence line last body ls flags hline hbody hlast _ ih =>
    obtain ⟨rest, hfence⟩ := Fence.startsLike_of_opens hline
    rw [fencedBy_opened (Fence.ofLine?_eq_some.2 ⟨rest, hfence⟩),
      fencedBy_closed hfence hbody hlast, List.cons_inj_right, List.append_cancel_left_eq,
      List.cons_inj_right, ih, List.zip_cons_cons, List.zip_append List.length_replicate.symm,
      List.zip_cons_cons]
    -- only the lines behind the block are without a flag
    simp [not_mem_zip_replicate]
  | @unclosed fence line body hline hbody =>
    obtain ⟨rest, hfence⟩ := Fence.startsLike_of_opens hline
    rw [fencedBy_opened (Fence.ofLine?_eq_some.2 ⟨rest, hfence⟩), fencedBy_unclosed hfence hbody,
      List.zip_cons_cons]
    simp [not_mem_zip_replicate]

/-- The flags tell the blocks that any run starts. They are those of markdown, where a run of
backticks with another one behind it starts none, just in case no line outside of the blocks of
markdown has such a run. -/
theorem fenced_follows_rule (ls : List (List Char)) :
    Fencing Fence.StartsLike ls (fenced ls) ∧
      ∃ flags, Fencing Fence.Opens ls flags ∧
        (∀ flags', Fencing Fence.Opens ls flags' → flags' = flags) ∧
        (fenced ls = flags ↔
          ∀ line, (line, false) ∈ ls.zip flags → ¬ Fence.HasTickBehind line) := by
  have hfencing : Fencing Fence.Opens ls (fencedBy Fence.opener? none ls) :=
    fencing_opens_iff.2 rfl
  exact ⟨fencing_fenced ls, _, hfencing, fun _ h => (fencing_opens_iff.1 h).symm,
    fenced_eq_iff hfencing⟩

/-- A line that starts with three backticks and has three more further on: markdown leaves it and
the line behind it outside of blocks, and both are flagged. -/
theorem fenced_breaks_rule :
    let ls := ["```a```".toList, "x".toList]
    Fencing Fence.Opens ls [false, false] ∧ fenced ls = [true, true] ∧
      ¬ Fencing Fence.Opens ls (fenced ls) := by
  intro ls
  rw [fencing_opens_iff, fencing_opens_iff]
  decide

end StorageMarkup
