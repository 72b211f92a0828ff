import StorageMarkup.Directive.Token
import StorageMarkup.Proofs.Text.Scan
import StorageMarkup.Proofs.Text.Trim

/-!
# The shape of directives

Results:
1. `read_exact`: a directive is two braces, an inside without braces and two braces,
   and the lexicon recognises just that.
2. `openName?_eq_some`, `closeName?_eq_some`: the texts that open and close a block.
3. `eq_of_closing_infix`: a close token holds no close token of another name.
4. `not_infix_of_openName?`: an open token holds no start of a close token.
-/

namespace StorageMarkup.Directive

/-! ## Characters -/

theorem isBrace_eq_false {c : Char} : isBrace c = false ↔ c ≠ '{' ∧ c ≠ '}' := by
  simp [isBrace]

theorem isNameChar_eq_true {c : Char} :
    isNameChar c = true ↔ isSpace c = false ∧ isBrace c = false := by
  simp [isNameChar]

/-- A name is not empty and holds neither white space nor braces. -/
def IsName (name : List Char) : Prop := name ≠ [] ∧ ∀ c ∈ name, isNameChar c = true

theorem IsName.not_brace {name : List Char} (h : IsName name) {c : Char} (hc : c ∈ name) :
    isBrace c = false :=
  (isNameChar_eq_true.1 (h.2 c hc)).2

theorem IsName.not_mem {name : List Char} (h : IsName name) {c : Char} (hc : isBrace c = true) :
    c ∉ name := by
  intro hm
  rw [h.not_brace hm] at hc
  cases hc

/-! ## Tokens -/

/-- Two braces, an inside without braces, two braces. -/
def IsToken (s : List Char) : Prop :=
  ∃ inner, s = '{' :: '{' :: (inner ++ ['}', '}']) ∧ ∀ c ∈ inner, isBrace c = false

namespace IsToken

theorem ne_nil {s : List Char} (h : IsToken s) : s ≠ [] := by
  obtain ⟨inner, rfl, _⟩ := h
  exact List.cons_ne_nil _ _

theorem capped {s : List Char} (h : IsToken s) : Capped s := by
  obtain ⟨inner, rfl, _⟩ := h
  exact ⟨⟨'{', _, rfl, by decide⟩, ⟨'{' :: '{' :: (inner ++ ['}']), '}', by simp, by decide⟩⟩

end IsToken

/-- A token is read whole, whatever follows it. -/
theorem read_token {inner : List Char} (h : ∀ c ∈ inner, isBrace c = false) (s : List Char) :
    read ('{' :: '{' :: (inner ++ ['}', '}'] ++ s)) =
      some ('{' :: '{' :: (inner ++ ['}', '}']), inner.length + 3) := by
  have hs : inner ++ ['}', '}'] ++ s = inner ++ '}' :: '}' :: s := by simp
  have hin : ∀ c ∈ inner, (!isBrace c) = true := fun c hc => by rw [h c hc]; rfl
  have hstop : (!isBrace '}') = false := by decide
  rw [hs, read]
  simp only [takeWhile_append_stop hin hstop, dropWhile_append_stop hin hstop]
  rfl

theorem read_eq_some {s token : List Char} {more : Nat} (h : read s = some (token, more)) :
    IsToken token ∧ token <+: s ∧ token.length = more + 1 := by
  unfold read at h
  split at h
  · next rest =>
    simp only at h
    split at h
    · next after hd =>
      simp only [Option.some.injEq, Prod.mk.injEq] at h
      obtain ⟨rfl, rfl⟩ := h
      have hin : ∀ c ∈ rest.takeWhile (!isBrace ·), isBrace c = false := by
        intro c hc
        have := List.all_eq_true.1 (List.all_takeWhile (p := (!isBrace ·)) (l := rest)) c hc
        simpa using this
      refine ⟨⟨_, rfl, hin⟩, ⟨after, ?_⟩, by simp⟩
      have hrest := List.takeWhile_append_dropWhile (p := (!isBrace ·)) (l := rest)
      rw [hd] at hrest
      simp [hrest]
    · cases h
  · cases h

/-- The lexicon recognises exactly the tokens. -/
theorem read_exact : Exact read (fun token => token) IsToken where
  read_eq_some {s token more} := by
    constructor
    · exact read_eq_some
    · rintro ⟨⟨inner, rfl, hin⟩, ⟨rest, rfl⟩, hlen⟩
      have hm : more = inner.length + 3 := by
        simp at hlen
        omega
      rw [hm, ← read_token hin rest]
      rfl

theorem split_token {token : List Char} (h : IsToken token) (s : List Char) :
    split (token ++ s) = .hit token :: split s :=
  read_exact.scan_written h h.ne_nil s

theorem split_char {c : Char} (hc : isBrace c = false) (s : List Char) :
    split (c :: s) = .char c :: split s := by
  have hne : c ≠ '{' := (isBrace_eq_false.1 hc).1
  refine scan_char ?_
  rw [read]
  intro rest he
  exact hne (List.cons.inj he).1

/-! ## Block tokens -/

theorem inside?_eq_some {s inner : List Char} :
    inside? s = some inner ↔ s = '{' :: '{' :: (inner ++ ['}', '}']) ∧ '}' ∉ inner := by
  constructor
  · intro h
    unfold inside? at h
    split at h
    · next rest =>
      simp only at h
      split at h
      · next hd =>
        cases h
        refine ⟨?_, fun hm => ?_⟩
        · rw [← hd, List.takeWhile_append_dropWhile]
        · have hall := List.all_takeWhile (p := (decide <| · ≠ '}')) (l := rest)
          exact absurd (List.all_eq_true.1 hall _ hm) (by decide)
      · cases h
    · cases h
  · rintro ⟨rfl, hn⟩
    have hpos : ∀ c ∈ inner, decide (c ≠ '}') = true := fun c hc =>
      decide_eq_true fun he => hn (he ▸ hc)
    rw [inside?]
    simp only [List.takeWhile_append_of_pos hpos, List.dropWhile_append_of_pos hpos]
    simp

theorem leadingName?_eq_some {inner name : List Char} :
    leadingName? inner = some name ↔
      name = inner.takeWhile isNameChar ∧ name ≠ [] ∧ ∀ c ∈ inner, isBrace c = false := by
  unfold leadingName?
  simp only
  split
  · next h =>
    constructor
    · exact fun he => nomatch he
    rintro ⟨rfl, hne, hin⟩
    rw [Bool.or_eq_true, List.isEmpty_iff, List.any_eq_true] at h
    rcases h with h | ⟨c, hc, hb⟩
    · exact absurd h hne
    · rw [hin c hc] at hb
      cases hb
  · next h =>
    rw [Bool.or_eq_true, List.isEmpty_iff, List.any_eq_true, not_or] at h
    constructor
    · intro he
      cases he
      exact ⟨rfl, h.1, fun c hc => Bool.eq_false_iff.2 fun hb => h.2 ⟨c, hc, hb⟩⟩
    · rintro ⟨rfl, _, _⟩
      rfl

theorem soleName?_eq_some {inner name : List Char} :
    soleName? inner = some name ↔ inner = name ∧ IsName name := by
  unfold soleName?
  split
  · next h =>
    constructor
    · exact fun he => nomatch he
    rintro ⟨rfl, hne, hall⟩
    rw [Bool.or_eq_true, List.isEmpty_iff, Bool.not_eq_true'] at h
    rcases h with h | h
    · exact absurd h hne
    · rw [List.all_eq_true.2 hall] at h
      cases h
  · next h =>
    rw [Bool.or_eq_true, List.isEmpty_iff, Bool.not_eq_true', not_or, Bool.not_eq_false] at h
    constructor
    · intro he
      cases he
      exact ⟨rfl, h.1, List.all_eq_true.1 h.2⟩
    · rintro ⟨rfl, _⟩
      rfl

/-- An open token: the mark, then an inside without braces that starts with the name. -/
theorem openName?_eq_some {s name : List Char} :
    openName? s = some name ↔
      ∃ inner, strip s = '{' :: '{' :: '#' :: (inner ++ ['}', '}']) ∧
        (∀ c ∈ inner, isBrace c = false) ∧ name = inner.takeWhile isNameChar ∧ name ≠ [] := by
  unfold openName?
  constructor
  · intro h
    split at h
    · next inner hi =>
      obtain ⟨hs, _⟩ := inside?_eq_some.1 hi
      obtain ⟨hn, hne, hin⟩ := leadingName?_eq_some.1 h
      exact ⟨inner, hs, hin, hn, hne⟩
    · cases h
  · rintro ⟨inner, hs, hin, hn, hne⟩
    have hi : inside? (strip s) = some ('#' :: inner) := by
      refine inside?_eq_some.2 ⟨hs, fun hm => ?_⟩
      rcases List.mem_cons.1 hm with hm | hm
      · exact absurd hm (by decide)
      · exact absurd (hin _ hm) (by decide)
    rw [hi]
    exact leadingName?_eq_some.2 ⟨hn, hne, hin⟩

theorem closing_eq (name : List Char) : closing name = '{' :: '{' :: '/' :: (name ++ ['}', '}']) :=
  rfl

/-- A close token is the token written for a name. -/
theorem closeName?_eq_some {s name : List Char} :
    closeName? s = some name ↔ strip s = closing name ∧ IsName name := by
  unfold closeName?
  constructor
  · intro h
    split at h
    · next inner hi =>
      obtain ⟨hs, _⟩ := inside?_eq_some.1 hi
      obtain ⟨rfl, hn⟩ := soleName?_eq_some.1 h
      exact ⟨hs, hn⟩
    · cases h
  · rintro ⟨hs, hn⟩
    have hi : inside? (strip s) = some ('/' :: name) := by
      refine inside?_eq_some.2 ⟨hs, fun hm => ?_⟩
      rcases List.mem_cons.1 hm with hm | hm
      · exact absurd hm (by decide)
      · exact hn.not_mem (by decide) hm
    rw [hi]
    exact soleName?_eq_some.2 ⟨rfl, hn⟩

theorem isName_of_openName? {s name : List Char} (h : openName? s = some name) : IsName name := by
  obtain ⟨inner, _, _, rfl, hne⟩ := openName?_eq_some.1 h
  exact ⟨hne, List.all_eq_true.1 List.all_takeWhile⟩

theorem isToken_of_openName? {s name : List Char} (h : openName? s = some name) :
    IsToken (strip s) := by
  obtain ⟨inner, hs, hinner, -, -⟩ := openName?_eq_some.1 h
  exact ⟨'#' :: inner, hs, List.forall_mem_cons.2 ⟨by decide, hinner⟩⟩

theorem openName?_strip (s : List Char) : openName? (strip s) = openName? s := by
  rw [openName?, strip_strip, openName?]

theorem closeName?_strip (s : List Char) : closeName? (strip s) = closeName? s := by
  rw [closeName?, strip_strip, closeName?]

theorem opening_infix_of_openName? {s name : List Char} (h : openName? s = some name) :
    "\x7b\x7b#".toList <:+: s := by
  obtain ⟨inner, hs, -, -, -⟩ := openName?_eq_some.1 h
  have hstart : "\x7b\x7b#".toList <+: strip s := ⟨inner ++ ['}', '}'], hs.symm⟩
  exact hstart.isInfix.trans (strip_infix_self s)

/-- The name of an open token is a part of the token. -/
theorem mem_of_openName? {s name : List Char} (h : openName? s = some name) {c : Char}
    (hc : c ∈ name) : c ∈ s := by
  obtain ⟨inner, hs, _, rfl, _⟩ := openName?_eq_some.1 h
  refine mem_of_mem_strip ?_
  rw [hs]
  simp [(List.takeWhile_sublist _).subset hc]

/-! ## Close tokens in a text -/

theorem capped_closing (name : List Char) : Capped (closing name) where
  starts := ⟨'{', '{' :: '/' :: (name ++ ['}', '}']), rfl, by decide⟩
  ends := ⟨'{' :: '{' :: '/' :: (name ++ ['}']), '}', by simp [closing_eq], by decide⟩

theorem isToken_closing {name : List Char} (h : IsName name) : IsToken (closing name) :=
  ⟨'/' :: name, rfl, List.forall_mem_cons.2 ⟨by decide, fun _ hc => h.not_brace hc⟩⟩

theorem closeName?_closing {name : List Char} (h : IsName name) :
    closeName? (closing name) = some name :=
  closeName?_eq_some.2 ⟨(capped_closing name).strip, h⟩

theorem closing_injective {a b : List Char} (h : closing a = closing b) : a = b := by
  rw [closing_eq, closing_eq] at h
  simpa using h

theorem count_closing {name : List Char} (h : IsName name) {c : Char} (hc : isBrace c = true) :
    (closing name).count c = 2 := by
  have hn : name.count c = 0 := List.count_eq_zero.2 (h.not_mem hc)
  have hb : c = '{' ∨ c = '}' := by
    simpa [isBrace] using hc
  rw [closing_eq]
  rcases hb with rfl | rfl <;> simp [List.count_append, hn]

/-- A close token among blanks holds no close token but itself: there are no other braces. -/
theorem eq_of_closing_infix {a b s : List Char} (ha : IsName a) (hb : IsName b)
    (hs : strip s = closing b) (h : closing a <:+: s) : a = b := by
  obtain ⟨u, w, hu⟩ := infix_strip (capped_closing a) h
  rw [hs] at hu
  have hcount : ∀ c, isBrace c = true → c ∉ u ∧ c ∉ w := by
    intro c hc
    have := congrArg (List.count c) hu
    rw [List.count_append, List.count_append, count_closing ha hc, count_closing hb hc] at this
    constructor <;> (intro hm; have := List.count_pos_iff.2 hm; omega)
  have hu0 : u = [] := by
    cases u with
    | nil => rfl
    | cons c u =>
      rw [closing_eq b] at hu
      have hc : c = '{' := (List.cons.inj hu).1
      exact absurd (hc ▸ List.mem_cons_self) (hcount '{' rfl).1
  have hw0 : w = [] := by
    rcases List.eq_nil_or_concat w with hw | ⟨w, c, rfl⟩
    · exact hw
    · have hr := congrArg List.reverse hu
      simp [closing_eq] at hr
      exact absurd (by simp [hr.1]) (hcount '}' rfl).2
  rw [hu0, hw0, List.nil_append, List.append_nil] at hu
  exact closing_injective hu

/-- What every close token starts with. -/
def closingStart : List Char := ['{', '{', '/']

theorem closingStart_infix_closing (name : List Char) : closingStart <:+: closing name :=
  ⟨[], name ++ ['}', '}'], rfl⟩

theorem closingStart_infix_of_closeName? {s name : List Char} (h : closeName? s = some name) :
    closingStart <:+: s := by
  obtain ⟨w, w', _, _, hs⟩ := exists_blank_strip s
  rw [(closeName?_eq_some.1 h).1] at hs
  rw [hs]
  exact (closingStart_infix_closing name).trans ⟨w, w', rfl⟩

theorem capped_closingStart : Capped closingStart where
  starts := ⟨'{', ['{', '/'], rfl, by decide⟩
  ends := ⟨['{', '{'], '/', rfl, by decide⟩

/-- An open token holds no start of a close token. -/
theorem not_infix_of_openName? {s name : List Char} (h : openName? s = some name) :
    ¬ closingStart <:+: s := by
  intro hi
  obtain ⟨inner, hs, hin, _, _⟩ := openName?_eq_some.1 h
  obtain ⟨u, w, hu⟩ := infix_strip capped_closingStart hi
  rw [hs] at hu
  -- the braces of the token come in two pairs, and the first is followed by the other mark
  match u, hu with
  | [], hu => simp [closingStart] at hu
  | [a], hu => simp [closingStart] at hu
  | a :: b :: u, hu =>
    have hc := congrArg (List.count '{') hu
    have hn : inner.count '{' = 0 :=
      List.count_eq_zero.2 fun hm => absurd (hin _ hm) (by decide)
    simp only [closingStart, List.cons_append, List.cons.injEq] at hu
    obtain ⟨rfl, rfl, hu⟩ := hu
    have := congrArg (List.count '{') hu
    simp [List.count_append, hn] at this

end StorageMarkup.Directive
