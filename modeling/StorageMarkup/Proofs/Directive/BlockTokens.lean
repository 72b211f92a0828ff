import StorageMarkup.Proofs.Directive.ReadBack
import StorageMarkup.Tree.Marker

/-!
# Block tokens

One recogniser tells block tokens by their braces and their mark, and two give the names of open
and of close tokens. What has a name is a block token, and the only directive of its text. The
converse holds of no text with a brace of its own between the braces, and neither where white space
stands before the name of an open token or anywhere in a close token.

Results:
1. `isOpenOrClose_eq_true`: the texts that are taken for block tokens.
2. `isSome_openName?`, `isSome_closeName?`: those among them that have a name.
3. `recognisers_agree`: where the recognisers agree.
4. `recognisers_disagree`: texts that are taken for block tokens and have no name.
-/

namespace StorageMarkup

namespace Directive

variable {mark : Char} {inner s : List Char}

/-- A mark and some text between doubled braces, with no brace that would end it early. -/
structure IsBlockText (mark : Char) (inner s : List Char) : Prop where
  text : strip s = '{' :: '{' :: mark :: (inner ++ ['}', '}'])
  marked : mark = '#' ∨ mark = '/'
  ne_nil : inner ≠ []
  unended : '}' ∉ inner

/-- An open token starts with its name, a close token is a name and nothing else. -/
inductive IsNamed : Char → List Char → Prop
  | opening {inner : List Char} (h : ∀ c ∈ inner.head?, isSpace c = false) : IsNamed '#' inner
  | closing {inner : List Char} (h : ∀ c ∈ inner, isSpace c = false) : IsNamed '/' inner

theorem isOpenOrClose_eq_true :
    isOpenOrClose s = true ↔ ∃ mark inner, IsBlockText mark inner s := by
  unfold isOpenOrClose
  constructor
  · intro h
    split at h
    · next mark inner hi =>
      obtain ⟨hs, hend⟩ := inside?_eq_some.1 hi
      rw [Bool.and_eq_true, Bool.or_eq_true, beq_iff_eq, beq_iff_eq] at h
      refine ⟨mark, inner, hs, h.1, ?_, fun hm => hend (List.mem_cons_of_mem mark hm)⟩
      rintro rfl
      exact absurd h.2 (by decide)
    · cases h
  · rintro ⟨mark, inner, hs, hmark, hne, hend⟩
    have hi : inside? (strip s) = some (mark :: inner) := by
      refine inside?_eq_some.2 ⟨hs, fun hm => ?_⟩
      rcases List.mem_cons.1 hm with rfl | hm
      · exact absurd hmark (by decide)
      · exact hend hm
    rw [hi]
    simp only [Bool.and_eq_true, Bool.or_eq_true, beq_iff_eq, Bool.not_eq_true',
      List.isEmpty_eq_false_iff]
    exact ⟨hmark, hne⟩

namespace IsBlockText

theorem unbraced_iff (h : IsBlockText mark inner s) : Unbraced inner ↔ '{' ∉ inner := by
  simp only [Unbraced, isBrace_eq_false]
  constructor
  · exact fun hinner hm => (hinner '{' hm).1 rfl
  · exact fun hopen c hc => ⟨fun he => hopen (he ▸ hc), fun he => h.unended (he ▸ hc)⟩

/-- A block token is the only directive of its text, unless it holds a brace. -/
theorem find_iff (h : IsBlockText mark inner s) :
    find (strip s) = [(0, strip s)] ↔ '{' ∉ inner := by
  have hmark : isBrace mark = false := by
    rcases h.marked with rfl | rfl <;> decide
  have htoken : IsToken ('{' :: '{' :: (mark :: inner ++ ['}', '}'])) ↔ Unbraced (mark :: inner) :=
    isToken_iff
  rw [find_eq_whole, h.text, ← h.unbraced_iff]
  exact htoken.trans (List.forall_mem_cons.trans (and_iff_right hmark))

end IsBlockText

/-! ## Names -/

theorem takeWhile_isNameChar_ne_nil (h : Unbraced inner) :
    inner.takeWhile isNameChar ≠ [] ↔ inner ≠ [] ∧ ∀ c ∈ inner.head?, isSpace c = false := by
  cases inner with
  | nil => simp
  | cons c inner =>
    have hc := h c List.mem_cons_self
    cases hspace : isSpace c <;> simp [isNameChar, hc, hspace]

theorem isSome_openName? : (openName? s).isSome ↔
    ∃ inner, IsBlockText '#' inner s ∧ '{' ∉ inner ∧ IsNamed '#' inner := by
  rw [Option.isSome_iff_exists]
  constructor
  · rintro ⟨name, h⟩
    obtain ⟨inner, hs, hinner, rfl, hne⟩ := openName?_eq_some.1 h
    obtain ⟨hne, hhead⟩ := (takeWhile_isNameChar_ne_nil hinner).1 hne
    have htext : IsBlockText '#' inner s :=
      ⟨hs, .inl rfl, hne, fun hm => absurd (hinner _ hm) (by decide)⟩
    exact ⟨inner, htext, htext.unbraced_iff.1 hinner, .opening hhead⟩
  · rintro ⟨inner, htext, hopen, hnamed⟩
    cases hnamed with
    | opening hhead =>
      have hinner := htext.unbraced_iff.2 hopen
      exact ⟨_, openName?_eq_some.2 ⟨inner, htext.text, hinner, rfl,
        (takeWhile_isNameChar_ne_nil hinner).2 ⟨htext.ne_nil, hhead⟩⟩⟩

theorem isSome_closeName? : (closeName? s).isSome ↔
    ∃ inner, IsBlockText '/' inner s ∧ '{' ∉ inner ∧ IsNamed '/' inner := by
  rw [Option.isSome_iff_exists]
  constructor
  · rintro ⟨name, h⟩
    obtain ⟨hs, hname⟩ := closeName?_eq_some.1 h
    exact ⟨name, ⟨hs, .inr rfl, hname.1, hname.not_mem (by decide)⟩, hname.not_mem (by decide),
      .closing fun c hc => (isNameChar_eq_true.1 (hname.2 c hc)).1⟩
  · rintro ⟨inner, htext, hopen, hnamed⟩
    cases hnamed with
    | closing hspace =>
      have hinner := htext.unbraced_iff.2 hopen
      exact ⟨inner, closeName?_eq_some.2 ⟨htext.text, htext.ne_nil,
        fun c hc => isNameChar_eq_true.2 ⟨hspace c hc, hinner c hc⟩⟩⟩

/-- The texts that are known by a name are those block tokens that hold no brace and have one. -/
theorem named_iff (h : IsBlockText mark inner s) :
    ((openName? s).isSome ∨ (closeName? s).isSome) ↔ '{' ∉ inner ∧ IsNamed mark inner := by
  have hsame : ∀ {mark' inner'}, IsBlockText mark' inner' s → mark' = mark ∧ inner' = inner := by
    intro mark' inner' h'
    have he := h'.text.symm.trans h.text
    simpa using he
  rw [isSome_openName?, isSome_closeName?]
  constructor
  · rintro (⟨inner', htext, hnamed⟩ | ⟨inner', htext, hnamed⟩)
    · obtain ⟨rfl, rfl⟩ := hsame htext
      exact hnamed
    · obtain ⟨rfl, rfl⟩ := hsame htext
      exact hnamed
  · intro hnamed
    rcases h.marked with rfl | rfl
    · exact .inl ⟨inner, h, hnamed⟩
    · exact .inr ⟨inner, h, hnamed⟩

/-! ## Agreement -/

/-- An open or close token that has a name is taken for a block token, and is the only directive of
its text. A text that is taken for a block token has a name just in case it holds no brace of its
own, an open token starts with its name, and a close token is one word; and it is the only directive
of its text just in case it holds no brace. -/
theorem recognisers_agree (s : List Char) :
    ((openName? s).isSome ∨ (closeName? s).isSome →
      isOpenOrClose s = true ∧ find (strip s) = [(0, strip s)]) ∧
    (isOpenOrClose s = true ↔ ∃ mark inner, IsBlockText mark inner s) ∧
    ∀ mark inner, IsBlockText mark inner s →
      ((openName? s).isSome ∨ (closeName? s).isSome ↔ '{' ∉ inner ∧ IsNamed mark inner) ∧
      (find (strip s) = [(0, strip s)] ↔ '{' ∉ inner) := by
  refine ⟨fun hname => ?_, isOpenOrClose_eq_true, fun mark inner h => ⟨named_iff h, h.find_iff⟩⟩
  obtain ⟨mark, inner, htext⟩ : ∃ mark inner, IsBlockText mark inner s := by
    rcases hname with hopen | hclose
    · obtain ⟨inner, htext, -⟩ := isSome_openName?.1 hopen
      exact ⟨'#', inner, htext⟩
    · obtain ⟨inner, htext, -⟩ := isSome_closeName?.1 hclose
      exact ⟨'/', inner, htext⟩
  exact ⟨isOpenOrClose_eq_true.2 ⟨mark, inner, htext⟩,
    htext.find_iff.2 ((named_iff htext).1 hname).1⟩

/-- An open token between blanks, its parameters behind the name. -/
theorem recognisers_agree_parameters :
    let token := "\x7b\x7b#note title=\"a / b\"\x7d\x7d".toList
    let s := ' ' :: token ++ ['\n']
    (openName? s).isSome ∧ isOpenOrClose s = true ∧ find (strip s) = [(0, token)] := by
  intro token s
  have hname : (openName? s).isSome := by decide
  obtain ⟨hblock, hfind⟩ := (recognisers_agree s).1 (.inl hname)
  exact ⟨hname, hblock, hfind⟩

/-- Three texts that are taken for block tokens and have no name: one with a brace in it, which is
no directive at all, an open token with a blank before its name, and a close token of two words. A
paragraph of any of them is taken apart like one of block tokens. -/
theorem recognisers_disagree :
    let braced := "\x7b\x7b#a\x7b\x7d\x7d".toList
    let spaced := "\x7b\x7b# a\x7d\x7d".toList
    let words := "\x7b\x7b/a b\x7d\x7d".toList
    (∀ s ∈ [braced, spaced, words],
      isOpenOrClose s = true ∧ openName? s = none ∧ closeName? s = none ∧
        markersOf? none ['p'] [.text s] = some [s]) ∧
      find braced = [] := by
  decide

end Directive

end StorageMarkup
