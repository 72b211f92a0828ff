import StorageMarkup.Html.Reference
import StorageMarkup.Proofs.Text.Escape
import StorageMarkup.Proofs.Text.Runs

/-!
# Escaping undone

Each character is written as itself or as a reference to it, and an ampersand never as
itself, so a reader finds the written references and no others.

Results:
1. `spell_scan_escaped`: resolving references undoes any such way of writing.
2. `decode_escapeText`, `decodeValue_escapeQuoted`: texts and attribute values.
3. `foldBlankRuns_escapeText`: a text without blank runs is written without them.
-/

namespace StorageMarkup

open Html

variable {c d : Char} {s w : List Char}

namespace Html

/-- What is written for one character: the character, or a reference to it. -/
inductive Spells (c : Char) : List Char → Prop
  | plain (h : c ≠ '&') : Spells c [c]
  | reference {r : List Char} (hr : ∀ d ∈ r, (d.isAlphanum || d = '#') = true)
      (hc : charOfReference? r = some c) : Spells c ('&' :: (r ++ [';']))

theorem readReference_of_ne (h : c ≠ '&') (s : List Char) : readReference (c :: s) = none := by
  unfold readReference
  split
  · next he => exact absurd (List.cons.inj he).1 h
  · rfl

theorem readReference_reference {r : List Char}
    (hr : ∀ d ∈ r, (d.isAlphanum || d = '#') = true) (hc : charOfReference? r = some c)
    (s : List Char) : readReference ('&' :: (r ++ ';' :: s)) = some (c, r.length + 1) := by
  have hstop : (';'.isAlphanum || ';' = '#') = false := by decide
  rw [readReference]
  simp only [takeWhile_append_stop hr hstop, dropWhile_append_stop hr hstop, hc, Option.map_some]

/-- The scan comes out of what is written for a character right behind it. -/
theorem scan_spells (h : Spells c w) (s : List Char) :
    scan readReference (w ++ s) = .char c :: scan readReference s ∨
      w ≠ [c] ∧ scan readReference (w ++ s) = .hit c :: scan readReference s := by
  cases h with
  | plain h => exact .inl (scan_char (readReference_of_ne h s))
  | @reference r hr hc =>
    refine .inr ⟨by simp, ?_⟩
    rw [List.cons_append, List.append_assoc, List.singleton_append,
      scan_hit (readReference_reference hr hc s), List.append_cons, List.drop_left' (by simp)]

/-- Resolving the references of a text that is written character by character gives the text. -/
theorem spell_scan_escaped {write escape : Char → List Char} (hescape : ∀ c, Spells c (escape c))
    (hwrite : ∀ c, escape c ≠ [c] → write c = [c]) (s : List Char) :
    spell write (scan readReference (s.flatMap escape)) = s := by
  induction s with
  | nil => rfl
  | cons c s ih =>
    rw [List.flatMap_cons]
    rcases scan_spells (hescape c) (s.flatMap escape) with hscan | ⟨hne, hscan⟩
    · rw [hscan, spell, ih]
    · rw [hscan, spell, hwrite c hne, ih]
      rfl

end Html

/-! ## Texts -/

theorem spells_escapeTextChar (c : Char) : Spells c (escapeTextChar c) := by
  unfold escapeTextChar
  split
  · next h => exact h ▸ .reference (r := "amp".toList) (by decide) (by decide)
  split
  · next h => exact h ▸ .reference (r := "lt".toList) (by decide) (by decide)
  split
  · next h => exact h ▸ .reference (r := "gt".toList) (by decide) (by decide)
  · next h _ _ => exact .plain h

theorem decode_escapeText (s : List Char) : decode (escapeText s) = s :=
  spell_scan_escaped spells_escapeTextChar (fun _ _ => rfl) s

/-- No tag starts in a written text. -/
theorem lt_not_mem_escapeText (s : List Char) : '<' ∉ escapeText s := by
  intro h
  obtain ⟨c, -, hc⟩ := List.mem_flatMap.1 h
  rcases mem_escapeTextChar hc with hin | ⟨rfl, hout⟩
  · exact absurd hin (by decide)
  · exact hout (by decide)

/-! ## Attribute values -/

theorem spells_escapeQuotedChar (c : Char) : Spells c (escapeQuotedChar c) := by
  unfold escapeQuotedChar
  split
  · next h => exact h ▸ .reference (r := "quot".toList) (by decide) (by decide)
  split
  · next h => exact h ▸ .reference (r := "#x27".toList) (by decide) (by decide)
  · exact spells_escapeTextChar c

/-- Only characters of ASCII are written as references. -/
theorem isNoncharacter_of_escaped (h : escapeQuotedChar c ≠ [c]) : isNoncharacter c = false := by
  have hspecial : c ∈ "\"'&<>".toList :=
    Decidable.byContradiction fun hc => h (escapeQuotedChar_of_not_mem hc)
  exact (by decide : ∀ c ∈ "\"'&<>".toList, isNoncharacter c = false) c hspecial

theorem decodeValue_escapeQuoted (s : List Char) : decodeValue (escapeQuoted s) = s := by
  refine spell_scan_escaped spells_escapeQuotedChar (fun c hc => ?_) s
  rw [isNoncharacter_of_escaped hc]
  rfl

/-- No value is closed before its end. -/
theorem quote_not_mem_escapeQuoted (s : List Char) : '"' ∉ escapeQuoted s := by
  intro h
  obtain ⟨c, -, hc⟩ := List.mem_flatMap.1 h
  rcases mem_escapeQuotedChar hc with hin | ⟨rfl, hout⟩
  · exact absurd hin (by decide)
  · exact hout (by decide)

/-! ## Blank runs -/

theorem escapeTextChar_of_space (hc : isSpace c = true) : escapeTextChar c = [c] :=
  escapeTextChar_of_not_mem fun hm => by
    rw [(by decide : ∀ c ∈ "&<>".toList, isSpace c = false) c hm] at hc
    cases hc

/-- What is written for another character holds no white space. -/
theorem not_space_of_mem_escapeTextChar (hc : isSpace c = false) (hd : d ∈ escapeTextChar c) :
    isSpace d = false := by
  rcases mem_escapeTextChar hd with hin | ⟨rfl, -⟩
  · exact (by decide : ∀ d ∈ "&ampltg;".toList, isSpace d = false) d hin
  · exact hc

theorem takeWhile_isSpace_escapeText (s : List Char) :
    (escapeText s).takeWhile isSpace = s.takeWhile isSpace := by
  induction s with
  | nil => rfl
  | cons c s ih =>
    rw [escapeText, List.flatMap_cons, ← escapeText]
    cases hc : isSpace c with
    | true =>
      rw [escapeTextChar_of_space hc, List.singleton_append, List.takeWhile_cons_of_pos hc,
        List.takeWhile_cons_of_pos hc, ih]
    | false =>
      obtain ⟨d, w, hw⟩ := List.exists_cons_of_ne_nil (escapeTextChar_ne_nil c)
      have hd := not_space_of_mem_escapeTextChar hc (hw ▸ List.mem_cons_self)
      rw [hw, List.cons_append, List.takeWhile_cons_of_neg (by rw [hd]; decide),
        List.takeWhile_cons_of_neg (by rw [hc]; decide)]

/-- The text has no stretch of white space from one line feed to another. -/
def HasNoBlankRun (s : List Char) : Prop :=
  ∀ w, isBlank w = true → ¬ '\n' :: (w ++ ['\n']) <:+: s

theorem HasNoBlankRun.of_cons (h : HasNoBlankRun (c :: s)) : HasNoBlankRun s :=
  fun w hw hin => h w hw (hin.trans (List.suffix_cons c s).isInfix)

theorem HasNoBlankRun.readBlankRun (h : HasNoBlankRun ('\n' :: s)) :
    readBlankRun ('\n' :: escapeText s) = none := by
  rw [readBlankRun_newline, takeWhile_isSpace_escapeText, Option.map_eq_none_iff,
    throughLastNewline_eq_none]
  intro hfeed
  obtain ⟨u, t, hut⟩ := List.append_of_mem hfeed
  have hblank : ∀ d ∈ s.takeWhile isSpace, isSpace d = true :=
    List.all_eq_true.1 List.all_takeWhile
  rw [hut] at hblank
  refine h u (List.all_eq_true.2 fun d hd => hblank d (List.mem_append_left _ hd)) ?_
  have hprefix : u ++ ['\n'] <+: s := by
    refine List.IsPrefix.trans ⟨t, ?_⟩ (List.takeWhile_prefix isSpace)
    rw [hut, List.append_assoc, List.singleton_append]
  exact (List.cons_prefix_cons.2 ⟨rfl, hprefix⟩).isInfix

/-- A text without blank runs is written without them. -/
theorem foldBlankRuns_escapeText (h : HasNoBlankRun s) :
    foldBlankRuns (escapeText s) = escapeText s := by
  induction s with
  | nil => rfl
  | cons c s ih =>
    rw [escapeText, List.flatMap_cons, ← escapeText]
    by_cases hc : c = '\n'
    · subst hc
      have hchar : escapeTextChar '\n' = ['\n'] := by decide
      rw [hchar, List.singleton_append, foldBlankRuns, scan_char h.readBlankRun, spell,
        ← foldBlankRuns, ih h.of_cons]
    · have hline : '\n' ∉ escapeTextChar c := fun hm => by
        cases hs : isSpace c with
        | true =>
          rw [escapeTextChar_of_space hs] at hm
          exact hc (List.mem_singleton.1 hm).symm
        | false => exact absurd (not_space_of_mem_escapeTextChar hs hm) (by decide)
      rw [foldBlankRuns_append_of_not_mem hline, ih h.of_cons]

end StorageMarkup
