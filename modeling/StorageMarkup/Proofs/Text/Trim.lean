import StorageMarkup.Text.Space

/-!
# Trimming

What trimming takes off a text is white space at its two ends, and what it leaves
starts and ends with something else, if it leaves anything.

Results:
1. `exists_blank_strip`: a text is its trimmed form between two blanks.
2. `strip_eq`: the only text between two blanks that neither starts nor ends with
   white space is the trimmed form.
3. `infix_strip`: a stretch that neither starts nor ends with white space stays.
-/

namespace StorageMarkup

/-! ## Blanks -/

theorem isBlank_append (s t : List Char) : isBlank (s ++ t) = (isBlank s && isBlank t) :=
  List.all_append

theorem isBlank_cons (c : Char) (s : List Char) : isBlank (c :: s) = (isSpace c && isBlank s) :=
  List.all_cons

theorem isSpace_of_mem {s : List Char} (h : isBlank s = true) {c : Char} (hc : c ∈ s) :
    isSpace c = true :=
  List.all_eq_true.1 h c hc

/-- Neither end of the text is white space, and there is some text. -/
structure Capped (s : List Char) : Prop where
  starts : ∃ c rest, s = c :: rest ∧ isSpace c = false
  ends : ∃ rest c, s = rest ++ [c] ∧ isSpace c = false

namespace Capped

theorem of_all {s : List Char} (hne : s ≠ []) (h : ∀ c ∈ s, isSpace c = false) : Capped s where
  starts := by
    cases s with
    | nil => exact absurd rfl hne
    | cons c rest => exact ⟨c, rest, rfl, h c List.mem_cons_self⟩
  ends := by
    refine ⟨s.dropLast, s.getLast hne, (List.dropLast_concat_getLast hne).symm, ?_⟩
    exact h _ (List.getLast_mem hne)

theorem ne_nil {s : List Char} (h : Capped s) : s ≠ [] := by
  obtain ⟨c, rest, rfl, _⟩ := h.starts
  exact List.cons_ne_nil c rest

/-- Whatever stands between two capped texts. -/
theorem around {s t : List Char} (hs : Capped s) (ht : Capped t) (u : List Char) :
    Capped (s ++ u ++ t) where
  starts := by
    obtain ⟨c, rest, rfl, hc⟩ := hs.starts
    exact ⟨c, rest ++ u ++ t, rfl, hc⟩
  ends := by
    obtain ⟨rest, c, rfl, hc⟩ := ht.ends
    exact ⟨s ++ u ++ rest, c, (List.append_assoc _ _ _).symm, hc⟩

theorem append {s t : List Char} (hs : Capped s) (ht : Capped t) : Capped (s ++ t) := by
  have h := hs.around ht []
  rwa [List.append_nil] at h

theorem isBlank_eq_false {s : List Char} (h : Capped s) : isBlank s = false := by
  obtain ⟨c, rest, rfl, hc⟩ := h.starts
  rw [isBlank_cons, hc, Bool.false_and]

end Capped

/-! ## The left end -/

theorem stripLeft_cons_of_space {c : Char} (h : isSpace c = true) (s : List Char) :
    stripLeft (c :: s) = stripLeft s :=
  List.dropWhile_cons_of_pos h

theorem stripLeft_cons_of_not_space {c : Char} (h : isSpace c = false) (s : List Char) :
    stripLeft (c :: s) = c :: s :=
  List.dropWhile_cons_of_neg (by rw [h]; decide)

theorem stripLeft_blank_append {w : List Char} (h : isBlank w = true) (s : List Char) :
    stripLeft (w ++ s) = stripLeft s := by
  induction w with
  | nil => rfl
  | cons c w ih =>
    rw [isBlank_cons, Bool.and_eq_true] at h
    rw [List.cons_append, stripLeft_cons_of_space h.1, ih h.2]

theorem isBlank_indentation (s : List Char) : isBlank (indentation s) = true :=
  List.all_takeWhile

theorem indentation_append_stripLeft (s : List Char) : indentation s ++ stripLeft s = s :=
  List.takeWhile_append_dropWhile

/-- Dropping stops at the first character that is no white space. -/
theorem not_space_of_stripLeft {s rest : List Char} {c : Char} (h : stripLeft s = c :: rest) :
    isSpace c = false := by
  induction s with
  | nil => cases h
  | cons d s ih =>
    cases hd : isSpace d with
    | true => exact ih ((stripLeft_cons_of_space hd s).symm.trans h)
    | false =>
      rw [stripLeft_cons_of_not_space hd] at h
      rw [← (List.cons.inj h).1, hd]

/-- Before a character that is no white space, nothing but the text's own start is trimmed. -/
theorem stripLeft_append_cons {c : Char} (h : isSpace c = false) (s t : List Char) :
    stripLeft (s ++ c :: t) = stripLeft s ++ c :: t := by
  induction s with
  | nil => exact stripLeft_cons_of_not_space h t
  | cons d s ih =>
    cases hd : isSpace d with
    | true => rw [List.cons_append, stripLeft_cons_of_space hd, stripLeft_cons_of_space hd, ih]
    | false =>
      rw [List.cons_append, stripLeft_cons_of_not_space hd, stripLeft_cons_of_not_space hd,
        List.cons_append]

/-! ## The right end -/

theorem stripRight_cons_of_ne_nil {s : List Char} (h : stripRight s ≠ []) (c : Char) :
    stripRight (c :: s) = c :: stripRight s := by
  rw [stripRight]
  split
  · next hs => exact absurd hs h
  · rfl

theorem stripRight_cons_of_not_space {c : Char} (h : isSpace c = false) (s : List Char) :
    stripRight (c :: s) = c :: stripRight s := by
  rw [stripRight]
  split
  · next hs => rw [hs, h]; rfl
  · rfl

theorem stripRight_eq_nil_of_blank {s : List Char} (h : isBlank s = true) : stripRight s = [] := by
  induction s with
  | nil => rfl
  | cons c s ih =>
    rw [isBlank_cons, Bool.and_eq_true] at h
    rw [stripRight, ih h.2, h.1]
    rfl

theorem stripRight_append_blank {w : List Char} (h : isBlank w = true) (s : List Char) :
    stripRight (s ++ w) = stripRight s := by
  induction s with
  | nil => exact stripRight_eq_nil_of_blank h
  | cons c s ih => rw [List.cons_append, stripRight, ih, stripRight]

/-- After a character that is no white space, nothing but the text's own end is trimmed. -/
theorem stripRight_append_cons {c : Char} (h : isSpace c = false) (s t : List Char) :
    stripRight (s ++ c :: t) = s ++ c :: stripRight t := by
  induction s with
  | nil => exact stripRight_cons_of_not_space h t
  | cons d s ih =>
    have hne : stripRight (s ++ c :: t) ≠ [] := by
      rw [ih]
      simp
    rw [List.cons_append, stripRight_cons_of_ne_nil hne, ih, List.cons_append]

theorem exists_blank_stripRight (s : List Char) :
    ∃ w, isBlank w = true ∧ s = stripRight s ++ w := by
  induction s with
  | nil => exact ⟨[], rfl, rfl⟩
  | cons c s ih =>
    obtain ⟨w, hw, hs⟩ := ih
    by_cases hn : stripRight s = []
    · rw [hn, List.nil_append] at hs
      subst hs
      cases hc : isSpace c with
      | true =>
        refine ⟨c :: s, by rw [isBlank_cons, hc, hw]; rfl, ?_⟩
        rw [stripRight, hn, hc]
        rfl
      | false =>
        refine ⟨s, hw, ?_⟩
        rw [stripRight_cons_of_not_space hc, hn]
        rfl
    · refine ⟨w, hw, ?_⟩
      rw [stripRight_cons_of_ne_nil hn, List.cons_append, ← hs]

theorem isBlank_stripRight (s : List Char) : isBlank (stripRight s) = isBlank s := by
  obtain ⟨w, hw, hs⟩ := exists_blank_stripRight s
  have hsplit : isBlank s = isBlank (stripRight s ++ w) := congrArg isBlank hs
  rw [hsplit, isBlank_append, hw, Bool.and_true]

theorem mem_of_mem_stripRight {s : List Char} {c : Char} (h : c ∈ stripRight s) : c ∈ s := by
  obtain ⟨w, _, hs⟩ := exists_blank_stripRight s
  rw [hs]
  exact List.mem_append_left w h

theorem exists_last_stripRight {s : List Char} (h : stripRight s ≠ []) :
    ∃ rest c, stripRight s = rest ++ [c] ∧ isSpace c = false := by
  induction s with
  | nil => exact absurd rfl h
  | cons d s ih =>
    by_cases hn : stripRight s = []
    · cases hd : isSpace d with
      | true => exact absurd (by rw [stripRight, hn, hd]; rfl) h
      | false => exact ⟨[], d, by rw [stripRight_cons_of_not_space hd, hn]; rfl, hd⟩
    · obtain ⟨rest, c, hr, hc⟩ := ih hn
      exact ⟨d :: rest, c, by rw [stripRight_cons_of_ne_nil hn, hr]; rfl, hc⟩

/-! ## Both ends -/

theorem exists_blank_strip (s : List Char) :
    ∃ w w', isBlank w = true ∧ isBlank w' = true ∧ s = w ++ strip s ++ w' := by
  obtain ⟨w', hw', hs⟩ := exists_blank_stripRight (stripLeft s)
  refine ⟨indentation s, w', isBlank_indentation s, hw', ?_⟩
  rw [strip, List.append_assoc, ← hs, indentation_append_stripLeft]

theorem strip_infix_self (s : List Char) : strip s <:+: s := by
  obtain ⟨w, w', _, _, hs⟩ := exists_blank_strip s
  exact ⟨w, w', hs.symm⟩

theorem strip_blank_append {w : List Char} (h : isBlank w = true) (s : List Char) :
    strip (w ++ s) = strip s := by
  rw [strip, stripLeft_blank_append h, strip]

theorem strip_append_blank {w : List Char} (h : isBlank w = true) (s : List Char) :
    strip (s ++ w) = strip s := by
  induction s with
  | nil =>
    have := strip_blank_append h []
    rwa [List.append_nil] at this
  | cons c s ih =>
    cases hc : isSpace c with
    | true =>
      have hb : isBlank [c] = true := by rw [isBlank_cons, hc]; rfl
      rw [List.cons_append, ← List.singleton_append, strip_blank_append hb, ih,
        ← strip_blank_append hb s, List.singleton_append]
    | false =>
      rw [List.cons_append, strip, stripLeft_cons_of_not_space hc, ← List.cons_append,
        stripRight_append_blank h, strip, stripLeft_cons_of_not_space hc]

theorem Capped.strip {s : List Char} (h : Capped s) : strip s = s := by
  obtain ⟨c, rest, hs, hc⟩ := h.starts
  obtain ⟨init, d, hs', hd⟩ := h.ends
  have hl : stripLeft s = s := by
    rw [hs]
    exact stripLeft_cons_of_not_space hc rest
  rw [StorageMarkup.strip, hl, hs', stripRight_append_cons hd, stripRight]

/-- The trimmed form is known by what stands between two blanks. -/
theorem strip_eq {w t w' : List Char} (hw : isBlank w = true) (hw' : isBlank w' = true)
    (ht : Capped t) : strip (w ++ t ++ w') = t := by
  rw [strip_append_blank hw', strip_blank_append hw, ht.strip]

theorem capped_strip {s : List Char} (h : strip s ≠ []) : Capped (strip s) where
  starts := by
    obtain ⟨w, _, hs⟩ := exists_blank_stripRight (stripLeft s)
    cases hc : strip s with
    | nil => exact absurd hc h
    | cons c rest =>
      rw [strip] at hc
      rw [hc, List.cons_append] at hs
      exact ⟨c, rest, rfl, not_space_of_stripLeft hs⟩
  ends := exists_last_stripRight h

theorem strip_ne_nil {s : List Char} (h : isBlank s = false) : strip s ≠ [] := by
  obtain ⟨w, w', hw, hw', hs⟩ := exists_blank_strip s
  intro hnil
  rw [hs, hnil, List.append_nil, isBlank_append, hw, hw'] at h
  cases h

theorem strip_strip (s : List Char) : strip (strip s) = strip s := by
  by_cases h : strip s = []
  · rw [h]
    rfl
  · exact (capped_strip h).strip

/-- Around a stretch that is capped, trimming goes on at the far ends only. -/
theorem strip_append_capped {t : List Char} (ht : Capped t) (a b : List Char) :
    strip (a ++ t ++ b) = stripLeft a ++ t ++ stripRight b := by
  obtain ⟨c, rest, hc, hsc⟩ := ht.starts
  obtain ⟨init, d, hd, hsd⟩ := ht.ends
  have hl : stripLeft (a ++ t ++ b) = stripLeft a ++ t ++ b := by
    rw [hc, List.append_assoc, List.cons_append, stripLeft_append_cons hsc, List.append_assoc,
      List.cons_append]
  rw [strip, hl, hd, ← List.append_assoc, List.append_assoc, List.singleton_append,
    stripRight_append_cons hsd, ← List.singleton_append, List.append_assoc, List.append_assoc,
    List.append_assoc]

theorem infix_strip {t s : List Char} (ht : Capped t) (h : t <:+: s) : t <:+: strip s := by
  obtain ⟨a, b, rfl⟩ := h
  exact ⟨stripLeft a, stripRight b, (strip_append_capped ht a b).symm⟩

theorem infix_stripRight {t s : List Char} (ht : Capped t) (h : t <:+: s) :
    t <:+: stripRight s := by
  obtain ⟨a, b, rfl⟩ := h
  obtain ⟨init, d, rfl, hd⟩ := ht.ends
  refine ⟨a, stripRight b, ?_⟩
  rw [← List.append_assoc, List.append_assoc (a ++ init), List.append_assoc (a ++ init),
    List.singleton_append, List.singleton_append, stripRight_append_cons hd]

theorem mem_of_mem_strip {s : List Char} {c : Char} (h : c ∈ strip s) : c ∈ s :=
  (strip_infix_self s).subset h

end StorageMarkup
