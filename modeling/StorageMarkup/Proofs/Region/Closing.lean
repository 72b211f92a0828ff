import StorageMarkup.Proofs.Directive.Lexicon
import StorageMarkup.Proofs.Node.Each
import StorageMarkup.Proofs.Text.Search
import StorageMarkup.Proofs.Vault.Expansion
import StorageMarkup.Region

/-!
# The search for a close token

The search for the close token of one name passes every open marker and every close
marker of another name, and it takes a close marker of its own name away whole.

Results:
1. `cutFirstClosing_eq_none`: where the search finds nothing.
2. `takeClosing_of_opening`: an open marker holds no close token.
3. `takeClosing_of_closes`: a close marker holds the close token of its name and no other.
-/

namespace StorageMarkup

/-! ## Texts -/

theorem cutHit_eq_none {α : Type} {write : α → List Char} {wanted : α → Bool}
    {ps : List (Piece α)} :
    cutHit write wanted ps = none ↔ ∀ a, .hit a ∈ ps → wanted a = false := by
  induction ps with
  | nil => simp [cutHit]
  | cons p ps ih =>
    cases p with
    | char c => simp [cutHit, ih]
    | hit a =>
      cases ha : wanted a with
      | true => simp [cutHit, ha]
      | false => simp [cutHit, ha, ih]

/-- The pieces before and after the hit that is cut out spell the two sides of the cut. -/
theorem cutHit_eq_some {α : Type} {write : α → List Char} {wanted : α → Bool} {ps : List (Piece α)}
    {before after : List Char} (h : cutHit write wanted ps = some (before, after)) :
    ∃ front a back, ps = front ++ .hit a :: back ∧ wanted a = true ∧ before = spell write front ∧
      after = spell write back := by
  induction ps generalizing before with
  | nil => cases h
  | cons p ps ih =>
    cases p with
    | char c =>
      rw [cutHit] at h
      obtain ⟨⟨b, r⟩, hi, he⟩ := Option.map_eq_some_iff.1 h
      cases he
      obtain ⟨front, a, back, rfl, ha, rfl, rfl⟩ := ih hi
      exact ⟨.char c :: front, a, back, rfl, ha, rfl, rfl⟩
    | hit b =>
      rw [cutHit] at h
      split at h
      · next hb =>
        cases h
        exact ⟨[], b, ps, rfl, hb, rfl, rfl⟩
      · obtain ⟨⟨b', r⟩, hi, he⟩ := Option.map_eq_some_iff.1 h
        cases he
        obtain ⟨front, a, back, rfl, ha, rfl, rfl⟩ := ih hi
        exact ⟨.hit b :: front, a, back, rfl, ha, rfl, rfl⟩

/-- The characters before the first hit are on the near side of the cut. -/
theorem cutHit_chars {α : Type} {write : α → List Char} {wanted : α → Bool} {a : α}
    (ha : wanted a = true) (w : List Char) (ps : List (Piece α)) :
    cutHit write wanted (w.map .char ++ .hit a :: ps) = some (w, spell write ps) := by
  induction w with
  | nil => rw [List.map_nil, List.nil_append, cutHit, if_pos ha]
  | cons c w ih =>
    rw [List.map_cons, List.cons_append, cutHit, ih]
    rfl

namespace Region

variable {v : Option Vault}

/-- The text holds a close token for `name`, spelled out or set aside. -/
def HoldsClosing (v : Option Vault) (name s : List Char) : Prop :=
  Directive.closing name <:+: s ∨
    ∃ known e, v = some known ∧ .hit e ∈ known.split s ∧ Directive.closeName? e.original = some name

theorem cutClosingPlaceholder_eq_none {name s : List Char} :
    cutClosingPlaceholder v name s = none ↔
      ∀ known, v = some known → ∀ e, .hit e ∈ known.split s →
        Directive.closeName? e.original ≠ some name := by
  cases v with
  | none => simp [cutClosingPlaceholder]
  | some known => simp [cutClosingPlaceholder, cutHit_eq_none]

/-- The search comes back empty just where there is no close token. -/
theorem cutFirstClosing_eq_none {name s : List Char} :
    cutFirstClosing v name s = none ↔ ¬ HoldsClosing v name s := by
  have hboth : cutFirstClosing v name s = none ↔
      Directive.cutClosing name s = none ∧ cutClosingPlaceholder v name s = none := by
    unfold cutFirstClosing
    cases Directive.cutClosing name s with
    | none => simp
    | some cut =>
      cases cutClosingPlaceholder v name s with
      | none => simp
      | some cut' =>
        simp only
        split <;> simp
  rw [hboth, Directive.cutClosing, cutAt_eq_none, cutClosingPlaceholder_eq_none, HoldsClosing,
    not_or]
  refine and_congr_right fun _ => ⟨?_, ?_⟩
  · rintro h ⟨known, e, hv, he, hc⟩
    exact h known hv e he hc
  · intro h known hv e he hc
    exact h ⟨known, e, hv, he, hc⟩

/-- The token that is cut out is spelled out or set aside. -/
theorem cutFirstClosing_eq_some {name s : List Char} {cut : List Char × List Char}
    (h : cutFirstClosing v name s = some cut) :
    Directive.cutClosing name s = some cut ∨ cutClosingPlaceholder v name s = some cut := by
  unfold cutFirstClosing at h
  split at h
  · next hc hc' =>
    split at h
    · cases h
      exact .inr hc'
    · cases h
      exact .inl hc
  · next hc _ =>
    cases h
    exact .inl hc
  · exact .inr h

/-! ## Markers -/

/-- A text, or a paragraph around one. -/
inductive Says (s : List Char) : Node → Prop
  | text : Says s (.text s)
  | paragraph {tag : List Char} {attrs : Attributes} (h : isParagraph tag = true) :
      Says s (.element tag attrs [.text s])

theorem openingMarker?_eq_some {n : Node} {head name : List Char} :
    n.openingMarker? v = some (head, name) ↔
      ∃ s, Says s n ∧ strip (Vault.reveal v (strip s)) = head ∧
        Directive.openName? head = some name := by
  constructor
  · have hmap : ∀ {t : List Char}, (Directive.openName? (strip (Vault.reveal v t))).map
        (fun name => (strip (Vault.reveal v t), name)) = some (head, name) →
        strip (Vault.reveal v t) = head ∧ Directive.openName? head = some name := by
      intro t ht
      obtain ⟨name', hn, he⟩ := Option.map_eq_some_iff.1 ht
      cases he
      exact ⟨rfl, hn⟩
    intro h
    match n, h with
    | .text s, h => exact ⟨s, .text, hmap h⟩
    | .element tag attrs children, h =>
      cases hp : isParagraph tag with
      | false => simp [Node.openingMarker?, hp] at h
      | true =>
        simp only [Node.openingMarker?, hp] at h
        obtain ⟨t, ht, hh⟩ := Option.bind_eq_some_iff.1 h
        unfold Node.onlyText? at ht
        split at ht
        · next he => cases he
        · next s he =>
          cases he
          cases ht
          exact ⟨s, .paragraph hp, hmap hh⟩
        · cases ht
  · rintro ⟨s, hs, rfl, hn⟩
    cases hs with
    | text => simp [Node.openingMarker?, Node.onlyText?, hn]
    | paragraph hp => simp [Node.openingMarker?, Node.onlyText?, hn, hp]

/-- The text stands for no open token. -/
def StartsNoRegion (v : Option Vault) (s : List Char) : Prop :=
  Directive.openName? (Vault.reveal v (strip s)) = none

theorem openingMarker?_eq_none {E : List Char → Attributes → Prop} {n : Node}
    (h : n.Each (StartsNoRegion v) E) : n.openingMarker? v = none := by
  cases hm : n.openingMarker? v with
  | none => rfl
  | some marker =>
    obtain ⟨s, hs, hhead, hname⟩ := openingMarker?_eq_some.1 hm
    have hnone : StartsNoRegion v s := by
      cases hs with
      | text => exact h.of_text
      | paragraph _ => exact (h.of_element.2 _ List.mem_cons_self).of_text
    rw [← hhead, Directive.openName?_strip, hnone] at hname
    cases hname

/-- An open token spelled out. -/
theorem openingMarker?_of_spelled {n : Node} {s name : List Char} (hn : Says s n)
    (hfree : Vault.startMark ∉ s) (h : Directive.openName? s = some name) :
    n.openingMarker? v = some (strip s, name) := by
  have hreveal : Vault.reveal v (strip s) = strip s := by
    cases v with
    | none => rfl
    | some known => exact Vault.expand_eq_self fun hm => hfree (mem_of_mem_strip hm)
  refine openingMarker?_eq_some.2 ⟨s, hn, ?_, by rw [Directive.openName?_strip, h]⟩
  rw [hreveal, strip_strip]

/-- An open token set aside. -/
theorem openingMarker?_of_setAside {known : Vault} {n : Node} {s original name : List Char}
    {number : Nat} (hn : Says s n) (ho : known.originals[number]? = some original)
    (hfree : Vault.startMark ∉ original) (h : Directive.openName? original = some name)
    (hs : strip s = Vault.placeholder number) :
    n.openingMarker? (some known) = some (strip original, name) := by
  refine openingMarker?_eq_some.2 ⟨s, hn, ?_, by rw [Directive.openName?_strip, h]⟩
  rw [hs]
  exact congrArg strip (Vault.expand_placeholder ho hfree)

/-- The start of a close token that the vault's originals or the text itself hold comes out when
    the text is revealed. -/
theorem closingStart_infix_reveal {name s : List Char} (h : HoldsClosing v name s) :
    Directive.closingStart <:+: Vault.reveal v (strip s) := by
  have hsolid : Vault.Solid Directive.closingStart :=
    ⟨⟨'{', ['{', '/'], rfl, by decide⟩, by decide⟩
  rcases h with h | ⟨known, e, rfl, he, hc⟩
  · have hstart := (Directive.closingStart_infix_closing name).trans h
    have hin : Directive.closingStart <:+: strip s :=
      infix_strip Directive.capped_closingStart hstart
    cases v with
    | none => exact hin
    | some known => exact hsolid.infix_expand hin
  · have hp : Vault.placeholder e.number <:+: strip s :=
      infix_strip (Vault.capped_placeholder e.number) (known.infix_of_mem_split he)
    exact hsolid.infix_expand_placeholder (known.original_of_mem_split he)
      (Directive.closingStart_infix_of_closeName? hc) hp

/-- An open marker holds no close token. -/
theorem not_holdsClosing_of_openName? {s name other : List Char}
    (h : Directive.openName? (strip (Vault.reveal v (strip s))) = some name) :
    ¬ HoldsClosing v other s := by
  intro hc
  refine Directive.not_infix_of_openName? h ?_
  exact infix_strip Directive.capped_closingStart (closingStart_infix_reveal hc)

/-- The text is the close token for `name` and nothing else, spelled out without placeholders in it
    or set aside. -/
inductive Closes (v : Option Vault) (name s : List Char) : Prop
  | spelled (hc : Directive.closeName? s = some name)
      (hfree : ∀ known, v = some known → ∀ e, .hit e ∉ known.split s)
  | setAside (known : Vault) (number : Nat) (original : List Char) (hv : v = some known)
      (ho : known.originals[number]? = some original)
      (hc : Directive.closeName? original = some name) (hs : strip s = Vault.placeholder number)

theorem Closes.of_unmarked {name s : List Char} (hc : Directive.closeName? s = some name)
    (hfree : Vault.startMark ∉ s) : Closes v name s :=
  .spelled hc fun known _ _ he =>
    hfree (Vault.startMark_mem_of_placeholder (known.infix_of_mem_split he))

theorem split_between_blanks {known : Vault} {number : Nat} {original s : List Char}
    (ho : known.originals[number]? = some original) (hs : strip s = Vault.placeholder number) :
    ∃ w w', isBlank w = true ∧ isBlank w' = true ∧ s = w ++ Vault.placeholder number ++ w' ∧
      known.split s = w.map .char ++ .hit ⟨number, original⟩ :: w'.map .char := by
  obtain ⟨w, w', hw, hw', he⟩ := exists_blank_strip s
  rw [hs] at he
  refine ⟨w, w', hw, hw', he, ?_⟩
  have hsplit : known.split w' = w'.map .char := by
    have := known.split_free_append (Vault.startMark_not_mem_blank hw') []
    rwa [List.append_nil, Vault.split_nil, List.append_nil] at this
  rw [he, List.append_assoc, Vault.split_blank_append hw, Vault.split_placeholder known ho, hsplit]

/-- The search for its own name takes all but blanks off a close marker. -/
theorem Closes.cut {name s : List Char} (h : Closes v name s) :
    ∃ before after, cutFirstClosing v name s = some (before, after) ∧
      isBlank (before ++ after) = true := by
  cases h with
  | spelled hc hfree =>
    obtain ⟨w, w', hw, hw', he⟩ := exists_blank_strip s
    rw [(Directive.closeName?_eq_some.1 hc).1] at he
    have hbrace : '{' ∉ w := fun hm => absurd (isSpace_of_mem hw hm) (by decide)
    have hcut : Directive.cutClosing name s = some (w, w') := by
      rw [Directive.cutClosing, he, List.append_assoc, Directive.closing_eq]
      exact cutAt_append hbrace w'
    -- the spelled token is looked for first, and there is no other
    have hnone : cutClosingPlaceholder v name s = none :=
      cutClosingPlaceholder_eq_none.2 fun known hv e hm => absurd hm (hfree known hv e)
    refine ⟨w, w', ?_, by rw [isBlank_append, hw, hw']; rfl⟩
    rw [cutFirstClosing, hcut, hnone]
  | setAside known number original hv ho hc hs =>
    obtain ⟨w, w', hw, hw', he, hsplit⟩ := split_between_blanks ho hs
    have hbrace : '{' ∉ s := by
      rw [he]
      simp only [List.mem_append, not_or]
      have hblank : ∀ {u : List Char}, isBlank u = true → '{' ∉ u := fun hu hm =>
        absurd (isSpace_of_mem hu hm) (by decide)
      exact ⟨⟨hblank hw, Vault.not_mem_placeholder (by decide)⟩, hblank hw'⟩
    have hnone : Directive.cutClosing name s = none :=
      cutAt_eq_none.2 (not_infix_of_not_mem hbrace)
    have hcut : cutClosingPlaceholder v name s = some (w, w') := by
      rw [hv]
      show cutHit _ _ (known.split s) = _
      rw [hsplit, cutHit_chars, spell_chars]
      exact decide_eq_true hc
    refine ⟨w, w', ?_, by rw [isBlank_append, hw, hw']; rfl⟩
    rw [cutFirstClosing, hnone, hcut]

/-- A close marker holds no close token but the one it is. -/
theorem Closes.not_holdsClosing {name other s : List Char} (h : Closes v name s)
    (hother : Directive.IsName other) (hne : other ≠ name) : ¬ HoldsClosing v other s := by
  cases h with
  | spelled hc hfree =>
    obtain ⟨hs, hname⟩ := Directive.closeName?_eq_some.1 hc
    rintro (hin | ⟨known, e, hv, he, _⟩)
    · exact hne (Directive.eq_of_closing_infix hother hname hs hin)
    · exact hfree known hv e he
  | setAside known number original hv ho hc hs =>
    obtain ⟨w, w', hw, hw', he, hsplit⟩ := split_between_blanks ho hs
    rintro (hin | ⟨known', e, hv', hm, hc'⟩)
    · have hp := infix_strip (Directive.capped_closing other) hin
      rw [hs, Directive.closing_eq] at hp
      exact not_infix_of_not_mem (Vault.not_mem_placeholder (by decide)) hp
    · rw [hv] at hv'
      cases hv'
      rw [hsplit] at hm
      simp only [List.mem_append, List.mem_map, List.mem_cons, reduceCtorEq, and_false,
        exists_false, false_or, or_false, Piece.hit.injEq] at hm
      rw [hm, hc] at hc'
      exact hne (Option.some.inj hc').symm

/-! ## Nodes -/

theorem takeClosing_eq_none_of_text {name s : List Char} {n : Node} (hn : Says s n)
    (h : ¬ HoldsClosing v name s) : n.takeClosing v name = none := by
  have ht : Node.takeClosing v name (.text s) = none := by
    rw [Node.takeClosing, cutFirstClosing_eq_none.2 h]
    rfl
  cases hn with
  | text => exact ht
  | paragraph hp =>
    rw [Node.takeClosing, Node.takeClosingAmong, ht]
    rfl

/-- An open marker holds no close token. -/
theorem takeClosing_of_opening {n : Node} {head name : List Char}
    (h : n.openingMarker? v = some (head, name)) (other : List Char) :
    n.takeClosing v other = none := by
  obtain ⟨s, hs, rfl, hn⟩ := openingMarker?_eq_some.1 h
  exact takeClosing_eq_none_of_text hs (not_holdsClosing_of_openName? hn)

theorem takeClosing_of_closes_other {name other s : List Char} {n : Node} (hn : Says s n)
    (h : Closes v name s) (hother : Directive.IsName other) (hne : other ≠ name) :
    n.takeClosing v other = none :=
  takeClosing_eq_none_of_text hn (h.not_holdsClosing hother hne)

/-- A close marker goes away with its token. -/
theorem takeClosing_of_closes {name s : List Char} {n : Node} (hn : Says s n)
    (h : Closes v name s) : n.takeClosing v name = some none := by
  obtain ⟨before, after, hcut, hblank⟩ := h.cut
  have ht : Node.takeClosing v name (.text s) = some none := by
    rw [Node.takeClosing, hcut]
    simp [stripRight_eq_nil_of_blank hblank, isBlank]
  cases hn with
  | text => exact ht
  | paragraph hp =>
    rw [Node.takeClosing, Node.takeClosingAmong, ht]
    simp [hp]

/-! ## Spans -/

theorem takeClosingAmong_eq_none {name : List Char} {nodes : List Node}
    (h : ∀ n ∈ nodes, n.takeClosing v name = none) : Node.takeClosingAmong v name nodes = none := by
  induction nodes with
  | nil => rfl
  | cons n nodes ih =>
    rw [List.forall_mem_cons] at h
    rw [Node.takeClosingAmong, h.1, ih h.2]
    rfl

/-- The span of a region ends at the first node that holds the close token. -/
theorem span?_append {name : List Char} {nodes rest : List Node} {n : Node} {left : Option Node}
    (hnodes : ∀ m ∈ nodes, m.takeClosing v name = none) (hn : n.takeClosing v name = some left) :
    span? v name (nodes ++ n :: rest) = some (nodes ++ left.toList, rest) := by
  induction nodes with
  | nil => rw [List.nil_append, span?, hn, List.nil_append]
  | cons m nodes ih =>
    rw [List.forall_mem_cons] at hnodes
    rw [List.cons_append, span?, hnodes.1, ih hnodes.2]
    rfl

end Region

end StorageMarkup
