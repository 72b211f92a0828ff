import StorageMarkup.Html.Tree
import StorageMarkup.Node.Printer
import StorageMarkup.Proofs.Html.Escaping
import StorageMarkup.Proofs.Text.Lines

/-!
# Written tags read back

A start tag is read name by name up to a character that ends names, and each value up to
its closing quote. Names that hold no such character and values without quotes are read
as they were written, in the same order.

Results:
1. `LegalTag`, `LegalAttributes`: the names and values that have a written form of their own.
2. `readAttributes_print`, `attributesOf_map`: attributes.
3. `readToken_startTag`, `readToken_endTag`, `readToken_text`: the token a text starts with.
-/

namespace StorageMarkup.Html

variable {tag name q s rest : List Char} {c : Char} {value : Value} {attrs : Attributes}

/-- A name in lower case that is read up to its end. -/
structure LegalName (name : List Char) : Prop where
  nonempty : name ≠ []
  inside : ∀ c ∈ name, isNameEnd c = false ∧ c.toLower = c

/-- A name that makes an angle bracket before it the start of a tag. -/
structure LegalTag (tag : List Char) : Prop extends LegalName tag where
  letter : ∃ c rest, tag = c :: rest ∧ c.isAlpha = true

instance (name : List Char) : Decidable (LegalName name) :=
  decidable_of_iff (name ≠ [] ∧ ∀ c ∈ name, isNameEnd c = false ∧ c.toLower = c)
    ⟨fun h => ⟨h.1, h.2⟩, fun h => ⟨h.nonempty, h.inside⟩⟩

theorem legalTag_iff : LegalTag tag ↔ LegalName tag ∧ tag.head?.any Char.isAlpha = true := by
  refine ⟨fun h => ⟨h.toLegalName, ?_⟩, fun h => ⟨h.1, ?_⟩⟩
  · obtain ⟨c, rest, rfl, hc⟩ := h.letter
    exact hc
  · obtain ⟨c, rest, rfl⟩ := List.exists_cons_of_ne_nil h.1.nonempty
    exact ⟨c, rest, rfl, h.2⟩

instance (tag : List Char) : Decidable (LegalTag tag) := decidable_of_iff _ legalTag_iff.symm

/-- A text where one text is looked for, a list of words where words are. -/
inductive LegalValue (tag name : List Char) : Value → Prop
  | text (h : holdsWords tag name = false) (s : List Char) : LegalValue tag name (.text s)
  | words {ws : List (List Char)} (h : holdsWords tag name = true)
      (hws : ∀ w ∈ ws, w ≠ [] ∧ ∀ c ∈ w, isSpace c = false) :
      LegalValue tag name (.list (ws.map .text))

/-- Different legal names with legal values. -/
structure LegalAttributes (tag : List Char) (attrs : Attributes) : Prop where
  name : ∀ a ∈ attrs, LegalName a.1
  value : ∀ a ∈ attrs, LegalValue tag a.1 a.2
  distinct : (attrs.map Prod.fst).Nodup

/-! ## Names -/

theorem LegalName.lowerCase (h : LegalName name) : lowerCase name = name := by
  refine (List.map_congr_left fun c hc => ?_).trans (List.map_id name)
  exact (h.inside c hc).2

theorem LegalName.goesOn (h : LegalName name) : ∀ c ∈ name, (!isNameEnd c) = true := fun c hc => by
  rw [(h.inside c hc).1]
  rfl

/-- A name does not start with white space nor with anything else that stands between names. -/
theorem LegalName.exists_start (h : LegalName name) :
    ∃ c r, name = c :: r ∧ isTagSpace c = false ∧ c ≠ '>' ∧ c ≠ '/' := by
  obtain ⟨c, r, rfl⟩ := List.exists_cons_of_ne_nil h.nonempty
  have hend := (h.inside c List.mem_cons_self).1
  simp only [isNameEnd, Bool.or_eq_false_iff, decide_eq_false_iff_not] at hend
  obtain ⟨⟨⟨hspace, hslash⟩, hbracket⟩, -⟩ := hend
  exact ⟨c, r, rfl, hspace, hbracket, hslash⟩

/-! ## Values -/

/-- A quoted value is read up to its closing quote. -/
theorem readValue_quoted (hq : '"' ∉ q) (s : List Char) :
    readValue ('=' :: '"' :: (q ++ '"' :: s)) = (decodeValue q, s) := by
  have hin : ∀ c ∈ q, decide (c ≠ '"') = true := fun c hc =>
    decide_eq_true fun he => hq (he ▸ hc)
  have hstop : decide ('"' ≠ '"') = false := by decide
  show (decodeValue ((q ++ '"' :: s).takeWhile (· ≠ '"')),
    ((q ++ '"' :: s).dropWhile (· ≠ '"')).drop 1) = _
  rw [takeWhile_append_stop hin hstop, dropWhile_append_stop hin hstop]
  rfl

theorem texts?_map_text (ws : List (List Char)) : Value.texts? (ws.map .text) = some ws := by
  unfold Value.texts?
  induction ws with
  | nil => rfl
  | cons w ws ih =>
    rw [List.map_cons, List.mapM_cons, ih]
    rfl

/-- A legal value is written between quotes, and it is what such a text stands for. -/
theorem LegalValue.exists_written (h : LegalValue tag name value) :
    ∃ s, attributeText (name, value) =
        ' ' :: (name ++ '=' :: '"' :: (escapeQuoted s ++ ['"'])) ∧
      attributeValue tag name s = value := by
  cases h with
  | text h s =>
    refine ⟨s, ?_, by rw [attributeValue, h]; rfl⟩
    simp [attributeText]
  | @words ws h hws =>
    refine ⟨joinWith [' '] ws, ?_, by rw [attributeValue, h, if_pos rfl, words_joinWith hws]⟩
    simp [attributeText, texts?_map_text]

/-! ## Attributes -/

theorem readAttributes_bracket (s : List Char) : readAttributes ('>' :: s) = ([], false, s) := by
  rw [readAttributes]
  rfl

theorem readAttributes_selfClosing (s : List Char) :
    readAttributes (' ' :: '/' :: '>' :: s) = ([], true, s) := by
  rw [readAttributes]
  rfl

/-- One attribute is read, then those after it. -/
theorem readAttributes_cons (hname : LegalName name) (hq : '"' ∉ q) (s : List Char) :
    readAttributes (' ' :: (name ++ '=' :: '"' :: (q ++ '"' :: s))) =
      ((name, decodeValue q) :: (readAttributes s).1, (readAttributes s).2) := by
  obtain ⟨c, r, rfl, hspace, hbracket, hslash⟩ := hname.exists_start
  have hdrop : (' ' :: (c :: r ++ '=' :: '"' :: (q ++ '"' :: s))).dropWhile isTagSpace =
      c :: (r ++ '=' :: '"' :: (q ++ '"' :: s)) := by
    rw [List.dropWhile_cons_of_pos (by decide), List.cons_append,
      List.dropWhile_cons_of_neg (by rw [hspace]; decide)]
  have hgo : ∀ d ∈ r, (!isNameEnd d) = true := fun d hd =>
    hname.goesOn d (List.mem_cons_of_mem c hd)
  have hstop : (!isNameEnd '=') = false := by decide
  rw [readAttributes]
  split
  · next he => rw [hdrop] at he; cases he
  · next he => rw [hdrop] at he; exact absurd (List.cons.inj he).1 hbracket
  · next he => rw [hdrop] at he; exact absurd (List.cons.inj he).1 hslash
  · next he => rw [hdrop] at he; exact absurd (List.cons.inj he).1 hslash
  · next he =>
    rw [hdrop] at he
    cases he
    simp only [takeWhile_append_stop hgo hstop, dropWhile_append_stop hgo hstop,
      readValue_quoted hq, hname.lowerCase]

/-- Written attributes are read in their order, each with its value. -/
theorem readAttributes_print (h : LegalAttributes tag attrs) {selfClosing : Bool}
    (hrest : readAttributes s = ([], selfClosing, rest)) :
    ∃ written, readAttributes (attrs.print ++ s) = (written, selfClosing, rest) ∧
      written.map (fun a => (a.1, attributeValue tag a.1 a.2)) = attrs := by
  induction attrs with
  | nil => exact ⟨[], hrest, rfl⟩
  | cons a attrs ih =>
    obtain ⟨hname, hvalue, hdistinct⟩ := h
    rw [List.forall_mem_cons] at hname hvalue
    obtain ⟨written, hread, hmap⟩ := ih ⟨hname.2, hvalue.2, (List.nodup_cons.1 hdistinct).2⟩
    obtain ⟨raw, htext, hback⟩ := hvalue.1.exists_written
    refine ⟨(a.1, raw) :: written, ?_, ?_⟩
    · have hsplit : Attributes.print (a :: attrs) ++ s =
          ' ' :: (a.1 ++ '=' :: '"' ::
            (escapeQuoted raw ++ '"' :: (Attributes.print attrs ++ s))) := by
        rw [Attributes.print, List.flatMap_cons, htext, ← Attributes.print]
        simp
      rw [hsplit, readAttributes_cons hname.1 (quote_not_mem_escapeQuoted raw), hread,
        decodeValue_escapeQuoted]
    · rw [List.map_cons, hback, hmap]

theorem set_of_not_mem (h : name ∉ attrs.map Prod.fst) (value : Value) :
    attrs.set name value = attrs ++ [(name, value)] := by
  induction attrs with
  | nil => rfl
  | cons a attrs ih =>
    rw [List.map_cons, List.mem_cons, not_or] at h
    rw [Attributes.set, if_neg (Ne.symm h.1), ih h.2, List.cons_append]

/-- Different names keep the order in which they were written. -/
theorem foldl_set {f : List Char → List Char → Value} {written : List (List Char × List Char)}
    (h : (attrs.map Prod.fst ++ written.map Prod.fst).Nodup) :
    written.foldl (fun attrs a => attrs.set a.1 (f a.1 a.2)) attrs =
      attrs ++ written.map fun a => (a.1, f a.1 a.2) := by
  induction written generalizing attrs with
  | nil => rw [List.foldl_nil, List.map_nil, List.append_nil]
  | cons a written ih =>
    rw [List.map_cons, List.append_cons] at h
    have hnew : a.1 ∉ attrs.map Prod.fst := by
      have hfront := (List.nodup_append.1 h).1
      exact fun hm => (List.nodup_append.1 hfront).2.2 a.1 hm a.1 (List.mem_singleton.2 rfl) rfl
    rw [List.foldl_cons, set_of_not_mem hnew, ih (by rwa [List.map_append]), List.map_cons,
      List.append_assoc, List.singleton_append]

theorem attributesOf_map {written : List (List Char × List Char)}
    (h : written.map (fun a => (a.1, attributeValue tag a.1 a.2)) = attrs)
    (hdistinct : (attrs.map Prod.fst).Nodup) : attributesOf tag written = attrs := by
  have hnames : written.map Prod.fst = attrs.map Prod.fst := by
    rw [← h, List.map_map]
    rfl
  rw [attributesOf, foldl_set (by rwa [List.map_nil, List.nil_append, hnames]), List.nil_append, h]

/-! ## Tokens -/

theorem tokens_of_readToken {token : Token} (h : readToken s = some (token, rest)) :
    tokens s = token :: tokens rest := by
  rw [tokens]
  split
  · next he =>
    rw [h] at he
    cases he
    rfl
  · next he =>
    rw [h] at he
    cases he

theorem tokens_nil : tokens [] = [] := by
  rw [tokens]
  rfl

theorem LegalTag.startsMarkup (h : LegalTag tag) (s : List Char) :
    startsMarkup (tag ++ s) = true := by
  obtain ⟨c, r, rfl, hc⟩ := h.letter
  simp [Html.startsMarkup, hc]

/-- Attributes start with a blank, which ends the name before them. -/
theorem exists_print_append (h : LegalAttributes tag attrs) (hc : isNameEnd c = true)
    (s : List Char) : ∃ d t, attrs.print ++ c :: s = d :: t ∧ isNameEnd d = true := by
  cases attrs with
  | nil => exact ⟨c, s, rfl, hc⟩
  | cons a attrs =>
    obtain ⟨raw, htext, -⟩ := (h.value a List.mem_cons_self).exists_written
    rw [Attributes.print, List.flatMap_cons, htext]
    exact ⟨' ', _, rfl, rfl⟩

theorem readMarkup_startTag (h : LegalTag tag) (hc : isNameEnd c = true) (s : List Char) :
    readMarkup (tag ++ c :: s) =
      (.startTag tag (readAttributes (c :: s)).1 (readAttributes (c :: s)).2.1,
        (readAttributes (c :: s)).2.2) := by
  have hstop : (!isNameEnd c) = false := by rw [hc]; rfl
  have hne : ∀ d, d.isAlpha = false → ∀ t, tag ++ c :: s ≠ d :: t := by
    obtain ⟨a, r, rfl, ha⟩ := h.letter
    intro d hd t he
    rw [(List.cons.inj he).1, hd] at ha
    cases ha
  unfold readMarkup
  split
  · next he => exact absurd he (hne '!' (by decide) _)
  · next he => exact absurd he (hne '!' (by decide) _)
  · next he => exact absurd he (hne '?' (by decide) _)
  · next he => exact absurd he (hne '/' (by decide) _)
  · simp only [takeWhile_append_stop h.goesOn hstop, dropWhile_append_stop h.goesOn hstop,
      h.lowerCase]

/-- A start tag is read with its attributes, whether it closes itself or not. -/
theorem readToken_startTag (h : LegalTag tag) (hattrs : LegalAttributes tag attrs)
    (hc : isNameEnd c = true) {selfClosing : Bool}
    (hread : readAttributes (c :: s) = ([], selfClosing, rest)) :
    ∃ written, attributesOf tag written = attrs ∧
      readToken ('<' :: (tag ++ (attrs.print ++ c :: s))) =
        some (.startTag tag written selfClosing, rest) := by
  obtain ⟨written, hwritten, hmap⟩ := readAttributes_print hattrs hread
  refine ⟨written, attributesOf_map hmap hattrs.distinct, ?_⟩
  obtain ⟨d, t, he, hd⟩ := exists_print_append hattrs hc s
  rw [he] at hwritten ⊢
  rw [readToken, h.startsMarkup, readMarkup_startTag h hd, hwritten]
  rfl

theorem readToken_endTag (h : LegalName tag) (s : List Char) :
    readToken ('<' :: '/' :: (tag ++ '>' :: s)) = some (.endTag tag, s) := by
  have hstop : (!isNameEnd '>') = false := by decide
  have hbracket : ∀ c ∈ tag, decide (c ≠ '>') = true := fun c hc =>
    decide_eq_true fun he => absurd (h.inside c hc).1 (by rw [he]; decide)
  have hafter : afterBracket (tag ++ '>' :: s) = s := by
    rw [afterBracket, dropWhile_append_stop hbracket (by decide)]
    rfl
  show some (readMarkup ('/' :: (tag ++ '>' :: s))) = _
  rw [readMarkup, hafter, takeWhile_append_stop h.goesOn hstop, h.lowerCase]

theorem textRun_append {u : List Char} (hu : '<' ∉ u) (hs : textRun s = []) :
    textRun (u ++ s) = u := by
  induction u with
  | nil => exact hs
  | cons c u ih =>
    rw [List.mem_cons, not_or] at hu
    rw [List.cons_append, textRun, decide_eq_false (Ne.symm hu.1), Bool.false_and,
      if_neg Bool.false_ne_true, ih hu.2]

/-- A text is read up to the next markup. -/
theorem readToken_text {u : List Char} (hne : u ≠ []) (hu : '<' ∉ u) (hs : textRun s = []) :
    readToken (u ++ s) = some (.text (decode u), s) := by
  obtain ⟨c, r, rfl⟩ := List.exists_cons_of_ne_nil hne
  have hrun : textRun (r ++ s) = r := textRun_append (List.not_mem_of_not_mem_cons hu) hs
  rw [List.mem_cons, not_or] at hu
  rw [List.cons_append, readToken, decide_eq_false (Ne.symm hu.1), Bool.false_and,
    if_neg Bool.false_ne_true, hrun]
  show some (Token.text (decode (c :: r)), (r ++ s).drop r.length) = _
  rw [List.drop_left]

end StorageMarkup.Html
