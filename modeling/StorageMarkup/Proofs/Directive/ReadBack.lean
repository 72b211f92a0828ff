import StorageMarkup.Mapping
import StorageMarkup.Proofs.Directive.Sparse

/-!
# Directives read back

The lexicon knows a directive by its braces. A value is written without the quote that would end
it, and with every brace it has; so a directive that is built is read back, as one token and by its
name, just in case no value in it holds a brace.

Results:
1. `find_eq_whole`, `inlineName?_eq_some`: texts that are one directive.
2. `unbraced_nameAndParams`, `takeWhile_nameAndParams`: the inside of a directive that is built.
3. `readBack_inline`, `readBack_opening`: directives with any name and any parameters.
4. `built_directives_read_back`: these, and the directives of images, folding sections and
   footnotes.
5. `braced_values_not_read_back`: a brace in the description of an image.
-/

namespace StorageMarkup

namespace Directive

variable {name inner s : List Char} {ps : List Param}

/-! ## Texts that are one directive -/

/-- No brace stands in the text. -/
abbrev Unbraced (s : List Char) : Prop := ∀ c ∈ s, isBrace c = false

theorem isToken_iff : IsToken ('{' :: '{' :: (inner ++ ['}', '}'])) ↔ Unbraced inner := by
  constructor
  · rintro ⟨inner', he, h⟩
    rw [List.append_cancel_right (List.cons.inj (List.cons.inj he).2).2]
    exact h
  · exact fun h => ⟨inner, rfl, h⟩

/-- A text is its only directive just in case it is a token. -/
theorem find_eq_whole : find s = [(0, s)] ↔ IsToken s := by
  constructor
  · intro h
    have hm : (0, s) ∈ find s := by
      rw [h]
      exact List.mem_cons_self
    exact read_exact.valid_of_hit (hit_of_mem_hitsFrom hm)
  · intro h
    have hs := split_token h []
    rw [List.append_nil] at hs
    rw [find, hs]
    rfl

theorem capped_doubled (inner : List Char) : Capped ('{' :: '{' :: (inner ++ ['}', '}'])) where
  starts := ⟨'{', _, rfl, by decide⟩
  ends := ⟨'{' :: '{' :: (inner ++ ['}']), '}', by simp, by decide⟩

/-- A name that an inline directive can have: none that reads as an open or a close token. -/
structure IsInlineName (name : List Char) : Prop where
  isName : IsName name
  unmarked : ∀ c ∈ name.head?, c ≠ '#' ∧ c ≠ '/'

theorem unmarked_of_all (h : (name.head?.all fun c => c != '#' && c != '/') = true) :
    ∀ c ∈ name.head?, c ≠ '#' ∧ c ≠ '/' := by
  intro c hc
  have hmark := (Option.all_eq_true _ _).1 h c hc
  rwa [Bool.and_eq_true, bne_iff_ne, bne_iff_ne] at hmark

/-- The texts that are inline directives. -/
theorem inlineName?_eq_some : inlineName? s = some name ↔
    ∃ inner, strip s = '{' :: '{' :: (inner ++ ['}', '}']) ∧
      (∀ c ∈ inner.head?, c ≠ '#' ∧ c ≠ '/') ∧ Unbraced inner ∧
      name = inner.takeWhile isNameChar ∧ name ≠ [] := by
  unfold inlineName?
  constructor
  · intro h
    split at h
    · cases h
    · cases h
    · next inner hopen hclose hi =>
      obtain ⟨hname, hne, hinner⟩ := leadingName?_eq_some.1 h
      refine ⟨inner, (inside?_eq_some.1 hi).1, fun c hc => ⟨?_, ?_⟩, hinner, hname, hne⟩
      · rintro rfl
        obtain ⟨rest, rfl⟩ := List.head?_eq_some_iff.1 hc
        exact hopen rest rfl
      · rintro rfl
        obtain ⟨rest, rfl⟩ := List.head?_eq_some_iff.1 hc
        exact hclose rest rfl
    · cases h
  · rintro ⟨inner, hs, hhead, hinner, hname, hne⟩
    have hi : inside? (strip s) = some inner :=
      inside?_eq_some.2 ⟨hs, fun hm => absurd (hinner _ hm) (by decide)⟩
    rw [hi]
    have hlead := leadingName?_eq_some.2 ⟨hname, hne, hinner⟩
    split
    · next he =>
      cases he
      exact absurd rfl (hhead '#' rfl).1
    · next he =>
      cases he
      exact absurd rfl (hhead '/' rfl).2
    · next he =>
      cases he
      exact hlead
    · next he => cases he

/-! ## The inside of a directive -/

theorem unbraced_append {s t : List Char} (hs : Unbraced s) : Unbraced (s ++ t) ↔ Unbraced t :=
  List.forall_mem_append.trans (and_iff_right hs)

/-- A replacement of texts without braces takes no brace away and brings none in. -/
theorem unbraced_replaceAll {needle new : List Char} (hne : needle ≠ []) (hneedle : Unbraced needle)
    (hnew : Unbraced new) : Unbraced (replaceAll needle new s) ↔ Unbraced s := by
  have hmem : ∀ c, isBrace c = true → (c ∈ replaceAll needle new s ↔ c ∈ s) := fun c hc =>
    mem_replaceAll hne (fun hm => Bool.false_ne_true ((hneedle c hm).symm.trans hc))
      (fun hm => Bool.false_ne_true ((hnew c hm).symm.trans hc))
  simp only [Unbraced, ← Bool.not_eq_true]
  constructor
  · exact fun h c hc hb => h c ((hmem c hb).2 hc) hb
  · exact fun h c hc hb => h c ((hmem c hb).1 hc) hb

theorem unbraced_quoteValue (value : Value) :
    Unbraced (quoteValue value) ↔ Unbraced value.toText :=
  unbraced_replaceAll (by decide) (by decide) (by decide)

/-- A value is written between quotes, unless it is missing or a truth value. -/
theorem param?_eq_quoted (p : Param) :
    param? p = some (p.1 ++ "=\"".toList ++ quoteValue p.2 ++ ['"']) ∨ Unbraced p.2.toText := by
  obtain ⟨key, value⟩ := p
  cases value with
  | absent => exact .inr (by decide : Unbraced Value.absent.toText)
  | flag on => exact .inr ((by decide : ∀ on, Unbraced (Value.flag on).toText) on)
  | number | text | list | record | other => exact .inl rfl

theorem params_subset (name : List Char) (ps : List Param) : params ps ⊆ nameAndParams name ps := by
  by_cases h : params ps = []
  · rw [h]
    exact List.nil_subset _
  · rw [nameAndParams_of_ne_nil h]
    exact List.subset_append_of_subset_right _ (List.subset_cons_self _ _)

/-- What stands inside has the braces of the values. -/
theorem unbraced_nameAndParams (hname : Unbraced name) (hkeys : ∀ p ∈ ps, Unbraced p.1) :
    Unbraced (nameAndParams name ps) ↔ ∀ p ∈ ps, Unbraced p.2.toText := by
  constructor
  · intro h p hp
    rcases param?_eq_quoted p with hwritten | hplain
    · have hpart : p.1 ++ "=\"".toList ++ quoteValue p.2 ++ ['"'] <:+: params ps :=
        infix_joinWith (List.mem_filterMap.2 ⟨p, hp, hwritten⟩)
      refine (unbraced_quoteValue p.2).1 fun c hc => ?_
      exact h c (params_subset name ps (hpart.subset
        (List.mem_append_left _ (List.mem_append_right _ hc))))
    · exact hplain
  · intro h
    exact nameAndParams_induct (P := Unbraced) (fun _ _ hfixed => hfixed)
      (fun _ _ hs ht => List.forall_mem_append.2 ⟨hs, ht⟩) hname
      fun p hp => ⟨hkeys p hp, (unbraced_quoteValue p.2).2 (h p hp)⟩

/-- The name reaches to the parameters. -/
theorem takeWhile_nameAndParams (hname : IsName name) (ps : List Param) :
    (nameAndParams name ps).takeWhile isNameChar = name := by
  by_cases h : params ps = []
  · rw [nameAndParams, h]
    exact List.takeWhile_eq_self_iff.2 hname.2
  · rw [nameAndParams_of_ne_nil h]
    exact takeWhile_append_stop hname.2 (by decide) _

theorem head_nameAndParams (hne : name ≠ []) (ps : List Param) :
    (nameAndParams name ps).head? = name.head? := by
  obtain ⟨c, name, rfl⟩ := List.exists_cons_of_ne_nil hne
  obtain ⟨rest, hrest⟩ := prefix_nameAndParams (c :: name) ps
  rw [← hrest]
  rfl

/-! ## Reading back -/

/-- The text is read back, by its name and as one directive, just in case `P` holds. -/
structure ReadBackIff (nameOf : List Char → Option (List Char)) (name s : List Char) (P : Prop) :
    Prop where
  named : nameOf s = some name ↔ P
  whole : find s = [(0, s)] ↔ P

theorem ReadBackIff.congr {nameOf : List Char → Option (List Char)} {P Q : Prop}
    (h : ReadBackIff nameOf name s P) (hPQ : P ↔ Q) : ReadBackIff nameOf name s Q :=
  ⟨h.named.trans hPQ, h.whole.trans hPQ⟩

theorem readBack_inline (hname : IsInlineName name) (hkeys : ∀ p ∈ ps, Unbraced p.1) :
    ReadBackIff inlineName? name (inline name ps) (∀ p ∈ ps, Unbraced p.2.toText) := by
  have hinner := unbraced_nameAndParams (fun _ hc => hname.isName.not_brace hc) hkeys
  refine ⟨?_, (find_eq_whole.trans isToken_iff).trans hinner⟩
  rw [← hinner, inlineName?_eq_some]
  have hstrip : strip (inline name ps) = '{' :: '{' :: (nameAndParams name ps ++ ['}', '}']) :=
    (capped_doubled (nameAndParams name ps)).strip
  constructor
  · rintro ⟨inner, hs, -, h, -, -⟩
    rw [hstrip] at hs
    rwa [List.append_cancel_right (List.cons.inj (List.cons.inj hs).2).2]
  · intro h
    refine ⟨_, hstrip, ?_, h, (takeWhile_nameAndParams hname.isName ps).symm, hname.isName.1⟩
    rw [head_nameAndParams hname.isName.1]
    exact hname.unmarked

theorem readBack_opening (hname : IsName name) (hkeys : ∀ p ∈ ps, Unbraced p.1) :
    ReadBackIff openName? name (opening name ps) (∀ p ∈ ps, Unbraced p.2.toText) := by
  have hinner := unbraced_nameAndParams (fun _ hc => hname.not_brace hc) hkeys
  have hmarked : Unbraced ('#' :: nameAndParams name ps) ↔ Unbraced (nameAndParams name ps) :=
    List.forall_mem_cons.trans (and_iff_right (by decide))
  have htoken : IsToken (opening name ps) ↔ Unbraced ('#' :: nameAndParams name ps) := isToken_iff
  refine ⟨?_, find_eq_whole.trans (htoken.trans (hmarked.trans hinner))⟩
  rw [← hinner, openName?_eq_some]
  have hstrip : strip (opening name ps) =
      '{' :: '{' :: '#' :: (nameAndParams name ps ++ ['}', '}']) :=
    (capped_doubled ('#' :: nameAndParams name ps)).strip
  constructor
  · rintro ⟨inner, hs, h, -, -⟩
    rw [hstrip] at hs
    rwa [List.append_cancel_right (List.cons.inj (List.cons.inj (List.cons.inj hs).2).2).2]
  · exact fun h => ⟨_, hstrip, h, (takeWhile_nameAndParams hname ps).symm, hname.1⟩

/-! ## The directives of the rules -/

/-- A size that is written holds no brace. -/
abbrev UnbracedSize (size : Value) : Prop := size.isSet = true → Unbraced size.toText

theorem unbraced_size {key : List Char} {size : Value} :
    (∀ p ∈ (if size.isSet then [(key, .text size.toText)] else [] : List Param),
      Unbraced p.2.toText) ↔ UnbracedSize size := by
  split
  · next hset =>
    rw [List.forall_mem_singleton]
    exact ⟨fun h _ => h, fun h => h hset⟩
  · next hset => exact ⟨fun _ h => absurd h hset, fun _ _ hp => absurd hp List.not_mem_nil⟩

theorem unbraced_sizeKey {key : List Char} (hkey : Unbraced key) (size : Value) :
    ∀ p ∈ (if size.isSet then [(key, .text size.toText)] else [] : List Param), Unbraced p.1 := by
  split
  · exact List.forall_mem_singleton.2 hkey
  · exact fun _ hp => absurd hp List.not_mem_nil

/-- The path is read back without the references to quotes that are dropped from it. -/
theorem readBack_image (src : List Char) (alt width height : Value) :
    ReadBackIff inlineName? "confluence-image".toList (image src alt width height [])
      (Unbraced src ∧ Unbraced alt.toText ∧ UnbracedSize width ∧ UnbracedSize height) := by
  have hsrc : Unbraced (replaceAll "%22".toList [] src) ↔ Unbraced src :=
    unbraced_replaceAll (by decide) (by decide) (by decide)
  refine (readBack_inline ⟨⟨by decide, by decide⟩, unmarked_of_all (by decide)⟩ ?_).congr ?_
  · rw [List.map_nil, List.append_nil, List.forall_mem_append, List.forall_mem_append]
    refine ⟨⟨?_, unbraced_sizeKey (by decide) width⟩, unbraced_sizeKey (by decide) height⟩
    exact List.forall_mem_cons.2 ⟨(by decide : Unbraced "src".toList),
      List.forall_mem_singleton.2 (by decide : Unbraced "alt".toList)⟩
  · rw [List.map_nil, List.append_nil, List.forall_mem_append, List.forall_mem_append,
      unbraced_size, unbraced_size, List.forall_mem_cons, List.forall_mem_singleton, and_assoc,
      and_assoc]
    exact and_congr_left fun _ => hsrc

theorem readBack_expand (title : Value) :
    ReadBackIff openName? "confluence-expand".toList
      (opening "confluence-expand".toList [("title".toList, title)]) (Unbraced title.toText) :=
  (readBack_opening ⟨by decide, by decide⟩
    (List.forall_mem_singleton.2 (by decide : Unbraced "title".toList))).congr
    List.forall_mem_singleton

theorem readBack_anchor (id : List Char) :
    ReadBackIff inlineName? "confluence-anchor".toList (anchor (Footnote.referenceAnchorName id))
      (Unbraced id) :=
  (readBack_inline ⟨⟨by decide, by decide⟩, unmarked_of_all (by decide)⟩
    (List.forall_mem_singleton.2 (by decide : Unbraced "name".toList))).congr
    (List.forall_mem_singleton.trans (unbraced_append (by decide)))

theorem readBack_anchorLink (id label : List Char) :
    ReadBackIff inlineName? "confluence-link".toList
      (anchorLink (.text label) (Footnote.anchorName id) .absent)
      (Unbraced label ∧ Unbraced id) := by
  have hkeys : ∀ key ∈ ["type".toList, "text".toList, "anchor".toList, "tooltip".toList],
      Unbraced key := by decide
  have htype : Unbraced (Value.text "anchor".toList).toText := by decide
  have htooltip : Unbraced Value.absent.toText := by decide
  have hid : Unbraced (Footnote.anchorName id).toText ↔ Unbraced id := unbraced_append (by decide)
  refine (readBack_inline ⟨⟨by decide, by decide⟩, unmarked_of_all (by decide)⟩
    fun p hp => hkeys p.1 (List.mem_map_of_mem hp)).congr ?_
  rw [List.forall_mem_cons, List.forall_mem_cons, List.forall_mem_cons, List.forall_mem_singleton,
    and_iff_right htype, and_iff_left htooltip]
  exact and_congr_right fun _ => hid

/-- A directive that is built is read back just in case no value in it holds a brace: one with any
    name and any parameters, and those that images, folding sections and footnotes become. -/
theorem built_directives_read_back (name : List Char) (ps : List Param) (e : Element)
    (src : List Char) (title : Value) (body id label : List Char) :
    (IsInlineName name → (∀ p ∈ ps, Unbraced p.1) →
      ReadBackIff inlineName? name (inline name ps) (∀ p ∈ ps, Unbraced p.2.toText) ∧
      ReadBackIff openName? name (opening name ps) (∀ p ∈ ps, Unbraced p.2.toText)) ∧
    (e.attributes.text? "src".toList = some src → src ≠ [] →
      ∃ d, Mapping.image e = [.raw d] ∧
        ReadBackIff inlineName? "confluence-image".toList d
          (Unbraced src ∧ Unbraced ((e.attributes.text? "alt".toList).getD []) ∧
            UnbracedSize ((e.attributes.get? "width".toList).getD .absent) ∧
            UnbracedSize ((e.attributes.get? "height".toList).getD .absent))) ∧
    (∃ head, expand title body = region head body "confluence-expand".toList ∧
      ReadBackIff openName? "confluence-expand".toList head (Unbraced title.toText)) ∧
    ∃ d d', Footnote.referenceLink id label = d ++ d' ∧
      ReadBackIff inlineName? "confluence-anchor".toList d (Unbraced id) ∧
      ReadBackIff inlineName? "confluence-link".toList d' (Unbraced label ∧ Unbraced id) := by
  refine ⟨fun hname hkeys => ?_, fun hsrc hne => ?_, ?_, ?_⟩
  · exact ⟨readBack_inline hname hkeys, readBack_opening hname.isName hkeys⟩
  · obtain ⟨c, src, rfl⟩ := List.exists_cons_of_ne_nil hne
    exact ⟨_, by rw [Mapping.image, hsrc], readBack_image (c :: src)
      (.text ((e.attributes.text? "alt".toList).getD [])) _ _⟩
  · exact ⟨_, rfl, readBack_expand title⟩
  · exact ⟨_, _, rfl, readBack_anchor id, readBack_anchorLink id label⟩

/-- A directive with a quote in a value is read back, and so is that of an image. -/
theorem built_directives_read_back_quoted :
    inlineName? (inline "x".toList
      [("a".toList, .text "\"".toList), ("b".toList, .flag true), ("c".toList, .absent)]) =
        some "x".toList ∧
    ∃ d, Mapping.image ⟨"img".toList, [("src".toList, .text "a.png".toList),
        ("alt".toList, .text "A \"b\"".toList), ("width".toList, .number 4)], []⟩ = [.raw d] ∧
      find d = [(0, d)] := by
  have hname : IsInlineName "x".toList := ⟨⟨by decide, by decide⟩, unmarked_of_all (by decide)⟩
  obtain ⟨hdirective, himage, -, -⟩ := built_directives_read_back "x".toList
    [("a".toList, .text "\"".toList), ("b".toList, .flag true), ("c".toList, .absent)]
    ⟨"img".toList, [("src".toList, .text "a.png".toList), ("alt".toList, .text "A \"b\"".toList),
      ("width".toList, .number 4)], []⟩ "a.png".toList .absent [] [] []
  constructor
  · exact (hdirective hname (by decide)).1.named.2 (by decide)
  · obtain ⟨d, hd, hread⟩ := himage (by decide) (by decide)
    exact ⟨d, hd, hread.whole.2 ⟨by decide, by decide, by decide, by decide⟩⟩

/-- A brace in the description of an image: to the lexicon the text that the image becomes is no
    directive. With two braces it is one that ends early. -/
theorem braced_values_not_read_back :
    let image (alt : List Char) : Element := ⟨"img".toList,
      [("src".toList, .text "a.png".toList), ("alt".toList, .text alt)], []⟩
    let shown (alt : List Char) : List Char :=
      "\x7b\x7bconfluence-image src=\"a.png\" alt=\"".toList ++ alt ++ "\"\x7d\x7d".toList
    (Mapping.image (image ['}']) = [.raw (shown ['}'])] ∧
      inlineName? (shown ['}']) = none ∧ find (shown ['}']) = []) ∧
    Mapping.image (image ['}', '}']) = [.raw (shown ['}', '}'])] ∧
      find (shown ['}', '}']) = [(0, (shown ['}', '}']).dropLast.dropLast.dropLast)] := by
  intro image shown
  exact ⟨⟨rfl, by decide, by decide⟩, rfl, by decide⟩

end Directive

end StorageMarkup
