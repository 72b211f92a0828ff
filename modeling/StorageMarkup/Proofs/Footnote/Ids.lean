import StorageMarkup.Footnote
import StorageMarkup.Proofs.Directive.Parameters
import StorageMarkup.Proofs.Text.Lines

/-!
# Ids of footnotes

An id is cut out of the id of a list item or the target of a link, and reaches from a
stem up to the end or a last line feed, so it holds no white space.

Results:
1. `idFrom_definition?`, `idFrom_reference?`, `idFrom_backReference?`,
   `backReference?_eq_none_of_reference?`: the three readers.
2. `anchor_eq`, `feed_not_mem_quoteValue`: an id in directives.
-/

namespace StorageMarkup

variable {s t id : List Char}

/-- The id is cut out of the text and holds no white space. -/
structure IdFrom (s id : List Char) : Prop where
  cut : id <:+: s
  noSpace : ∀ c ∈ id, isSpace c = false

theorem IdFrom.of_suffix (h : IdFrom t id) (ht : t <:+ s) : IdFrom s id :=
  ⟨h.cut.trans ht.isInfix, h.noSpace⟩

theorem IdFrom.feed_not_mem (h : IdFrom s id) : '\n' ∉ id := fun hm =>
  absurd (h.noSpace _ hm) (by decide)

namespace Footnote

theorem idFrom_idThroughEnd? (h : idThroughEnd? s = some id) : IdFrom s id := by
  unfold idThroughEnd? at h
  simp only at h
  split at h
  · cases h
    refine ⟨(List.takeWhile_prefix _).isInfix, fun c hc => ?_⟩
    simpa using List.all_eq_true.1 List.all_takeWhile c hc
  · cases h

theorem suffix_of_mem_readings (h : t ∈ readings s) : t <:+ s := by
  unfold readings at h
  split at h
  · next rest =>
    rw [List.mem_cons, List.mem_singleton] at h
    rcases h with rfl | rfl
    · exact List.suffix_cons _ _
    · exact List.suffix_rfl
  · exact List.mem_singleton.1 h ▸ List.suffix_rfl

/-- The id is read in one of the two ways, and what it is read from is no back-reference's. -/
theorem exists_reading_of_definitionTail? (h : definitionTail? s = some id) :
    ∃ t ∈ readings s, ¬ "ref".toList <+: t ∧ idThroughEnd? t = some id := by
  obtain ⟨t, ht, hid⟩ := List.exists_of_findSome?_eq_some h
  split at hid
  · cases hid
  · next href => exact ⟨t, ht, fun hp => href (List.isPrefixOf_iff_prefix.2 hp), hid⟩

theorem idFrom_definitionTail? (h : definitionTail? s = some id) : IdFrom s id := by
  obtain ⟨t, ht, -, hid⟩ := exists_reading_of_definitionTail? h
  exact (idFrom_idThroughEnd? hid).of_suffix (suffix_of_mem_readings ht)

theorem idFrom_backReferenceTail? (h : backReferenceTail? s = some id) : IdFrom s id := by
  obtain ⟨t, ht, hid⟩ := List.exists_of_findSome?_eq_some h
  exact (idFrom_idThroughEnd? hid).of_suffix (suffix_of_mem_readings ht)

theorem idFrom_afterStem {stem : List Char} {tail? : List Char → Option (List Char)}
    (htail : ∀ t, tail? t = some id → IdFrom t id) (h : (dropStart? stem s).bind tail? = some id) :
    IdFrom s id := by
  obtain ⟨t, ht, hid⟩ := Option.bind_eq_some_iff.1 h
  rw [dropStart?_eq_some.1 ht]
  exact (htail t hid).of_suffix (List.suffix_append _ _)

theorem idFrom_definition? (h : definition? s = some id) : IdFrom s id :=
  idFrom_afterStem (fun _ => idFrom_definitionTail?) h

theorem idFrom_reference? (h : reference? s = some id) : IdFrom s id :=
  idFrom_afterStem (fun _ => idFrom_definitionTail?) h

theorem idFrom_backReference? (h : backReference? s = some id) : IdFrom s id :=
  idFrom_afterStem (fun _ => idFrom_backReferenceTail?) h

end Footnote

/-- No target both refers to a footnote and leads back from one. -/
theorem backReference?_eq_none_of_reference? (h : Footnote.reference? s = some id) :
    Footnote.backReference? s = none := by
  have hback : ¬ '#' :: idStem ++ "fnref".toList <+: s := by
    rintro ⟨t, rfl⟩
    have hdrop : dropStart? ('#' :: idStem ++ "fn".toList) ('#' :: idStem ++ "fnref".toList ++ t) =
        some ("ref".toList ++ t) := dropStart?_eq_some.2 rfl
    have htail : Footnote.definitionTail? ("ref".toList ++ t) = some id :=
      (congrArg (Option.bind · Footnote.definitionTail?) hdrop).symm.trans h
    obtain ⟨u, hu, href, -⟩ := Footnote.exists_reading_of_definitionTail? htail
    rw [List.mem_singleton.1 hu] at href
    exact href (List.prefix_append _ _)
  exact congrArg (Option.bind · Footnote.backReferenceTail?) (dropStart?_eq_none hback)

/-- The id of a definition comes from the id of a list item. -/
theorem exists_of_definition? {e : Element} (h : e.definition? = some id) :
    e.tag = "li".toList ∧ ∃ s, e.attributes.text? "id".toList = some s ∧ IdFrom s id := by
  unfold Element.definition? at h
  split at h
  · next htag =>
    obtain ⟨s, hs, hid⟩ := Option.bind_eq_some_iff.1 h
    exact ⟨htag, s, hs, Footnote.idFrom_definition? hid⟩
  · cases h

/-! ## Ids in directives -/

namespace Directive

/-- Quoting brings no line feed. -/
theorem feed_not_mem_quoteValue {name : List Char} (h : '\n' ∉ name) :
    '\n' ∉ quoteValue (.text name) := by
  have hmem : '\n' ∈ replaceAll ['"'] "&quot;".toList name ↔ '\n' ∈ name :=
    mem_replaceAll (List.cons_ne_nil _ _) (by decide) (by decide)
  exact hmem.not.2 h

/-- An anchor is known by its name as it is quoted. -/
theorem anchor_eq (name : List Char) :
    anchor (.text name) = "\x7b\x7bconfluence-anchor name=\"".toList ++
      (quoteValue (.text name) ++ "\"\x7d\x7d".toList) :=
  congrArg ("\x7b\x7bconfluence-anchor name=\"".toList ++ ·) (List.append_assoc _ ['"'] ['}', '}'])

end Directive

end StorageMarkup
