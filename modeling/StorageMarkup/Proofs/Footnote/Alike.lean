import StorageMarkup.Footnote
import StorageMarkup.Proofs.Node.Alike

/-!
# Footnotes of alike trees

A footnote is known by its id, which may hold placeholders. Ids are compared with each
other only, so two alike trees define and refer to the same footnotes.

Results:
1. `Footnote.alike_definition?`, `Footnote.alike_reference?`: ids are cut out alike.
2. `Footnote.Index.Alike.isLinked_eq`: the same footnotes are linked.
3. `AlikeNodes.settleFootnotesAmong`: sections and links are alike.
-/

namespace StorageMarkup

open Vault

variable {same : Nat → Nat → Prop} {v w : Vault} {s t : List Char}

/-! ## Ids -/

/-- The first of a list of searches that finds something. -/
theorem rel_findSome? {f : List Char → Option (List Char)}
    (hf : ∀ s t, Alike same s t → Option.Rel (Alike same) (f s) (f t)) {ss ts : List (List Char)}
    (h : List.Forall₂ (Alike same) ss ts) :
    Option.Rel (Alike same) (ss.findSome? f) (ts.findSome? f) := by
  induction h with
  | nil => exact .none
  | @cons s t ss ts hst _ ih =>
    rw [List.findSome?_cons, List.findSome?_cons]
    rcases rel_cases (hf s t hst) with ⟨hs, ht⟩ | ⟨a, b, hs, ht, hab⟩ <;> rw [hs, ht]
    · exact ih
    · exact .some hab

namespace Footnote

theorem alike_idThroughEnd? (h : Alike same s t) :
    Option.Rel (Alike same) (idThroughEnd? s) (idThroughEnd? t) := by
  obtain ⟨hid, hrest⟩ := h.span (p := (!isSpace ·)) fun c hc => by
    rw [isSpace_of_inPlaceholder hc]
    rfl
  have hend : (s.dropWhile (!isSpace ·) = ['\n']) ↔ (t.dropWhile (!isSpace ·) = ['\n']) :=
    hrest.eq_free_iff (by decide)
  unfold idThroughEnd?
  simp only [hid.isEmpty_eq, hrest.isEmpty_eq, hend]
  split
  · exact .some hid
  · exact .none

theorem readings_of_ne {c : Char} (hc : c ≠ '-') (s : List Char) :
    readings (c :: s) = [c :: s] := by
  unfold readings
  split
  · next he => exact absurd (List.cons.inj he).1 hc
  · rfl

theorem alike_readings (h : Alike same s t) :
    List.Forall₂ (Alike same) (readings s) (readings t) := by
  cases h using Alike.induct with
  | nil => exact .cons .nil .nil
  | char c s t hc h =>
    by_cases hd : c = '-'
    · rw [hd]
      exact .cons h (.cons (.char (by decide) h) .nil)
    · rw [readings_of_ne hd, readings_of_ne hd]
      exact .cons (.char hc h) .nil
  | placeholder m n s t hmn h =>
    have hone : ∀ k s, readings (placeholder k ++ s) = [placeholder k ++ s] := by
      intro k s
      obtain ⟨u, hu⟩ := placeholder_eq_cons k
      rw [hu]
      exact readings_of_ne (by decide) _
    rw [hone, hone]
    exact .cons (.placeholder hmn h) .nil

theorem alike_definitionTail? (h : Alike same s t) :
    Option.Rel (Alike same) (definitionTail? s) (definitionTail? t) := by
  refine rel_findSome? (fun s t hst => ?_) (alike_readings h)
  rw [hst.isPrefixOf_eq (by decide)]
  split
  · exact .none
  · exact alike_idThroughEnd? hst

theorem alike_definition? (h : Alike same s t) :
    Option.Rel (Alike same) (definition? s) (definition? t) :=
  rel_bind (h.dropStart? (by decide)) fun _ _ => alike_definitionTail?

theorem alike_reference? (h : Alike same s t) :
    Option.Rel (Alike same) (reference? s) (reference? t) :=
  rel_bind (h.dropStart? (by decide)) fun _ _ => alike_definitionTail?

theorem alike_backReference? (h : Alike same s t) :
    Option.Rel (Alike same) (backReference? s) (backReference? t) :=
  rel_bind (h.dropStart? (by decide)) fun _ _ hst =>
    rel_findSome? (fun _ _ => alike_idThroughEnd?) (alike_readings hst)

end Footnote

/-! ## Elements -/

namespace Element.Alike

variable {e e' : Element}

theorem holdsFootnotes_eq (h : Element.Alike same e e') : e.holdsFootnotes = e'.holdsFootnotes := by
  obtain ⟨-, -, hattrs, -, -⟩ := h.parts
  have hrole : (e.attributes.text? "role".toList == some "doc-endnotes".toList) =
      (e'.attributes.text? "role".toList == some "doc-endnotes".toList) := by
    rcases rel_cases (hattrs.text? "role".toList) with ⟨hx, hy⟩ | ⟨x, y, hx, hy, hxy⟩ <;>
      rw [hx, hy]
    rw [Bool.eq_iff_iff, beq_iff_eq, beq_iff_eq, Option.some_inj, Option.some_inj,
      hxy.eq_free_iff (by decide)]
  rw [Element.holdsFootnotes, Element.holdsFootnotes, hattrs.isSome_get?_eq,
    hattrs.inClass_eq (by decide), hrole]

theorem definition? (h : Element.Alike same e e') :
    Option.Rel (StorageMarkup.Alike same) e.definition? e'.definition? := by
  obtain ⟨htag, -, hattrs, -, -⟩ := h.parts
  rw [Element.definition?, Element.definition?, htag]
  split
  · exact rel_bind (hattrs.text? _) fun _ _ => Footnote.alike_definition?
  · exact .none

theorem reference? (h : Element.Alike same e e') :
    Option.Rel (StorageMarkup.Alike same) e.reference? e'.reference? := by
  obtain ⟨htag, -, hattrs, -, -⟩ := h.parts
  rw [Element.reference?, Element.reference?, htag]
  split
  · exact rel_bind (hattrs.text? _) fun _ _ => Footnote.alike_reference?
  · exact .none

theorem elements (h : Element.Alike same e e') :
    List.Forall₂ (Element.Alike same) e.toNode.elements e'.toNode.elements := by
  have hsingle : ∀ n : Node, Node.elementsOf [n] = n.elements := fun n => by
    rw [Node.elementsOf, Node.elementsOf, List.append_nil]
  rw [← hsingle, ← hsingle]
  exact AlikeNodes.elementsOf h

end Element.Alike

/-! ## The index -/

namespace Footnote.Index

/-- The same footnotes but for the numbers of placeholders in their ids. -/
structure Alike (same : Nat → Nat → Prop) (index index' : Index) : Prop where
  definitions : List.Forall₂ (StorageMarkup.Alike same) index.definitions index'.definitions
  references : List.Forall₂ (StorageMarkup.Alike same) index.references index'.references

theorem alike_ofNodes {ns ms : List Node} (h : AlikeNodes same ns ms) :
    Alike same (ofNodes ns) (ofNodes ms) where
  definitions := by
    refine List.rel_flatMap h.elementsOf fun e e' he => ?_
    rw [definitionsIn, definitionsIn, he.holdsFootnotes_eq]
    split
    · exact List.rel_filterMap (fun _ _ hd => hd.definition?) he.elements
    · exact .nil
  references := by
    refine List.rel_filterMap (fun e e' he => ?_) h.elementsOf
    rw [referenceOf?, referenceOf?, he.holdsFootnotes_eq]
    split
    · exact .none
    · exact he.reference?

/-- Ids are compared with each other only. -/
theorem Alike.isLinked_eq (hsame : Matching v w same) {index index' : Index}
    (h : Alike same index index') {id id' : List Char} (hid : StorageMarkup.Alike same id id') :
    index.isLinked id = index'.isLinked id' := by
  have heq : ∀ x y, StorageMarkup.Alike same x y → (x = id ↔ y = id') := fun _ _ hxy =>
    Relator.rel_eq (Alike.biUnique hsame) hxy hid
  rw [isLinked, isLinked, contains_eq heq h.definitions, contains_eq heq h.references]

end Footnote.Index

/-! ## Links and sections -/

namespace Footnote

theorem alike_anchor {x y : Value} (h : Value.AlikeItem same x y) :
    Alike same (Directive.anchor x) (Directive.anchor y) :=
  Directive.alike_inline (by decide) (.cons (.mk (by decide) h) .nil)

theorem alike_anchorLink {label label' target target' tooltip : Value}
    (hlabel : Value.AlikeItem same label label') (htarget : Value.AlikeItem same target target')
    (htooltip : tooltip.All (startMark ∉ ·)) :
    Alike same (Directive.anchorLink label target tooltip)
      (Directive.anchorLink label' target' tooltip) :=
  Directive.alike_inline (by decide) (.cons (.mk (by decide) (.text (.of_free (by decide))))
    (.cons (.mk (by decide) hlabel) (.cons (.mk (by decide) htarget)
      (.cons (.mk (by decide) (.same htooltip)) .nil))))

theorem alike_anchorName (h : Alike same s t) :
    Value.AlikeItem same (anchorName s) (anchorName t) :=
  .text (.append (.of_free (by decide)) h)

theorem alike_referenceAnchorName (h : Alike same s t) :
    Value.AlikeItem same (referenceAnchorName s) (referenceAnchorName t) :=
  .text (.append (.of_free (by decide)) h)

theorem alike_backLink (h : Alike same s t) : Alike same (backLink s) (backLink t) :=
  alike_anchorLink (.text (.of_free (by decide))) (alike_referenceAnchorName h)
    (.text (by decide))

theorem alike_referenceLink {label label' : List Char} (h : Alike same s t)
    (hlabel : Alike same label label') :
    Alike same (referenceLink s label) (referenceLink t label') :=
  .append (alike_anchor (alike_referenceAnchorName h))
    (alike_anchorLink (.text hlabel) (alike_anchorName h) .absent)

theorem alike_link? (hsame : Matching v w same) {index index' : Index}
    (hindex : Index.Alike same index index') {e e' : Element} (h : Element.Alike same e e') :
    Option.Rel (Alike same) (link? index e) (link? index' e') := by
  obtain ⟨-, -, hattrs, -, hchildren⟩ := h.parts
  unfold link?
  rcases rel_cases (hattrs.text? "href".toList) with ⟨hx, hy⟩ | ⟨s, t, hx, hy, hst⟩ <;> rw [hx, hy]
  · exact .none
  · simp only
    rcases rel_cases (alike_backReference? hst) with ⟨hs, ht⟩ | ⟨id, id', hs, ht, hid⟩ <;>
      rw [hs, ht]
    · rcases rel_cases (alike_reference? hst) with ⟨hs, ht⟩ | ⟨id, id', hs, ht, hid⟩ <;>
        rw [hs, ht]
      · exact .none
      · simp only [hindex.isLinked_eq hsame hid]
        split
        · exact .some (alike_referenceLink hid hchildren.characterDataOf.strip)
        · exact .none
    · simp only [hindex.isLinked_eq hsame hid]
      split
      · exact .some (alike_backLink hid)
      · exact .none

theorem alike_definitionTexts (hsame : Matching v w same) {index index' : Index}
    (hindex : Index.Alike same index index') (limit : Limit) {es es' : List Element}
    (h : List.Forall₂ (Element.Alike same) es es') :
    Agree (Alike same) (definitionTexts index limit es) (definitionTexts index' limit es') := by
  induction h with
  | nil => exact .ok .nil
  | @cons e e' es es' he _ ih =>
    rw [definitionTexts, definitionTexts]
    rcases rel_cases he.definition? with ⟨hx, hy⟩ | ⟨id, id', hx, hy, hid⟩ <;> rw [hx, hy]
    · exact ih
    · obtain ⟨-, -, -, -, hchildren⟩ := he.parts
      have hanchor : Alike same
          (if index.isLinked id then Directive.anchor (anchorName id) else [])
          (if index'.isLinked id' then Directive.anchor (anchorName id') else []) := by
        rw [hindex.isLinked_eq hsame hid]
        split
        · exact alike_anchor (alike_anchorName hid)
        · exact .nil
      refine (hchildren.printAll limit).bind fun _ _ hbody => ih.bind fun _ _ hothers => .ok ?_
      exact .append (.append (.append hanchor hbody.strip) (.of_free (by decide))) hothers

theorem alike_sectionText (hsame : Matching v w same) {index index' : Index}
    (hindex : Index.Alike same index index') {heading : Value}
    (hheading : heading.All (startMark ∉ ·)) (limit : Limit) {e e' : Element}
    (h : Element.Alike same e e') :
    Agree (Alike same) (sectionText index heading limit e)
      (sectionText index' heading limit e') := by
  have htitle : Agree (Alike same) (heading.text?.elim (throw .notText) pure)
      (heading.text?.elim (throw .notText) pure) := by
    cases ht : heading.text? with
    | none => exact .error _
    | some title => exact .ok (.of_free (hheading.of_text? ht))
  refine htitle.bind fun _ _ htitle => ?_
  refine (alike_definitionTexts hsame hindex limit h.elements).bind fun _ _ hdefinitions => .ok ?_
  exact .append (.append (.append (.of_free (by decide)) htitle.escapeText) (.of_free (by decide)))
    hdefinitions

end Footnote

/-- Sections take the place of the same containers, or fail in the same way. -/
theorem AlikeNodes.settleFootnotesAmong (hsame : Matching v w same) {index index' : Footnote.Index}
    (hindex : Footnote.Index.Alike same index index') {heading : Value}
    (hheading : heading.All (startMark ∉ ·)) (limit : Limit) {ns ms : List Node}
    (h : AlikeNodes same ns ms) :
    Agree (AlikeNodes same) (Node.settleFootnotesAmong index heading limit ns)
      (Node.settleFootnotesAmong index' heading limit ms) := by
  have hcons : ∀ n m ns ms, Node.Alike same n m → AlikeNodes same ns ms →
      AlikeNodes same (n :: ns) (m :: ms) := fun _ _ _ _ => .cons
  induction h with
  | nil => exact .ok .nil
  | text hs _ ih => exact .map₂ (.ok (.text hs .nil)) ih hcons
  | raw hs _ ih => exact .map₂ (.ok (.raw hs .nil)) ih hcons
  | root hc _ _ ih => exact .map₂ (.ok (.root hc .nil)) ih hcons
  | element htag hattrs hsize hc _ ihc ih =>
    have he := Element.Alike.mk htag hattrs hsize hc
    refine .map₂ ?_ ih hcons
    rw [Node.settleFootnotes, Node.settleFootnotes, he.holdsFootnotes_eq]
    split
    · exact (Footnote.alike_sectionText hsame hindex hheading limit he).bind fun _ _ htext =>
        .ok (.raw htext .nil)
    · exact ihc.bind fun _ _ hchildren => .ok (.element htag hattrs hsize hchildren .nil)

end StorageMarkup
