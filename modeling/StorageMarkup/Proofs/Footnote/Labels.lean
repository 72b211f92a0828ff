import StorageMarkup.Document
import StorageMarkup.Proofs.Footnote.Settled

/-!
# Labels of footnotes

Where a hyphen joins stem and label, the reader of ids may take it for the joint or for the first
character of the id. The readers of definitions and references refuse an id that starts with `ref`,
which would be the stem of a link back; so they take the hyphen of such a label into the id, and
the reader of links back, which refuses nothing, does not.

Results:
1. `definition?_definitionId`, `reference?_referenceTarget`, `backReference?_backTarget`: what the
   three readers make of a label.
2. `isLinked_of_annotates`: a footnote with a definition and a reference is linked.
3. `label_ids_agree`: a label that does not start with `ref` is one footnote everywhere.
4. `label_ids_disagree`: a label that does is two.
-/

namespace StorageMarkup.Footnote

variable {label s : List Char} {nodes : List Node} {e : Element}

/-- A label is not empty and holds no white space. -/
structure IsLabel (label : List Char) : Prop where
  ne_nil : label ≠ []
  noSpace : ∀ c ∈ label, isSpace c = false

/-- The id of the list item that defines the footnote with the label. -/
def definitionId (label : List Char) : List Char := idStem ++ "fn-".toList ++ label

/-- The target of a reference to it. -/
def referenceTarget (label : List Char) : List Char := '#' :: idStem ++ "fn-".toList ++ label

/-- The target of a link back from it. -/
def backTarget (label : List Char) : List Char := '#' :: idStem ++ "fnref-".toList ++ label

/-! ## Reading a label -/

theorem idThroughEnd?_of_noSpace (hne : s ≠ []) (h : ∀ c ∈ s, isSpace c = false) :
    idThroughEnd? s = some s := by
  have hnot : ∀ c ∈ s, (!isSpace c) = true := fun c hc => by rw [h c hc]; rfl
  have htake : s.takeWhile (!isSpace ·) = s := List.takeWhile_eq_self_iff.2 hnot
  have hdrop : s.dropWhile (!isSpace ·) = [] := List.dropWhile_eq_nil_iff.2 hnot
  rw [idThroughEnd?, htake, hdrop]
  cases s with
  | nil => exact absurd rfl hne
  | cons c s => rfl

/-- After the hyphen, a label is the id unless it starts with `ref`; then the hyphen is part of the
id. -/
theorem definitionTail?_hyphen (h : IsLabel label) : definitionTail? ('-' :: label) =
    some (if "ref".toList.isPrefixOf label then '-' :: label else label) := by
  have hhyphen : idThroughEnd? ('-' :: label) = some ('-' :: label) :=
    idThroughEnd?_of_noSpace (List.cons_ne_nil _ _)
      (List.forall_mem_cons.2 ⟨by decide, h.noSpace⟩)
  have hstart : "ref".toList.isPrefixOf ('-' :: label) = false := rfl
  rw [definitionTail?, readings, List.findSome?_cons, List.findSome?_cons, hstart, hhyphen,
    idThroughEnd?_of_noSpace h.ne_nil h.noSpace]
  cases "ref".toList.isPrefixOf label with
  | true => rfl
  | false => rfl

theorem backReferenceTail?_hyphen (h : IsLabel label) :
    backReferenceTail? ('-' :: label) = some label := by
  rw [backReferenceTail?, readings, List.findSome?_cons,
    idThroughEnd?_of_noSpace h.ne_nil h.noSpace]

theorem bind_dropStart?_append {stem : List Char} {tail? : List Char → Option (List Char)} :
    (dropStart? stem (stem ++ s)).bind tail? = tail? s := by
  rw [dropStart?_eq_some.2 rfl, Option.bind_some]

theorem definition?_definitionId (h : IsLabel label) : definition? (definitionId label) =
    some (if "ref".toList.isPrefixOf label then '-' :: label else label) :=
  bind_dropStart?_append.trans (definitionTail?_hyphen h)

theorem reference?_referenceTarget (h : IsLabel label) : reference? (referenceTarget label) =
    some (if "ref".toList.isPrefixOf label then '-' :: label else label) :=
  bind_dropStart?_append.trans (definitionTail?_hyphen h)

theorem backReference?_backTarget (h : IsLabel label) :
    backReference? (backTarget label) = some label :=
  bind_dropStart?_append.trans (backReferenceTail?_hyphen h)

/-! ## Documents -/

/-- A list item with the id of the label's definition. -/
structure Defines (label : List Char) (e : Element) : Prop where
  tag : e.tag = "li".toList
  id : e.attributes.text? "id".toList = some (definitionId label)

/-- A link with this target. -/
structure LinkTo (target : List Char) (e : Element) : Prop where
  tag : e.tag = "a".toList
  href : e.attributes.text? "href".toList = some target

/-- The document has a definition of the label in a container, and a reference to it that is no
container itself. -/
structure Annotates (label : List Char) (nodes : List Node) : Prop where
  defined : ∃ container ∈ Node.elementsOf nodes, container.holdsFootnotes = true ∧
    ∃ item ∈ container.toNode.elements, Defines label item
  referred : ∃ link ∈ Node.elementsOf nodes, link.holdsFootnotes = false ∧
    LinkTo (referenceTarget label) link

section

variable (h : IsLabel label) (hstart : "ref".toList.isPrefixOf label = false)

include h hstart

theorem Defines.definition? (he : Defines label e) : e.definition? = some label := by
  rw [Element.definition?, if_pos he.tag, he.id, Option.bind_some, definition?_definitionId h,
    hstart]
  rfl

theorem isLinked_of_annotates (hnodes : Annotates label nodes) :
    (Index.ofNodes nodes).isLinked label = true := by
  obtain ⟨container, hcontainer, hholds, item, hitem, hdefines⟩ := hnodes.defined
  obtain ⟨link, hlink, hnone, hrefers⟩ := hnodes.referred
  rw [Index.isLinked, Bool.and_eq_true, List.contains_iff_mem, List.contains_iff_mem]
  constructor
  · refine List.mem_flatMap.2 ⟨container, hcontainer, ?_⟩
    rw [Index.definitionsIn, if_pos hholds]
    exact List.mem_filterMap.2 ⟨item, hitem, hdefines.definition? h hstart⟩
  · refine List.mem_filterMap.2 ⟨link, hlink, ?_⟩
    rw [Index.referenceOf?, hnone, Element.reference?, if_pos hrefers.tag, hrefers.href,
      Option.bind_some, reference?_referenceTarget h, hstart]
    rfl

end

theorem element_link {env : Mapping.Env} {directives : List Char} (ha : e.tag = "a".toList)
    (h : link? env.footnotes e = some directives) :
    Mapping.element env e = pure [.raw directives] := by
  rw [Mapping.element, if_neg (by rw [ha]; decide), if_pos ha, Mapping.link, h]

/-- A label that does not start with `ref` is the id of its footnote in a definition, in references
and in links back. So in a document that defines it and refers to it, every reference and every
link back is rewritten, and every container with the definition has the anchor; of these links
and anchors each link has the name of the anchor at its other end. -/
theorem label_ids_agree (h : IsLabel label) (hstart : "ref".toList.isPrefixOf label = false) :
    (definition? (definitionId label) = some label ∧
      reference? (referenceTarget label) = some label ∧
      backReference? (backTarget label) = some label) ∧
    ∀ nodes, Annotates label nodes → ∀ env : Mapping.Env, env.footnotes = .ofNodes nodes →
      (∀ e, LinkTo (referenceTarget label) e → Mapping.element env e =
        pure [.raw (Directive.anchor (referenceAnchorName label) ++ Directive.anchorLink
          (.text (strip (Node.characterDataOf e.children))) (anchorName label) .absent)]) ∧
      (∀ e, LinkTo (backTarget label) e → Mapping.element env e =
        pure [.raw (Directive.anchorLink backLabel (referenceAnchorName label) backTooltip)]) ∧
      ∀ e : Element, e.holdsFootnotes = true → (∃ item ∈ e.toNode.elements, Defines label item) →
        ∀ heading limit out, e.toNode.settleFootnotes env.footnotes heading limit = .ok out →
          ∃ s, out = .raw s ∧ Directive.anchor (anchorName label) <:+: s := by
  have hdefinition : definition? (definitionId label) = some label := by
    rw [definition?_definitionId h, hstart]
    rfl
  have hreference : reference? (referenceTarget label) = some label := by
    rw [reference?_referenceTarget h, hstart]
    rfl
  have hback := backReference?_backTarget h
  refine ⟨⟨hdefinition, hreference, hback⟩, fun nodes hnodes env henv => ?_⟩
  have hlinked := isLinked_of_annotates h hstart hnodes
  rw [← henv] at hlinked
  refine ⟨fun e he => element_link he.tag ?_, fun e he => element_link he.tag ?_, ?_⟩
  · rw [link?, he.href]
    simp only [backReference?_eq_none_of_reference? hreference, hreference, hlinked]
    rfl
  · rw [link?, he.href]
    simp only [hback, hlinked]
    rfl
  · rintro e hholds ⟨item, hitem, hdefines⟩ heading limit out hout
    obtain ⟨s, body, rfl, -, hin⟩ :=
      exists_infix_section hholds hitem (hdefines.definition? h hstart) hout
    rw [hlinked, if_pos rfl] at hin
    exact ⟨s, rfl, (List.prefix_append _ _).isInfix.trans hin⟩

/-- A reference, its definition and the link back from it, all with the label `note`. -/
theorem label_ids_agree_note :
    let label := "note".toList
    let link (target : List Char) : Element :=
      ⟨"a".toList, [("href".toList, .text target)], [.text ['1']]⟩
    let item : Element := ⟨"li".toList, [("id".toList, .text (definitionId label))],
      [(link (backTarget label)).toNode]⟩
    let container : Element := ⟨"section".toList, [("data-footnotes".toList, .flag true)],
      [.element "ol".toList [] [item.toNode]]⟩
    let nodes : List Node := [(link (referenceTarget label)).toNode, container.toNode]
    let env : Mapping.Env := ⟨.standard, none, .ofNodes nodes⟩
    IsLabel label ∧ "ref".toList.isPrefixOf label = false ∧ Annotates label nodes ∧
      definition? (definitionId label) = some label ∧
      Mapping.element env (link (backTarget label)) = pure [.raw (backLink label)] ∧
      ∃ s, container.toNode.settleFootnotes env.footnotes (.text []) .standard = .ok (.raw s) ∧
        Directive.anchor (anchorName label) <:+: s := by
  intro label link item container nodes env
  have hlabel : IsLabel label := ⟨by decide, by decide⟩
  have hstart : "ref".toList.isPrefixOf label = false := by decide
  have hitem : item ∈ container.toNode.elements :=
    List.mem_cons_of_mem _ (List.mem_cons_of_mem _ List.mem_cons_self)
  have hdefines : Defines label item := ⟨rfl, rfl⟩
  have hnodes : Annotates label nodes :=
    ⟨⟨container, List.mem_cons_of_mem _ List.mem_cons_self, by decide, item, hitem, hdefines⟩,
      ⟨link (referenceTarget label), List.mem_cons_self, by decide, rfl, rfl⟩⟩
  obtain ⟨⟨hdefinition, -, -⟩, hall⟩ := label_ids_agree hlabel hstart
  obtain ⟨-, hback, hsection⟩ := hall nodes hnodes env rfl
  refine ⟨hlabel, hstart, hnodes, hdefinition, hback _ ⟨rfl, rfl⟩, ?_⟩
  obtain ⟨s, hs, hin⟩ := hsection container (by decide) ⟨item, hitem, hdefines⟩ (.text []) .standard
    _ rfl
  exact ⟨s, congrArg Except.ok hs, hin⟩

/-- With the label `ref1`, the definition and the reference are those of a footnote `-ref1`, and the
link back is that of a footnote `ref1`, which is not defined, so it stays. -/
theorem label_ids_disagree :
    let label := "ref1".toList
    let link (target : List Char) : Node :=
      .element "a".toList [("href".toList, .text target)] [.text ['1']]
    let nodes : List Node := [link (referenceTarget label),
      .element "ol".toList [("class".toList, .list [.text "footnotes".toList])]
        [.element "li".toList [("id".toList, .text (definitionId label))]
          [link (backTarget label)]]]
    definition? (definitionId label) = some "-ref1".toList ∧
      reference? (referenceTarget label) = some "-ref1".toList ∧
      backReference? (backTarget label) = some label ∧
      (convert .standard nodes).result = .ok (referenceLink "-ref1".toList ['1'] ++
        "<h2>Footnotes</h2>\n".toList ++ Directive.anchor (anchorName "-ref1".toList) ++
        "<a href=\"#user-content-fnref-ref1\">1</a>\n\n".toList) := by
  intro label link nodes
  exact ⟨by decide, by decide, by decide, by decide +kernel⟩

end StorageMarkup.Footnote
