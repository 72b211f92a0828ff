import StorageMarkup.Proofs.Footnote.Places
import StorageMarkup.Proofs.Mapping.Counterparts
import StorageMarkup.Proofs.Tree.Plain

/-!
# Anchors of footnotes are written

A linked footnote gets an anchor where it is referred to and one where it is defined. The
rules for elements write the one into final output, which folding sections and
definitions take in, and leave containers as they are. Settling writes the other.

Results:
1. `reaches_references`: a reference becomes final output with its anchor.
2. `exposes_containers`: a container stays up to settling.
3. `shows_definitions`, `shows_references`: after settling both anchors are there.
-/

namespace StorageMarkup

variable {T : Targets} {P : Node → Prop} {linked : Bool} {n : Node} {nodes out : List Node}
  {id part : List Char} {e : Element} {env : Mapping.Env} {index : Footnote.Index} {limit : Limit}
  {heading : Value}

/-! ## Anchors -/

theorem capped_anchor (name : Value) : Capped (Directive.anchor name) := Directive.capped_inline _ _

/-- An anchor is written as it stands. -/
theorem anchor_infix_written {name s : List Char} (h : '\n' ∉ name)
    (hs : Directive.anchor (.text name) <:+: s) :
    Directive.anchor (.text name) <:+: capNewlineRuns s := by
  have hfeed : '\n' ∉ Directive.anchor (.text name) := by
    rw [Directive.anchor_eq, List.mem_append, List.mem_append, not_or, not_or]
    exact ⟨by decide, Directive.feed_not_mem_quoteValue h, by decide⟩
  exact infix_capNewlineRuns (by decide) (narrow_of_not_mem hfeed) hs

/-! ## Containers -/

theorem not_blank_elementWith {R : Element → Prop} (h : ElementWith R n) : n.isBlank = false := by
  obtain ⟨e, rfl, -⟩ := h
  rfl

/-- The rule for a container with an exposed element leaves it, but for the attributes of a table
cell. -/
theorem Stays.element_ok (he : Stays env.targets e) {R : Element → Prop}
    (hitem : Exposes T (ElementWith R) linked e.children) {S : List Node → Prop}
    (stay : S [e.toNode])
    (cell : ∀ header,
      Stays env.targets ⟨e.tag, Mapping.cellAttributes header e.attributes, e.children⟩ →
        S [.element e.tag (Mapping.cellAttributes header e.attributes) e.children])
    (hout : (Mapping.element env e).result = .ok out) : S out := by
  refine Mapping.element_ok ?_ ?_ ?_ ?_ ?_ ?_ stay hout
  · exact fun ht => absurd (by rw [ht]; decide) he.kept
  · intro ha
    rw [Mapping.link, link?_eq_none ha he.noBackLink he.noLink]
    exact stay
  · exact fun ht => absurd (by rw [ht]; decide) he.kept
  · intro _
    unfold Mapping.codeWrapper
    simp only
    split
    · next hwrapper =>
      -- the way to the exposed element starts with an element, which is no final output
      obtain ⟨m, hm, hexposed⟩ := hitem
      obtain ⟨item, rfl⟩ := hexposed.exists_element
      simp only [Bool.and_eq_true, List.all_eq_true] at hwrapper
      have hraw := hwrapper.2 _ (List.mem_filter.2 ⟨hm, rfl⟩)
      cases hraw
    · exact stay
  · exact fun header => cell header
      { he with
        holds := (holdsFootnotes_cellAttributes e.tag header e.attributes _ _).trans he.holds
        noBackLink := fun h => he.noBackLink h.of_cellAttributes
        noLink := fun h => he.noLink h.of_cellAttributes }
  · exact fun ht => absurd (by rw [ht]; decide) he.kept

/-- List items with a definition stay where they are. -/
theorem exists_mapped_definition (hd : e.definition? = some id) {depth : Nat}
    (hout : (Mapping.node env depth e.toNode).result = .ok out) :
    ∃ mapped, (Mapping.nodes env (depth + 1) e.children).result = .ok mapped ∧
      out = [.element e.tag e.attributes mapped] :=
  Mapping.exists_mapped (fun mapped => by rw [(exists_of_definition? hd).1]; rfl) hout

/-- Containers stay. -/
theorem exposes_containers {depth : Nat}
    (h : Exposes env.targets (ContainerOf env.targets id) false nodes)
    (hout : (Mapping.nodes env depth nodes).result = .ok out) :
    Exposes env.targets (ContainerOf env.targets id) false out := by
  refine exposes_mapping (fun _ => not_blank_elementWith) ?_ h hout
  rintro n ⟨e, rfl, he⟩ depth out hout
  obtain ⟨mapped, hmapped, helement⟩ := Mapping.element_of_node hout
  have hdefines : Exposes env.targets (DefinitionOf id) false mapped := by
    refine exposes_mapping (fun _ => not_blank_elementWith) ?_ he.defines hmapped
    rintro n ⟨item, rfl, hd⟩ depth out hout
    obtain ⟨mapped, -, rfl⟩ := exists_mapped_definition hd hout
    exact ⟨_, List.mem_singleton.2 rfl, .here ⟨⟨item.tag, item.attributes, mapped⟩, rfl, hd⟩⟩
  have hstays : Stays env.targets ⟨e.tag, e.attributes, mapped⟩ := { he.toStays with }
  refine hstays.element_ok hdefines
    (S := Exposes env.targets (ContainerOf env.targets id) false) ?_ ?_ helement
  · exact ⟨_, List.mem_singleton.2 rfl, .here ⟨_, rfl, { hstays with defines := hdefines }⟩⟩
  · exact fun header hcell =>
      ⟨_, List.mem_singleton.2 rfl, .here ⟨_, rfl, { hcell with defines := hdefines }⟩⟩

/-! ## References -/

/-- A link to a linked footnote becomes an anchor and a link with the text below it. -/
theorem link?_of_reference {href : List Char} (hhref : e.attributes.text? "href".toList = some href)
    (hid : Footnote.reference? href = some id) (hlinked : index.isLinked id = true) :
    Footnote.link? index e =
      some (Footnote.referenceLink id (strip (Node.characterDataOf e.children))) := by
  unfold Footnote.link?
  simp only [hhref, backReference?_eq_none_of_reference? hid, hid, hlinked, if_true]

/-- The anchor is there to come back to. -/
theorem exists_outputWith_reference (hlinked : env.footnotes.isLinked id = true)
    (h : Footnote.Index.referenceOf? e = some id)
    (hout : (Mapping.element env e).result = .ok out) :
    ∃ m ∈ out, OutputWith (Directive.anchor (Footnote.referenceAnchorName id)) m := by
  unfold Footnote.Index.referenceOf? Element.reference? at h
  split at h
  · cases h
  split at h
  · next ha =>
    obtain ⟨href, hhref, hid⟩ := Option.bind_eq_some_iff.1 h
    rw [Mapping.element, if_neg (by rw [ha]; decide), if_pos ha, Mapping.link,
      link?_of_reference hhref hid hlinked] at hout
    cases hout
    exact ⟨_, List.mem_singleton.2 rfl, _, rfl, (List.prefix_append _ _).isInfix⟩
  · cases h

theorem not_blank_outputWith (h : OutputWith part n) : n.isBlank = false := by
  obtain ⟨s, rfl, -⟩ := h
  rfl

/-- The node is mapped to final output with the part in it, which may stand in what is left. -/
def Yields (env : Mapping.Env) (part : List Char) (n : Node) : Prop :=
  ∀ depth out, (Mapping.node env depth n).result = .ok out →
    ∃ m ∈ out, Reaches env.targets (OutputWith part) m

namespace Yields

theorem mapped (h : Yields env part n) (hn : n ∈ nodes) {depth : Nat}
    (hout : (Mapping.nodes env depth nodes).result = .ok out) :
    ∃ m ∈ out, Reaches env.targets (OutputWith part) m := by
  obtain ⟨first, hfirst, hsub⟩ := Mapping.exists_node_of_mem hn hout
  obtain ⟨m, hm, hreaches⟩ := h _ first hfirst
  exact ⟨m, hsub hm, hreaches⟩

theorem inside {tag : List Char} {attrs : Attributes} {children : List Node}
    (he : Passable env.targets false false tag attrs) (hm : n ∈ children) (h : Yields env part n) :
    Yields env part (.element tag attrs children) := by
  intro depth out hout
  obtain ⟨mapped, hmapped, helement⟩ := Mapping.element_of_node hout
  obtain ⟨m, hm, hreaches⟩ := h.mapped hm hmapped
  rcases he.links with ⟨-, hlink⟩ | ⟨-, hl⟩
  · obtain ⟨k, hk, hexposed⟩ := exposes_element (e := ⟨tag, attrs, mapped⟩)
      (fun _ => Reaches.not_blank fun _ => not_blank_outputWith) he hlink ⟨m, hm, .here hreaches⟩
      helement
    exact ⟨k, hk, hexposed.reaches.join⟩
  · cases hl

/-- A folding section is written with what is reached outside its summaries. -/
theorem folded (hpart : Capped part) {attrs : Attributes} {children : List Node}
    (hplain : PlainTexts children) (hm : n ∈ children) (hs : n.hasTag "summary".toList = false)
    (h : Yields env part n) : Yields env part (.element "details".toList attrs children) := by
  intro depth out hout
  obtain ⟨mapped, hmapped, helement⟩ := Mapping.element_of_node hout
  obtain ⟨first, hfirst, hsub⟩ := Mapping.exists_node_of_mem hm hmapped
  obtain ⟨m, hmfirst, hreaches⟩ := h _ first hfirst
  have hsummary : m.hasTag "summary".toList = false := Bool.eq_false_iff.2 fun ht => by
    rw [Mapping.hasTag_of_mem hfirst hmfirst ht] at hs
    cases hs
  have hsection : (Mapping.foldingSection env ⟨"details".toList, attrs, mapped⟩).result = .ok out :=
    helement
  unfold Mapping.foldingSection at hsection
  obtain ⟨body, hbody, hsection⟩ := Traced.bind_eq_ok.1 hsection
  obtain ⟨text, htext, hsection⟩ := Traced.bind_eq_ok.1 hsection
  cases hsection
  -- no region is in plain texts
  have htexts : PlainTexts mapped :=
    Mapping.each_mapping (fun _ _ _ _ => trivial) hplain hmapped
  obtain rfl := foldAll_of_plain
    (fun k hk => htexts k ((Mapping.mem_of_takeSummary mapped).2 k hk)) hbody
  have hin := infix_strip hpart (infix_printAll_outputWith
    (Mapping.mem_takeSummary (hsub hmfirst) hsummary) hreaches.shows htext)
  exact ⟨_, List.mem_singleton.2 rfl, .here ⟨_, rfl, hin.trans (Directive.infix_region _ _)⟩⟩

/-- A definition is mapped where it stands, and so is its container. -/
theorem noted {item : Element} (he : Stays env.targets e) (hv : isVoid e.tag = false)
    (hitem : Exposes env.targets (ElementWith (· = item)) false e.children)
    (hd : item.definition?.isSome = true) (hm : n ∈ item.children) (h : Yields env part n) :
    Yields env part e.toNode := by
  intro depth out hout
  obtain ⟨mapped, hmapped, helement⟩ := Mapping.element_of_node hout
  have hitems : Exposes env.targets (ElementWith fun i => i.definition?.isSome = true ∧
      ∃ m ∈ i.children, Reaches env.targets (OutputWith part) m) false mapped := by
    refine exposes_mapping (fun _ => not_blank_elementWith) ?_ hitem hmapped
    rintro _ ⟨_, rfl, rfl⟩ depth out hout
    obtain ⟨id, hid⟩ := Option.isSome_iff_exists.1 hd
    obtain ⟨inner, hinner, rfl⟩ := exists_mapped_definition hid hout
    exact ⟨_, List.mem_singleton.2 rfl, .here ⟨⟨_, _, inner⟩, rfl, hd, h.mapped hm hinner⟩⟩
  obtain ⟨i, ⟨hdi, m, hmi, hreaches⟩, hi⟩ := hitems.exists_eq
  have hstays : Stays env.targets ⟨e.tag, e.attributes, mapped⟩ := { he with }
  refine hstays.element_ok hi
    (S := fun out => ∃ m ∈ out, Reaches env.targets (OutputWith part) m) ?_ ?_ helement
  · exact ⟨_, List.mem_singleton.2 rfl, .noted hstays hv hi hdi hmi hreaches⟩
  · exact fun header hcell => ⟨_, List.mem_singleton.2 rfl, .noted hcell hv hi hdi hmi hreaches⟩

end Yields

/-- A reference becomes final output with its anchor. -/
theorem reaches_references {depth : Nat} (hlinked : env.footnotes.isLinked id = true)
    (hplain : PlainTexts nodes) (h : ∃ n ∈ nodes, Reaches env.targets (ReferenceTo id) n)
    (hout : (Mapping.nodes env depth nodes).result = .ok out) :
    ∃ m ∈ out, Reaches env.targets
      (OutputWith (Directive.anchor (Footnote.referenceAnchorName id))) m := by
  obtain ⟨n, hn, h⟩ := h
  have hyields : Yields env (Directive.anchor (Footnote.referenceAnchorName id)) n := by
    have htexts := hplain n hn
    clear hn hplain hout
    induction h with
    | here h =>
      obtain ⟨e, rfl, he⟩ := h
      intro depth out hout
      obtain ⟨mapped, -, helement⟩ := Mapping.element_of_node hout
      obtain ⟨m, hm, houtput⟩ := exists_outputWith_reference
        (e := ⟨e.tag, e.attributes, mapped⟩) hlinked he helement
      exact ⟨m, hm, .here houtput⟩
    | inside he hm _ ih => exact .inside he hm (ih (htexts.of_element.2 _ hm))
    | folded _ hm hs _ ih =>
      exact .folded (capped_anchor _) htexts.of_element.2 hm hs (ih (htexts.of_element.2 _ hm))
    | noted he hv hitem hd hm _ ih =>
      exact .noted he hv hitem hd hm (ih ((hitem.each htexts.of_element.2).of_element.2 _ hm))
  exact hyields.mapped hn hout

/-! ## Settling -/

/-- Every definition of a container is written, after its anchor if the footnote is linked. -/
theorem exists_infix_definitionTexts {items : List Element} {item : Element} {s : List Char}
    (hm : item ∈ items) (hd : item.definition? = some id)
    (hs : Footnote.definitionTexts index limit items = .ok s) :
    ∃ body, Node.printAll limit item.children = .ok body ∧
      (if index.isLinked id then Directive.anchor (Footnote.anchorName id) else []) ++ strip body
        <:+: s := by
  induction items generalizing s with
  | nil => exact absurd hm List.not_mem_nil
  | cons first items ih =>
    rw [Footnote.definitionTexts] at hs
    rcases List.mem_cons.1 hm with rfl | hm
    · simp only [hd] at hs
      obtain ⟨body, hbody, hs⟩ := bind_eq_ok.1 hs
      obtain ⟨others, -, hs⟩ := bind_eq_ok.1 hs
      cases hs
      rw [List.append_assoc]
      exact ⟨body, hbody, (List.prefix_append _ _).isInfix⟩
    · split at hs
      · exact ih hm hs
      · obtain ⟨_, -, hs⟩ := bind_eq_ok.1 hs
        obtain ⟨others, hothers, hs⟩ := bind_eq_ok.1 hs
        cases hs
        obtain ⟨body, hbody, hin⟩ := ih hm hothers
        exact ⟨body, hbody, hin.trans (List.suffix_append _ _).isInfix⟩

/-- A container becomes final output with each of its definitions in it. -/
theorem exists_infix_section {item : Element} {m : Node} (he : e.holdsFootnotes = true)
    (hitem : item ∈ e.toNode.elements) (hd : item.definition? = some id)
    (hm : e.toNode.settleFootnotes index heading limit = .ok m) :
    ∃ s body, m = .raw s ∧ Node.printAll limit item.children = .ok body ∧
      (if index.isLinked id then Directive.anchor (Footnote.anchorName id) else []) ++ strip body
        <:+: s := by
  obtain ⟨s, hs, rfl⟩ := Node.settleFootnotes_container he hm
  unfold Footnote.sectionText at hs
  obtain ⟨title, -, hs⟩ := bind_eq_ok.1 hs
  obtain ⟨definitions, hdefinitions, hs⟩ := bind_eq_ok.1 hs
  cases hs
  obtain ⟨body, hbody, hin⟩ := exists_infix_definitionTexts hitem hd hdefinitions
  exact ⟨_, body, rfl, hbody, hin.trans (List.suffix_append _ _).isInfix⟩

/-- A container becomes a section with the anchor of the definition. -/
theorem shows_definitions (hlinked : index.isLinked id = true)
    (h : Exposes T (ContainerOf T id) linked nodes)
    (hout : Node.settleFootnotesAmong index heading limit nodes = .ok out) :
    ∃ m ∈ out, Shows (OutputWith (Directive.anchor (Footnote.anchorName id))) m := by
  have hsections :
      Exposes T (OutputWith (Directive.anchor (Footnote.anchorName id))) linked out := by
    refine exposes_settled ?_ hout h
    rintro n ⟨e, rfl, he⟩ m hm
    obtain ⟨item, hitem, hdefines⟩ := he.exists_definition
    obtain ⟨s, body, rfl, -, hin⟩ := exists_infix_section he.holds hitem hdefines hm
    rw [hlinked, if_pos rfl] at hin
    exact ⟨s, rfl, (List.prefix_append _ _).isInfix.trans hin⟩
  obtain ⟨m, hm, hexposed⟩ := hsections
  exact ⟨m, hm, hexposed.shows⟩

/-- Final output is where it was, or in the section that a container has become. -/
theorem shows_references (hpart : Capped part) (h : ∃ n ∈ nodes, Reaches T (OutputWith part) n)
    (hout : Node.settleFootnotesAmong index heading limit nodes = .ok out) :
    ∃ m ∈ out, Shows (OutputWith part) m := by
  obtain ⟨n, hn, h⟩ := h
  have hnode : ∀ m, n.settleFootnotes index heading limit = .ok m → Shows (OutputWith part) m := by
    clear hn hout
    have hkeep : ∀ {tag : List Char} {attrs : Attributes} {children : List Node} {n : Node},
        isVoid tag = false → Element.holdsFootnotes ⟨tag, attrs, children⟩ = false →
        n ∈ children → (∀ m, n.settleFootnotes index heading limit = .ok m →
          Shows (OutputWith part) m) →
        ∀ m, (Node.element tag attrs children).settleFootnotes index heading limit = .ok m →
          Shows (OutputWith part) m := by
      intro tag attrs children n hv hnone hm ih m hsettled
      obtain ⟨settled, hchildren, rfl⟩ := Node.settleFootnotes_element hnone hsettled
      obtain ⟨c, hc, hsettled⟩ := Node.exists_settled_of_mem hm hchildren
      exact .inside hv hc (ih c hsettled)
    induction h with
    | here h =>
      obtain ⟨s, rfl, hs⟩ := h
      intro m hm
      cases hm
      exact .here ⟨s, rfl, hs⟩
    | inside he hm _ ih => exact hkeep he.noVoid he.noFootnotes hm ih
    | folded he hm _ _ ih => exact hkeep (by decide) he hm ih
    | noted he _ hitem hd hm hn _ =>
      intro m hsettled
      obtain ⟨id, hid⟩ := Option.isSome_iff_exists.1 hd
      obtain ⟨item, hmem, rfl⟩ := hitem.exists_mem
      obtain ⟨s, body, rfl, hbody, hin⟩ :=
        exists_infix_section he.holds (List.mem_cons_of_mem _ hmem) hid hsettled
      have hprinted := infix_strip hpart (infix_printAll_outputWith hm hn.shows hbody)
      exact .here ⟨s, rfl, (hprinted.trans (List.suffix_append _ _).isInfix).trans hin⟩
  obtain ⟨m, hmout, hsettled⟩ := Node.exists_settled_of_mem hn hout
  exact ⟨m, hmout, hnode m hsettled⟩

end StorageMarkup
