import StorageMarkup.Proofs.Document.Stages
import StorageMarkup.Proofs.Footnote.Linked
import StorageMarkup.Proofs.Footnote.Settled

/-!
# Links to footnotes and back have somewhere to lead

Only a footnote that is both defined and referred to gets links, and it gets an anchor at
either place. So no link leads nowhere, as long as the places are ones that the passes come
to: links are rewritten by the rules for elements, containers only after those rules have
written folding sections out.

Results:
1. `authored_convert`: all links of a converted tree are those of linked footnotes.
2. `anchors_written`: both anchors of a footnote in such places are written.
3. `cross_references_resolve`: where a link leads there is an anchor.
4. `cross_references_dangle`: a container in a folding section, a reference in a code block.
-/

namespace StorageMarkup

variable {nodes : List Node} {id out : List Char}

/-- Without braces and start marks, the passes up to mapping only unwrap the body. -/
theorem shielded_of_plain (h : PlainNodes nodes) :
    shielded .empty nodes = Node.bodyOf nodes ∧ filledVault .empty nodes = .empty := by
  have hlifted : lifted .empty nodes = Node.bodyOf nodes :=
    liftMarkersAmong_of_plain (all_bodyOf h) _
  have hshield := shieldNodes_of_plain (all_bodyOf h) .empty
  rw [shielded, filledVault, hlifted, hshield]
  exact ⟨rfl, rfl⟩

/-- All links of a converted tree are those of linked footnotes. -/
theorem authored_convert {options : Options} (hoptions : options.Unbraced)
    (hplain : PlainNodes nodes) (hout : (convert options nodes).result = .ok out) :
    Authored (LinkedTarget (.ofNodes (Node.bodyOf nodes))) out := by
  obtain ⟨mapped, folded, settled, text, hmapped, hfolded, hsettled, htext, rfl⟩ :=
    convertWith_eq_ok hout
  obtain ⟨hshielded, hvault⟩ := shielded_of_plain hplain
  rw [hshielded, hvault] at hmapped
  rw [hvault, expand_empty]
  have hbody : ∀ n ∈ Node.bodyOf nodes, BuiltFor (.ofNodes (Node.bodyOf nodes)) n := fun n hn =>
    (all_bodyOf hplain n hn).built fun _ => .of_not_mem
  have hbuilt := built_mapping hoptions hbody hmapped
  obtain rfl := foldAll_of_plain (fun n hn => (hbuilt n hn).each) hfolded
  have hsections := built_settleFootnotesAmong hoptions.footnotesHeading hbuilt hsettled
  exact (authored_printAll hsections htext).capNewlineRuns

/-- Both anchors of a linked footnote are written, if one of its definitions and one of the
references to it stand where the passes come to them. -/
theorem anchors_written {options : Options} (hplain : PlainNodes nodes)
    (hlinked : (Footnote.Index.ofNodes (Node.bodyOf nodes)).isLinked id = true)
    (hplaced : WellPlaced id (Node.bodyOf nodes))
    (hout : (convert options nodes).result = .ok out) :
    Directive.anchor (Footnote.anchorName id) <:+: out ∧
      Directive.anchor (Footnote.referenceAnchorName id) <:+: out := by
  obtain ⟨mapped, folded, settled, text, hmapped, hfolded, hsettled, htext, rfl⟩ :=
    convertWith_eq_ok hout
  obtain ⟨hshielded, hvault⟩ := shielded_of_plain hplain
  rw [hshielded, hvault] at hmapped
  rw [hshielded] at hsettled
  rw [hvault, expand_empty]
  have hbody : PlainTexts (Node.bodyOf nodes) := fun n hn => (all_bodyOf hplain n hn).each
  have htexts : PlainTexts mapped := Mapping.each_mapping (fun _ _ _ _ => trivial) hbody hmapped
  obtain rfl := foldAll_of_plain htexts hfolded
  have hid := feed_not_mem_of_container hplaced.defined
  have hwritten : ∀ stem, '\n' ∉ stem →
      (∃ m ∈ settled, Shows (OutputWith (Directive.anchor (.text (stem ++ id)))) m) →
      Directive.anchor (.text (stem ++ id)) <:+: capNewlineRuns text := by
    rintro stem hstem ⟨m, hm, hshows⟩
    exact anchor_infix_written (by rw [List.mem_append, not_or]; exact ⟨hstem, hid⟩)
      (infix_printAll_outputWith hm hshows htext)
  constructor
  · have hcontainer := exposes_containers hplaced.defined hmapped
    exact hwritten "footnote-".toList (by decide) (shows_definitions hlinked hcontainer hsettled)
  · have hreference := reaches_references hlinked hbody hplaced.referred hmapped
    exact hwritten "footnote-ref-".toList (by decide)
      (shows_references (capped_anchor _) hreference hsettled)

/-- Where a link to an anchor leads there is that anchor, if linked footnotes have both their places
where the passes come to them. -/
theorem anchor_of_link {options : Options} (hoptions : options.Unbraced) (hplain : PlainNodes nodes)
    (hplaced : ∀ id, (Footnote.Index.ofNodes (Node.bodyOf nodes)).isLinked id = true →
      WellPlaced id (Node.bodyOf nodes))
    (hout : (convert options nodes).result = .ok out)
    {label target : List Char} {tooltip : Value}
    (hlink : Directive.anchorLink (.text label) (.text target) tooltip <:+: out) :
    Directive.anchor (.text target) <:+: out := by
  obtain ⟨id, hlinked, htarget⟩ := (authored_convert hoptions hplain hout).leads_of_link hlink
  obtain ⟨hdefinition, hreference⟩ := anchors_written hplain hlinked (hplaced id hlinked) hout
  have hsame : ∀ {name : List Char},
      Directive.quoteValue (.text target) = Directive.quoteValue (.text name) →
        Directive.anchor (.text target) = Directive.anchor (.text name) := fun h => by
    rw [Directive.anchor_eq, Directive.anchor_eq, h]
  rcases htarget with h | h
  · exact hsame h ▸ hdefinition
  · exact hsame h ▸ hreference

/-- Links to the definition of a footnote and links back lead to anchors, if linked footnotes have a
definition and a reference where the passes come to them. That is to say: the container of the
definition is not in a folding section, and neither place in what a pass drops or reads as
text. -/
theorem cross_references_resolve (options : Options) (hoptions : options.Unbraced)
    (hplain : PlainNodes nodes)
    (hplaced : ∀ id, (Footnote.Index.ofNodes (Node.bodyOf nodes)).isLinked id = true →
      WellPlaced id (Node.bodyOf nodes))
    (hout : (convert options nodes).result = .ok out) (id label : List Char) (tooltip : Value) :
    (Directive.anchorLink (.text label) (Footnote.anchorName id) tooltip <:+: out →
      Directive.anchor (Footnote.anchorName id) <:+: out) ∧
    (Directive.anchorLink (.text label) (Footnote.referenceAnchorName id) tooltip <:+: out →
      Directive.anchor (Footnote.referenceAnchorName id) <:+: out) :=
  ⟨anchor_of_link hoptions hplain hplaced hout, anchor_of_link hoptions hplain hplaced hout⟩

/-- One footnote is referred to in a folding section, the other in the definition of the first. -/
theorem cross_references_resolve_section :
    let link (name label : String) : Node := .element ['a']
      [("href".toList, .text ("#user-content-".toList ++ name.toList))] [.text label.toList]
    let note (name : String) (children : List Node) : Node := .element "li".toList
      [("id".toList, .text ("user-content-".toList ++ name.toList))] children
    let notes : Node := .element "ol".toList [("class".toList, .list [.text "footnotes".toList])]
      [note "fn1" [link "fn2" "2"], note "fn2" [.text ['s']]]
    let nodes : List Node :=
      [.element "details".toList [] [.element ['p'] [] [link "fn1" "1"]], notes]
    let out := Directive.expand Options.standard.expandTitle
      ("<p>".toList ++ Footnote.referenceLink ['1'] ['1'] ++ "</p>".toList) ++
      "<h2>Footnotes</h2>\n".toList ++ Directive.anchor (Footnote.anchorName ['1']) ++
      Footnote.referenceLink ['2'] ['2'] ++ "\n\n".toList ++
      Directive.anchor (Footnote.anchorName ['2']) ++ "s\n\n".toList
    (convert .standard nodes).result = .ok out ∧
      Directive.anchorLink (.text ['2']) (Footnote.anchorName ['2']) .absent <:+: out ∧
      Directive.anchor (Footnote.anchorName ['2']) <:+: out := by
  intro link note notes nodes out
  have hout : (convert .standard nodes).result = .ok out := by decide +kernel
  have hlink : Directive.anchorLink (.text ['2']) (Footnote.anchorName ['2']) .absent <:+: out := by
    decide +kernel
  have hoptions : Options.standard.Unbraced :=
    ⟨.text (by decide), .text (by decide), .flag true, .text (by decide)⟩
  have hlinks : ∀ name label : String, (∀ c ∈ name.toList, Plain c) →
      (∀ c ∈ label.toList, Plain c) → (link name label).All fun s => ∀ c ∈ s, Plain c :=
    fun name label hname hlabel => .element (by decide) (List.forall_mem_singleton.2
      ⟨(by decide : ∀ c ∈ "href".toList, Plain c),
        .text (List.forall_mem_append.2 ⟨by decide, hname⟩)⟩)
      (List.forall_mem_singleton.2 (.text hlabel))
  have hnote : ∀ (name : String) (children : List Node), (∀ c ∈ name.toList, Plain c) →
      PlainNodes children → (note name children).All fun s => ∀ c ∈ s, Plain c :=
    fun name children hname hchildren => .element (by decide) (List.forall_mem_singleton.2
      ⟨(by decide : ∀ c ∈ "id".toList, Plain c),
        .text (List.forall_mem_append.2 ⟨by decide, hname⟩)⟩) hchildren
  have hnotes : notes.All fun s => ∀ c ∈ s, Plain c :=
    .element (by decide) (List.forall_mem_singleton.2
      ⟨by decide, .list (List.forall_mem_singleton.2 (.text (by decide)))⟩)
      (List.forall_mem_cons.2 ⟨hnote _ _ (by decide)
        (List.forall_mem_singleton.2 (hlinks _ _ (by decide) (by decide))),
        List.forall_mem_singleton.2 (hnote _ _ (by decide)
          (List.forall_mem_singleton.2 (.text (by decide))))⟩)
  have hsection : (Node.element "details".toList [] [.element ['p'] [] [link "fn1" "1"]]).All
      fun s => ∀ c ∈ s, Plain c :=
    .element (by decide) (fun a ha => absurd ha List.not_mem_nil) (List.forall_mem_singleton.2
      (.element (by decide) (fun a ha => absurd ha List.not_mem_nil)
        (List.forall_mem_singleton.2 (hlinks _ _ (by decide) (by decide)))))
  have hplain : PlainNodes nodes :=
    List.forall_mem_cons.2 ⟨hsection, List.forall_mem_singleton.2 hnotes⟩
  have hstays : Stays (.ofIndex (.ofNodes nodes)) ⟨"ol".toList,
      [("class".toList, .list [.text "footnotes".toList])],
      [note "fn1" [link "fn2" "2"], note "fn2" [.text ['s']]]⟩ :=
    { holds := by decide
      kept := by decide
      noBackLink := fun h => absurd h.1 (by decide)
      noLink := fun h => absurd h.1 (by decide) }
  have hparagraph : Passable (.ofIndex (.ofNodes nodes)) false false ['p'] [] :=
    ⟨by decide, by decide, by decide, fun h => absurd h.1 (by decide),
      .inl ⟨rfl, fun h => absurd h.1 (by decide)⟩⟩
  have hitem : Exposes (.ofIndex (.ofNodes nodes)) (ElementWith (· = ⟨"li".toList,
      [("id".toList, .text ("user-content-".toList ++ "fn1".toList))], [link "fn2" "2"]⟩)) false
      [note "fn1" [link "fn2" "2"], note "fn2" [.text ['s']]] :=
    ⟨_, List.mem_cons_self, .here ⟨_, rfl, rfl⟩⟩
  have hplaced : ∀ id, (Footnote.Index.ofNodes (Node.bodyOf nodes)).isLinked id = true →
      WellPlaced id (Node.bodyOf nodes) := by
    intro id hlinked
    have hbody : Node.bodyOf nodes = nodes := rfl
    have hindex : (Footnote.Index.ofNodes nodes).references = [['1'], ['2']] := by decide
    rw [hbody] at hlinked ⊢
    rw [Footnote.Index.isLinked, Bool.and_eq_true, List.contains_iff_mem, List.contains_iff_mem,
      hindex, List.mem_cons, List.mem_singleton] at hlinked
    rcases hlinked.2 with rfl | rfl
    · exact
        { defined := ⟨notes, List.mem_cons_of_mem _ List.mem_cons_self, .here ⟨_, rfl,
            { hstays with defines := ⟨_, List.mem_cons_self, .here ⟨⟨_, _, _⟩, rfl, by decide⟩⟩ }⟩⟩
          referred := ⟨_, List.mem_cons_self, .folded (by decide) (List.mem_singleton.2 rfl) rfl
            (.inside hparagraph (List.mem_singleton.2 rfl) (.here ⟨⟨_, _, _⟩, rfl, by decide⟩))⟩ }
    · exact
        { defined := ⟨notes, List.mem_cons_of_mem _ List.mem_cons_self, .here ⟨_, rfl,
            { hstays with
              defines := ⟨_, List.mem_cons_of_mem _ List.mem_cons_self,
                .here ⟨⟨_, _, _⟩, rfl, by decide⟩⟩ }⟩⟩
          referred := ⟨notes, List.mem_cons_of_mem _ List.mem_cons_self,
            .noted hstays (by decide) hitem (by decide) List.mem_cons_self
              (.here ⟨⟨_, _, _⟩, rfl, by decide⟩)⟩ }
  exact ⟨hout, hlink, (cross_references_resolve .standard hoptions hplain hplaced hout ['2'] ['2']
    .absent).1 hlink⟩

/-- A container in a folding section is written out as it stands, and what refers to it leads
nowhere. A reference in a code block is no text, so the way back from its definition leads
nowhere. -/
theorem cross_references_dangle :
    let link (name : String) (content : List Node) : Node :=
      .element ['a'] [("href".toList, .text ("#user-content-".toList ++ name.toList))] content
    let notes (content : List Node) : Node :=
      .element "ol".toList [("class".toList, .list [.text "footnotes".toList])]
        [.element "li".toList [("id".toList, .text "user-content-fn1".toList)] content]
    let folded : List Node := [link "fn1" [.text ['1']], .element "details".toList [] [notes []]]
    let coded : List Node := [.element "pre".toList [] [.element "code".toList [] [link "fn1" []]],
      notes [link "fnref1" []]]
    (∃ out, (convert .standard folded).result = .ok out ∧
      Footnote.referenceLink ['1'] ['1'] <:+: out ∧
      ¬ Directive.anchor (Footnote.anchorName ['1']) <:+: out) ∧
    ∃ out, (convert .standard coded).result = .ok out ∧ Footnote.backLink ['1'] <:+: out ∧
      ¬ Directive.anchor (Footnote.referenceAnchorName ['1']) <:+: out := by
  intro link notes folded coded
  have hfolded : (convert .standard folded).result = .ok (Footnote.referenceLink ['1'] ['1'] ++
      Directive.expand Options.standard.expandTitle
        "<ol class=\"footnotes\"><li id=\"user-content-fn1\"></li></ol>".toList) := by
    decide +kernel
  have hcoded : (convert .standard coded).result = .ok
      (Directive.code [] Options.standard.codeLanguage Options.standard.codeLineNumbers ++
        "<h2>Footnotes</h2>\n".toList ++ Directive.anchor (Footnote.anchorName ['1']) ++
        Footnote.backLink ['1'] ++ "\n\n".toList) := by
    decide +kernel
  exact ⟨⟨_, hfolded, by decide +kernel, by decide +kernel⟩,
    ⟨_, hcoded, by decide +kernel, by decide +kernel⟩⟩

end StorageMarkup
