import StorageMarkup.Proofs.Footnote.Authored
import StorageMarkup.Proofs.Mapping.Each
import StorageMarkup.Proofs.Tree.Plain

/-!
# Only linked footnotes get links

What a tree without braces is converted to is put together by the rules. Only the rule
for footnotes writes links to anchors, and only for footnotes that the index has as
linked.

Results:
1. `Node.Built`: a tree whose final output alone may hold directives.
2. `authored_backLink`, `authored_referenceLink`: the links of footnotes.
3. `built_mapping`, `built_settleFootnotesAmong`, `authored_printAll`: each pass.
-/

namespace StorageMarkup

open Directive (SparseParams quoteValue)

variable {leads : List Char → Prop} {s id : List Char} {n : Node} {nodes out : List Node}
  {limit : Limit} {env : Mapping.Env} {index : Footnote.Index}

/-! ## Trees -/

/-- Texts, tags and attributes are plain, and final output has the property. -/
inductive Node.Built (R : List Char → Prop) : Node → Prop
  | text {s : List Char} (h : ∀ c ∈ s, Plain c) : Node.Built R (.text s)
  | raw {s : List Char} (h : R s) : Node.Built R (.raw s)
  | element {tag : List Char} {attrs : Attributes} {children : List Node}
      (htag : ∀ c ∈ tag, Plain c) (hattrs : attrs.All fun s => ∀ c ∈ s, Plain c)
      (h : ∀ c ∈ children, Node.Built R c) : Node.Built R (.element tag attrs children)
  | root {children : List Node} (h : ∀ c ∈ children, Node.Built R c) : Node.Built R (.root children)

theorem brace_not_mem_of_plain (h : ∀ c ∈ s, Plain c) : '{' ∉ s := fun hm =>
  absurd (h _ hm).2 (by decide)

/-- A tree of plain strings alone. -/
theorem Node.All.built {R : List Char → Prop} (h : n.All fun s => ∀ c ∈ s, Plain c)
    (hR : ∀ s, '{' ∉ s → R s) : n.Built R := by
  induction h with
  | text h => exact .text h
  | raw h => exact .raw (hR _ (brace_not_mem_of_plain h))
  | element htag hattrs _ ih => exact .element htag hattrs ih
  | root _ ih => exact .root ih

namespace Node.Built

variable {R : List Char → Prop}

theorem of_text (h : (Node.text s).Built R) : ∀ c ∈ s, Plain c := by
  cases h with
  | text h => exact h

theorem of_raw (h : (Node.raw s).Built R) : R s := by
  cases h with
  | raw h => exact h

theorem of_root {children : List Node} (h : (Node.root children).Built R) :
    ∀ c ∈ children, c.Built R := by
  cases h with
  | root h => exact h

theorem of_element {tag : List Char} {attrs : Attributes} {children : List Node}
    (h : (Node.element tag attrs children).Built R) : (∀ c ∈ tag, Plain c) ∧
      (attrs.All fun s => ∀ c ∈ s, Plain c) ∧ ∀ c ∈ children, c.Built R := by
  cases h with
  | element htag hattrs h => exact ⟨htag, hattrs, h⟩

theorem each (h : n.Built R) : n.Each (fun s => ∀ c ∈ s, Plain c) fun _ _ => True := by
  induction h with
  | text h => exact .text h
  | raw => exact .raw _
  | element _ _ _ ih => exact .element trivial ih
  | root _ ih => exact .root ih

theorem elements (h : n.Built R) : ∀ e ∈ n.elements,
    (e.attributes.All fun s => ∀ c ∈ s, Plain c) ∧ ∀ c ∈ e.children, c.Built R := by
  induction h with
  | text | raw => exact fun e he => absurd he List.not_mem_nil
  | element _ hattrs hc ih =>
    rw [Node.elements, List.forall_mem_cons, Node.elementsOf_eq, List.forall_mem_flatMap]
    exact ⟨⟨hattrs, hc⟩, ih⟩
  | root _ ih =>
    rw [Node.elements, Node.elementsOf_eq, List.forall_mem_flatMap]
    exact ih

theorem characterDataOf (h : ∀ n ∈ nodes, n.Built R) :
    ∀ c ∈ Node.characterDataOf nodes, Plain c := by
  have hnode : ∀ {n : Node}, n.Built R → ∀ c ∈ n.characterData, Plain c := by
    intro n hn
    induction hn with
    | text h => exact h
    | raw => exact fun c hc => absurd hc List.not_mem_nil
    | element _ _ _ ih | root _ ih =>
      rw [Node.characterData, Node.characterDataOf_eq]
      exact List.forall_mem_flatMap.2 ih
  rw [Node.characterDataOf_eq]
  exact List.forall_mem_flatMap.2 fun n hn => hnode (h n hn)

end Node.Built

/-- A tree is written with the texts that rules have put together in it. -/
theorem authored_printAll (h : ∀ n ∈ nodes, n.Built (Authored leads))
    (hs : Node.printAll limit nodes = .ok s) : Authored leads s := by
  have hplain : ∀ {s : List Char}, (∀ c ∈ s, Plain c) → Authored leads s := fun hs =>
    .of_not_mem (brace_not_mem_of_plain hs)
  have htags : ∀ {tag : List Char} {attrs : Attributes}, (∀ c ∈ tag, Plain c) →
      (attrs.All fun s => ∀ c ∈ s, Plain c) → Authored leads ('<' :: tag ++ attrs.print) :=
    fun htag hattrs => hplain (List.forall_mem_append.2
      ⟨List.forall_mem_cons.2 ⟨by decide, htag⟩, writable_plain.print hattrs⟩)
  refine Node.printAll_ok_induct (R := fun _ n s => n.Built (Authored leads) → Authored leads s)
    (S := fun _ nodes s => (∀ n ∈ nodes, n.Built (Authored leads)) → Authored leads s)
    ?_ ?_ ?_ ?_ ?_ ?_ ?_ hs h
  · exact fun _ _ => .of_not_mem List.not_mem_nil
  · intro _ n rest first others hfirst hothers h
    rw [List.forall_mem_cons] at h
    exact (hfirst h.1).append (hothers h.2)
  · intro pre s h
    exact hplain (plain_printText h.of_text pre)
  · exact fun _ s h => h.of_raw
  · exact fun _ children s hs h => hs h.of_root
  · intro _ tag attrs children _ h
    obtain ⟨htag, hattrs, -⟩ := h.of_element
    exact (htags htag hattrs).append (.of_not_mem (by decide))
  · intro _ tag attrs children inner _ hinner h
    obtain ⟨htag, hattrs, hchildren⟩ := h.of_element
    exact (((((htags htag hattrs).append (.of_not_mem (by decide))).append
      (hinner hchildren)).append (.of_not_mem (by decide))).append (hplain htag)).append
        (.of_not_mem (by decide))

/-! ## Links -/

/-- Where the links of linked footnotes lead, as it is quoted. -/
def LinkedTarget (index : Footnote.Index) (target : List Char) : Prop :=
  ∃ id, index.isLinked id = true ∧ (target = quoteValue (Footnote.anchorName id) ∨
    target = quoteValue (Footnote.referenceAnchorName id))

/-- A tree in which all links are those of linked footnotes. -/
abbrev BuiltFor (index : Footnote.Index) : Node → Prop := Node.Built (Authored (LinkedTarget index))

/-- An id that comes from a plain string has no brace, nor has a name made of it. -/
theorem IdFrom.brace_not_mem (h : IdFrom s id) (hs : ∀ c ∈ s, Plain c) {stem : List Char}
    (hstem : '{' ∉ stem) : '{' ∉ stem ++ id := by
  rw [List.mem_append, not_or]
  exact ⟨hstem, fun hm => brace_not_mem_of_plain hs (h.cut.subset hm)⟩

theorem IdFrom.feed_not_mem_append (h : IdFrom s id) {stem : List Char} (hstem : '\n' ∉ stem) :
    '\n' ∉ stem ++ id := by
  rw [List.mem_append, not_or]
  exact ⟨hstem, h.feed_not_mem⟩

theorem authored_backLink (hid : IdFrom s id) (hs : ∀ c ∈ s, Plain c)
    (hlinked : index.isLinked id = true) :
    Authored (LinkedTarget index) (Footnote.backLink id) :=
  .of_emitted (emitted_anchorLink (by decide) (hid.brace_not_mem hs (by decide)) (.text (by decide))
    (hid.feed_not_mem_append (by decide)) ⟨id, hlinked, .inr rfl⟩)

theorem authored_referenceLink (hid : IdFrom s id) (hs : ∀ c ∈ s, Plain c)
    (hlinked : index.isLinked id = true) {label : List Char} (hlabel : '{' ∉ label) :
    Authored (LinkedTarget index) (Footnote.referenceLink id label) :=
  (Authored.of_emitted (emitted_anchor (hid.brace_not_mem hs (by decide)))).append
    (.of_emitted (emitted_anchorLink hlabel (hid.brace_not_mem hs (by decide)) .absent
      (hid.feed_not_mem_append (by decide)) ⟨id, hlinked, .inl rfl⟩))

theorem authored_link? {e : Element} (h : BuiltFor index e.toNode)
    (hs : Footnote.link? index e = some s) : Authored (LinkedTarget index) s := by
  obtain ⟨-, hattrs, hchildren⟩ := h.of_element
  unfold Footnote.link? at hs
  split at hs
  · cases hs
  · next href hhref =>
    have hplain := hattrs.text? hhref
    cases hb : Footnote.backReference? href with
    | some id =>
      simp only [hb] at hs
      split at hs
      · next hlinked =>
        cases hs
        exact authored_backLink (Footnote.idFrom_backReference? hb) hplain hlinked
      · cases hs
    | none =>
      cases hr : Footnote.reference? href with
      | none => simp only [hb, hr, reduceCtorEq] at hs
      | some id =>
        simp only [hb, hr] at hs
        split at hs
        · next hlinked =>
          cases hs
          exact authored_referenceLink (Footnote.idFrom_reference? hr) hplain hlinked fun hm =>
            brace_not_mem_of_plain (Node.Built.characterDataOf hchildren) (mem_of_mem_strip hm)
        · cases hs

/-! ## Rules -/

/-- No option that is written into markup holds an opening brace. -/
structure Options.Unbraced (o : Options) : Prop where
  footnotesHeading : o.footnotesHeading.All ('{' ∉ ·)
  codeLanguage : o.codeLanguage.All ('{' ∉ ·)
  codeLineNumbers : o.codeLineNumbers.All ('{' ∉ ·)
  expandTitle : o.expandTitle.All ('{' ∉ ·)

namespace Mapping

variable {R : List Char → Prop} {e : Element}

/-- A size is written if it is there, and comes from the attributes. -/
theorem sparseParams_size {attrs : Attributes} (h : attrs.All ('{' ∉ ·)) {key : List Char}
    (hkey : '{' ∉ key) (name : List Char) : SparseParams
      (if ((attrs.get? name).getD .absent).isSet then
        [(key, .text ((attrs.get? name).getD .absent).toText)] else []) := by
  have hvalue : Sparse ((attrs.get? name).getD .absent).toText := by
    cases hg : attrs.get? name with
    | none => exact sparse_toText .absent
    | some value => exact sparse_toText (h.get? hg)
  split
  · exact List.forall_mem_singleton.2 ⟨hkey, hvalue⟩
  · exact fun p hp => absurd hp List.not_mem_nil

theorem built_image (h : e.toNode.Built (Authored leads)) :
    ∀ n ∈ image e, n.Built (Authored leads) := by
  obtain ⟨-, hattrs, -⟩ := h.of_element
  have hall := hattrs.mono fun _ => brace_not_mem_of_plain
  unfold image
  split
  · exact List.forall_mem_singleton.2 h
  · exact List.forall_mem_singleton.2 h
  · next src _ hsrc =>
    have halt : '{' ∉ (e.attributes.text? "alt".toList).getD [] := by
      cases ha : e.attributes.text? "alt".toList with
      | none => exact List.not_mem_nil
      | some alt => exact hall.text? ha
    have hpath : '{' ∉ replaceAll "%22".toList [] src := fun hm =>
      hall.text? hsrc (mem_of_mem_replaceAll_nil hm)
    have hsource : SparseParams [("src".toList, .text (replaceAll "%22".toList [] src)),
        ("alt".toList, .text ((e.attributes.text? "alt".toList).getD []))] :=
      List.forall_mem_cons.2 ⟨⟨(by decide : '{' ∉ "src".toList), .of_not_mem hpath⟩,
        List.forall_mem_singleton.2 ⟨(by decide : '{' ∉ "alt".toList), .of_not_mem halt⟩⟩
    have hbraced : Braced (Directive.image src (.text ((e.attributes.text? "alt".toList).getD []))
        ((e.attributes.get? "width".toList).getD .absent)
        ((e.attributes.get? "height".toList).getD .absent) []) := by
      refine Directive.braced_inline (by decide) (by decide) ?_
      exact List.forall_mem_append.2 ⟨List.forall_mem_append.2 ⟨List.forall_mem_append.2
        ⟨hsource, sparseParams_size hall (by decide) _⟩, sparseParams_size hall (by decide) _⟩,
        fun p hp => absurd hp List.not_mem_nil⟩
    exact List.forall_mem_singleton.2 (.raw (.of_emitted (.of_braced hbraced
      (Directive.prefix_inline _ _) (by decide) (by decide))))

theorem built_codeBlock (henv : env.options.Unbraced) (h : e.toNode.Built (Authored leads))
    (hout : codeBlock env e = .ok out) : ∀ n ∈ out, n.Built (Authored leads) := by
  obtain ⟨_, hattrs, hchildren⟩ := h.of_element
  have hstay : ∀ out, (pure [e.toNode] : Except Failure (List Node)) = .ok out →
      ∀ n ∈ out, n.Built (Authored leads) := by
    intro out hout
    cases hout
    exact List.forall_mem_singleton.2 h
  unfold codeBlock at hout
  split at hout
  · next tag attrs children hcontent =>
    split at hout
    · have hm : Node.element tag attrs children ∈ content e.children := by
        rw [hcontent]
        exact List.mem_cons_self
      obtain ⟨_, hattrs', hchildren'⟩ := (hchildren _ (List.mem_filter.1 hm).1).of_element
      obtain ⟨found, hfound, hout⟩ := bind_eq_ok.1 hout
      cases hout
      have hbody : '{' ∉ stripRight (Node.characterDataOf children) := fun hm =>
        brace_not_mem_of_plain (Node.Built.characterDataOf hchildren') (mem_of_mem_stripRight hm)
      refine List.forall_mem_singleton.2 (.raw (authored_block (by decide)
        (Directive.SparseParams.of_all (List.forall_mem_cons.2
          ⟨⟨(by decide : '{' ∉ "language".toList), ?_⟩, List.forall_mem_singleton.2
            ⟨(by decide : '{' ∉ "linenumbers".toList), henv.codeLineNumbers⟩⟩))
        (.of_not_mem hbody)))
      -- the language is the one that was found, or the one for all code
      split
      · exact .text (all_languageOf? (fun _ _ h hm => h (List.mem_append_right _ hm))
          (fun _ h _ hw hm => h (subset_of_mem_pieces (List.mem_filter.1 hw).1 hm))
          (hattrs'.mono fun _ => brace_not_mem_of_plain)
          (hattrs.mono fun _ => brace_not_mem_of_plain) hfound)
      · exact henv.codeLanguage
    · exact hstay out hout
  · exact hstay out hout

theorem built_foldingSection (henv : env.options.Unbraced) (h : e.toNode.Built (Authored leads))
    (hout : (foldingSection env e).result = .ok out) : ∀ n ∈ out, n.Built (Authored leads) := by
  obtain ⟨_, _, hchildren⟩ := h.of_element
  obtain ⟨hsummary, hothers⟩ := mem_of_takeSummary e.children
  unfold foldingSection at hout
  generalize hs : takeSummary e.children = parts at hout hsummary hothers
  obtain ⟨summary, others⟩ := parts
  obtain ⟨body, hbody, hout⟩ := Traced.bind_eq_ok.1 hout
  obtain ⟨text, htext, hout⟩ := Traced.bind_eq_ok.1 hout
  cases hout
  -- no region is in plain texts, and the title is one of them
  have hbuilt : ∀ n ∈ others, n.Built (Authored leads) := fun n hn => hchildren n (hothers n hn)
  obtain rfl := foldAll_of_plain (fun n hn => (hbuilt n hn).each) hbody
  have htitle : '{' ∉ strip ((summary.map Node.characterData).getD []) := by
    cases summary with
    | none => exact List.not_mem_nil
    | some n =>
      have hplain := Node.Built.characterDataOf
        (List.forall_mem_singleton.2 (hchildren n (hsummary n rfl)))
      rw [Node.characterDataOf, Node.characterDataOf, List.append_nil] at hplain
      exact fun hm => brace_not_mem_of_plain hplain (mem_of_mem_strip hm)
  refine List.forall_mem_singleton.2 (.raw (authored_block (by decide)
    (Directive.SparseParams.of_all (List.forall_mem_singleton.2
      ⟨(by decide : '{' ∉ "title".toList), ?_⟩)) (authored_printAll hbuilt htext).strip))
  show Value.All _ (if _ then _ else _)
  split
  · exact henv.expandTitle
  · exact .text htitle

theorem built_element (henv : env.options.Unbraced) (h : BuiltFor env.footnotes e.toNode)
    (hout : (element env e).result = .ok out) : ∀ n ∈ out, BuiltFor env.footnotes n := by
  obtain ⟨htag, hattrs, hchildren⟩ := h.of_element
  refine element_ok (T := fun out => ∀ n ∈ out, BuiltFor env.footnotes n) ?_ ?_ ?_ ?_ ?_ ?_ ?_ hout
  · exact fun _ => built_image h
  · intro _
    unfold link
    split
    · next directives hd => exact List.forall_mem_singleton.2 (.raw (authored_link? h hd))
    · exact List.forall_mem_singleton.2 h
  · exact fun _ out => built_codeBlock henv h
  · intro _
    unfold codeWrapper
    simp only
    split
    · exact fun n hn => hchildren n (List.mem_filter.1 hn).1
    · exact List.forall_mem_singleton.2 h
  · exact fun header => List.forall_mem_singleton.2
      (.element htag (writable_plain.cellAttributes hattrs header) hchildren)
  · exact fun _ out => built_foldingSection henv h
  · exact List.forall_mem_singleton.2 h

end Mapping

/-! ## Passes -/

theorem built_mapping (henv : env.options.Unbraced) {depth : Nat}
    (h : ∀ n ∈ nodes, BuiltFor env.footnotes n)
    (hout : (Mapping.nodes env depth nodes).result = .ok out) :
    ∀ n ∈ out, BuiltFor env.footnotes n := by
  refine Mapping.nodes_ok
    (R := fun n out => BuiltFor env.footnotes n → ∀ m ∈ out, BuiltFor env.footnotes m)
    (S := fun nodes out => (∀ n ∈ nodes, BuiltFor env.footnotes n) →
      ∀ m ∈ out, BuiltFor env.footnotes m)
    (fun h => h) ?_ (fun _ h => List.forall_mem_singleton.2 h)
    (fun _ h => List.forall_mem_singleton.2 h) (fun _ h => List.forall_mem_singleton.2 h) ?_ hout h
  · intro n rest first others hfirst hothers h
    rw [List.forall_mem_cons] at h
    exact List.forall_mem_append.2 ⟨hfirst h.1, hothers h.2⟩
  · intro tag attrs children mapped out hmapped hrule h
    obtain ⟨htag, hattrs, hchildren⟩ := h.of_element
    exact Mapping.built_element (e := ⟨tag, attrs, mapped⟩) henv
      (.element htag hattrs (hmapped hchildren)) hrule

theorem authored_definitionTexts {items : List Element}
    (h : ∀ e ∈ items, (e.attributes.All fun s => ∀ c ∈ s, Plain c) ∧
      ∀ c ∈ e.children, c.Built (Authored leads))
    (hs : Footnote.definitionTexts index limit items = .ok s) : Authored leads s := by
  induction items generalizing s with
  | nil =>
    cases hs
    exact .of_not_mem List.not_mem_nil
  | cons item items ih =>
    rw [List.forall_mem_cons] at h
    rw [Footnote.definitionTexts] at hs
    split at hs
    · exact ih h.2 hs
    · next id hid =>
      obtain ⟨body, hbody, hs⟩ := bind_eq_ok.1 hs
      obtain ⟨others, hothers, hs⟩ := bind_eq_ok.1 hs
      cases hs
      refine .append (.append (.append ?_ (authored_printAll h.1.2 hbody).strip)
        (.of_not_mem (by decide))) (ih h.2 hothers)
      split
      · obtain ⟨-, idText, hidText, hid⟩ := exists_of_definition? hid
        exact .of_emitted (emitted_anchor (hid.brace_not_mem (h.1.1.text? hidText) (by decide)))
      · exact .of_not_mem List.not_mem_nil

theorem authored_sectionText {heading : Value} (hheading : heading.All ('{' ∉ ·)) {e : Element}
    (he : e.toNode.Built (Authored leads))
    (hs : Footnote.sectionText index heading limit e = .ok s) : Authored leads s := by
  unfold Footnote.sectionText at hs
  obtain ⟨title, htitle, hs⟩ := bind_eq_ok.1 hs
  obtain ⟨definitions, hdefinitions, hs⟩ := bind_eq_ok.1 hs
  cases hs
  have ht : '{' ∉ escapeText title := by
    cases heading with
    | text t =>
      cases htitle
      intro hm
      obtain ⟨c, hc, hm⟩ := List.mem_flatMap.1 hm
      have hne : ∀ c, c ≠ Vault.startMark → Directive.isBrace c = false → c ≠ '{' :=
        fun c _ hb => (Directive.isBrace_eq_false.1 hb).1
      exact Woven.plain_of_mem_escapeTextChar hne
        (fun he => hheading.of_text (he ▸ hc)) hm rfl
    | absent | flag | number | list | record | other => cases htitle
  exact .append (.append (.append (.of_not_mem (by decide)) (.of_not_mem ht))
    (.of_not_mem (by decide))) (authored_definitionTexts (fun e' hm => he.elements e' hm)
      hdefinitions)

theorem built_settleFootnotesAmong {heading : Value} (hheading : heading.All ('{' ∉ ·))
    (h : ∀ n ∈ nodes, n.Built (Authored leads))
    (hout : Node.settleFootnotesAmong index heading limit nodes = .ok out) :
    ∀ n ∈ out, n.Built (Authored leads) := by
  refine Node.settleFootnotesAmong_ok
    (R := fun n out => n.Built (Authored leads) → out.Built (Authored leads))
    (S := fun nodes out => (∀ n ∈ nodes, n.Built (Authored leads)) →
      ∀ n ∈ out, n.Built (Authored leads))
    (fun h => h) (fun _ _ _ _ => forall_cons_of_imp) (fun _ h => h) (fun _ h => h) (fun _ h => h)
    ?_ ?_ hout h
  · intro e s _ hs he
    exact .raw (authored_sectionText hheading he hs)
  · intro tag attrs children out _ hchildren h
    obtain ⟨htag, hattrs, h⟩ := h.of_element
    exact .element htag hattrs (hchildren h)

end StorageMarkup
