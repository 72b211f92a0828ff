import StorageMarkup.Proofs.Mapping.Each
import StorageMarkup.Proofs.Region.Closing
import StorageMarkup.Proofs.Tree.Intact

/-!
# Rules, regions and footnotes keep placeholders whole

The rules of the mapping read identifiers, classes and sizes out of attributes and
write them into directives, a region's open token is revealed before it is written,
and a footnote's id is cut out of a link. All of these leave placeholders whole, and
the names of regions hold none.

Results:
1. `intact_foldAll`: regions.
2. `intact_link?`, `intact_settleFootnotesAmong`: footnotes.
3. `intact_mapping`: the rules for elements.
-/

namespace StorageMarkup

open Vault

variable {known : Nat → Prop} {limit : Limit} {v : Vault}

/-! ## Regions -/

/-- The head of an open marker is revealed, so neither it nor the name holds a start mark. -/
theorem openingMarker?_free (hv : v.Ordered) {n : Node} {head name : List Char}
    (hn : n.All (Intact (· < v.size))) (h : n.openingMarker? (some v) = some (head, name)) :
    startMark ∉ head ∧ startMark ∉ name := by
  obtain ⟨s, hs, rfl, hname⟩ := Region.openingMarker?_eq_some.1 h
  have htext : Intact (· < v.size) s := by
    cases hs with
    | text => exact hn.of_text
    | paragraph _ => exact (hn.of_element.2.2 _ List.mem_cons_self).of_text
  have hhead : startMark ∉ strip (reveal (some v) (strip s)) := fun hm =>
    hv.expand_free htext.strip (mem_of_mem_strip hm)
  exact ⟨hhead, fun hm => hhead (Directive.mem_of_openName? hname hm)⟩

theorem intact_cutHit {wanted : Entry → Bool} {s before after : List Char}
    (hs : Intact known s) (h : cutHit Entry.placeholder wanted (v.split s) = some (before, after)) :
    Intact known before ∧ Intact known after := by
  obtain ⟨front, e, back, hps, _, rfl, rfl⟩ := cutHit_eq_some h
  have hspell := v.spell_split s
  rw [hps, spell_append, spell] at hspell
  rw [← hspell] at hs
  refine ⟨?_, hs.of_suffix.of_suffix⟩
  obtain ⟨w, hw⟩ := placeholder_eq_cons e.number
  obtain ⟨numbers, hwoven⟩ := intact_iff_woven.1 hs
  rw [Entry.placeholder, hw, List.cons_append] at hwoven
  obtain ⟨a, _, _, ha, _⟩ := hwoven.split fun n u hu => by
    rw [hu.2]
    exact startMark_not_mem_tail n
  exact intact_iff_woven.2 ⟨a, ha⟩

theorem intact_cutFirstClosing {name s before after : List Char} (hs : Intact known s)
    (h : cutFirstClosing (some v) name s = some (before, after)) :
    Intact known before ∧ Intact known after := by
  rcases Region.cutFirstClosing_eq_some h with hcut | hcut
  · rw [eq_of_cutAt hcut, List.append_assoc] at hs
    refine ⟨?_, hs.of_suffix.of_suffix⟩
    rw [Directive.closing_eq] at hs
    exact (hs.cut (by decide)).1
  · exact intact_cutHit hs hcut

theorem intact_takeClosing {name : List Char} {n : Node} (hn : n.All (Intact known))
    {left : Option Node} (h : n.takeClosing (some v) name = some left) :
    ∀ m ∈ left, m.All (Intact known) := by
  refine Region.takeClosing_ok (T := fun n left => n.All (Intact known) →
    ∀ m ∈ left, m.All (Intact known)) ?_ ?_ n left h hn
  · intro s before after hcut hs
    obtain ⟨hb, ha⟩ := intact_cutFirstClosing hs.of_text hcut
    split
    · exact fun m hm => nomatch hm
    · intro m hm
      cases hm
      exact .text (hb.append ha).stripRight
  · intro tag attrs before c left after _ hleft hn
    obtain ⟨htag, hattrs, hchildren⟩ := hn.of_element
    rw [List.forall_mem_append, List.forall_mem_cons] at hchildren
    split
    · exact fun m hm => nomatch hm
    · intro m hm
      cases hm
      refine .element htag hattrs (List.forall_mem_append.2 ⟨List.forall_mem_append.2
        ⟨hchildren.1, fun m hm => hleft hchildren.2.1 m (Option.mem_toList.1 hm)⟩, hchildren.2.2⟩)

theorem intact_span? {name : List Char} {nodes span after : List Node}
    (hnodes : ∀ n ∈ nodes, n.All (Intact known))
    (h : Region.span? (some v) name nodes = some (span, after)) :
    (∀ n ∈ span, n.All (Intact known)) ∧ ∀ n ∈ after, n.All (Intact known) := by
  obtain ⟨before, n, left, rfl, rfl, hleft⟩ := Region.span?_eq_some h
  rw [List.forall_mem_append, List.forall_mem_cons] at hnodes
  refine ⟨List.forall_mem_append.2 ⟨hnodes.1, fun m hm => ?_⟩, hnodes.2.2⟩
  exact intact_takeClosing hnodes.2.1 hleft m (Option.mem_toList.1 hm)

theorem intact_foldAmong (hv : v.Ordered) {nodes out : List Node} {depth : Nat}
    (h : ∀ n ∈ nodes, n.All (Intact (· < v.size)))
    (hout : (Region.foldAmong limit (some v) depth nodes).result = .ok out) :
    ∀ n ∈ out, n.All (Intact (· < v.size)) := by
  refine Region.foldAmong_ok (S := fun nodes out => (∀ n ∈ nodes, n.All (Intact (· < v.size))) →
    ∀ n ∈ out, n.All (Intact (· < v.size))) ?_ ?_ ?_ nodes depth out hout h
  · exact fun h => h
  · intro n rest others hothers h
    rw [List.forall_mem_cons] at h
    exact List.forall_mem_cons.2 ⟨h.1, hothers h.2⟩
  · intro n head name rest span after inner body others hm hs hinner hbody hothers h
    rw [List.forall_mem_cons] at h
    obtain ⟨hhead, hname⟩ := openingMarker?_free hv h.1 hm
    obtain ⟨hspan, hafter⟩ := intact_span? h.2 hs
    refine List.forall_mem_cons.2 ⟨.raw (Directive.intact_region (.of_free hhead) ?_ hname),
      hothers hafter⟩
    exact (intact_printAll (hinner hspan) hbody).strip

theorem intact_foldAll (hv : v.Ordered) {nodes out : List Node}
    (h : ∀ n ∈ nodes, n.All (Intact (· < v.size)))
    (hout : (Region.foldAll limit (some v) nodes).result = .ok out) :
    ∀ n ∈ out, n.All (Intact (· < v.size)) := by
  obtain ⟨mapped, hmapped, hfolded⟩ := Region.foldAll_eq_ok hout
  refine intact_foldAmong hv ?_ hfolded
  refine Region.foldBelowAll_ok
    (R := fun n out => n.All (Intact (· < v.size)) → out.All (Intact (· < v.size)))
    (S := fun nodes out => (∀ n ∈ nodes, n.All (Intact (· < v.size))) →
      ∀ n ∈ out, n.All (Intact (· < v.size)))
    (fun h => h) (fun _ _ _ _ => forall_cons_of_imp) (fun _ h => h) (fun _ h => h) (fun _ h => h)
    ?_ hmapped h
  intro tag attrs children mapped depth folded hmapped hfolded h
  obtain ⟨htag, hattrs, hchildren⟩ := h.of_element
  exact .element htag hattrs (intact_foldAmong hv (hmapped hchildren) hfolded)

/-! ## Footnotes -/

namespace Footnote

theorem intact_idThroughEnd? {s id : List Char} (hs : Intact known s)
    (h : idThroughEnd? s = some id) : Intact known id := by
  unfold idThroughEnd? at h
  simp only at h
  split at h
  · next hc =>
    cases h
    have he : s = s.takeWhile (!isSpace ·) ++ s.dropWhile (!isSpace ·) :=
      List.takeWhile_append_dropWhile.symm
    rw [Bool.and_eq_true, Bool.or_eq_true, List.isEmpty_iff, decide_eq_true_eq] at hc
    rcases hc.2 with hend | hend
    · rw [hend, List.append_nil] at he
      rwa [← he]
    · rw [he, hend] at hs
      exact (hs.cut (by decide)).1
  · cases h

theorem intact_of_mem_readings {s t : List Char} (hs : Intact known s) (h : t ∈ readings s) :
    Intact known t := by
  unfold readings at h
  split at h
  · next rest =>
    rw [List.mem_cons, List.mem_singleton] at h
    rcases h with rfl | rfl
    · exact Intact.of_suffix (t := ['-']) hs
    · exact hs
  · rw [List.mem_singleton] at h
    rwa [h]

theorem intact_findSome? {f : List Char → Option (List Char)}
    (hf : ∀ t id, Intact known t → f t = some id → Intact known id) {s id : List Char}
    (hs : Intact known s) (h : (readings s).findSome? f = some id) : Intact known id := by
  obtain ⟨t, ht, hid⟩ := List.exists_of_findSome?_eq_some h
  exact hf t id (intact_of_mem_readings hs ht) hid

theorem intact_definitionTail? {s id : List Char} (hs : Intact known s)
    (h : definitionTail? s = some id) : Intact known id := by
  refine intact_findSome? (fun t id ht hid => ?_) hs h
  split at hid
  · cases hid
  · exact intact_idThroughEnd? ht hid

theorem intact_afterStem {stem s id : List Char} {tail? : List Char → Option (List Char)}
    (htail : ∀ t id, Intact known t → tail? t = some id → Intact known id) (hs : Intact known s)
    (h : (dropStart? stem s).bind tail? = some id) : Intact known id := by
  obtain ⟨t, ht, hid⟩ := Option.bind_eq_some_iff.1 h
  rw [dropStart?_eq_some.1 ht] at hs
  exact htail t id hs.of_suffix hid

theorem intact_definition? {s id : List Char} (hs : Intact known s) (h : definition? s = some id) :
    Intact known id :=
  intact_afterStem (fun _ _ => intact_definitionTail?) hs h

theorem intact_reference? {s id : List Char} (hs : Intact known s) (h : reference? s = some id) :
    Intact known id :=
  intact_afterStem (fun _ _ => intact_definitionTail?) hs h

theorem intact_backReference? {s id : List Char} (hs : Intact known s)
    (h : backReference? s = some id) : Intact known id :=
  intact_afterStem (fun _ _ => intact_findSome? fun _ _ => intact_idThroughEnd?) hs h

theorem all_anchorName {id : List Char} (h : Intact known id) :
    (anchorName id).All (Intact known) := .text (.append (.of_free (by decide)) h)

theorem all_referenceAnchorName {id : List Char} (h : Intact known id) :
    (referenceAnchorName id).All (Intact known) := .text (.append (.of_free (by decide)) h)

theorem intact_anchor {name : Value} (h : name.All (Intact known)) :
    Intact known (Directive.anchor name) :=
  Directive.intact_inline (by decide)
    (List.forall_mem_singleton.2 ⟨(by decide : startMark ∉ "name".toList), h⟩)

theorem intact_anchorLink {label target tooltip : Value} (hl : label.All (Intact known))
    (ht : target.All (Intact known)) (htip : tooltip.All (Intact known)) :
    Intact known (Directive.anchorLink label target tooltip) := by
  refine Directive.intact_inline (by decide) ?_
  simp only [Directive.IntactParams, List.forall_mem_cons]
  exact ⟨⟨by decide, .text (.of_free (by decide))⟩, ⟨by decide, hl⟩, ⟨by decide, ht⟩,
    ⟨by decide, htip⟩, fun _ hm => absurd hm List.not_mem_nil⟩

theorem intact_characterDataOf {nodes : List Node} (h : ∀ n ∈ nodes, n.All (Intact known)) :
    Intact known (Node.characterDataOf nodes) :=
  Node.All.characterDataOf (.of_free List.not_mem_nil) (fun _ _ => .append) h

theorem intact_link? {index : Index} {e : Element} (hattrs : e.attributes.All (Intact known))
    (hchildren : ∀ c ∈ e.children, c.All (Intact known)) {s : List Char}
    (h : link? index e = some s) : Intact known s := by
  unfold link? at h
  split at h
  · cases h
  · next href hhref =>
    have hs := hattrs.text? hhref
    cases hb : backReference? href with
    | some id =>
      rw [hb] at h
      simp only at h
      split at h
      · cases h
        exact intact_anchorLink (.text (.of_free (by decide)))
          (all_referenceAnchorName (intact_backReference? hs hb)) (.text (.of_free (by decide)))
      · cases h
    | none =>
      cases hr : reference? href with
      | none =>
        rw [hb, hr] at h
        cases h
      | some id =>
        rw [hb, hr] at h
        simp only at h
        split at h
        · cases h
          have hid := intact_reference? hs hr
          exact (intact_anchor (all_referenceAnchorName hid)).append
            (intact_anchorLink (.text (intact_characterDataOf hchildren).strip)
              (all_anchorName hid) .absent)
        · cases h

theorem intact_definitionTexts {index : Index} {items : List Element}
    (h : ∀ e ∈ items, e.attributes.All (Intact known) ∧ ∀ c ∈ e.children, c.All (Intact known))
    {s : List Char} (hs : definitionTexts index limit items = .ok s) : Intact known s := by
  induction items generalizing s with
  | nil =>
    cases hs
    exact .of_free List.not_mem_nil
  | cons item items ih =>
    rw [List.forall_mem_cons] at h
    rw [definitionTexts] at hs
    split at hs
    · exact ih h.2 hs
    · next id hid =>
      obtain ⟨body, hbody, hs⟩ := bind_eq_ok.1 hs
      obtain ⟨others, hothers, hs⟩ := bind_eq_ok.1 hs
      cases hs
      refine .append (.append (.append ?_ (intact_printAll h.1.2 hbody).strip)
        (.of_free (by decide))) (ih h.2 hothers)
      split
      · unfold Element.definition? at hid
        split at hid
        · obtain ⟨idText, hidText, hid⟩ := Option.bind_eq_some_iff.1 hid
          exact intact_anchor (all_anchorName (intact_definition? (h.1.1.text? hidText) hid))
        · cases hid
      · exact .of_free List.not_mem_nil

theorem intact_sectionText {index : Index} {heading : Value}
    (hheading : heading.All (Intact known)) {e : Element}
    (he : e.toNode.All (Intact known)) {s : List Char}
    (hs : sectionText index heading limit e = .ok s) : Intact known s := by
  unfold sectionText at hs
  obtain ⟨title, htitle, hs⟩ := bind_eq_ok.1 hs
  obtain ⟨definitions, hdefinitions, hs⟩ := bind_eq_ok.1 hs
  cases hs
  have ht : Intact known title := by
    cases heading with
    | text t =>
      cases htitle
      exact hheading.of_text
    | absent | flag | number | list | record | other => cases htitle
  exact .append (.append (.append (.of_free (by decide)) ht.escapeText) (.of_free (by decide)))
    (intact_definitionTexts (fun e' hm => (he.elements e' hm).2) hdefinitions)

end Footnote

theorem intact_settleFootnotesAmong {index : Footnote.Index} {heading : Value}
    (hheading : heading.All (Intact known)) {nodes out : List Node}
    (h : ∀ n ∈ nodes, n.All (Intact known))
    (hout : Node.settleFootnotesAmong index heading limit nodes = .ok out) :
    ∀ n ∈ out, n.All (Intact known) := by
  refine Node.settleFootnotesAmong_ok
    (R := fun n out => n.All (Intact known) → out.All (Intact known))
    (S := fun nodes out => (∀ n ∈ nodes, n.All (Intact known)) → ∀ n ∈ out, n.All (Intact known))
    (fun h => h) (fun _ _ _ _ => forall_cons_of_imp) (fun _ h => h) (fun _ h => h) (fun _ h => h)
    ?_ ?_ hout h
  · intro e s _ hs he
    exact .raw (Footnote.intact_sectionText hheading he hs)
  · intro tag attrs children out _ hchildren h
    obtain ⟨htag, hattrs, h⟩ := h.of_element
    exact .element htag hattrs (hchildren h)

/-! ## Rules -/

/-- No option that is written into markup holds a start mark. -/
structure Options.Unmarked (o : Options) : Prop where
  footnotesHeading : o.footnotesHeading.All (startMark ∉ ·)
  codeLanguage : o.codeLanguage.All (startMark ∉ ·)
  codeLineNumbers : o.codeLineNumbers.All (startMark ∉ ·)
  expandTitle : o.expandTitle.All (startMark ∉ ·)

namespace Mapping

theorem intact_image {e : Element} (h : e.toNode.All (Intact known)) :
    ∀ n ∈ image e, n.All (Intact known) := by
  obtain ⟨_, hattrs, _⟩ := h.of_element
  unfold image
  split
  · exact List.forall_mem_singleton.2 h
  · exact List.forall_mem_singleton.2 h
  · next src _ hsrc =>
    have hvalue : ∀ name, ((e.attributes.get? name).getD .absent).All (Intact known) := by
      intro name
      cases hg : e.attributes.get? name with
      | none => exact .absent
      | some value => exact hattrs.get? hg
    have hsize : ∀ (key : String) (value : Value), startMark ∉ key.toList →
        value.All (Intact known) → Directive.IntactParams known
          (if value.isSet then [(key.toList, .text value.toText)] else []) := by
      intro key value hkey hv
      split
      · exact List.forall_mem_singleton.2 ⟨hkey, .text (intact_toText hv)⟩
      · exact fun p hp => absurd hp List.not_mem_nil
    have halt : Intact known ((e.attributes.text? "alt".toList).getD []) := by
      cases ha : e.attributes.text? "alt".toList with
      | none => exact .of_free List.not_mem_nil
      | some alt => exact hattrs.text? ha
    have hpath : Intact known (replaceAll "%22".toList [] src) :=
      (hattrs.text? hsrc).replaceAll (by decide) (by decide) List.not_mem_nil
        fun _ hc => absurd hc List.not_mem_nil
    refine List.forall_mem_singleton.2 (.raw (Directive.intact_inline (by decide) ?_))
    refine List.forall_mem_append.2 ⟨List.forall_mem_append.2 ⟨List.forall_mem_append.2 ⟨?_,
      hsize "width" _ (by decide) (hvalue _)⟩, hsize "height" _ (by decide) (hvalue _)⟩,
      fun p hp => absurd hp List.not_mem_nil⟩
    exact List.forall_mem_cons.2 ⟨⟨(by decide : startMark ∉ "src".toList), .text hpath⟩,
      List.forall_mem_singleton.2 ⟨(by decide : startMark ∉ "alt".toList), .text halt⟩⟩

theorem intact_link {env : Env} {e : Element} (h : e.toNode.All (Intact known)) :
    ∀ n ∈ link env e, n.All (Intact known) := by
  obtain ⟨_, hattrs, hchildren⟩ := h.of_element
  unfold link
  split
  · next directives hd =>
    exact List.forall_mem_singleton.2 (.raw (Footnote.intact_link? hattrs hchildren hd))
  · exact List.forall_mem_singleton.2 h

theorem intact_code {body : List Char} {language numbered : Value} (hbody : Intact known body)
    (hlanguage : language.All (Intact known)) (hnumbered : numbered.All (Intact known)) :
    Intact known (Directive.code body language numbered) := by
  refine Directive.intact_region (Directive.intact_opening (by decide) ?_) hbody.stripRight
    (by decide)
  exact List.forall_mem_cons.2 ⟨⟨(by decide : startMark ∉ "language".toList), hlanguage⟩,
    List.forall_mem_singleton.2 ⟨(by decide : startMark ∉ "linenumbers".toList), hnumbered⟩⟩

theorem intact_codeBlock {env : Env} (henv : env.options.Unmarked) {e : Element}
    (h : e.toNode.All (Intact known)) {out : List Node} (hout : codeBlock env e = .ok out) :
    ∀ n ∈ out, n.All (Intact known) := by
  obtain ⟨_, hattrs, hchildren⟩ := h.of_element
  have hstay : ∀ out, (pure [e.toNode] : Except Failure (List Node)) = .ok out →
      ∀ n ∈ out, n.All (Intact known) := by
    intro out hout
    cases hout
    exact List.forall_mem_singleton.2 h
  unfold codeBlock at hout
  split at hout
  · next tag attrs children hcontent =>
    split at hout
    · have hm : Node.element tag attrs children ∈ content e.children := by
        rw [hcontent]
        exact List.mem_cons_self
      obtain ⟨_, hattrs', hchildren'⟩ := (hchildren _ (List.mem_filter.1 hm).1).of_element
      obtain ⟨found, hfound, hout⟩ := bind_eq_ok.1 hout
      cases hout
      refine List.forall_mem_singleton.2 (.raw (intact_code
        (Footnote.intact_characterDataOf hchildren') ?_ (all_of_unmarked henv.codeLineNumbers)))
      -- the language is the one that was found, or the one for all code
      split
      · exact .text (all_languageOf? (fun _ _ h => h.of_suffix) (fun _ h => h.words) hattrs' hattrs
          hfound)
      · exact all_of_unmarked henv.codeLanguage
    · exact hstay out hout
  · exact hstay out hout

theorem intact_codeWrapper {e : Element} (h : e.toNode.All (Intact known)) :
    ∀ n ∈ codeWrapper e, n.All (Intact known) := by
  unfold codeWrapper
  simp only
  split
  · exact fun n hn => h.of_element.2.2 n (List.mem_filter.1 hn).1
  · exact List.forall_mem_singleton.2 h

theorem intact_foldingSection {env : Env} (hv : v.Ordered) (hvault : env.vault = some v)
    (henv : env.options.Unmarked) {e : Element} (h : e.toNode.All (Intact (· < v.size)))
    {out : List Node} (hout : (foldingSection env e).result = .ok out) :
    ∀ n ∈ out, n.All (Intact (· < v.size)) := by
  obtain ⟨_, _, hchildren⟩ := h.of_element
  obtain ⟨hsummary, hothers⟩ := mem_of_takeSummary e.children
  unfold foldingSection at hout
  generalize hs : takeSummary e.children = parts at hout hsummary hothers
  obtain ⟨summary, others⟩ := parts
  rw [hvault] at hout
  simp only [Traced.result_bind] at hout
  obtain ⟨body, hbody, hout⟩ := bind_eq_ok.1 hout
  obtain ⟨text, htext, hout⟩ := bind_eq_ok.1 hout
  cases hout
  -- the title is the text of the summary, or the options give one
  have htitle : Intact (· < v.size) (strip ((summary.map Node.characterData).getD [])) := by
    cases summary with
    | none => exact .of_free List.not_mem_nil
    | some n =>
      have := Footnote.intact_characterDataOf
        (List.forall_mem_singleton.2 (hchildren n (hsummary n rfl)))
      rw [Node.characterDataOf, Node.characterDataOf, List.append_nil] at this
      exact this.strip
  have hprinted := intact_printAll
    (intact_foldAll hv (fun n hn => hchildren n (hothers n hn)) hbody) htext
  refine List.forall_mem_singleton.2 (.raw (Directive.intact_region
    (Directive.intact_opening (by decide) ?_) hprinted.strip (by decide)))
  refine List.forall_mem_singleton.2 ⟨(by decide : startMark ∉ "title".toList), ?_⟩
  show Value.All _ (if _ then _ else _)
  split
  · exact all_of_unmarked henv.expandTitle
  · exact .text htitle

theorem intact_element {env : Env} (hv : v.Ordered) (hvault : env.vault = some v)
    (henv : env.options.Unmarked) {e : Element} (h : e.toNode.All (Intact (· < v.size)))
    {out : List Node} (hout : (element env e).result = .ok out) :
    ∀ n ∈ out, n.All (Intact (· < v.size)) := by
  obtain ⟨htag, hattrs, hchildren⟩ := h.of_element
  have hcell : ∀ header, ∀ n ∈ tableCell header e, n.All (Intact (· < v.size)) := fun header =>
    List.forall_mem_singleton.2
      (.element htag (writable_intact.cellAttributes hattrs header) hchildren)
  refine element_ok (T := fun out => ∀ n ∈ out, n.All (Intact (· < v.size)))
    ?_ ?_ ?_ ?_ hcell ?_ ?_ hout
  · exact fun _ => intact_image h
  · exact fun _ => intact_link h
  · exact fun _ out => intact_codeBlock henv h
  · exact fun _ => intact_codeWrapper h
  · exact fun _ out => intact_foldingSection hv hvault henv h
  · exact List.forall_mem_singleton.2 h

end Mapping

/-- Mapping keeps a tree intact. -/
theorem intact_mapping {env : Mapping.Env} (hv : v.Ordered) (hvault : env.vault = some v)
    (henv : env.options.Unmarked) {nodes out : List Node} {depth : Nat}
    (h : ∀ n ∈ nodes, n.All (Intact (· < v.size)))
    (hout : (Mapping.nodes env depth nodes).result = .ok out) :
    ∀ n ∈ out, n.All (Intact (· < v.size)) := by
  have hcons : ∀ (n : Node) (rest first others : List Node),
      (n.All (Intact (· < v.size)) → ∀ m ∈ first, m.All (Intact (· < v.size))) →
      ((∀ m ∈ rest, m.All (Intact (· < v.size))) → ∀ m ∈ others, m.All (Intact (· < v.size))) →
      (∀ m ∈ n :: rest, m.All (Intact (· < v.size))) →
      ∀ m ∈ first ++ others, m.All (Intact (· < v.size)) := by
    intro n rest first others hfirst hothers h
    rw [List.forall_mem_cons] at h
    exact List.forall_mem_append.2 ⟨hfirst h.1, hothers h.2⟩
  refine Mapping.nodes_ok
    (R := fun n out => n.All (Intact (· < v.size)) → ∀ m ∈ out, m.All (Intact (· < v.size)))
    (S := fun nodes out => (∀ n ∈ nodes, n.All (Intact (· < v.size))) →
      ∀ m ∈ out, m.All (Intact (· < v.size)))
    (fun h => h) hcons (fun _ h => List.forall_mem_singleton.2 h)
    (fun _ h => List.forall_mem_singleton.2 h) (fun _ h => List.forall_mem_singleton.2 h)
    ?_ hout h
  intro tag attrs children mapped out hmapped hrule h
  obtain ⟨htag, hattrs, hchildren⟩ := h.of_element
  exact Mapping.intact_element (e := ⟨tag, attrs, mapped⟩) hv hvault henv
    (.element htag hattrs (hmapped hchildren)) hrule

end StorageMarkup
