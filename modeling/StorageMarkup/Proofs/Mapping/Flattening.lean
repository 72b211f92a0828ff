import StorageMarkup.Proofs.Footnote.Settled
import StorageMarkup.Proofs.Mapping.Counterparts
import StorageMarkup.Proofs.Mapping.Uniform
import StorageMarkup.Proofs.Region.Shown

/-!
# What directives hold of the elements they stand for

The rules make directives of images, links of footnotes, blocks of code and folding sections. The
body of a section is written as markup, with every directive in it. A title, a label and code are
texts, and directives are no part of a text: what has become a directive inside a summary, inside
code or inside a link is not in the directive around it.

Results:
1. `Kept`, `Rewritten`: the elements that mapping leaves, and those it makes directives of.
2. `Holds`: the content that a directive has a place for.
3. `flattened_content`: all of this content is in the directive, texts in the title, the label or
   the code that they are part of.
4. `flattened_content_lost`: an image in a summary is not.
-/

namespace StorageMarkup

/-- A text that a node shows is part of its character data. -/
theorem Shows.infix_characterData {s : List Char} {n : Node} (h : Shows (· = .text s) n) :
    s <:+: n.characterData := by
  induction h with
  | here h =>
    rw [h]
    exact List.infix_rfl
  | inside _ hm _ ih => exact infix_characterDataOf hm ih

namespace Mapping

variable {env : Env} {depth : Nat} {n : Node} {out mapped children : List Node} {tag s : List Char}
  {attrs : Attributes} {e : Element}

/-! ## Elements that are kept -/

/-- No rule makes a directive of the element, and its content is written. -/
structure Kept (env : Env) (tag : List Char) (attrs : Attributes) (children : List Node) :
    Prop where
  noVoid : isVoid tag = false
  noSection : tag ≠ "details".toList
  noLink : tag = "a".toList → Footnote.link? env.footnotes ⟨tag, attrs, children⟩ = none
  noCode : tag = "pre".toList → ¬ CodeAlone children

/-- A text is the node itself or stands below it, and every element on the way is kept. -/
inductive KeepsText (env : Env) (s : List Char) : Node → Prop
  | here : KeepsText env s (.text s)
  | inside {tag : List Char} {attrs : Attributes} {children : List Node} {n : Node}
      (he : Kept env tag attrs children) (hm : n ∈ children) (hn : KeepsText env s n) :
      KeepsText env s (.element tag attrs children)

/-- Whether a link is one of a linked footnote is said by its target. -/
theorem link?_eq_none_of_attributes {index : Footnote.Index} {children' : List Node}
    (h : Footnote.link? index ⟨tag, attrs, children⟩ = none) :
    Footnote.link? index ⟨tag, attrs, children'⟩ = none := by
  rw [link?_eq_none_iff] at h ⊢
  exact h

/-- A kept element shows what its mapped content shows. -/
theorem Kept.shows {P : Node → Prop} (hP : ∀ m, P m → m.isBlank = false)
    (he : Kept env tag attrs children)
    (hmapped : (nodes env (depth + 1) children).result = .ok mapped)
    (h : ∃ m ∈ mapped, Shows P m)
    (hout : (element env ⟨tag, attrs, mapped⟩).result = .ok out) : ∃ m ∈ out, Shows P m := by
  obtain ⟨m, hm, hshows⟩ := h
  have hstay : ∀ attrs, ∃ k ∈ [Node.element tag attrs mapped], Shows P k := fun attrs =>
    ⟨_, List.mem_singleton.2 rfl, .inside he.noVoid hm hshows⟩
  refine element_ok (e := ⟨tag, attrs, mapped⟩) (T := fun out => ∃ m ∈ out, Shows P m) ?_ ?_ ?_ ?_
    ?_ ?_ (hstay attrs) hout
  · intro ht
    have hv := he.noVoid
    rw [show tag = "img".toList from ht] at hv
    cases hv
  · intro ht
    rw [link, link?_eq_none_of_attributes (he.noLink ht)]
    exact hstay attrs
  · intro ht out hcode
    unfold codeBlock at hcode
    split at hcode
    · next t codeAttrs inner hcontent =>
      split at hcode
      · next hcodeTag =>
        rw [hcodeTag] at hcontent
        exact absurd (codeAlone_of_mapped hmapped ⟨codeAttrs, inner, hcontent⟩) (he.noCode ht)
      · cases hcode
        exact hstay attrs
    · cases hcode
      exact hstay attrs
  · intro _
    unfold codeWrapper
    simp only
    split
    · refine ⟨m, List.mem_filter.2 ⟨hm, ?_⟩, hshows⟩
      rw [hshows.not_blank hP]
      rfl
    · exact hstay attrs
  · exact fun header => hstay _
  · exact fun ht => absurd ht he.noSection

/-- A text that is kept is still shown. -/
theorem KeepsText.shows (hs : isBlank s = false) (h : KeepsText env s n) :
    ∀ depth out, (node env depth n).result = .ok out → ∃ m ∈ out, Shows (· = .text s) m := by
  induction h with
  | here =>
    intro depth out hout
    cases hout
    exact ⟨_, List.mem_singleton.2 rfl, .here rfl⟩
  | inside he hm _ ih =>
    intro depth out hout
    obtain ⟨mapped, hmapped, helement⟩ := element_of_node hout
    obtain ⟨first, hfirst, hsub⟩ := exists_node_of_mem hm hmapped
    obtain ⟨m, hmfirst, hshows⟩ := ih (depth + 1) first hfirst
    refine he.shows ?_ hmapped ⟨m, hsub hmfirst, hshows⟩ helement
    rintro _ rfl
    exact hs

/-- The text is part of the character data of what the node is mapped to. -/
theorem KeepsText.infix_characterDataOf {ns : List Node} (hs : isBlank s = false) (hn : n ∈ ns)
    (h : KeepsText env s n) (hout : (nodes env depth ns).result = .ok out) :
    s <:+: Node.characterDataOf out := by
  obtain ⟨first, hfirst, hsub⟩ := exists_node_of_mem hn hout
  obtain ⟨m, hm, hshows⟩ := h.shows hs depth first hfirst
  exact StorageMarkup.infix_characterDataOf (hsub hm) hshows.infix_characterData

/-! ## Elements that become directives -/

/-- The element is an image with a path, a link of a linked footnote, a block of code alone or a
folding section. -/
inductive Rewritten (env : Env) : Element → Prop
  | image {e : Element} {c : Char} {path : List Char} (ht : e.tag = "img".toList)
      (hpath : e.attributes.text? "src".toList = some (c :: path)) : Rewritten env e
  | link {e : Element} (ht : e.tag = "a".toList)
      (hlink : Footnote.link? env.footnotes e ≠ none) : Rewritten env e
  | code {e : Element} (ht : e.tag = "pre".toList) (halone : CodeAlone e.children) : Rewritten env e
  | section {e : Element} (ht : e.tag = "details".toList) : Rewritten env e

theorem capped_link? {index : Footnote.Index} {directives : List Char}
    (h : Footnote.link? index e = some directives) : Capped directives := by
  unfold Footnote.link? at h
  split at h
  · cases h
  · split at h
    · split at h
      · cases h
        exact Directive.capped_inline _ _
      · cases h
    · split at h
      · cases h
        exact capped_referenceLink _ _
      · cases h
    · cases h

/-- A block of code alone is written with its character data. -/
theorem exists_codeBlock {codeAttrs : Attributes} {inner : List Node}
    (hcontent : content e.children = [.element "code".toList codeAttrs inner])
    (hout : codeBlock env e = .ok out) :
    ∃ language, out = [.raw (Directive.code (Node.characterDataOf inner) language
      env.options.codeLineNumbers)] := by
  unfold codeBlock at hout
  rw [hcontent] at hout
  obtain ⟨_, _, hout⟩ := bind_eq_ok.1 hout
  cases hout
  exact ⟨_, rfl⟩

/-- A folding section is written with its body, and with the text of its summary if there is any. -/
theorem exists_foldingSection (hout : (foldingSection env e).result = .ok out) :
    ∃ body text title, (Region.foldAll env.options.limit env.vault
        (takeSummary e.children).2).result = .ok body ∧
      Node.printAll env.options.limit body = .ok text ∧
      out = [.raw (Directive.expand title (strip text))] ∧
      ∀ summary, (takeSummary e.children).1 = some summary → strip summary.characterData ≠ [] →
        title = .text (strip summary.characterData) := by
  unfold foldingSection at hout
  obtain ⟨body, hbody, hout⟩ := Traced.bind_eq_ok.1 hout
  obtain ⟨text, htext, hout⟩ := Traced.bind_eq_ok.1 hout
  cases hout
  refine ⟨body, text, _, hbody, htext, rfl, fun summary hsummary htitle => ?_⟩
  rw [hsummary]
  exact if_neg fun hnil => htitle (List.isEmpty_iff.1 hnil)

theorem Rewritten.exists_directive (he : Rewritten env e)
    (hout : (node env depth e.toNode).result = .ok out) : ∃ u, out = [.raw u] ∧ Capped u := by
  obtain ⟨mapped, hmapped, helement⟩ := element_of_node hout
  cases he with
  | image ht hpath =>
    rw [element, if_pos ht] at helement
    cases helement
    rw [Mapping.image, hpath]
    exact ⟨_, rfl, Directive.capped_inline _ _⟩
  | link ht hlink =>
    rw [element, if_neg (by rw [ht]; decide), if_pos ht] at helement
    cases helement
    cases hl : Footnote.link? env.footnotes ⟨e.tag, e.attributes, mapped⟩ with
    | none => exact absurd (link?_eq_none_of_attributes hl) hlink
    | some directives =>
      rw [Mapping.link, hl]
      exact ⟨directives, rfl, capped_link? hl⟩
  | code ht halone =>
    obtain ⟨codeAttrs, inner, hcontent⟩ := halone
    obtain ⟨codeContent, -, hmappedContent⟩ := exists_mapped_code hcontent hmapped
    rw [element, if_neg (by rw [ht]; decide), if_neg (by rw [ht]; decide), if_pos ht] at helement
    obtain ⟨language, rfl⟩ := exists_codeBlock hmappedContent helement
    exact ⟨_, rfl, Directive.capped_block _ _ _⟩
  | «section» ht =>
    have hsection : (foldingSection env ⟨e.tag, e.attributes, mapped⟩).result = .ok out := by
      rw [ht] at helement ⊢
      exact helement
    obtain ⟨body, text, title, -, -, rfl, -⟩ := exists_foldingSection hsection
    exact ⟨_, rfl, Directive.capped_block _ _ _⟩

/-! ## Content of directives -/

/-- What stands below an element: a text that is written as markup, an element with a directive of
its own, and a text that such an element has in its title, its label or its code. -/
inductive Content where
  | text (s : List Char)
  | directive (e : Element)
  | title (e : Element) (s : List Char)
  | label (e : Element) (s : List Char)
  | code (e : Element) (s : List Char)

/-- The element is mapped to the directive, and the string has it. -/
def WrittenIn (env : Env) (d : List Char) (e : Element) (u : List Char) : Prop :=
  (∃ depth, (node env depth e.toNode).result = .ok [.raw u]) ∧ u <:+: d

/-- The string has the content. A text is escaped and trimmed there, unless it is an open marker or
loses the close tokens of regions. A part of a title or a label is in that value of the element's
directive, and so it is quoted in the string; a part of code is in the body as it stands. -/
def Content.In (env : Env) (d : List Char) : Content → Prop
  | .text s => Represented env.vault d s
  | .directive e => ∃ u, WrittenIn env d e u
  | .title e s =>
    (∃ title body, WrittenIn env d e (Directive.expand (.text title) body) ∧ strip s <:+: title) ∧
      Directive.quoteValue (.text (strip s)) <:+: d
  | .label e s =>
    (∃ id label, WrittenIn env d e (Footnote.referenceLink id label) ∧ strip s <:+: label) ∧
      Directive.quoteValue (.text (strip s)) <:+: d
  | .code e s =>
    (∃ code language numbers, WrittenIn env d e (Directive.code code language numbers) ∧
      strip s <:+: stripRight code) ∧ strip s <:+: d

/-- The content below a node that directives have a place for. In the body of a section that is all
content that does not stand below another element with a directive, or stands in the body of a
section again. In the first summary of a section, in a block of code alone and in a link to a
footnote it is the texts that do not stand below an element with a directive. -/
inductive Holds (env : Env) : Content → Node → Prop
  | text {s : List Char} (hs : isBlank s = false) : Holds env (.text s) (.text s)
  | directive {e : Element} (he : Rewritten env e) : Holds env (.directive e) e.toNode
  | kept {c : Content} {tag : List Char} {attrs : Attributes} {children : List Node} {n : Node}
      (he : Kept env tag attrs children) (hm : n ∈ children) (hn : Holds env c n) :
      Holds env c (.element tag attrs children)
  | body {c : Content} {attrs : Attributes} {children : List Node} {n : Node}
      (hm : n ∈ (takeSummary children).2) (hn : Holds env c n) :
      Holds env c (.element "details".toList attrs children)
  | title {s : List Char} {attrs : Attributes} {children : List Node} {summary : Node}
      (hs : isBlank s = false) (hsummary : (takeSummary children).1 = some summary)
      (ht : KeepsText env s summary) :
      Holds env (.title ⟨"details".toList, attrs, children⟩ s)
        (.element "details".toList attrs children)
  | link {s href id : List Char} {attrs : Attributes} {children : List Node} {n : Node}
      (hs : isBlank s = false) (hhref : attrs.text? "href".toList = some href)
      (hid : Footnote.reference? href = some id) (hlinked : env.footnotes.isLinked id = true)
      (hm : n ∈ children) (ht : KeepsText env s n) :
      Holds env (.label ⟨"a".toList, attrs, children⟩ s) (.element "a".toList attrs children)
  | code {s : List Char} {attrs codeAttrs : Attributes} {children inner : List Node} {n : Node}
      (hs : isBlank s = false)
      (hcode : content children = [.element "code".toList codeAttrs inner]) (hm : n ∈ inner)
      (ht : KeepsText env s n) :
      Holds env (.code ⟨"pre".toList, attrs, children⟩ s) (.element "pre".toList attrs children)

variable {c : Content}

theorem WrittenIn.mono {a b u : List Char} (h : WrittenIn env a e u) (hab : a <:+: b) :
    WrittenIn env b e u :=
  ⟨h.1, h.2.trans hab⟩

theorem Content.In.mono {a b : List Char} (h : c.In env a) (hab : a <:+: b) : c.In env b := by
  cases c with
  | text s => exact Represented.mono h hab
  | directive e =>
    obtain ⟨u, hu⟩ := h
    exact ⟨u, hu.mono hab⟩
  | title e s =>
    obtain ⟨⟨title, body, hu, hin⟩, hquoted⟩ := h
    exact ⟨⟨title, body, hu.mono hab, hin⟩, hquoted.trans hab⟩
  | label e s =>
    obtain ⟨⟨id, label, hu, hin⟩, hquoted⟩ := h
    exact ⟨⟨id, label, hu.mono hab, hin⟩, hquoted.trans hab⟩
  | code e s =>
    obtain ⟨⟨code, language, numbers, hu, hin⟩, hplain⟩ := h
    exact ⟨⟨code, language, numbers, hu.mono hab, hin⟩, hplain.trans hab⟩

/-- Something is shown, and whoever has it has the content. -/
def Shown (env : Env) (c : Content) (nodes : List Node) : Prop :=
  ∃ load : Load, (∀ d, load.In env.vault d → c.In env d) ∧
    ∃ m ∈ nodes, Shows (Bears env.vault load) m

theorem Shown.of_directive {u : List Char} (hu : Capped u) (h : c.In env u) :
    Shown env c [.raw u] :=
  ⟨.part u, fun _ hd => h.mono hd.2, _, List.mem_singleton.2 rfl, .here (.raw ⟨hu, List.infix_rfl⟩)⟩

theorem Rewritten.shown (he : Rewritten env e) (hout : (node env depth e.toNode).result = .ok out)
    (h : ∀ mapped u, (nodes env (depth + 1) e.children).result = .ok mapped →
      (element env ⟨e.tag, e.attributes, mapped⟩).result = .ok [.raw u] →
      WrittenIn env u e u → c.In env u) :
    Shown env c out := by
  obtain ⟨u, rfl, hu⟩ := he.exists_directive hout
  obtain ⟨mapped, hmapped, helement⟩ := element_of_node hout
  exact .of_directive hu (h mapped u hmapped helement ⟨⟨depth, hout⟩, List.infix_rfl⟩)

/-- What the body of a section shows is in the directive. -/
theorem shown_body (hm : n ∈ (takeSummary children).2)
    (hn : ∀ depth out, (node env depth n).result = .ok out → Shown env c out)
    (hout : (node env depth (.element "details".toList attrs children)).result = .ok out) :
    Shown env c out := by
  obtain ⟨mapped, hmapped, helement⟩ := element_of_node hout
  obtain ⟨first, hfirst, hsub⟩ := exists_node_of_mem hm (exists_mapped_takeSummary hmapped).1
  obtain ⟨load, hload, m, hmfirst, hshows⟩ := hn _ first hfirst
  have hsection : (foldingSection env ⟨"details".toList, attrs, mapped⟩).result = .ok out :=
    helement
  obtain ⟨body, text, title, hbody, htext, rfl, -⟩ := exists_foldingSection hsection
  have hin : load.In env.vault text :=
    in_printAll htext (shows_foldAll hbody ⟨m, hsub hmfirst, hshows⟩)
  have hregion : load.In env.vault (Directive.expand title (strip text)) :=
    hin.strip.mono (Directive.infix_region _ _)
  exact ⟨load, hload, _, List.mem_singleton.2 rfl, .here (.raw hregion)⟩

theorem quoteValue_infix_expand (title body : List Char) :
    Directive.quoteValue (.text title) <:+: Directive.expand (.text title) body := by
  have hpart : Directive.quoteValue (.text title) <:+:
      "title".toList ++ "=\"".toList ++ Directive.quoteValue (.text title) ++ ['"'] := ⟨_, _, rfl⟩
  have hopening : Directive.quoteValue (.text title) <:+:
      Directive.opening "confluence-expand".toList [("title".toList, .text title)] :=
    hpart.trans (Directive.infix_opening (List.mem_singleton.2 rfl) rfl)
  exact hopening.trans (Directive.head_infix_region _ _ _)

/-- The texts of a summary are in the title. -/
theorem shown_title {summary : Node} (hs : isBlank s = false)
    (hsummary : (takeSummary children).1 = some summary) (ht : KeepsText env s summary)
    (hout : (node env depth (.element "details".toList attrs children)).result = .ok out) :
    Shown env (.title ⟨"details".toList, attrs, children⟩ s) out := by
  refine Rewritten.shown (e := ⟨"details".toList, attrs, children⟩) (.section rfl) hout ?_
  intro mapped u hmapped helement hwritten
  obtain ⟨k, hk, htaken⟩ := (exists_mapped_takeSummary hmapped).2 summary hsummary
  obtain ⟨m, hm, hshows⟩ := ht.shows hs _ _ hk
  rw [List.mem_singleton] at hm
  subst hm
  have hin : strip s <:+: strip m.characterData :=
    infix_strip_of_strip ((strip_infix_self s).trans hshows.infix_characterData)
  have hne : strip m.characterData ≠ [] := fun hnil => by
    rw [hnil, List.infix_nil] at hin
    exact strip_ne_nil hs hin
  have hsection : (foldingSection env ⟨"details".toList, attrs, mapped⟩).result = .ok [.raw u] :=
    helement
  obtain ⟨body, text, title, -, -, hu, htitle⟩ := exists_foldingSection hsection
  cases hu
  rw [htitle m htaken hne] at hwritten ⊢
  exact ⟨⟨_, _, hwritten, hin⟩,
    (Directive.infix_quoteValue hin).trans (quoteValue_infix_expand _ _)⟩

/-- The texts of a link to a linked footnote are in its label. -/
theorem shown_link {href id : List Char} (hs : isBlank s = false)
    (hhref : attrs.text? "href".toList = some href) (hid : Footnote.reference? href = some id)
    (hlinked : env.footnotes.isLinked id = true) (hm : n ∈ children) (ht : KeepsText env s n)
    (hout : (node env depth (.element "a".toList attrs children)).result = .ok out) :
    Shown env (.label ⟨"a".toList, attrs, children⟩ s) out := by
  have hlink : ∀ children, Footnote.link? env.footnotes ⟨"a".toList, attrs, children⟩ =
      some (Footnote.referenceLink id (strip (Node.characterDataOf children))) := fun children =>
    link?_of_reference (e := ⟨"a".toList, attrs, children⟩) hhref hid hlinked
  have he : Rewritten env ⟨"a".toList, attrs, children⟩ :=
    .link rfl (by rw [hlink]; exact Option.some_ne_none _)
  refine he.shown hout fun mapped u hmapped helement hwritten => ?_
  have hrule : element env ⟨"a".toList, attrs, mapped⟩ =
      pure (link env ⟨"a".toList, attrs, mapped⟩) := rfl
  rw [hrule, link, hlink] at helement
  cases helement
  have hin : strip s <:+: strip (Node.characterDataOf mapped) :=
    infix_strip_of_strip ((strip_infix_self s).trans (ht.infix_characterDataOf hs hm hmapped))
  exact ⟨⟨_, _, hwritten, hin⟩,
    (Directive.infix_quoteValue hin).trans (quoteValue_infix_referenceLink _ _)⟩

/-- The texts of a block of code are in its body. -/
theorem shown_code {codeAttrs : Attributes} {inner : List Node} (hs : isBlank s = false)
    (hcode : content children = [.element "code".toList codeAttrs inner]) (hm : n ∈ inner)
    (ht : KeepsText env s n)
    (hout : (node env depth (.element "pre".toList attrs children)).result = .ok out) :
    Shown env (.code ⟨"pre".toList, attrs, children⟩ s) out := by
  have he : Rewritten env ⟨"pre".toList, attrs, children⟩ := .code rfl ⟨codeAttrs, inner, hcode⟩
  refine he.shown hout fun mapped u hmapped helement hwritten => ?_
  obtain ⟨code, hinner, hcontent⟩ := exists_mapped_code hcode hmapped
  have hblock : codeBlock env ⟨"pre".toList, attrs, mapped⟩ = .ok [.raw u] := helement
  obtain ⟨language, hu⟩ := exists_codeBlock hcontent hblock
  cases hu
  have hin : strip s <:+: stripRight (Node.characterDataOf code) :=
    infix_stripRight (capped_strip (strip_ne_nil hs))
      ((strip_infix_self s).trans (ht.infix_characterDataOf hs hm hinner))
  exact ⟨⟨_, _, _, hwritten, hin⟩, hin.trans (Directive.infix_region _ _)⟩

/-- Content below a node is shown by what the node is mapped to. -/
theorem Holds.shown (h : Holds env c n) :
    ∀ depth out, (node env depth n).result = .ok out → Shown env c out := by
  induction h with
  | text hs =>
    intro depth out hout
    cases hout
    exact ⟨.text _, fun _ h => h, _, List.mem_singleton.2 rfl, .here (.text hs)⟩
  | directive he =>
    intro depth out hout
    obtain ⟨u, rfl, hu⟩ := he.exists_directive hout
    exact .of_directive hu ⟨u, ⟨depth, hout⟩, List.infix_rfl⟩
  | kept he hm _ ih =>
    intro depth out hout
    obtain ⟨mapped, hmapped, helement⟩ := element_of_node hout
    obtain ⟨first, hfirst, hsub⟩ := exists_node_of_mem hm hmapped
    obtain ⟨load, hload, m, hmfirst, hshows⟩ := ih _ first hfirst
    exact ⟨load, hload,
      he.shows (fun _ => Bears.not_blank) hmapped ⟨m, hsub hmfirst, hshows⟩ helement⟩
  | body hm _ ih => exact fun depth out hout => shown_body hm ih hout
  | title hs hsummary ht => exact fun depth out hout => shown_title hs hsummary ht hout
  | link hs hhref hid hlinked hm ht =>
    exact fun depth out hout => shown_link hs hhref hid hlinked hm ht hout
  | code hs hcode hm ht => exact fun depth out hout => shown_code hs hcode hm ht hout

/-- An element that is rewritten becomes one directive, the same wherever the element stands, and
the directive has all the content below the element that directives have a place for. -/
theorem flattened_content (he : Rewritten env e)
    (hout : (node env depth e.toNode).result = .ok out) :
    ∃ d, out = [.raw d] ∧ (∀ u, WrittenIn env d e u → u = d) ∧
      ∀ c, Holds env c e.toNode → c.In env d := by
  obtain ⟨d, rfl, -⟩ := he.exists_directive hout
  refine ⟨d, rfl, ?_, fun c hc => ?_⟩
  · rintro u ⟨⟨depth', hu⟩, -⟩
    rw [← nodes_singleton] at hu hout
    cases nodes_unique hu hout
    rfl
  obtain ⟨load, hload, m, hm, hshows⟩ := hc.shown depth _ hout
  rw [List.mem_singleton.1 hm] at hshows
  cases hshows with
  | here h =>
    cases h with
    | raw h => exact hload d h

/-- An element that is rewritten is mapped to the directive that is written of it. -/
theorem node_eq_of_printed {d : List Char} (he : Rewritten env e)
    (h : ((node env depth e.toNode).result >>= Node.printAll .standard) = .ok d) :
    (node env depth e.toNode).result = .ok [.raw d] := by
  obtain ⟨out, hout, hprinted⟩ := bind_eq_ok.1 h
  obtain ⟨u, rfl, -⟩ := he.exists_directive hout
  have hu : u ++ [] = d := Except.ok.inj hprinted
  rw [hout, ← hu, List.append_nil]

/-- A section with a quoted title, a text, an image and a block of code. -/
theorem flattened_content_section :
    let env : Env := ⟨.standard, none, ⟨[], []⟩⟩
    let image : Element := ⟨"img".toList, [("src".toList, .text "i.png".toList)], []⟩
    let paragraph : Node := .element ['p'] [] [.text "x & y".toList, image.toNode]
    let block : Element := ⟨"pre".toList, [], [.element "code".toList [] [.text "c\n".toList]]⟩
    let e : Element := ⟨"details".toList, [],
      [.element "summary".toList [] [.text "\"T\"".toList], paragraph, block.toNode]⟩
    let d := ("\x7b\x7b#confluence-expand title=\"&quot;T&quot;\"\x7d\x7d\n" ++
      "<p>x &amp; y\x7b\x7bconfluence-image src=\"i.png\" alt=\"\"\x7d\x7d</p>" ++
      "\x7b\x7b#confluence-code language=\"text\" linenumbers=true\x7d\x7d\nc\n" ++
      "\x7b\x7b/confluence-code\x7d\x7d\n\x7b\x7b/confluence-expand\x7d\x7d").toList
    Rewritten env e ∧ (node env 0 e.toNode).result = .ok [.raw d] ∧
      (Content.title e "\"T\"".toList).In env d ∧ (Content.text "x & y".toList).In env d ∧
      (Content.directive image).In env d ∧ (Content.code block "c\n".toList).In env d := by
  intro env image paragraph block e d
  have he : Rewritten env e := .section rfl
  have hrun : (node env 0 e.toNode).result = .ok [.raw d] :=
    node_eq_of_printed he (by decide +kernel)
  clear_value d
  have hp : Kept env ['p'] [] [.text "x & y".toList, image.toNode] :=
    ⟨by decide, by decide, fun h => absurd h (by decide), fun h => absurd h (by decide)⟩
  have hsummary : Kept env "summary".toList [] [.text "\"T\"".toList] :=
    ⟨by decide, by decide, fun h => absurd h (by decide), fun h => absurd h (by decide)⟩
  obtain ⟨_, hd, -, hall⟩ := flattened_content he hrun
  cases hd
  refine ⟨he, hrun, hall _ (.title (by decide) rfl (.inside hsummary List.mem_cons_self .here)), ?_,
    ?_, ?_⟩
  · exact hall _ (.body List.mem_cons_self (.kept hp List.mem_cons_self (.text (by decide))))
  · exact hall _ (.body List.mem_cons_self (.kept hp (List.mem_cons_of_mem _ List.mem_cons_self)
      (.directive (.image rfl rfl))))
  · exact hall _ (.body (List.mem_cons_of_mem _ List.mem_cons_self)
      (.code (by decide) rfl List.mem_cons_self .here))

/-- The directive has neither the image of the summary nor the section in the code, neither the text
of the link back nor the image in the reference, and the text that the close token stood in only
without the token. -/
theorem flattened_content_lost :
    let env : Env := ⟨.standard, none, ⟨[['1']], [['1']]⟩⟩
    let image (path : String) : Node :=
      .element "img".toList [("src".toList, .text path.toList)] []
    let link (target : String) (children : List Node) : Node :=
      .element ['a'] [("href".toList, .text target.toList)] children
    let code : List Node := [.text ['c'], .element "details".toList [] [.text ['D']]]
    let e : Element := ⟨"details".toList, [],
      [.element "summary".toList [] [.text ['T'], image "i.png"],
        .element "pre".toList [] [.element "code".toList [] code],
        link "#user-content-fnref-1" [.text ['Z']],
        link "#user-content-fn-1" [.text ['1'], image "j.png"],
        .text "\x7b\x7b#r\x7d\x7d".toList, .text "x \x7b\x7b/r\x7d\x7d y".toList]⟩
    let d := ("\x7b\x7b#confluence-expand title=\"T\"\x7d\x7d\n" ++
      "\x7b\x7b#confluence-code language=\"text\" linenumbers=true\x7d\x7d\nc\n" ++
      "\x7b\x7b/confluence-code\x7d\x7d").toList ++ Footnote.backLink ['1'] ++
      Footnote.referenceLink ['1'] ['1'] ++ ("\x7b\x7b#r\x7d\x7d\nx  y\n\x7b\x7b/r\x7d\x7d\n" ++
      "\x7b\x7b/confluence-expand\x7d\x7d").toList
    (node env 0 e.toNode).result = .ok [.raw d] ∧ ¬ "i.png".toList <:+: d ∧ ¬ ['D'] <:+: d ∧
      ¬ ['Z'] <:+: d ∧ ¬ "j.png".toList <:+: d ∧
      ¬ "x \x7b\x7b/r\x7d\x7d y".toList <:+: d := by
  intro env image link code e d
  have he : Rewritten env e := .section rfl
  exact ⟨node_eq_of_printed he (by decide +kernel), by decide +kernel⟩

end Mapping

end StorageMarkup
