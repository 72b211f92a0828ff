import StorageMarkup.Proofs.Footnote.Ids
import StorageMarkup.Proofs.Node.Each
import StorageMarkup.Proofs.Tree.Exposed

/-!
# An exposed placeholder and the rules for elements

The rules keep an element that lets a placeholder pass, or they make a link to a
footnote of it, and the link's label is the text below the element.

Results:
1. `infix_referenceLink`: the label of a link stands in it.
2. `exposes_element`: the rule for one element.
3. `exposes_mapping`, `keeps_mapping`: a tree.
-/

namespace StorageMarkup

open Vault

variable {T : Targets} {L : Node → Prop} {linked below : Bool} {n : Node} {nodes out : List Node}
  {tag : List Char} {attrs : Attributes} {k : Nat} {env : Mapping.Env}

/-! ## Texts in directives -/

/-- Text without the character that is replaced stays. -/
theorem infix_replaceAll {d : Char} {u s : List Char} (hd : d ∉ u) (new : List Char)
    (h : u <:+: s) : u <:+: replaceAll [d] new s := by
  obtain ⟨a, b, rfl⟩ := h
  have hu : u.flatMap (fun c => if c = d then new else [c]) = u :=
    Woven.flatMap_eq_self fun c hc => if_neg fun he : c = d => hd (he ▸ hc)
  rw [replaceAll_singleton, List.flatMap_append, List.flatMap_append, hu]
  exact ⟨_, _, rfl⟩

theorem Directive.infix_quoteValue {s t : List Char} (h : s <:+: t) :
    quoteValue (.text s) <:+: quoteValue (.text t) := by
  obtain ⟨a, b, rfl⟩ := h
  unfold quoteValue
  rw [replaceAll_singleton, replaceAll_singleton]
  show _ <:+: (a ++ s ++ b).flatMap _
  rw [List.flatMap_append, List.flatMap_append]
  exact ⟨_, _, rfl⟩

theorem Directive.infix_nameAndParams {p : Param} {ps : List Param} {part : List Char} (hp : p ∈ ps)
    (hpart : param? p = some part) (name : List Char) : part <:+: nameAndParams name ps := by
  have hparams : part <:+: params ps := infix_joinWith (List.mem_filterMap.2 ⟨p, hp, hpart⟩)
  unfold nameAndParams
  simp only
  split
  · next he =>
    rw [List.isEmpty_iff.1 he] at hparams
    rw [List.infix_nil.1 hparams]
    exact List.nil_infix
  · exact hparams.trans ⟨name ++ [' '], [], by simp⟩

theorem Directive.infix_inline {p : Param} {ps : List Param} {part name : List Char} (hp : p ∈ ps)
    (hpart : param? p = some part) : part <:+: inline name ps :=
  (infix_nameAndParams hp hpart name).trans ⟨['{', '{'], ['}', '}'], by simp [inline]⟩

theorem Directive.infix_opening {p : Param} {ps : List Param} {part name : List Char} (hp : p ∈ ps)
    (hpart : param? p = some part) : part <:+: opening name ps :=
  (infix_nameAndParams hp hpart name).trans ⟨['{', '{', '#'], ['}', '}'], by simp [opening]⟩

theorem Directive.infix_region {body : List Char} (head name : List Char) :
    body <:+: region head body name :=
  ⟨head ++ ['\n'], '\n' :: closing name, by simp [region]⟩

theorem Directive.head_infix_region (head body name : List Char) :
    head <:+: region head body name :=
  ⟨[], '\n' :: body ++ '\n' :: closing name, by simp [region]⟩

theorem Directive.closing_infix_region (head body name : List Char) :
    closing name <:+: region head body name :=
  ⟨head ++ '\n' :: body ++ ['\n'], [], by simp [region]⟩

theorem Directive.capped_inline (name : List Char) (ps : List Param) : Capped (inline name ps) where
  starts := ⟨'{', _, rfl, by decide⟩
  ends := ⟨'{' :: '{' :: (nameAndParams name ps ++ ['}']), '}', by simp [inline], by decide⟩

theorem Directive.capped_block (name body : List Char) (ps : List Param) :
    Capped (block name body ps) where
  starts := ⟨'{', _, rfl, by decide⟩
  ends := by
    obtain ⟨init, c, hclosing, hc⟩ := (capped_closing name).ends
    refine ⟨opening name ps ++ '\n' :: body ++ '\n' :: init, c, ?_, hc⟩
    rw [block, region, hclosing]
    simp

theorem capped_referenceLink (id label : List Char) : Capped (Footnote.referenceLink id label) :=
  (Directive.capped_inline _ _).append (Directive.capped_inline _ _)

/-- The label of a link stands in it, quoted. -/
theorem quoteValue_infix_referenceLink (id label : List Char) :
    Directive.quoteValue (.text label) <:+: Footnote.referenceLink id label := by
  have hpart : Directive.quoteValue (.text label) <:+:
      "text".toList ++ "=\"".toList ++ Directive.quoteValue (.text label) ++ ['"'] := ⟨_, _, rfl⟩
  have hlink : Directive.quoteValue (.text label) <:+:
      Directive.anchorLink (.text label) (Footnote.anchorName id) .absent :=
    hpart.trans (Directive.infix_inline (p := ("text".toList, .text label)) (by simp) rfl)
  exact hlink.trans (List.suffix_append _ _).isInfix

theorem infix_referenceLink {u label : List Char} (hquote : '"' ∉ u) (id : List Char)
    (h : u <:+: label) : u <:+: Footnote.referenceLink id label :=
  (infix_replaceAll hquote _ h).trans (quoteValue_infix_referenceLink id label)

/-! ## Links -/

theorem infix_characterDataOf {u : List Char} (hn : n ∈ nodes) (h : u <:+: n.characterData) :
    u <:+: Node.characterDataOf nodes := by
  rw [Node.characterDataOf_eq, List.flatMap_def]
  exact h.trans (List.infix_of_mem_flatten (List.mem_map_of_mem hn))

theorem Exposed.infix_characterData (h : Exposed T (TextOf k) linked n) :
    placeholder k <:+: n.characterData := by
  induction h with
  | here h =>
    rw [h]
    exact List.infix_rfl
  | inside _ hm _ ih => exact infix_characterDataOf hm ih

/-- A link stays if the footnote that its target names is not linked. -/
theorem link?_eq_none_iff {e : Element} {index : Footnote.Index} :
    Footnote.link? index e = none ↔
      ∀ href, e.attributes.text? "href".toList = some href →
        ∀ id, Footnote.backReference? href = some id ∨ Footnote.reference? href = some id →
          index.isLinked id = false := by
  unfold Footnote.link?
  cases hhref : e.attributes.text? "href".toList with
  | none => simp
  | some href =>
    simp only [Option.some.injEq, forall_eq']
    cases hback : Footnote.backReference? href with
    | some id =>
      have hnone : Footnote.reference? href = none := by
        cases href? : Footnote.reference? href with
        | none => rfl
        | some id' => rw [backReference?_eq_none_of_reference? href?] at hback; cases hback
      simp [hnone]
    | none =>
      cases Footnote.reference? href <;> simp

theorem link?_eq_none {e : Element} {index : Footnote.Index} (ha : e.tag = "a".toList)
    (hback : ¬ LinksTo (Targets.ofIndex index).back e.tag e.attributes)
    (hlink : ¬ LinksTo (Targets.ofIndex index).reference e.tag e.attributes) :
    Footnote.link? index e = none := by
  refine link?_eq_none_iff.2 fun href hhref id hid => Bool.eq_false_iff.2 fun hlinked => ?_
  rcases hid with hid | hid
  · exact hback ⟨ha, href, hhref, id, hid, hlinked⟩
  · exact hlink ⟨ha, href, hhref, id, hid, hlinked⟩

/-- A link to a footnote says what the text below it said. -/
theorem infix_link? {e : Element} {index : Footnote.Index} {directives : List Char}
    (ha : e.tag = "a".toList)
    (hback : ¬ LinksTo (Targets.ofIndex index).back e.tag e.attributes)
    (htext : placeholder k <:+: Node.characterDataOf e.children)
    (h : Footnote.link? index e = some directives) : placeholder k <:+: directives := by
  unfold Footnote.link? at h
  split at h
  · cases h
  · next href hhref =>
    split at h
    · next id hid =>
      rw [if_neg fun hlinked => hback ⟨ha, href, hhref, id, hid, hlinked⟩] at h
      cases h
    · next id _ _ =>
      split at h
      · cases h
        exact infix_referenceLink (not_mem_placeholder (by decide)) id
          (infix_strip (capped_placeholder k) htext)
      · cases h
    · cases h

/-! ## The rules -/

/-- The links that the rules rewrite. -/
abbrev Mapping.Env.targets (env : Mapping.Env) : Targets := .ofIndex env.footnotes

theorem not_blank_textOf (h : TextOf k n) : n.isBlank = false := by
  rw [h]
  exact (capped_placeholder k).isBlank_eq_false

theorem not_blank_keptIn (h : KeptIn k n) : n.isBlank = false := by
  rcases h with h | ⟨s, rfl, _⟩
  · exact not_blank_textOf h
  · rfl

theorem Exposed.not_blank (hL : ∀ m, L m → m.isBlank = false) (h : Exposed T L linked n) :
    n.isBlank = false := by
  cases h with
  | here h => exact hL _ h
  | inside => rfl

/-- An element that is no link to a linked footnote keeps what it exposes. -/
theorem exposes_element (hL : ∀ m, L m → m.isBlank = false) {e : Element}
    (he : Passable env.targets linked below e.tag e.attributes)
    (hlink : ¬ LinksTo env.targets.reference e.tag e.attributes)
    (h : Exposes env.targets L below e.children)
    (hout : (Mapping.element env e).result = .ok out) : Exposes env.targets L linked out := by
  obtain ⟨n, hm, hn⟩ := h
  have hstay : Exposes env.targets L linked [e.toNode] :=
    ⟨_, List.mem_singleton.2 rfl, .inside he hm hn⟩
  have hcell : ∀ header, Exposes env.targets L linked (Mapping.tableCell header e) := fun header =>
    ⟨_, List.mem_singleton.2 rfl, .inside (he.cellAttributes header) hm hn⟩
  refine Mapping.element_ok (T := Exposes env.targets L linked) ?_ ?_ ?_ ?_ hcell ?_ hstay hout
  · intro ht
    have hvoid := he.noVoid
    rw [ht] at hvoid
    exact absurd hvoid (by decide)
  · intro ha
    rw [Mapping.link, link?_eq_none ha he.noBackLink hlink]
    exact hstay
  · exact fun ht => absurd (by rw [ht]; decide) he.kept
  · intro _
    unfold Mapping.codeWrapper
    simp only
    split
    · exact ⟨n, List.mem_filter.2 ⟨hm, by rw [hn.not_blank hL]; rfl⟩, he.exposed hn⟩
    · exact hstay
  · exact fun ht => absurd (by rw [ht]; decide) he.kept

/-- One link to a footnote may be around text that is exposed. -/
theorem keeps_element {e : Element} (he : Passable env.targets true false e.tag e.attributes)
    (h : Exposes env.targets (TextOf k) false e.children)
    (hout : (Mapping.element env e).result = .ok out) :
    Exposes env.targets (KeptIn k) true out := by
  obtain ⟨n, hm, hn⟩ := h
  have hkept : Exposes env.targets (KeptIn k) false e.children :=
    ⟨n, hm, hn.mono fun _ => TextOf.kept⟩
  by_cases hlink : LinksTo env.targets.reference e.tag e.attributes
  · have ha := hlink.1
    have htext : placeholder k <:+: Node.characterDataOf e.children :=
      infix_characterDataOf hm hn.infix_characterData
    rw [Mapping.element, if_neg (by rw [ha]; decide), if_pos ha] at hout
    cases hout
    unfold Mapping.link
    split
    · next directives hd =>
      exact ⟨_, List.mem_singleton.2 rfl, .here (.inr ⟨directives, rfl,
        infix_link? ha he.noBackLink htext hd⟩)⟩
    · exact ⟨_, List.mem_singleton.2 rfl, .inside he hm (hn.mono fun _ => TextOf.kept)⟩
  · exact exposes_element (fun _ => not_blank_keptIn) he hlink hkept hout

/-! ## Trees -/

/-- What is exposed in what becomes of a node is exposed in what becomes of its neighbours. -/
theorem exposes_of_mem {depth : Nat} (hn : n ∈ nodes)
    (hout : (Mapping.nodes env depth nodes).result = .ok out)
    (h : ∀ first, (Mapping.node env depth n).result = .ok first → Exposes T L linked first) :
    Exposes T L linked out := by
  obtain ⟨first, hfirst, hsub⟩ := Mapping.exists_node_of_mem hn hout
  obtain ⟨m, hm, hexposed⟩ := h first hfirst
  exact ⟨m, hsub hm, hexposed⟩

/-- The rules keep the way to a node, if no link to a linked footnote is on it. -/
theorem exposes_mapping {P : Node → Prop} (hL : ∀ m, L m → m.isBlank = false)
    (hPL : ∀ n, P n → ∀ depth out, (Mapping.node env depth n).result = .ok out →
      Exposes env.targets L false out) {depth : Nat} (h : Exposes env.targets P false nodes)
    (hout : (Mapping.nodes env depth nodes).result = .ok out) :
    Exposes env.targets L false out := by
  obtain ⟨n, hm, h⟩ := h
  have hnode : ∀ depth out, (Mapping.node env depth n).result = .ok out →
      Exposes env.targets L false out := by
    clear hm hout
    generalize hf : false = linked at h
    induction h with
    | here h =>
      subst hf
      exact hPL _ h
    | @inside linked below tag attrs children n he hm _ ih =>
      intro depth out hout
      subst hf
      -- where no link is allowed the element is none
      rcases he.links with ⟨rfl, hlink⟩ | ⟨_, hl⟩
      · obtain ⟨mapped, hmapped, helement⟩ := Mapping.element_of_node hout
        exact exposes_element (e := ⟨tag, attrs, mapped⟩) hL he hlink
          (exposes_of_mem hm hmapped (ih rfl _)) helement
      · cases hl
  exact exposes_of_mem hm hout (hnode _)

theorem exposes_text_mapping {depth : Nat} (h : Exposes env.targets (TextOf k) false nodes)
    (hout : (Mapping.nodes env depth nodes).result = .ok out) :
    Exposes env.targets (TextOf k) false out := by
  refine exposes_mapping (fun _ => not_blank_textOf) ?_ h hout
  rintro n rfl depth out hout
  cases hout
  exact ⟨_, List.mem_singleton.2 rfl, .here rfl⟩

/-- The rules keep an exposed placeholder. -/
theorem keeps_mapping {depth : Nat} (h : Exposes env.targets (TextOf k) true nodes)
    (hout : (Mapping.nodes env depth nodes).result = .ok out) :
    Exposes env.targets (KeptIn k) true out := by
  obtain ⟨n, hm, h⟩ := h
  have hnode : ∀ depth out, (Mapping.node env depth n).result = .ok out →
      Exposes env.targets (KeptIn k) true out := by
    clear hm hout
    generalize hf : true = linked at h
    induction h with
    | here h =>
      intro depth out hout
      subst hf
      rw [h] at hout
      cases hout
      exact ⟨_, List.mem_singleton.2 rfl, .here (.inl rfl)⟩
    | @inside linked below tag attrs children n he hm hn ih =>
      intro depth out hout
      subst hf
      obtain ⟨mapped, hmapped, helement⟩ := Mapping.element_of_node hout
      rcases he.links with ⟨rfl, hlink⟩ | ⟨rfl, _⟩
      · exact exposes_element (e := ⟨tag, attrs, mapped⟩) (fun _ => not_blank_keptIn) he hlink
          (exposes_of_mem hm hmapped (ih rfl _)) helement
      · exact keeps_element (e := ⟨tag, attrs, mapped⟩) he
          (exposes_text_mapping ⟨n, hm, hn⟩ hmapped) helement
  exact exposes_of_mem hm hout (hnode _)

end StorageMarkup
