import StorageMarkup.Proofs.Footnote.Settled
import StorageMarkup.Proofs.Mapping.Counterparts

/-!
# Mapped trees stay mapped

Content is mapped before the element around it, and a rule looks at an element once. What it leaves
of the element no rule would change, and what it writes no rule looks into; so a mapped tree is
mapped to itself.

Whether a link is left goes by the footnotes that the index links. An index taken from the mapped
tree links none that an index of the tree before did not link. But an index that a context brings
with it may link fewer footnotes than the tree does, and then the tree has links left that an index
of its own does not leave.

Results:
1. `Unruled`, `done_element`, `element_of_unruled`: what a rule makes, and what rules leave
   alone.
2. `normal_of_node`, `node_of_normal`: the same for trees.
3. `narrows_of_mapped`, `isLinked_of_mapped`: the footnotes of a mapped tree.
4. `mapping_settles`, `foreign_index_unsettles`: mapping a mapped tree.
-/

namespace StorageMarkup.Mapping

variable {env : Env} {index : Footnote.Index} {depth : Nat} {tag : List Char} {attrs : Attributes}
  {children ns out : List Node} {n : Node} {e : Element}

/-! ## Elements -/

/-- The attributes say nothing of alignment. -/
def Unaligned (attrs : Attributes) : Prop := ∀ a ∈ attrs, a.1 ≠ "align".toList

/-- An element that its rule leaves alone. A folding section is none. -/
inductive Unruled (index : Footnote.Index) : Element → Prop
  | image {attrs : Attributes} {children : List Node}
      (hsrc : ∀ src, attrs.text? "src".toList = some src → src = []) :
      Unruled index ⟨"img".toList, attrs, children⟩
  | link {attrs : Attributes} {children : List Node}
      (hhref : ∀ href, attrs.text? "href".toList = some href →
        ∀ id, Footnote.backReference? href = some id ∨ Footnote.reference? href = some id →
          index.isLinked id = false) :
      Unruled index ⟨"a".toList, attrs, children⟩
  | code {attrs : Attributes} {children : List Node} (hcode : ¬ CodeAlone children) :
      Unruled index ⟨"pre".toList, attrs, children⟩
  | wrapper {attrs : Attributes} {children : List Node}
      (hcontent : attrs.inClass "sourceCode".toList = true → content children ≠ [] →
        ∃ n ∈ content children, isRaw n = false) :
      Unruled index ⟨"div".toList, attrs, children⟩
  | header {attrs : Attributes} {children : List Node} (halign : Unaligned attrs)
      (hscope : attrs.get? "scope".toList = some (.text "col".toList)) :
      Unruled index ⟨"th".toList, attrs, children⟩
  | cell {attrs : Attributes} {children : List Node} (halign : Unaligned attrs) :
      Unruled index ⟨"td".toList, attrs, children⟩
  | other {tag : List Char} {attrs : Attributes} {children : List Node} (htag : tag ∉ ruledTags) :
      Unruled index ⟨tag, attrs, children⟩

/-! ## Cells -/

theorem unaligned_set {name : List Char} (hname : name ≠ "align".toList) (value : Value)
    (h : Unaligned attrs) : Unaligned (attrs.set name value) := by
  induction attrs with
  | nil => exact List.forall_mem_singleton.2 hname
  | cons a attrs ih =>
    obtain ⟨key, old⟩ := a
    obtain ⟨hkey, h⟩ := List.forall_mem_cons.1 h
    rw [Attributes.set]
    split
    · exact List.forall_mem_cons.2 ⟨hkey, h⟩
    · exact List.forall_mem_cons.2 ⟨hkey, ih h⟩

theorem unaligned_cellAttributes (header : Bool) (attrs : Attributes) :
    Unaligned (cellAttributes header attrs) := by
  have hrest : Unaligned (attrs.erase "align".toList) := fun a ha =>
    of_decide_eq_true (List.mem_filter.1 ha).2
  have hstyled : ∀ {styled : Attributes}, Unaligned styled →
      Unaligned (if header then styled.set "scope".toList (.text "col".toList) else styled) := by
    intro styled h
    split
    · exact unaligned_set (by decide) _ h
    · exact h
  unfold cellAttributes
  simp only
  refine hstyled ?_
  split
  · split
    · exact hrest
    · exact unaligned_set (by decide) _ hrest
  · exact hrest

theorem scope_cellAttributes (attrs : Attributes) :
    (cellAttributes true attrs).get? "scope".toList = some (.text "col".toList) :=
  Attributes.get?_set_self _ _ _

/-- Attributes without alignment are those of a cell already, and those of a header if they have the
scope of one. -/
theorem cellAttributes_eq_self {header : Bool} (halign : Unaligned attrs)
    (hscope : header = true → attrs.get? "scope".toList = some (.text "col".toList)) :
    cellAttributes header attrs = attrs := by
  have hrest : attrs.erase "align".toList = attrs :=
    List.filter_eq_self.2 fun a ha => decide_eq_true (halign a ha)
  have hnone : attrs.text? "align".toList = none := by
    have hlookup : attrs.get? "align".toList = none :=
      List.lookup_eq_none_iff.2 fun a ha => by simpa using (halign a ha).symm
    rw [Attributes.text?, hlookup]
    rfl
  unfold cellAttributes
  simp only [hrest, hnone]
  split
  · next h => exact Attributes.set_of_get? (hscope h)
  · rfl

/-! ## Rules -/

theorem codeBlock_of_not_codeAlone (h : ¬ CodeAlone e.children) :
    codeBlock env e = .ok [e.toNode] := by
  unfold codeBlock
  split
  · next tag attrs children hcontent =>
    have hne : tag ≠ "code".toList := fun htag => h ⟨attrs, children, htag ▸ hcontent⟩
    rw [if_neg hne]
    rfl
  · rfl

/-- What a rule makes of an element: final output, or an element around the same content that no
rule would change. -/
def Done (index : Footnote.Index) (tag : List Char) (children out : List Node) : Prop :=
  (∀ n ∈ out, isRaw n = true) ∨
    ∃ attrs, out = [.element tag attrs children] ∧ Unruled index ⟨tag, attrs, children⟩

theorem Done.raw {s : List Char} : Done index tag children [.raw s] :=
  .inl (List.forall_mem_singleton.2 rfl)

theorem done_image :
    Done index "img".toList children (image ⟨"img".toList, attrs, children⟩) := by
  unfold image
  split
  · next hsrc =>
    have hnone : ∀ src, attrs.text? "src".toList = some src → src = [] := fun src h =>
      absurd (h.symm.trans hsrc) (Option.some_ne_none src)
    exact .inr ⟨attrs, rfl, .image hnone⟩
  · next hsrc => exact .inr ⟨attrs, rfl, .image fun src h => Option.some.inj (h.symm.trans hsrc)⟩
  · exact .raw

theorem image_eq_self
    (hsrc : ∀ src, e.attributes.text? "src".toList = some src → src = []) :
    image e = [e.toNode] := by
  unfold image
  split
  · rfl
  · rfl
  · next hnil hsome => exact absurd (hsrc _ hsome) hnil

theorem done_link :
    Done env.footnotes "a".toList children (link env ⟨"a".toList, attrs, children⟩) := by
  unfold link
  split
  · exact .raw
  · next hlink => exact .inr ⟨attrs, rfl, .link (link?_eq_none_iff.1 hlink)⟩

theorem done_codeBlock (hout : codeBlock env ⟨"pre".toList, attrs, children⟩ = .ok out) :
    Done index "pre".toList children out := by
  by_cases hcode : CodeAlone children
  · obtain ⟨code, inner, hcontent⟩ := hcode
    unfold codeBlock at hout
    simp only [hcontent, if_true] at hout
    obtain ⟨_, -, hout⟩ := bind_eq_ok.1 hout
    cases hout
    exact .raw
  · rw [codeBlock_of_not_codeAlone hcode] at hout
    cases hout
    exact .inr ⟨attrs, rfl, .code hcode⟩

theorem done_codeWrapper :
    Done index "div".toList children (codeWrapper ⟨"div".toList, attrs, children⟩) := by
  unfold codeWrapper
  simp only
  split
  · next hwrapper =>
    simp only [Bool.and_eq_true, List.all_eq_true] at hwrapper
    exact .inl hwrapper.2
  · next hwrapper =>
    refine .inr ⟨attrs, rfl, .wrapper fun hclass hcontent => ?_⟩
    simpa only [hclass, hcontent, Bool.true_and, List.isEmpty_iff, Bool.not_eq_true',
      Bool.and_eq_true, List.isEmpty_eq_false_iff, ne_eq, not_false_eq_true, true_and,
      List.all_eq_true, not_forall, exists_prop, Bool.not_eq_true] using hwrapper

theorem codeWrapper_eq_self
    (hcontent : e.attributes.inClass "sourceCode".toList = true → content e.children ≠ [] →
      ∃ n ∈ content e.children, isRaw n = false) :
    codeWrapper e = [e.toNode] := by
  unfold codeWrapper
  simp only
  split
  · next hwrapper =>
    simp only [Bool.and_eq_true, Bool.not_eq_true', List.isEmpty_eq_false_iff,
      List.all_eq_true] at hwrapper
    obtain ⟨n, hn, hraw⟩ := hcontent hwrapper.1.1 hwrapper.1.2
    exact absurd (hraw.symm.trans (hwrapper.2 n hn)) Bool.false_ne_true
  · rfl

theorem done_element (hout : (element env ⟨tag, attrs, children⟩).result = .ok out) :
    Done env.footnotes tag children out := by
  refine element_cases (e := ⟨tag, attrs, children⟩) (T := Done env.footnotes tag children)
    ?_ ?_ ?_ ?_ ?_ ?_ ?_ ?_ hout
  · intro (htag : tag = _)
    subst htag
    exact done_image
  · intro (htag : tag = _)
    subst htag
    exact done_link
  · intro (htag : tag = _) out hcode
    subst htag
    exact done_codeBlock hcode
  · intro (htag : tag = _)
    subst htag
    exact done_codeWrapper
  · intro (htag : tag = _)
    subst htag
    exact .inr ⟨_, rfl, .header (unaligned_cellAttributes true attrs) (scope_cellAttributes attrs)⟩
  · intro (htag : tag = _)
    subst htag
    exact .inr ⟨_, rfl, .cell (unaligned_cellAttributes false attrs)⟩
  · intro _ out hfolding
    unfold foldingSection at hfolding
    obtain ⟨_, -, hfolding⟩ := Traced.bind_eq_ok.1 hfolding
    obtain ⟨_, -, hfolding⟩ := Traced.bind_eq_ok.1 hfolding
    cases hfolding
    exact .raw
  · exact fun htag => .inr ⟨attrs, rfl, .other htag⟩

/-- An element that the rules leave alone for one index they leave alone for any that links no more
footnotes. -/
theorem element_of_unruled (h : Unruled index e)
    (hindex : ∀ id, env.footnotes.isLinked id = true → index.isLinked id = true) :
    element env e = pure [e.toNode] := by
  cases h with
  | image hsrc => exact congrArg pure (image_eq_self hsrc)
  | @link attrs children hhref =>
    have hnone : Footnote.link? env.footnotes ⟨"a".toList, attrs, children⟩ = none :=
      link?_eq_none_iff.2 fun href h id hid =>
        Bool.eq_false_iff.2 fun hlinked =>
          Bool.false_ne_true ((hhref href h id hid).symm.trans (hindex id hlinked))
    show pure (link env ⟨_, attrs, children⟩) = _
    rw [link, hnone]
  | code hcode => exact congrArg Traced.lift (codeBlock_of_not_codeAlone hcode)
  | wrapper hcontent => exact congrArg pure (codeWrapper_eq_self hcontent)
  | @header attrs children halign hscope =>
    show pure (tableCell true ⟨_, attrs, children⟩) = _
    rw [tableCell, cellAttributes_eq_self halign fun _ => hscope]
    rfl
  | @cell attrs children halign =>
    have hsame : cellAttributes false attrs = attrs :=
      cellAttributes_eq_self halign fun h => absurd h Bool.false_ne_true
    show pure (tableCell false ⟨_, attrs, children⟩) = _
    rw [tableCell, hsame]
    rfl
  | @other tag attrs children htag =>
    simp only [ruledTags, List.mem_cons, List.not_mem_nil, or_false, not_or] at htag
    unfold element
    simp only [htag, if_false]

/-! ## Trees -/

/-- No root is inside. -/
inductive Rootless : Node → Prop
  | text (s : List Char) : Rootless (.text s)
  | raw (s : List Char) : Rootless (.raw s)
  | element {tag : List Char} {attrs : Attributes} {children : List Node}
      (h : ∀ c ∈ children, Rootless c) : Rootless (.element tag attrs children)

/-- A node within the limit in which the rules leave every element alone. -/
inductive Normal (index : Footnote.Index) (limit : Limit) : Nat → Node → Prop
  | text {depth : Nat} (s : List Char) : Normal index limit depth (.text s)
  | raw {depth : Nat} (s : List Char) : Normal index limit depth (.raw s)
  | element {depth : Nat} {tag : List Char} {attrs : Attributes} {children : List Node}
      (hlimit : withinLimit (depth + 1) limit = .ok ())
      (hrule : Unruled index ⟨tag, attrs, children⟩)
      (h : ∀ c ∈ children, Normal index limit (depth + 1) c) :
      Normal index limit depth (.element tag attrs children)

theorem Normal.elements {limit : Limit} (h : Normal index limit depth n) :
    ∀ e ∈ n.elements, Unruled index e := by
  induction h with
  | text | raw => exact fun e he => absurd he List.not_mem_nil
  | element _ hrule _ ih =>
    rw [Node.elements, List.forall_mem_cons, Node.elementsOf_eq, List.forall_mem_flatMap]
    exact ⟨hrule, ih⟩

theorem nodes_normal_of_each
    (h : ∀ n ∈ ns, ∀ out, (node env depth n).result = .ok out →
      ∀ m ∈ out, Normal env.footnotes env.options.limit depth m)
    (hout : (nodes env depth ns).result = .ok out) :
    ∀ m ∈ out, Normal env.footnotes env.options.limit depth m := by
  intro m hm
  obtain ⟨n, hn, first, hfirst, hm⟩ := exists_source hm hout
  exact h n hn first hfirst m hm

/-- What mapping makes of a node is normal. -/
theorem normal_of_node (h : Rootless n) : ∀ (depth : Nat) (out : List Node),
    (node env depth n).result = .ok out →
      ∀ m ∈ out, Normal env.footnotes env.options.limit depth m := by
  induction h with
  | text s =>
    intro depth out hout
    cases hout
    exact List.forall_mem_singleton.2 (.text s)
  | raw s =>
    intro depth out hout
    cases hout
    exact List.forall_mem_singleton.2 (.raw s)
  | @element tag attrs children _ ih =>
    intro depth out hout
    rw [node] at hout
    obtain ⟨_, hlimit, hout⟩ := Traced.bind_eq_ok.1 hout
    obtain ⟨mapped, hmapped, hout⟩ := Traced.bind_eq_ok.1 hout
    -- an element that is left has the content that the rule has seen, which is normal already
    rcases done_element hout with hraw | ⟨attrs', rfl, hrule⟩
    · intro m hm
      have hm := hraw m hm
      cases m with
      | raw s => exact .raw s
      | text | root | element => cases hm
    · have hinner := nodes_normal_of_each (fun c hc out => ih c hc (depth + 1) out) hmapped
      exact List.forall_mem_singleton.2 (.element hlimit hrule hinner)

theorem nodes_of_each_same (h : ∀ n ∈ ns, node env depth n = pure [n]) :
    nodes env depth ns = pure ns := by
  induction ns with
  | nil => rfl
  | cons n ns ih =>
    rw [List.forall_mem_cons] at h
    rw [nodes, h.1, ih h.2, pure_bind, pure_bind]
    rfl

/-- A normal node stays as it is, also for an index that links fewer footnotes. -/
theorem node_of_normal (h : Normal index env.options.limit depth n)
    (hindex : ∀ id, env.footnotes.isLinked id = true → index.isLinked id = true) :
    node env depth n = pure [n] := by
  induction h with
  | text | raw => rfl
  | element hlimit hrule _ ih =>
    rw [node, hlimit, Traced.lift_ok_bind, nodes_of_each_same ih, pure_bind,
      element_of_unruled hrule hindex]
    rfl

/-! ## The index of a mapped tree -/

/-- The footnotes that list items define, in containers or not. -/
def itemsOf (nodes : List Node) : List (List Char) :=
  (Node.elementsOf nodes).filterMap Element.definition?

/-- The second list of nodes has no footnotes beyond those of the first. List items count outside of
containers too, since a container may stand around the nodes. -/
structure Narrows (before after : List Node) : Prop where
  items : itemsOf after ⊆ itemsOf before
  definitions : (Footnote.Index.ofNodes after).definitions ⊆
    (Footnote.Index.ofNodes before).definitions
  references : (Footnote.Index.ofNodes after).references ⊆
    (Footnote.Index.ofNodes before).references

namespace Narrows

theorem refl (nodes : List Node) : Narrows nodes nodes :=
  ⟨List.Subset.refl _, List.Subset.refl _, List.Subset.refl _⟩

theorem of_unmarked (before : List Node) {after : List Node} (h : Node.elementsOf after = []) :
    Narrows before after := by
  constructor <;> simp [itemsOf, Footnote.Index.ofNodes, h]

theorem append {a a' b b' : List Node} (ha : Narrows a a') (hb : Narrows b b') :
    Narrows (a ++ b) (a' ++ b') := by
  have hsub : ∀ {x x' y y' : List (List Char)}, x' ⊆ x → y' ⊆ y → x' ++ y' ⊆ x ++ y :=
    fun hx hy => List.append_subset.2
      ⟨List.subset_append_of_subset_left _ hx, List.subset_append_of_subset_right _ hy⟩
  have helements : ∀ x y, Node.elementsOf (x ++ y) = Node.elementsOf x ++ Node.elementsOf y :=
    fun x y => by simp only [Node.elementsOf_eq, List.flatMap_append]
  constructor <;> simp only [itemsOf, Footnote.Index.ofNodes, helements, List.filterMap_append,
    List.flatMap_append]
  · exact hsub ha.items hb.items
  · exact hsub ha.definitions hb.definitions
  · exact hsub ha.references hb.references

theorem mem_items {id : List Char} : id ∈ itemsOf [.element tag attrs children] ↔
    Element.definition? ⟨tag, attrs, children⟩ = some id ∨ id ∈ itemsOf children := by
  simp only [itemsOf, Node.elementsOf_singleton, List.mem_filterMap, List.mem_cons,
    exists_eq_or_imp]

theorem mem_definitions {id : List Char} :
    id ∈ (Footnote.Index.ofNodes [.element tag attrs children]).definitions ↔
      Element.holdsFootnotes ⟨tag, attrs, children⟩ = true ∧
          id ∈ itemsOf [.element tag attrs children] ∨
        id ∈ (Footnote.Index.ofNodes children).definitions := by
  have hself : id ∈ Footnote.Index.definitionsIn ⟨tag, attrs, children⟩ ↔
      Element.holdsFootnotes ⟨tag, attrs, children⟩ = true ∧
        id ∈ itemsOf [.element tag attrs children] := by
    unfold Footnote.Index.definitionsIn
    rw [itemsOf, Node.elementsOf_singleton]
    split <;> simp [*, Element.toNode, Node.elements]
  rw [Footnote.Index.ofNodes, Node.elementsOf_singleton, List.flatMap_cons, List.mem_append, hself]
  rfl

theorem mem_references {id : List Char} :
    id ∈ (Footnote.Index.ofNodes [.element tag attrs children]).references ↔
      Footnote.Index.referenceOf? ⟨tag, attrs, children⟩ = some id ∨
        id ∈ (Footnote.Index.ofNodes children).references := by
  simp only [Footnote.Index.ofNodes, Node.elementsOf_singleton, List.mem_filterMap, List.mem_cons,
    exists_eq_or_imp]

/-- An element that keeps the attributes that footnotes go by, around content that narrows. -/
theorem element {attrs' : Attributes} {mapped : List Node}
    (hattrs : ∀ name, name ≠ "align".toList → name ≠ "style".toList → name ≠ "scope".toList →
      attrs'.get? name = attrs.get? name)
    (h : Narrows children mapped) :
    Narrows [.element tag attrs children] [.element tag attrs' mapped] := by
  have hitem : Element.definition? ⟨tag, attrs', mapped⟩ =
      Element.definition? ⟨tag, attrs, children⟩ := by
    unfold Element.definition? Attributes.text?
    rw [hattrs _ (by decide) (by decide) (by decide)]
  have hreference : Element.reference? ⟨tag, attrs', mapped⟩ =
      Element.reference? ⟨tag, attrs, children⟩ := by
    unfold Element.reference? Attributes.text?
    rw [hattrs _ (by decide) (by decide) (by decide)]
  have hholds : Element.holdsFootnotes ⟨tag, attrs', mapped⟩ =
      Element.holdsFootnotes ⟨tag, attrs, children⟩ := by
    refine holdsFootnotes_congr fun name hn => ?_
    have hne : name ≠ "align".toList ∧ name ≠ "style".toList ∧ name ≠ "scope".toList := by
      revert name
      decide
    exact hattrs name hne.1 hne.2.1 hne.2.2
  have hitems : itemsOf [.element tag attrs' mapped] ⊆ itemsOf [.element tag attrs children] :=
    fun id hid => mem_items.2 ((mem_items.1 hid).imp hitem.symm.trans fun hm => h.items hm)
  refine ⟨hitems, fun id hid => mem_definitions.2 ?_, fun id hid => mem_references.2 ?_⟩
  · refine (mem_definitions.1 hid).imp (fun hself => ?_) fun hm => h.definitions hm
    exact ⟨hholds.symm.trans hself.1, hitems hself.2⟩
  · refine (mem_references.1 hid).imp (fun hself => ?_) fun hm => h.references hm
    unfold Footnote.Index.referenceOf? at hself ⊢
    rwa [hholds, hreference] at hself

end Narrows

theorem narrows_of_mapped (hout : (nodes env depth ns).result = .ok out) : Narrows ns out := by
  refine nodes_ok (R := fun n out => Narrows [n] out) (S := Narrows) (.refl []) ?_
    (fun s => .refl _) (fun s => .refl _) (fun children => .refl _) ?_ hout
  · exact fun n rest first others hfirst hothers => hfirst.append hothers
  · intro tag attrs children mapped out hmapped hrule
    refine element_left (e := ⟨tag, attrs, mapped⟩)
      (S := Narrows [.element tag attrs children]) ?_ ?_ ?_ ?_ hrule
    · exact fun s => .of_unmarked _ rfl
    · exact .element (fun _ _ _ _ => rfl) hmapped
    · exact fun header => .element (fun name halign hstyle hscope =>
        Attributes.get?_cellAttributes halign hstyle hscope header attrs) hmapped
    · intro inner _ _ hraw
      refine .of_unmarked _ ?_
      rw [Node.elementsOf_eq, List.flatMap_eq_nil_iff]
      intro m hm
      have hm := hraw m hm
      cases m with
      | raw => rfl
      | text | root | element => cases hm

theorem isLinked_of_mapped (hout : (nodes env depth ns).result = .ok out) {id : List Char}
    (h : (Footnote.Index.ofNodes out).isLinked id = true) :
    (Footnote.Index.ofNodes ns).isLinked id = true := by
  have hnarrows := narrows_of_mapped hout
  rw [Footnote.Index.isLinked, Bool.and_eq_true, List.contains_iff_mem, List.contains_iff_mem]
    at h ⊢
  exact ⟨hnarrows.definitions h.1, hnarrows.references h.2⟩

/-! ## Mapping again -/

variable {ctx ctx' : Context}

/-- A tree without roots inside that is mapped has no element left that a rule would change, and is
mapped to itself with the index that was used. With an index of its own it is too, if the context
brought no index with it, or one that links every footnote that the mapped tree links. -/
theorem mapping_settles {traced : Traced (List Node)} (hroots : ∀ n ∈ ns, Rootless n)
    (hrun : TreePass.run ctx ns .mapping = (ctx', traced)) (hout : traced.result = .ok out) :
    (∀ e ∈ Node.elementsOf out, Unruled (ctx.indexFor ns) e) ∧
      TreePass.run ctx' out .mapping = (ctx', pure out) ∧
      ((ctx.footnotes = none ∨ ∀ id, (Footnote.Index.ofNodes out).isLinked id = true →
          (ctx.indexFor ns).isLinked id = true) →
        TreePass.run { ctx' with footnotes := none } out .mapping =
          ({ ctx' with footnotes := some (.ofNodes out) }, pure out)) := by
  cases hrun
  have hnormal := nodes_normal_of_each (fun n hn => normal_of_node (hroots n hn) 0) hout
  refine ⟨?_, ?_, fun hindex => ?_⟩
  · rw [Node.elementsOf_eq, List.forall_mem_flatMap]
    exact fun m hm => (hnormal m hm).elements
  · have hagain : nodes ⟨ctx.options, ctx.vault, ctx.indexFor ns⟩ 0 out = pure out :=
      nodes_of_each_same fun n hn => node_of_normal (hnormal n hn) fun _ h => h
    exact congrArg (Prod.mk _) hagain
  · have hlinked : ∀ id, (Footnote.Index.ofNodes out).isLinked id = true →
        (ctx.indexFor ns).isLinked id = true := by
      rcases hindex with hnone | hindex
      · -- the index that was used is that of the tree before
        intro id h
        rw [Context.indexFor, hnone]
        exact isLinked_of_mapped hout h
      · exact hindex
    have hagain : nodes ⟨ctx.options, ctx.vault, .ofNodes out⟩ 0 out = pure out :=
      nodes_of_each_same fun n hn => node_of_normal (hnormal n hn) hlinked
    exact congrArg (Prod.mk _) hagain

/-- A table with an image in an aligned header, and a footnote. -/
theorem mapping_settles_table :
    let note : List Node := [.element "a".toList [("href".toList, .text "#user-content-fn1".toList)]
      [.text "1".toList]]
    let item : Node := .element "li".toList [("id".toList, .text "user-content-fn1".toList)] []
    let table (image : List Node) (cell : Attributes) (link : List Node) : List Node :=
      [.element "table".toList [] [.element "th".toList cell image, .element "td".toList [] link],
        .element "ol".toList [("class".toList, .text "footnotes".toList)] [item]]
    let nodes := table [.element "img".toList [("src".toList, .text "a.png".toList)] []]
      [("align".toList, .text "left".toList)] note
    let out := table [.raw "\x7b\x7bconfluence-image src=\"a.png\" alt=\"\"\x7d\x7d".toList]
      [("style".toList, .text "text-align: left;".toList), ("scope".toList, .text "col".toList)]
      [.raw ("\x7b\x7bconfluence-anchor name=\"footnote-ref-1\"\x7d\x7d" ++
        "\x7b\x7bconfluence-link type=\"anchor\" text=\"1\" anchor=\"footnote-1\"\x7d\x7d").toList]
    let ctx : Context := .fresh .standard
    (∀ n ∈ nodes, Rootless n) ∧
      TreePass.run ctx nodes .mapping = (ctx.withIndex nodes, pure out) ∧
      (∀ e ∈ Node.elementsOf out, Unruled (.ofNodes nodes) e) ∧
      TreePass.run (ctx.withIndex nodes) out .mapping = (ctx.withIndex nodes, pure out) ∧
      TreePass.run ctx out .mapping = (ctx.withIndex out, pure out) := by
  intro note item table nodes out ctx
  have hroots : ∀ n ∈ nodes, Rootless n := by
    have hnone : ∀ c ∈ ([] : List Node), Rootless c := fun c hc => absurd hc List.not_mem_nil
    have hone : ∀ {n}, Rootless n → ∀ c ∈ [n], Rootless c := List.forall_mem_singleton.2
    refine List.forall_mem_cons.2 ⟨.element (List.forall_mem_cons.2 ⟨?_, hone ?_⟩), hone ?_⟩
    · exact .element (hone (.element hnone))
    · exact .element (hone (.element (hone (.text _))))
    · exact .element (hone (.element hnone))
  have hrun : TreePass.run ctx nodes .mapping = (ctx.withIndex nodes, pure out) := by
    with_unfolding_all rfl
  obtain ⟨hleft, hsame, hown⟩ := mapping_settles hroots hrun rfl
  exact ⟨hroots, hrun, hleft, hsame, hown (.inl rfl)⟩

/-- With an index that links no footnote a link to a footnote is left, which the index of the tree
rewrites. -/
theorem foreign_index_unsettles :
    let nodes : List Node := [
      .element "a".toList [("href".toList, .text "#user-content-fn1".toList)] [.text "1".toList],
      .element "ol".toList [("class".toList, .text "footnotes".toList)]
        [.element "li".toList [("id".toList, .text "user-content-fn1".toList)] []]]
    let ctx : Context := ⟨.standard, some .empty, some ⟨[], []⟩⟩
    (∀ n ∈ nodes, Rootless n) ∧
      TreePass.run ctx nodes .mapping = (ctx, pure nodes) ∧
      (TreePass.run { ctx with footnotes := none } nodes .mapping).2.result ≠ .ok nodes := by
  intro nodes ctx
  refine ⟨?_, by with_unfolding_all rfl, fun hsame => ?_⟩
  · have hone : ∀ {n}, Rootless n → ∀ c ∈ [n], Rootless c := List.forall_mem_singleton.2
    refine List.forall_mem_cons.2 ⟨.element (hone (.text _)), hone (.element (hone ?_))⟩
    exact .element fun c hc => absurd hc List.not_mem_nil
  · have hraw : ((TreePass.run { ctx with footnotes := none } nodes .mapping).2.result.toOption.map
        fun out => out.map isRaw) = some [true, false] := by
      with_unfolding_all rfl
    rw [hsame] at hraw
    exact absurd hraw (by decide)

end StorageMarkup.Mapping
