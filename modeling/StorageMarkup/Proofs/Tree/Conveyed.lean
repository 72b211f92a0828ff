import StorageMarkup.Proofs.Directive.Conveyed
import StorageMarkup.Proofs.Tree.Shielded
import StorageMarkup.Proofs.Tree.Success

/-!
# Trees that carry directives

A tree carries a list of directives when its texts and its final output, taken in
document order, carry the parts of the list and nothing else in it holds a brace.
Before the directives of the tree are set aside all of them are spelled out; after
that text holds placeholders, and final output may hold both.

Results:
1. `Carries.of_append`, `Carries.mono`: taking such trees apart.
2. `spells_bodyOf`, `spells_liftMarkers`, `holds_shieldNodes`: up to setting aside.
3. `holds_mapping`, `holds_settleFootnotes`: passes after it.
4. `woven_printAll`: the written tree carries what the tree did.
-/

namespace StorageMarkup

open Directive (Portable Spelled SetAside Written Legible directives)

variable {T R : List (List Char) → List Char → Prop} {nodes x y : List Node}
  {a b ds : List (List Char)} {v : Vault} {limit : Limit}

/-! ## Trees -/

/-- An element that every pass keeps, without braces in its tag and its attributes. -/
structure Ordinary (tag : List Char) (attrs : Attributes) : Prop where
  plainTag : ∀ c ∈ tag, Plain c
  plainAttributes : attrs.All fun s => ∀ c ∈ s, Plain c
  kept : tag ∉ ["head".toList, "img".toList, "pre".toList, "details".toList]
  noFootnotes : Element.holdsFootnotes ⟨tag, attrs, []⟩ = false

/-- The neighbours carry these directives, in their texts as `T` says and in their final output as
`R` says. -/
inductive Carries (T R : List (List Char) → List Char → Prop) :
    List Node → List (List Char) → Prop
  | nil : Carries T R [] []
  | text {s : List Char} {rest : List Node} {a b : List (List Char)} (h : T a s)
      (hrest : Carries T R rest b) : Carries T R (.text s :: rest) (a ++ b)
  | raw {s : List Char} {rest : List Node} {a b : List (List Char)} (h : R a s)
      (hrest : Carries T R rest b) : Carries T R (.raw s :: rest) (a ++ b)
  | element {tag : List Char} {attrs : Attributes} {children rest : List Node}
      {a b : List (List Char)} (he : Ordinary tag attrs) (hvoid : isVoid tag = true → a = [])
      (hchildren : Carries T R children a) (hrest : Carries T R rest b) :
      Carries T R (.element tag attrs children :: rest) (a ++ b)

namespace Carries

theorem append (h : Carries T R x a) (h' : Carries T R y b) : Carries T R (x ++ y) (a ++ b) := by
  induction h with
  | nil => exact h'
  | text h _ ih =>
    rw [List.append_assoc]
    exact .text h ih
  | raw h _ ih =>
    rw [List.append_assoc]
    exact .raw h ih
  | element he hvoid hchildren _ _ ih =>
    rw [List.append_assoc]
    exact .element he hvoid hchildren ih

/-- What neighbours carry, each part carries a part of. -/
theorem of_append (h : Carries T R (x ++ y) ds) :
    ∃ a b, ds = a ++ b ∧ Carries T R x a ∧ Carries T R y b := by
  induction x generalizing ds with
  | nil => exact ⟨[], ds, rfl, .nil, h⟩
  | cons n x ih =>
    cases h with
    | text h hrest =>
      obtain ⟨a, b, rfl, hx, hy⟩ := ih hrest
      exact ⟨_, b, (List.append_assoc _ _ _).symm, .text h hx, hy⟩
    | raw h hrest =>
      obtain ⟨a, b, rfl, hx, hy⟩ := ih hrest
      exact ⟨_, b, (List.append_assoc _ _ _).symm, .raw h hx, hy⟩
    | element he hvoid hchildren hrest =>
      obtain ⟨a, b, rfl, hx, hy⟩ := ih hrest
      exact ⟨_, b, (List.append_assoc _ _ _).symm, .element he hvoid hchildren hx, hy⟩

theorem of_cons {n : Node} (h : Carries T R (n :: nodes) ds) :
    ∃ a b, ds = a ++ b ∧ Carries T R [n] a ∧ Carries T R nodes b :=
  of_append (x := [n]) h

theorem of_text {s : List Char} (h : Carries T R [.text s] ds) : T ds s := by
  cases h with
  | text h hrest =>
    cases hrest
    rwa [List.append_nil]

theorem of_raw {s : List Char} (h : Carries T R [.raw s] ds) : R ds s := by
  cases h with
  | raw h hrest =>
    cases hrest
    rwa [List.append_nil]

theorem of_element {tag : List Char} {attrs : Attributes} {children : List Node}
    (h : Carries T R [.element tag attrs children] ds) :
    Ordinary tag attrs ∧ (isVoid tag = true → ds = []) ∧ Carries T R children ds := by
  cases h with
  | element he hvoid hchildren hrest =>
    cases hrest
    rw [List.append_nil]
    exact ⟨he, hvoid, hchildren⟩

theorem single_text {s : List Char} (h : T ds s) : Carries T R [.text s] ds := by
  have : Carries T R [.text s] (ds ++ []) := .text h .nil
  rwa [List.append_nil] at this

theorem single_raw {s : List Char} (h : R ds s) : Carries T R [.raw s] ds := by
  have : Carries T R [.raw s] (ds ++ []) := .raw h .nil
  rwa [List.append_nil] at this

theorem single_element {tag : List Char} {attrs : Attributes} {children : List Node}
    (he : Ordinary tag attrs) (hvoid : isVoid tag = true → ds = []) (h : Carries T R children ds) :
    Carries T R [.element tag attrs children] ds := by
  have : Carries T R [.element tag attrs children] (ds ++ []) := .element he hvoid h .nil
  rwa [List.append_nil] at this

theorem mono {T' R' : List (List Char) → List Char → Prop} (h : Carries T R nodes ds)
    (hT : ∀ a s, T a s → T' a s) (hR : ∀ a s, R a s → R' a s) : Carries T' R' nodes ds := by
  induction h with
  | nil => exact .nil
  | text h _ ih => exact .text (hT _ _ h) ih
  | raw h _ ih => exact .raw (hR _ _ h) ih
  | element he hvoid _ _ ihchildren ih => exact .element he hvoid ihchildren ih

/-- Such a tree has no container of footnotes in it. -/
theorem holdsFootnotes_eq_false (h : Carries T R nodes ds) :
    ∀ e ∈ Node.elementsOf nodes, e.holdsFootnotes = false := by
  induction h with
  | nil => exact fun e he => absurd he List.not_mem_nil
  | text _ _ ih => exact ih
  | raw _ _ ih => exact ih
  | element he _ _ _ ihchildren ih =>
    rw [Node.elementsOf, Node.elements]
    exact List.forall_mem_append.2 ⟨List.forall_mem_cons.2 ⟨he.noFootnotes, ihchildren⟩, ih⟩

end Carries

/-- All directives are spelled out. -/
abbrev Spells : List Node → List (List Char) → Prop :=
  Carries (Woven Plain Spelled) (Woven Plain Spelled)

/-- Text holds placeholders of the vault, final output may spell directives out. -/
abbrev Holds (v : Vault) : List Node → List (List Char) → Prop :=
  Carries (Woven Plain (SetAside v)) (Woven Plain (Written v))

/-- What becomes of a node, beside what becomes of its neighbours. -/
theorem holds_cons {n : Node} {rest first others : List Node}
    (hfirst : ∀ a, Holds v [n] a → Holds v first a)
    (hothers : ∀ b, Holds v rest b → Holds v others b) (ds : List (List Char))
    (h : Holds v (n :: rest) ds) : Holds v (first ++ others) ds := by
  obtain ⟨a, b, rfl, ha, hb⟩ := h.of_cons
  exact (hfirst a ha).append (hothers b hb)

/-! ## Before directives are set aside -/

theorem Ordinary.withoutNamespaces {tag : List Char} {attrs : Attributes} (h : Ordinary tag attrs) :
    Ordinary tag attrs.withoutNamespaces where
  plainTag := h.plainTag
  plainAttributes := h.plainAttributes.filter _
  kept := h.kept
  noFootnotes := by
    rw [holdsFootnotes_withoutNamespaces tag attrs [] []]
    exact h.noFootnotes

theorem spells_bodyOf (h : Spells nodes ds) : Spells (Node.bodyOf nodes) ds := by
  induction h with
  | nil => exact .nil
  | text h _ ih => exact .text h ih
  | raw h _ ih => exact .raw h ih
  | @element tag attrs children rest a b he hvoid _ _ ihchildren ih =>
    rw [Node.bodyOf, Node.body,
      if_neg fun hh : tag = "head".toList => he.kept (hh ▸ List.mem_cons_self)]
    refine .append ?_ ih
    split
    · exact ihchildren
    · exact .single_element he.withoutNamespaces hvoid ihchildren

theorem spells_markers {ls : List (List Char)} (h : ∀ l ∈ ls, Portable l) :
    Spells (markers ls) ls := by
  induction ls with
  | nil => exact .nil
  | cons l ls ih =>
    rw [List.forall_mem_cons] at h
    have hl : Woven Plain Spelled [l] l := .of_unit ⟨rfl, h.1⟩
    cases ls with
    | nil => exact .single_text hl
    | cons m ls =>
      have hfeed : Woven Plain Spelled [] ['\n'] := .of_plain (by decide)
      exact .text hl (.text hfeed (ih h.2))

theorem spells_liftMarkers (h : Spells nodes ds) :
    Spells (Node.liftMarkersAmong (some v) nodes) ds := by
  induction h with
  | nil => exact .nil
  | text h _ ih => exact .text h ih
  | raw h _ ih => exact .raw h ih
  | @element tag attrs children rest a b he hvoid hchildren _ ihchildren ih =>
    rw [Node.liftMarkersAmong, Node.liftMarkers]
    refine .append ?_ ih
    split
    · next ls hls =>
      unfold markersOf? at hls
      split at hls
      · next s =>
        simp only at hls
        split at hls
        · next hall =>
          cases hls
          rw [Bool.and_eq_true] at hall
          have hs := hchildren.of_text
          have ha := Directive.markerLines_of_woven hs hall.2
          have hportable := Directive.portable_of_woven hs
          rw [ha] at hportable ⊢
          exact spells_markers hportable
        · cases hls
      · cases hls
    · exact .single_element he hvoid ihchildren

/-! ## Setting directives aside -/

theorem shieldItems_eq_self {items : List Value}
    (h : ∀ item ∈ items, item.All fun s => ∀ c ∈ s, Plain c) (v : Vault) :
    v.shieldItems items = (v, items) := by
  induction items with
  | nil => rfl
  | cons item items ih =>
    rw [List.forall_mem_cons] at h
    cases item with
    | text s =>
      rw [Vault.shieldItems, Vault.shield_eq_self fun c hc => (h.1.of_text c hc).2]
      simp only [ih h.2]
    | absent | flag | number | list | record | other => simp only [Vault.shieldItems, ih h.2]

theorem shieldAttributes_eq_self {attrs : Attributes}
    (h : attrs.All fun s => ∀ c ∈ s, Plain c) (v : Vault) :
    v.shieldAttributes attrs = (v, attrs) := by
  induction attrs with
  | nil => rfl
  | cons a attrs ih =>
    rw [Attributes.All, List.forall_mem_cons] at h
    obtain ⟨name, value⟩ := a
    have hvalue : v.shieldValue value = (v, value) := by
      cases value with
      | text s => rw [Vault.shieldValue, Vault.shield_eq_self (fun c hc => (h.1.2.of_text c hc).2)]
      | list items => rw [Vault.shieldValue, shieldItems_eq_self h.1.2.of_list]
      | absent | flag | number | record | other => rfl
    simp only [Vault.shieldAttributes, hvalue, ih h.2]

theorem Holds.grow {w : Vault} (h : Holds v nodes ds) (hw : v.Extends w) : Holds w nodes ds := by
  refine h.mono (fun a s hs => hs.mono (fun _ hc => hc) fun d u hu => hu.grow hw) fun a s hs => ?_
  refine hs.mono (fun _ hc => hc) fun d u hu => ?_
  exact hu.imp (fun hs => hs) fun hs => hs.grow hw

theorem holds_shieldNodes (h : Spells nodes ds) (v : Vault) :
    Holds (v.shieldNodes nodes).1 (v.shieldNodes nodes).2 ds := by
  induction h generalizing v with
  | nil => exact .nil
  | @text s rest a b h _ ih =>
    have hgrow := shieldNodes_extends (v.shield s).1 rest
    refine .text ?_ (ih _)
    exact (Directive.shield_woven h v).mono (fun _ hc => hc) fun d u hu => hu.grow hgrow
  | @raw s rest a b h _ ih =>
    exact .raw (h.mono (fun _ hc => hc) fun d u hu => .inl hu) (ih v)
  | @element tag attrs children rest a b he hvoid _ _ ihchildren ih =>
    have hnode : v.shieldNode (.element tag attrs children) =
        ((v.shieldNodes children).1, .element tag attrs (v.shieldNodes children).2) := by
      rw [Vault.shieldNode, shieldAttributes_eq_self he.plainAttributes]
    have hgrow := shieldNodes_extends (v.shieldNodes children).1 rest
    rw [Vault.shieldNodes, hnode]
    exact .element he hvoid ((ihchildren v).grow hgrow) (ih _)

/-! ## Mapping -/

theorem definitions_eq_nil (h : Carries T R nodes ds) :
    (Footnote.Index.ofNodes nodes).definitions = [] := by
  refine List.flatMap_eq_nil_iff.2 fun e he => ?_
  rw [Footnote.Index.definitionsIn, h.holdsFootnotes_eq_false e he]
  rfl

theorem writable_plain : Writable fun s => ∀ c ∈ s, Plain c where
  fixed hmark hbrace := fun c hc => ⟨fun he => hmark (he ▸ hc), hbrace c hc⟩
  append hs ht := List.forall_mem_append.2 ⟨hs, ht⟩
  strip hs := fun c hc => hs c (mem_of_mem_strip hc)
  escapeQuoted {s} hs := by
    intro c hc
    obtain ⟨d, hd, hc⟩ := List.mem_flatMap.1 hc
    exact Woven.plain_of_mem_escapeQuotedChar (fun _ => plain_of_ne) (hs d hd) hc

theorem Ordinary.cellAttributes {tag : List Char} {attrs : Attributes} (h : Ordinary tag attrs)
    (header : Bool) : Ordinary tag (Mapping.cellAttributes header attrs) where
  plainTag := h.plainTag
  plainAttributes := writable_plain.cellAttributes h.plainAttributes header
  kept := h.kept
  noFootnotes := by
    rw [holdsFootnotes_cellAttributes tag header attrs [] []]
    exact h.noFootnotes

/-- Blank nodes carry nothing. -/
theorem eq_nil_of_blank (h : Holds v nodes ds) (hblank : nodes.all Node.isBlank = true) :
    ds = [] := by
  induction h with
  | nil => rfl
  | text h _ ih =>
    rw [List.all_cons, Bool.and_eq_true] at hblank
    rw [h.labels_eq_nil_of_blank Directive.placeholders_setAside.capped hblank.1, ih hblank.2]
    rfl
  | raw | element => cases hblank

theorem holds_content (h : Holds v nodes ds) : Holds v (Mapping.content nodes) ds := by
  induction h with
  | nil => exact .nil
  | @text s rest a b h _ ih =>
    rw [Mapping.content, List.filter_cons]
    split
    · exact .text h ih
    · next hb =>
      have hblank : isBlank s = true := by simpa [Node.isBlank] using hb
      rw [h.labels_eq_nil_of_blank Directive.placeholders_setAside.capped hblank]
      exact ih
  | raw h _ ih => exact .raw h ih
  | element he hvoid hchildren _ _ ih => exact .element he hvoid hchildren ih

/-- No link is to or from a footnote. -/
theorem link?_eq_none_of_undefined {index : Footnote.Index} (hindex : index.definitions = [])
    (e : Element) : Footnote.link? index e = none := by
  have hlinked : ∀ id, index.isLinked id = false := by
    intro id
    rw [Footnote.Index.isLinked, hindex]
    rfl
  unfold Footnote.link?
  simp only [hlinked]
  split
  · rfl
  · split <;> rfl

/-- No rule takes an ordinary element's content apart. -/
theorem holds_element {env : Mapping.Env} (hindex : env.footnotes.definitions = []) {e : Element}
    {out : List Node} (hout : (Mapping.element env e).result = .ok out)
    (h : Holds v [e.toNode] ds) : Holds v out ds := by
  obtain ⟨he, hvoid, hchildren⟩ := h.of_element
  have hkept : ∀ tag ∈ ["head".toList, "img".toList, "pre".toList, "details".toList],
      e.tag ≠ tag := fun tag hm heq => he.kept (heq ▸ hm)
  refine Mapping.element_ok (T := (Holds v · ds)) ?_ ?_ ?_ ?_ ?_ ?_ h hout
  · exact fun ht => absurd ht (hkept _ (by decide))
  · intro _
    rw [Mapping.link, link?_eq_none_of_undefined hindex]
    exact h
  · exact fun ht => absurd ht (hkept _ (by decide))
  · intro _
    unfold Mapping.codeWrapper
    simp only
    split
    · exact holds_content hchildren
    · exact h
  · exact fun header => .single_element (he.cellAttributes header) hvoid hchildren
  · exact fun ht => absurd ht (hkept _ (by decide))

theorem holds_mapping {env : Mapping.Env} (hindex : env.footnotes.definitions = []) {depth : Nat}
    {out : List Node} (h : Holds v nodes ds)
    (hout : (Mapping.nodes env depth nodes).result = .ok out) : Holds v out ds := by
  refine Mapping.nodes_ok (R := fun n out => ∀ a, Holds v [n] a → Holds v out a)
    (S := fun nodes out => ∀ a, Holds v nodes a → Holds v out a)
    (fun _ h => h) (fun _ _ _ _ => holds_cons) (fun _ _ h => h) (fun _ _ h => h) (fun _ _ h => h)
    ?_ hout ds h
  intro tag attrs children mapped out hmapped hrule a h
  obtain ⟨he, hvoid, hchildren⟩ := h.of_element
  exact holds_element hindex hrule (.single_element he hvoid (hmapped a hchildren))

/-! ## Footnotes -/

/-- Without containers nothing is settled. -/
theorem holds_settleFootnotes {index : Footnote.Index} {heading : Value} {out : List Node}
    (h : Holds v nodes ds)
    (hout : Node.settleFootnotesAmong index heading limit nodes = .ok out) : Holds v out ds := by
  refine Node.settleFootnotesAmong_ok (R := fun n out => ∀ a, Holds v [n] a → Holds v [out] a)
    (S := fun nodes out => ∀ a, Holds v nodes a → Holds v out a)
    (fun _ h => h) (fun _ _ _ _ => holds_cons) (fun _ _ h => h) (fun _ _ h => h) (fun _ _ h => h)
    ?_ ?_ hout ds h
  · intro e s hfootnotes _ a h
    have hnone : e.holdsFootnotes = false := h.of_element.1.noFootnotes
    rw [hnone] at hfootnotes
    cases hfootnotes
  · intro tag attrs children out _ hchildren a h
    obtain ⟨he, hvoid, ha⟩ := h.of_element
    exact .single_element he hvoid (hchildren a ha)

/-! ## Writing -/

theorem woven_element {tag inner : List Char} {attrs : Attributes} (he : Ordinary tag attrs)
    (h : Woven Plain (Written v) ds inner) : Woven Plain (Written v) ds
      ('<' :: tag ++ attrs.print ++ ['>'] ++ inner ++ "</".toList ++ tag ++ ['>']) := by
  have hstart : ∀ c ∈ '<' :: tag ++ attrs.print ++ ['>'], Plain c := by
    refine List.forall_mem_append.2 ⟨List.forall_mem_append.2 ⟨?_, ?_⟩, by decide⟩
    · exact List.forall_mem_cons.2 ⟨by decide, he.plainTag⟩
    · exact writable_plain.print he.plainAttributes
  exact (((h.plain_append hstart).append_plain (by decide)).append_plain he.plainTag).append_plain
    (by decide)

theorem woven_cons {n : Node} {rest : List Node} {first others : List Char}
    (hfirst : ∀ a, Holds v [n] a → Woven Plain (Written v) a first)
    (hothers : ∀ b, Holds v rest b → Woven Plain (Written v) b others) (ds : List (List Char))
    (h : Holds v (n :: rest) ds) : Woven Plain (Written v) ds (first ++ others) := by
  obtain ⟨a, b, rfl, ha, hb⟩ := h.of_cons
  exact (hfirst a ha).append (hothers b hb)

/-- The written tree carries what the tree did. -/
theorem woven_printAll (h : Holds v nodes ds) {s : List Char}
    (hs : Node.printAll limit nodes = .ok s) : Woven Plain (Written v) ds s := by
  refine Node.printAll_ok_induct
    (R := fun _ n s => ∀ a, Holds v [n] a → Woven Plain (Written v) a s)
    (S := fun _ nodes s => ∀ a, Holds v nodes a → Woven Plain (Written v) a s)
    ?_ ?_ ?_ ?_ ?_ ?_ ?_ hs ds h
  · intro _ a h
    cases h
    exact .nil
  · exact fun _ _ _ _ _ => woven_cons
  · intro pre s a h
    have hprinted := h.of_text.printed (fun _ => plain_of_ne) Directive.placeholders_setAside pre
    exact hprinted.mono (fun _ hc => hc) fun _ _ => .inr
  · intro _ s a h
    exact h.of_raw
  · intro _ children s _ a h
    cases h
  · intro _ tag attrs children hv a h
    obtain ⟨he, hvoid, _⟩ := h.of_element
    rw [hvoid hv]
    refine .of_plain (List.forall_mem_append.2 ⟨List.forall_mem_append.2 ⟨?_, ?_⟩, by decide⟩)
    · exact List.forall_mem_cons.2 ⟨by decide, he.plainTag⟩
    · exact writable_plain.print he.plainAttributes
  · intro _ tag attrs children inner _ hinner a h
    obtain ⟨he, _, hchildren⟩ := h.of_element
    exact woven_element he (hinner a hchildren)

end StorageMarkup
