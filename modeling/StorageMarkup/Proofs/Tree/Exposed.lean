import StorageMarkup.Proofs.Source.Regions
import StorageMarkup.Proofs.Text.Blocks
import StorageMarkup.Proofs.Tree.Shielded
import StorageMarkup.Proofs.Tree.Success

/-!
# Nodes that every pass leaves in place

A node is exposed when no element around it is dropped, read as text, written without
its content or settled as a footnote. A placeholder that is a paragraph's only text
and exposed there stays in the tree, as text or in final output, up to folding.

Which links are rewritten is for the index of footnotes to say. The index is taken of the tree
whose directives are set aside, so before that a target is judged by what it is going to be.

Results:
1. `Targets`: the links that are rewritten.
2. `Exposed`: the way from the root to a node.
3. `exposes_bodyOf`, `exposes_liftMarkers`, `exposes_shieldNodes`: passes before mapping.
-/

namespace StorageMarkup

open Vault

/-! ## Links that are rewritten -/

/-- Targets of the links that become directives: of those back from footnotes, which leave out what
they hold, and of those to footnotes, which have its text as their label. -/
structure Targets where
  back : List Char → Prop
  reference : List Char → Prop

namespace Targets

/-- The targets that name a footnote which the index links. -/
def ofIndex (index : Footnote.Index) : Targets where
  back href := ∃ id, Footnote.backReference? href = some id ∧ index.isLinked id = true
  reference href := ∃ id, Footnote.reference? href = some id ∧ index.isLinked id = true

/-- The targets that are some of these once their directives are set aside, at some time while the
first vault grows into the second. -/
def beforeShield (T : Targets) (v v' : Vault) : Targets where
  back href := ∃ w, v.Extends w ∧ (w.shield href).1.Extends v' ∧ T.back (w.shield href).2
  reference href := ∃ w, v.Extends w ∧ (w.shield href).1.Extends v' ∧ T.reference (w.shield href).2

end Targets

/-- The element is a link with such a target. -/
def LinksTo (target : List Char → Prop) (tag : List Char) (attrs : Attributes) : Prop :=
  tag = "a".toList ∧ ∃ href, attrs.text? "href".toList = some href ∧ target href

variable {T : Targets} {P Q : Node → Prop} {linked below : Bool} {v : Vault} {n : Node}
  {nodes : List Node} {tag region : List Char} {attrs : Attributes} {k : Nat}

/-! ## The way to a node -/

/-- No pass drops the element, reads its content as text or settles it as a footnote. Where one link
to a footnote is allowed, the element is not one, or none is allowed below it. -/
structure Passable (T : Targets) (linked below : Bool) (tag : List Char) (attrs : Attributes) :
    Prop where
  kept : tag ∉ ["head".toList, "pre".toList, "details".toList]
  noVoid : isVoid tag = false
  noFootnotes : Element.holdsFootnotes ⟨tag, attrs, []⟩ = false
  noBackLink : ¬ LinksTo T.back tag attrs
  links : below = linked ∧ ¬ LinksTo T.reference tag attrs ∨ below = false ∧ linked = true

/-- A node with the property is the node itself or stands below it, and every element on the way
lets it pass. One link to a footnote may be among them if `linked` is true. -/
inductive Exposed (T : Targets) (P : Node → Prop) : Bool → Node → Prop
  | here {linked : Bool} {n : Node} (h : P n) : Exposed T P linked n
  | inside {linked below : Bool} {tag : List Char} {attrs : Attributes} {children : List Node}
      {n : Node} (he : Passable T linked below tag attrs) (hm : n ∈ children)
      (hn : Exposed T P below n) : Exposed T P linked (.element tag attrs children)

/-- Some of the neighbours exposes such a node. -/
def Exposes (T : Targets) (P : Node → Prop) (linked : Bool) (nodes : List Node) : Prop :=
  ∃ n ∈ nodes, Exposed T P linked n

theorem Exposed.mono (h : Exposed T P linked n) (hPQ : ∀ m, P m → Q m) : Exposed T Q linked n := by
  induction h with
  | here h => exact .here (hPQ _ h)
  | inside he hm _ ih => exact .inside he hm ih

/-- What needs no link can do with one allowed. -/
theorem Exposed.of_false (h : Exposed T P false n) : Exposed T P true n := by
  generalize hf : false = linked at h
  induction h with
  | here h => exact .here h
  | @inside linked below tag attrs children n he hm hn ih =>
    rcases he.links with ⟨hb, hlink⟩ | ⟨_, hl⟩
    · have hpass : Passable T true true tag attrs :=
        ⟨he.kept, he.noVoid, he.noFootnotes, he.noBackLink, .inl ⟨rfl, hlink⟩⟩
      exact .inside hpass hm (ih (hf.trans hb.symm))
    · rw [← hf] at hl
      cases hl

theorem Passable.exposed (he : Passable T linked below tag attrs) (h : Exposed T P below n) :
    Exposed T P linked n := by
  rcases he.links with ⟨rfl, _⟩ | ⟨rfl, rfl⟩
  · exact h
  · exact h.of_false

theorem exposes_flatMap {f : Node → List Node} (hm : n ∈ nodes) (h : Exposes T Q linked (f n)) :
    Exposes T Q linked (nodes.flatMap f) := by
  obtain ⟨m, hmn, he⟩ := h
  exact ⟨m, List.mem_flatMap.2 ⟨n, hm, hmn⟩, he⟩

/-- A node with the property is the node itself or stands below it, and no void element is on the
way, so it is written with what it stands in. -/
inductive Shows (P : Node → Prop) : Node → Prop
  | here {n : Node} (h : P n) : Shows P n
  | inside {tag : List Char} {attrs : Attributes} {children : List Node} {n : Node}
      (hv : isVoid tag = false) (hm : n ∈ children) (hn : Shows P n) :
      Shows P (.element tag attrs children)

theorem Exposed.shows (h : Exposed T P linked n) : Shows P n := by
  induction h with
  | here h => exact .here h
  | inside he hm _ ih => exact .inside he.noVoid hm ih

/-! ## Elements that passes change -/

/-- The pass makes no link with such a target and no container of footnotes of an element that is
none. -/
theorem Passable.of_attributes {T' : Targets} {attrs' : Attributes}
    (h : Passable T linked below tag attrs)
    (hfootnotes : Element.holdsFootnotes ⟨tag, attrs', []⟩ = false)
    (hback : LinksTo T'.back tag attrs' → LinksTo T.back tag attrs)
    (hreference : LinksTo T'.reference tag attrs' → LinksTo T.reference tag attrs) :
    Passable T' linked below tag attrs' where
  kept := h.kept
  noVoid := h.noVoid
  noFootnotes := hfootnotes
  noBackLink := fun hl => h.noBackLink (hback hl)
  links := h.links.imp_left fun hl => ⟨hl.1, fun hl' => hl.2 (hreference hl')⟩

theorem LinksTo.of_withoutNamespaces {target : List Char → Prop}
    (h : LinksTo target tag attrs.withoutNamespaces) : LinksTo target tag attrs := by
  obtain ⟨ha, href, hhref, ht⟩ := h
  rw [Attributes.text?, Attributes.get?_withoutNamespaces (by decide)] at hhref
  exact ⟨ha, href, hhref, ht⟩

theorem Passable.withoutNamespaces (h : Passable T linked below tag attrs) :
    Passable T linked below tag attrs.withoutNamespaces := by
  refine h.of_attributes ?_ LinksTo.of_withoutNamespaces LinksTo.of_withoutNamespaces
  rw [holdsFootnotes_withoutNamespaces tag attrs [] []]
  exact h.noFootnotes

theorem LinksTo.of_shielded {target : List Char → Prop} {v' w : Vault} (hw : v.Extends w)
    (hw' : (w.shieldAttributes attrs).1.Extends v')
    (h : LinksTo target tag (w.shieldAttributes attrs).2) :
    LinksTo (fun href => ∃ w, v.Extends w ∧ (w.shield href).1.Extends v' ∧
      target (w.shield href).2) tag attrs := by
  obtain ⟨ha, href, hhref, ht⟩ := h
  obtain ⟨u, s, hu, hu', hs, rfl⟩ := text?_shieldAttributes hhref
  exact ⟨ha, s, hs, u, hw.trans hu, hu'.trans hw', ht⟩

theorem Passable.shielded {v' w : Vault} (h : Passable (T.beforeShield v v') linked below tag attrs)
    (hw : v.Extends w) (hw' : (w.shieldAttributes attrs).1.Extends v') :
    Passable T linked below tag (w.shieldAttributes attrs).2 := by
  refine h.of_attributes (Bool.eq_false_iff.2 fun hf => ?_) (.of_shielded hw hw')
    (.of_shielded hw hw')
  have hheld : Element.holdsFootnotes ⟨tag, attrs, []⟩ = true := holdsFootnotes_of_shielded hf
  rw [h.noFootnotes] at hheld
  cases hheld

theorem LinksTo.of_cellAttributes {target : List Char → Prop} {header : Bool}
    (h : LinksTo target tag (Mapping.cellAttributes header attrs)) : LinksTo target tag attrs := by
  obtain ⟨ha, href, hhref, ht⟩ := h
  rw [Attributes.text?,
    Attributes.get?_cellAttributes (by decide) (by decide) (by decide)] at hhref
  exact ⟨ha, href, hhref, ht⟩

theorem Passable.cellAttributes (h : Passable T linked below tag attrs) (header : Bool) :
    Passable T linked below tag (Mapping.cellAttributes header attrs) := by
  refine h.of_attributes ?_ LinksTo.of_cellAttributes LinksTo.of_cellAttributes
  rw [holdsFootnotes_cellAttributes tag header attrs [] []]
  exact h.noFootnotes

/-! ## The placeholder of a region -/

/-- The vault has the region under the number. -/
structure Stored (v : Vault) (k : Nat) (region : List Char) : Prop where
  original : v.originals[k]? = some region
  isRegion : IsRegion region
  unmarked : startMark ∉ region

theorem Stored.grow {w : Vault} (h : Stored v k region) (hw : v.Extends w) : Stored w k region :=
  ⟨hw.original h.original, h.isRegion, h.unmarked⟩

theorem Stored.reveal (h : Stored v k region) : reveal (some v) (placeholder k) = region :=
  expand_placeholder h.original h.unmarked

/-- A paragraph of the placeholder and white space. -/
def ParagraphOf (k : Nat) (n : Node) : Prop :=
  ∃ attrs s, n = .element "p".toList attrs [.text s] ∧ strip s = placeholder k

/-- The placeholder as text of its own. -/
def TextOf (k : Nat) (n : Node) : Prop := n = .text (placeholder k)

/-- The placeholder as text or inside final output. -/
def KeptIn (k : Nat) (n : Node) : Prop := TextOf k n ∨ ∃ s, n = .raw s ∧ placeholder k <:+: s

theorem TextOf.kept (h : TextOf k n) : KeptIn k n := .inl h

/-! ## Before mapping -/

theorem exposes_bodyOf (h : Exposes T (ParagraphOf k) linked nodes) :
    Exposes T (ParagraphOf k) linked (Node.bodyOf nodes) := by
  obtain ⟨n, hm, h⟩ := h
  rw [Node.bodyOf_eq]
  refine exposes_flatMap hm ?_
  clear hm
  induction h with
  | here h =>
    obtain ⟨attrs, s, rfl, hs⟩ := h
    exact ⟨_, List.mem_cons_self, .here ⟨_, s, rfl, hs⟩⟩
  | @inside linked below tag attrs children n he hm _ ih =>
    have hchildren : Exposes T (ParagraphOf k) below (Node.bodyOf children) := by
      rw [Node.bodyOf_eq]
      exact exposes_flatMap hm ih
    obtain ⟨m, hmc, hexposed⟩ := hchildren
    rw [Node.body, if_neg fun hh : tag = "head".toList => he.kept (hh ▸ List.mem_cons_self)]
    -- an element that only wraps the document gives way to its content
    split
    · exact ⟨m, hmc, he.exposed hexposed⟩
    · exact ⟨_, List.mem_cons_self, .inside he.withoutNamespaces hmc hexposed⟩

theorem markersOf?_paragraph (hv : Stored v k region) {s : List Char}
    (hs : strip s = placeholder k) :
    markersOf? (some v) "p".toList [.text s] = some [placeholder k] := by
  have hmarker : isMarkerLine (some v) (placeholder k) = true := by
    rw [isMarkerLine, hv.reveal, hv.isRegion.isRegionText, Bool.or_true]
  have hline : '\n' ∉ placeholder k := not_mem_placeholder (by decide)
  rw [markersOf?, contentLines_of_strip (capped_placeholder k) hline hs]
  simp [hmarker, isParagraph]

theorem exposes_liftMarkers (hv : Stored v k region)
    (h : Exposes T (ParagraphOf k) linked nodes) :
    Exposes T (TextOf k) linked (Node.liftMarkersAmong (some v) nodes) := by
  obtain ⟨n, hm, h⟩ := h
  rw [Node.liftMarkersAmong_eq]
  refine exposes_flatMap hm ?_
  clear hm
  induction h with
  | here h =>
    obtain ⟨attrs, s, rfl, hs⟩ := h
    rw [Node.liftMarkers, markersOf?_paragraph hv hs]
    exact ⟨_, List.mem_cons_self, .here rfl⟩
  | @inside linked below tag attrs children n he hm hn ih =>
    have hchildren : Exposes T (TextOf k) below (Node.liftMarkersAmong (some v) children) := by
      rw [Node.liftMarkersAmong_eq]
      exact exposes_flatMap hm ih
    obtain ⟨m, hmc, hexposed⟩ := hchildren
    have hnone : markersOf? (some v) tag children = none := by
      unfold markersOf?
      split
      · -- the only child is no text, since there is a paragraph in it
        rw [List.mem_singleton] at hm
        rw [hm] at hn
        cases hn with
        | here h =>
          obtain ⟨_, _, he, _⟩ := h
          cases he
      · rfl
    rw [Node.liftMarkers, hnone]
    exact ⟨_, List.mem_cons_self, .inside he hmc hexposed⟩

theorem exposes_shieldNodes
    (h : Exposes (T.beforeShield v (v.shieldNodes nodes).1) (TextOf k) linked nodes) :
    Exposes T (TextOf k) linked (v.shieldNodes nodes).2 := by
  obtain ⟨n, hm, h⟩ := h
  obtain ⟨w, hw, hw', hmw⟩ := mem_shieldNodes hm v
  refine ⟨_, hmw, ?_⟩
  clear hm hmw
  induction h generalizing w with
  | here h =>
    rw [h, Vault.shieldNode, shield_eq_self not_brace_of_mem_placeholder]
    exact .here rfl
  | @inside linked below tag attrs children n he hm _ ih =>
    obtain ⟨u, hu, hu', hmu⟩ := mem_shieldNodes hm (w.shieldAttributes attrs).1
    have hattrs := (shieldNodes_extends (w.shieldAttributes attrs).1 children).trans hw'
    exact .inside (he.shielded hw hattrs) hmu
      (ih u ((hw.trans (shieldAttributes_extends w attrs)).trans hu) (hu'.trans hw'))

end StorageMarkup
