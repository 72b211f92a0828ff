import StorageMarkup.Proofs.Footnote.Ids
import StorageMarkup.Proofs.Node.Each
import StorageMarkup.Proofs.Region.Kept

/-!
# Places of footnotes

Where the definition of a footnote and a reference to it have to stand so that a
conversion puts its anchors there: containers are settled in the tree that the rules for
elements leave, references are rewritten by these rules, and these write folding sections
out.

Results:
1. `Stays`, `Settles`: containers that come to be settled.
2. `Reaches`: the way to a node through folding sections and definitions.
3. `Reaches.shows`, `infix_printAll_outputWith`: what is reached is written.
4. `WellPlaced`: a footnote with both places.
-/

namespace StorageMarkup

variable {T : Targets} {P : Node → Prop} {R : Element → Prop} {linked : Bool} {n : Node}
  {nodes : List Node} {id part : List Char} {e : Element} {limit : Limit}

/-- An element with the property. -/
def ElementWith (R : Element → Prop) (n : Node) : Prop := ∃ e : Element, n = e.toNode ∧ R e

/-- Final output with the part in it. -/
def OutputWith (part : List Char) (n : Node) : Prop := ∃ s, n = .raw s ∧ part <:+: s

/-- A list item that defines the footnote. -/
abbrev DefinitionOf (id : List Char) : Node → Prop := ElementWith (·.definition? = some id)

/-- A link that refers to the footnote. -/
abbrev ReferenceTo (id : List Char) : Node → Prop :=
  ElementWith (Footnote.Index.referenceOf? · = some id)

/-- A container of footnotes that no rule rewrites. -/
structure Stays (T : Targets) (e : Element) : Prop where
  holds : e.holdsFootnotes = true
  kept : e.tag ∉ ["img".toList, "pre".toList, "details".toList]
  noBackLink : ¬ LinksTo T.back e.tag e.attributes
  noLink : ¬ LinksTo T.reference e.tag e.attributes

/-- A container that stays, with a definition of the footnote that stays in it. -/
structure Settles (T : Targets) (id : List Char) (e : Element) : Prop extends Stays T e where
  defines : Exposes T (DefinitionOf id) false e.children

abbrev ContainerOf (T : Targets) (id : List Char) : Node → Prop := ElementWith (Settles T id)

/-- A node with the property is the node itself or stands below it. Every element on the way lets it
pass, or is a folding section that has it outside its summaries, or is a container that has it in
a definition. -/
inductive Reaches (T : Targets) (P : Node → Prop) : Node → Prop
  | here {n : Node} (h : P n) : Reaches T P n
  | inside {tag : List Char} {attrs : Attributes} {children : List Node} {n : Node}
      (he : Passable T false false tag attrs) (hm : n ∈ children) (hn : Reaches T P n) :
      Reaches T P (.element tag attrs children)
  | folded {attrs : Attributes} {children : List Node} {n : Node}
      (he : Element.holdsFootnotes ⟨"details".toList, attrs, []⟩ = false) (hm : n ∈ children)
      (hs : n.hasTag "summary".toList = false) (hn : Reaches T P n) :
      Reaches T P (.element "details".toList attrs children)
  | noted {e item : Element} {n : Node} (he : Stays T e) (hv : isVoid e.tag = false)
      (hitem : Exposes T (ElementWith (· = item)) false e.children)
      (hd : item.definition?.isSome = true) (hm : n ∈ item.children) (hn : Reaches T P n) :
      Reaches T P e.toNode

/-- The footnote has a definition that is settled and a reference that is written. -/
structure WellPlaced (id : List Char) (nodes : List Node) : Prop where
  defined : Exposes (.ofIndex (.ofNodes nodes)) (ContainerOf (.ofIndex (.ofNodes nodes)) id) false
    nodes
  referred : ∃ n ∈ nodes, Reaches (.ofIndex (.ofNodes nodes)) (ReferenceTo id) n

/-! ## Elements on the way -/

theorem Exposed.exists_element (h : Exposed T (ElementWith R) linked n) :
    ∃ e : Element, n = e.toNode := by
  cases h with
  | here h =>
    obtain ⟨e, rfl, -⟩ := h
    exact ⟨e, rfl⟩
  | inside => exact ⟨⟨_, _, _⟩, rfl⟩

/-- An exposed element by itself. -/
theorem Exposes.exists_eq (h : Exposes T (ElementWith R) linked nodes) :
    ∃ e, R e ∧ Exposes T (ElementWith (· = e)) linked nodes := by
  obtain ⟨n, hn, h⟩ := h
  have hnode : ∃ e, R e ∧ Exposed T (ElementWith (· = e)) linked n := by
    clear hn
    induction h with
    | here h =>
      obtain ⟨e, rfl, he⟩ := h
      exact ⟨e, he, .here ⟨e, rfl, rfl⟩⟩
    | inside he hm _ ih =>
      obtain ⟨e, hR, h⟩ := ih
      exact ⟨e, hR, .inside he hm h⟩
  obtain ⟨e, he, h⟩ := hnode
  exact ⟨e, he, n, hn, h⟩

/-- An exposed element is one of the tree. -/
theorem Exposes.exists_mem (h : Exposes T (ElementWith R) linked nodes) :
    ∃ e ∈ Node.elementsOf nodes, R e := by
  obtain ⟨n, hn, h⟩ := h
  have hnode : ∃ e ∈ n.elements, R e := by
    clear hn
    induction h with
    | here h =>
      obtain ⟨e, rfl, he⟩ := h
      exact ⟨e, List.mem_cons_self, he⟩
    | inside _ hm _ ih =>
      obtain ⟨e, he, hR⟩ := ih
      refine ⟨e, List.mem_cons_of_mem _ ?_, hR⟩
      rw [Node.elementsOf_eq]
      exact List.mem_flatMap.2 ⟨_, hm, he⟩
  obtain ⟨e, he, hR⟩ := hnode
  rw [Node.elementsOf_eq]
  exact ⟨e, List.mem_flatMap.2 ⟨n, hn, he⟩, hR⟩

/-- What holds of a tree holds of an element that it exposes. -/
theorem Exposes.each {S : List Char → Prop} {E : List Char → Attributes → Prop}
    (h : Exposes T (ElementWith (· = e)) linked nodes) (hnodes : ∀ n ∈ nodes, n.Each S E) :
    e.toNode.Each S E := by
  obtain ⟨n, hm, h⟩ := h
  have hn := hnodes n hm
  clear hnodes hm
  induction h with
  | here h =>
    obtain ⟨_, rfl, rfl⟩ := h
    exact hn
  | inside _ hm _ ih => exact ih (hn.of_element.2 _ hm)

theorem Settles.exists_definition (h : Settles T id e) :
    ∃ item ∈ e.toNode.elements, item.definition? = some id := by
  obtain ⟨item, hitem, hdefines⟩ := h.defines.exists_mem
  exact ⟨item, List.mem_cons_of_mem _ hitem, hdefines⟩

/-- The id of a footnote that has a container is one line. -/
theorem feed_not_mem_of_container (h : Exposes T (ContainerOf T id) linked nodes) : '\n' ∉ id := by
  obtain ⟨e, -, hsettles⟩ := h.exists_mem
  obtain ⟨item, -, hdefines⟩ := hsettles.exists_definition
  obtain ⟨-, s, -, hid⟩ := exists_of_definition? hdefines
  exact hid.feed_not_mem

/-! ## Ways through sections and definitions -/

theorem Exposed.reaches (h : Exposed T P false n) : Reaches T P n := by
  generalize hf : false = linked at h
  induction h with
  | here h => exact .here h
  | inside he hm _ ih =>
    subst hf
    rcases he.links with ⟨rfl, -⟩ | ⟨-, hl⟩
    · exact .inside he hm (ih rfl)
    · cases hl

/-- What is reached from a node that is reached is reached. -/
theorem Reaches.join (h : Reaches T (Reaches T P) n) : Reaches T P n := by
  induction h with
  | here h => exact h
  | inside he hm _ ih => exact .inside he hm ih
  | folded he hm hs _ ih => exact .folded he hm hs ih
  | noted he hv hitem hd hm _ ih => exact .noted he hv hitem hd hm ih

theorem Reaches.not_blank (hP : ∀ m, P m → m.isBlank = false) (h : Reaches T P n) :
    n.isBlank = false := by
  cases h with
  | here h => exact hP _ h
  | inside | folded | noted => rfl

/-! ## What is written -/

theorem Shows.join (h : Shows (Shows P) n) : Shows P n := by
  induction h with
  | here h => exact h
  | inside hv hm _ ih => exact .inside hv hm ih

theorem Reaches.shows (h : Reaches T P n) : Shows P n := by
  induction h with
  | here h => exact .here h
  | inside he hm _ ih => exact .inside he.noVoid hm ih
  | folded _ hm _ _ ih => exact .inside (by decide) hm ih
  | @noted e item n _ hv hitem hd hm _ ih =>
    obtain ⟨id, hid⟩ := Option.isSome_iff_exists.1 hd
    have hli : isVoid item.tag = false := by
      rw [(exists_of_definition? hid).1]
      decide
    obtain ⟨m, hmc, hexposed⟩ := hitem
    refine .inside hv hmc (hexposed.mono ?_).shows.join
    rintro m ⟨_, rfl, rfl⟩
    exact .inside hli hm ih

/-- Final output that a tree shows is written. -/
theorem infix_printAll_outputWith {s : List Char} (hn : n ∈ nodes) (h : Shows (OutputWith part) n)
    (hs : Node.printAll limit nodes = .ok s) : part <:+: s := by
  refine h.infix_printAllAt ?_ hn hs
  rintro n ⟨t, rfl, ht⟩ pre depth s hs
  cases hs
  exact ht

end StorageMarkup
