import StorageMarkup.Proofs.Node.Depth

/-!
# The strings of a tree

Results:
1. `Value.All`, `Node.All`: a property of every string in a value or a tree.
2. `All.mono`: a weaker property holds of them too.
3. `Attributes.All.set`, `Attributes.All.text?`: what is written to attributes and
   read from them.
-/

namespace StorageMarkup

variable {P Q : List Char → Prop}

/-- Every string in the value has the property, those inside lists and records too. -/
inductive Value.All (P : List Char → Prop) : Value → Prop
  | absent : Value.All P .absent
  | flag (on : Bool) : Value.All P (.flag on)
  | number (n : Int) : Value.All P (.number n)
  | text {s : List Char} (h : P s) : Value.All P (.text s)
  | list {items : List Value} (h : ∀ item ∈ items, Value.All P item) : Value.All P (.list items)
  | record {entries : List (List Char × Value)} (hkeys : ∀ e ∈ entries, P e.1)
      (hvalues : ∀ e ∈ entries, Value.All P e.2) : Value.All P (.record entries)
  | other {s : List Char} (h : P s) : Value.All P (.other s)

/-- Every name and every string in a value has the property. -/
def Attributes.All (P : List Char → Prop) (attrs : Attributes) : Prop :=
  ∀ a ∈ attrs, P a.1 ∧ a.2.All P

/-- Every string in the tree has the property: tags, attributes, text and final output. -/
inductive Node.All (P : List Char → Prop) : Node → Prop
  | root {children : List Node} (h : ∀ c ∈ children, Node.All P c) : Node.All P (.root children)
  | element {tag : List Char} {attrs : Attributes} {children : List Node} (htag : P tag)
      (hattrs : attrs.All P) (h : ∀ c ∈ children, Node.All P c) :
      Node.All P (.element tag attrs children)
  | text {s : List Char} (h : P s) : Node.All P (.text s)
  | raw {s : List Char} (h : P s) : Node.All P (.raw s)

/-! ## Values -/

namespace Value.All

theorem mono {value : Value} (h : value.All P) (hPQ : ∀ s, P s → Q s) : value.All Q := by
  induction h with
  | absent => exact .absent
  | flag on => exact .flag on
  | number n => exact .number n
  | text h => exact .text (hPQ _ h)
  | list _ ih => exact .list ih
  | record hkeys _ ih => exact .record (fun e he => hPQ _ (hkeys e he)) ih
  | other h => exact .other (hPQ _ h)

theorem of_text {s : List Char} (h : (Value.text s).All P) : P s := by
  cases h with
  | text h => exact h

theorem of_list {items : List Value} (h : (Value.list items).All P) :
    ∀ item ∈ items, item.All P := by
  cases h with
  | list h => exact h

theorem of_text? {value : Value} {s : List Char} (h : value.All P) (hs : value.text? = some s) :
    P s := by
  cases value with
  | text t =>
    cases hs
    exact h.of_text
  | absent | flag | number | list | record | other => cases hs

/-- The texts of a list are its items' texts. -/
theorem of_texts? {items : List Value} {texts : List (List Char)}
    (h : (Value.list items).All P) (ht : Value.texts? items = some texts) : ∀ s ∈ texts, P s := by
  have hitems := h.of_list
  clear h
  unfold Value.texts? at ht
  induction items generalizing texts with
  | nil =>
    cases ht
    exact fun s hs => absurd hs List.not_mem_nil
  | cons item items ih =>
    rw [List.forall_mem_cons] at hitems
    rw [List.mapM_cons] at ht
    obtain ⟨first, hfirst, ht⟩ := Option.bind_eq_some_iff.1 ht
    obtain ⟨others, hothers, ht⟩ := Option.bind_eq_some_iff.1 ht
    cases ht
    exact List.forall_mem_cons.2 ⟨hitems.1.of_text? hfirst, ih hothers hitems.2⟩

end Value.All

/-! ## Attributes -/

namespace Attributes.All

variable {attrs : Attributes}

theorem mono (h : attrs.All P) (hPQ : ∀ s, P s → Q s) : attrs.All Q := fun a ha =>
  ⟨hPQ _ (h a ha).1, (h a ha).2.mono hPQ⟩

theorem get? {name : List Char} {value : Value} (h : attrs.All P)
    (hg : attrs.get? name = some value) : value.All P := by
  induction attrs with
  | nil => cases hg
  | cons a attrs ih =>
    rw [Attributes.All, List.forall_mem_cons] at h
    obtain ⟨key, old⟩ := a
    rw [Attributes.get?, List.lookup_cons] at hg
    split at hg
    · cases hg
      exact h.1.2
    · exact ih h.2 hg

theorem text? {name s : List Char} (h : attrs.All P) (hs : attrs.text? name = some s) : P s := by
  obtain ⟨value, hg, hv⟩ := Option.bind_eq_some_iff.1 hs
  exact (h.get? hg).of_text? hv

theorem filter (h : attrs.All P) (keep : List Char × Value → Bool) :
    Attributes.All P (List.filter keep attrs) := fun a ha => h a (List.mem_filter.1 ha).1

theorem erase (h : attrs.All P) (name : List Char) : (attrs.erase name).All P := h.filter _

theorem set (h : attrs.All P) {name : List Char} {value : Value} (hn : P name)
    (hv : value.All P) : (attrs.set name value).All P := by
  induction attrs with
  | nil => exact List.forall_mem_singleton.2 ⟨hn, hv⟩
  | cons a attrs ih =>
    rw [Attributes.All, List.forall_mem_cons] at h
    obtain ⟨key, old⟩ := a
    rw [Attributes.set]
    split
    · exact List.forall_mem_cons.2 ⟨⟨h.1.1, hv⟩, h.2⟩
    · exact List.forall_mem_cons.2 ⟨h.1, ih h.2⟩

end Attributes.All

/-! ## Trees -/

namespace Node.All

theorem mono {n : Node} (h : n.All P) (hPQ : ∀ s, P s → Q s) : n.All Q := by
  induction h with
  | root _ ih => exact .root ih
  | element htag hattrs _ ih => exact .element (hPQ _ htag) (hattrs.mono hPQ) ih
  | text h => exact .text (hPQ _ h)
  | raw h => exact .raw (hPQ _ h)

theorem of_text {s : List Char} (h : (Node.text s).All P) : P s := by
  cases h with
  | text h => exact h

theorem of_raw {s : List Char} (h : (Node.raw s).All P) : P s := by
  cases h with
  | raw h => exact h

theorem of_root {children : List Node} (h : (Node.root children).All P) :
    ∀ c ∈ children, c.All P := by
  cases h with
  | root h => exact h

theorem of_element {tag : List Char} {attrs : Attributes} {children : List Node}
    (h : (Node.element tag attrs children).All P) :
    P tag ∧ attrs.All P ∧ ∀ c ∈ children, c.All P := by
  cases h with
  | element htag hattrs h => exact ⟨htag, hattrs, h⟩

end Node.All

/-- An element of the tree has the property in all its strings. -/
theorem Node.All.elements {n : Node} (h : n.All P) :
    ∀ e ∈ n.elements, P e.tag ∧ e.attributes.All P ∧ ∀ c ∈ e.children, c.All P := by
  have hall : ∀ {children : List Node}, (∀ c ∈ children, ∀ e ∈ c.elements,
      P e.tag ∧ e.attributes.All P ∧ ∀ c ∈ e.children, c.All P) →
      ∀ e ∈ Node.elementsOf children, P e.tag ∧ e.attributes.All P ∧ ∀ c ∈ e.children, c.All P := by
    intro children hc
    induction children with
    | nil => exact fun e he => absurd he List.not_mem_nil
    | cons c children ih =>
      rw [List.forall_mem_cons] at hc
      rw [Node.elementsOf]
      exact List.forall_mem_append.2 ⟨hc.1, ih hc.2⟩
  induction h with
  | root _ ih => exact hall ih
  | @element tag attrs children htag hattrs hc ih =>
    exact List.forall_mem_cons.2 ⟨⟨htag, hattrs, hc⟩, hall ih⟩
  | text | raw => exact fun e he => absurd he List.not_mem_nil

/-- A property of the character data that joining keeps. -/
theorem Node.All.characterDataOf (nil : P []) (append : ∀ s t, P s → P t → P (s ++ t))
    {nodes : List Node} (h : ∀ n ∈ nodes, n.All P) : P (Node.characterDataOf nodes) := by
  have hall : ∀ {children : List Node}, (∀ c ∈ children, P c.characterData) →
      P (Node.characterDataOf children) := by
    intro children hc
    induction children with
    | nil => exact nil
    | cons c children ih =>
      rw [List.forall_mem_cons] at hc
      exact append _ _ hc.1 (ih hc.2)
  have hnode : ∀ {n : Node}, n.All P → P n.characterData := by
    intro n hn
    induction hn with
    | root _ ih => exact hall ih
    | element _ _ _ ih => exact hall ih
    | text h => exact h
    | raw => exact nil
  exact hall fun n hn => hnode (h n hn)

end StorageMarkup
