import StorageMarkup.Node.Printer
import StorageMarkup.Proofs.Directive.Alike
import StorageMarkup.Proofs.Node.Depth

/-!
# Trees that differ in the numbers of placeholders

Two trees are alike when they have the same shape, the same tags and attribute names,
and alike texts. What is read from one is alike to what is read from the other, and so
is what is written of it.

Results:
1. `Attributes.Alike.get?`, `Attributes.Alike.classNames`: reading attributes.
2. `AlikeNodes.characterDataOf`, `AlikeNodes.elementsOf`: reading trees.
3. `AlikeNodes.printAllAt`: writing trees.
-/

namespace StorageMarkup

open Vault

variable {same : Nat → Nat → Prop} {s t : List Char}

/-! ## Relations -/

/-- Alike texts, lists of alike items, or one value without start marks. -/
inductive Value.Alike (same : Nat → Nat → Prop) : Value → Value → Prop
  | item {x y : Value} (h : Value.AlikeItem same x y) : Value.Alike same x y
  | list {xs ys : List Value} (h : List.Forall₂ (Value.AlikeItem same) xs ys) :
      Value.Alike same (.list xs) (.list ys)

/-- The same names with alike values. -/
def Attributes.Alike (same : Nat → Nat → Prop) (attrs attrs' : Attributes) : Prop :=
  List.Forall₂ (fun a b => a.1 = b.1 ∧ startMark ∉ a.1 ∧ Value.Alike same a.2 b.2) attrs attrs'

/-- An image has no list as its width or height. -/
def SizedImage (tag : List Char) (attrs : Attributes) : Prop :=
  tag = "img".toList → ∀ name ∈ ["width".toList, "height".toList], ∀ items,
    attrs.get? name ≠ some (.list items)

/-- No start mark in any string, and no list as the size of an image. -/
structure Presentable (nodes : List Node) : Prop where
  unmarked : ∀ n ∈ nodes, n.All (startMark ∉ ·)
  sized : ∀ e ∈ Node.elementsOf nodes, SizedImage e.tag e.attributes

/-- Neighbours of the same shape, with the same tags and attribute names, and with alike texts. -/
inductive AlikeNodes (same : Nat → Nat → Prop) : List Node → List Node → Prop
  | nil : AlikeNodes same [] []
  | text {s t : List Char} {ns ms : List Node} (hs : Alike same s t) (h : AlikeNodes same ns ms) :
      AlikeNodes same (.text s :: ns) (.text t :: ms)
  | raw {s t : List Char} {ns ms : List Node} (hs : Alike same s t) (h : AlikeNodes same ns ms) :
      AlikeNodes same (.raw s :: ns) (.raw t :: ms)
  | root {cs ds ns ms : List Node} (hc : AlikeNodes same cs ds) (h : AlikeNodes same ns ms) :
      AlikeNodes same (.root cs :: ns) (.root ds :: ms)
  | element {tag : List Char} {attrs attrs' : Attributes} {cs ds ns ms : List Node}
      (htag : startMark ∉ tag) (hattrs : attrs.Alike same attrs') (hsize : SizedImage tag attrs)
      (hc : AlikeNodes same cs ds) (h : AlikeNodes same ns ms) :
      AlikeNodes same (.element tag attrs cs :: ns) (.element tag attrs' ds :: ms)

def Node.Alike (same : Nat → Nat → Prop) (n m : Node) : Prop := AlikeNodes same [n] [m]

def Element.Alike (same : Nat → Nat → Prop) (e e' : Element) : Prop :=
  Node.Alike same e.toNode e'.toNode

/-- A presentable tree is built from presentable parts. -/
theorem Presentable.induct {P : List Node → Prop} (nil : P [])
    (text : ∀ s ns, startMark ∉ s → P ns → P (.text s :: ns))
    (raw : ∀ s ns, startMark ∉ s → P ns → P (.raw s :: ns))
    (root : ∀ cs ns, Presentable cs → P cs → P ns → P (.root cs :: ns))
    (element : ∀ tag attrs cs ns, startMark ∉ tag → Attributes.All (startMark ∉ ·) attrs →
      SizedImage tag attrs → P cs → P ns → P (.element tag attrs cs :: ns))
    {nodes : List Node} (h : Presentable nodes) : P nodes := by
  have hall : ∀ {cs : List Node}, (∀ c ∈ cs, ∀ ns, Presentable [c] → P ns → P (c :: ns)) →
      Presentable cs → P cs := by
    intro cs hc hcs
    induction cs with
    | nil => exact nil
    | cons c cs ih =>
      obtain ⟨hmark, hsize⟩ := hcs
      rw [List.forall_mem_cons] at hc hmark
      rw [Node.elementsOf, List.forall_mem_append] at hsize
      refine hc.1 cs ⟨List.forall_mem_singleton.2 hmark.1, ?_⟩ (ih hc.2 ⟨hmark.2, hsize.2⟩)
      rw [Node.elementsOf, Node.elementsOf, List.append_nil]
      exact hsize.1
  have heach : ∀ n : Node, ∀ ns, Presentable [n] → P ns → P (n :: ns) := by
    intro n
    induction n using Node.induct with
    | text s => exact fun ns hn => text s ns (hn.unmarked _ List.mem_cons_self).of_text
    | raw s => exact fun ns hn => raw s ns (hn.unmarked _ List.mem_cons_self).of_raw
    | root cs ih =>
      rintro ns ⟨hmark, hsize⟩ hns
      rw [Node.elementsOf, Node.elementsOf, List.append_nil] at hsize
      have hcs : Presentable cs := ⟨(hmark _ List.mem_cons_self).of_root, hsize⟩
      exact root cs ns hcs (hall ih hcs) hns
    | element tag attrs cs ih =>
      rintro ns ⟨hmark, hsize⟩ hns
      obtain ⟨htag, hattrs, hchildren⟩ := (hmark _ List.mem_cons_self).of_element
      rw [Node.elementsOf, Node.elementsOf, List.append_nil, Node.elements,
        List.forall_mem_cons] at hsize
      exact element tag attrs cs ns htag hattrs hsize.1 (hall ih ⟨hchildren, hsize.2⟩) hns
  exact hall (fun n _ => heach n) h

/-! ## Values -/

/-- A comparison that holds of related items together finds both or neither. -/
theorem contains_eq {α β : Type} [BEq α] [LawfulBEq α] [BEq β] [LawfulBEq β] {R : α → β → Prop}
    {a : α} {b : β} (hR : ∀ x y, R x y → (x = a ↔ y = b)) {xs : List α} {ys : List β}
    (h : List.Forall₂ R xs ys) : xs.contains a = ys.contains b := by
  induction h with
  | nil => rfl
  | @cons x y xs ys hxy _ ih =>
    have hhead : (a == x) = (b == y) := by
      rw [Bool.eq_iff_iff, beq_iff_eq, beq_iff_eq, eq_comm, hR x y hxy, eq_comm]
    rw [List.contains_cons, List.contains_cons, hhead, ih]

theorem Value.AlikeItem.text? {x y : Value} (h : AlikeItem same x y) :
    Option.Rel (StorageMarkup.Alike same) x.text? y.text? := by
  cases h with
  | text h => exact .some h
  | same h =>
    cases ht : x.text? with
    | none => exact .none
    | some s => exact .some (.of_free (h.of_text? ht))

theorem alike_texts? {xs ys : List Value} (h : List.Forall₂ (Value.AlikeItem same) xs ys) :
    Option.Rel (List.Forall₂ (Alike same)) (Value.texts? xs) (Value.texts? ys) := by
  unfold Value.texts?
  induction h with
  | nil => exact .some .nil
  | @cons x y xs ys hxy _ ih =>
    rw [List.mapM_cons, List.mapM_cons]
    exact rel_bind hxy.text? fun s t hst => rel_bind ih fun ss ts hs => .some (.cons hst hs)

namespace Value.Alike

variable {x y : Value}

theorem text? (h : Value.Alike same x y) :
    Option.Rel (StorageMarkup.Alike same) x.text? y.text? := by
  cases h with
  | item h => exact h.text?
  | list _ => exact .none

/-- A value that is no list is alike as an item is. -/
theorem of_not_list (h : Value.Alike same x y) (hx : ∀ items, x ≠ .list items) :
    AlikeItem same x y := by
  cases h with
  | item h => exact h
  | list _ => exact absurd rfl (hx _)

theorem of_text (h : Value.Alike same (.text s) y) :
    ∃ t, y = .text t ∧ StorageMarkup.Alike same s t := by
  cases h with
  | item h =>
    cases h with
    | text h => exact ⟨_, rfl, h⟩
    | same h => exact ⟨s, rfl, .of_free h.of_text⟩

theorem of_list {xs : List Value} (h : Value.Alike same (.list xs) y) :
    ∃ ys, y = .list ys ∧ List.Forall₂ (AlikeItem same) xs ys := by
  cases h with
  | list h => exact ⟨_, rfl, h⟩
  | item h =>
    cases h with
    | same h => exact ⟨xs, rfl, List.forall₂_same.2 fun x hx => .same (h.of_list x hx)⟩

end Value.Alike

/-! ## More matched numbers -/

section

variable {same' : Nat → Nat → Prop} (hs : ∀ m n, same m n → same' m n)

include hs

theorem Value.AlikeItem.mono {x y : Value} (h : Value.AlikeItem same x y) :
    Value.AlikeItem same' x y := by
  cases h with
  | text h => exact .text (h.mono hs)
  | same h => exact .same h

theorem Value.Alike.mono {x y : Value} (h : Value.Alike same x y) : Value.Alike same' x y := by
  cases h with
  | item h => exact .item (h.mono hs)
  | list h => exact .list (h.imp fun _ _ hxy => hxy.mono hs)

theorem Attributes.Alike.mono {attrs attrs' : Attributes} (h : attrs.Alike same attrs') :
    attrs.Alike same' attrs' :=
  h.imp fun _ _ hab => ⟨hab.1, hab.2.1, hab.2.2.mono hs⟩

theorem AlikeNodes.mono {ns ms : List Node} (h : AlikeNodes same ns ms) :
    AlikeNodes same' ns ms := by
  induction h with
  | nil => exact .nil
  | text h _ ih => exact .text (h.mono hs) ih
  | raw h _ ih => exact .raw (h.mono hs) ih
  | root _ _ ihc ih => exact .root ihc ih
  | element htag hattrs hsize _ _ ihc ih => exact .element htag (hattrs.mono hs) hsize ihc ih

end

/-! ## Attributes -/

namespace Attributes.Alike

variable {attrs attrs' : Attributes}

theorem get? (h : Attributes.Alike same attrs attrs') (name : List Char) :
    Option.Rel (Value.Alike same) (attrs.get? name) (attrs'.get? name) := by
  induction h with
  | nil => exact .none
  | @cons a b attrs attrs' hab _ ih =>
    obtain ⟨key, value⟩ := a
    obtain ⟨key', value'⟩ := b
    obtain ⟨rfl, -, hvalue⟩ := hab
    rw [Attributes.get?, Attributes.get?, List.lookup_cons, List.lookup_cons]
    cases name == key with
    | true => exact .some hvalue
    | false => exact ih

theorem text? (h : Attributes.Alike same attrs attrs') (name : List Char) :
    Option.Rel (StorageMarkup.Alike same) (attrs.text? name) (attrs'.text? name) :=
  rel_bind (h.get? name) fun _ _ hxy => hxy.text?

theorem isSome_get?_eq (h : Attributes.Alike same attrs attrs') (name : List Char) :
    (attrs.get? name).isSome = (attrs'.get? name).isSome := by
  rcases rel_cases (h.get? name) with ⟨hx, hy⟩ | ⟨x, y, hx, hy, _⟩ <;> rw [hx, hy]
  rfl

theorem filter (h : Attributes.Alike same attrs attrs') (keep : List Char → Bool) :
    Attributes.Alike same (List.filter (fun a => keep a.1) attrs)
      (List.filter (fun a => keep a.1) attrs') :=
  List.rel_filter (fun a b hab => by show keep a.1 = true ↔ keep b.1 = true; rw [hab.1]) h

theorem erase (h : Attributes.Alike same attrs attrs') (name : List Char) :
    (attrs.erase name).Alike same (attrs'.erase name) :=
  h.filter fun key => key ≠ name

theorem set (h : Attributes.Alike same attrs attrs') {name : List Char} (hname : startMark ∉ name)
    {x y : Value} (hxy : Value.Alike same x y) :
    (attrs.set name x).Alike same (attrs'.set name y) := by
  induction h with
  | nil => exact .cons ⟨rfl, hname, hxy⟩ .nil
  | @cons a b attrs attrs' hab h ih =>
    obtain ⟨key, value⟩ := a
    obtain ⟨key', value'⟩ := b
    obtain ⟨rfl, hkey, hvalue⟩ := hab
    rw [Attributes.set, Attributes.set]
    split
    · exact .cons ⟨rfl, hkey, hxy⟩ h
    · exact .cons ⟨rfl, hkey, hvalue⟩ ih

theorem classes (h : Attributes.Alike same attrs attrs') :
    List.Forall₂ (Value.AlikeItem same) attrs.classes attrs'.classes := by
  unfold Attributes.classes
  rcases rel_cases (h.get? "class".toList) with ⟨hx, hy⟩ | ⟨x, y, hx, hy, hxy⟩ <;> rw [hx, hy]
  · exact .nil
  · cases x with
    | text s =>
      obtain ⟨t, rfl, hst⟩ := hxy.of_text
      exact List.rel_map (fun _ _ hw => .text hw) hst.words
    | list xs =>
      obtain ⟨ys, rfl, h⟩ := hxy.of_list
      exact h
    | absent | flag | number | record | other =>
      cases hxy with
      | item h =>
        cases h
        exact .nil

theorem classNames (h : Attributes.Alike same attrs attrs') :
    List.Forall₂ (StorageMarkup.Alike same) attrs.classNames attrs'.classNames :=
  List.rel_filterMap (fun _ _ hxy => hxy.text?) h.classes

theorem inClass_eq (h : Attributes.Alike same attrs attrs') {word : List Char}
    (hword : startMark ∉ word) : attrs.inClass word = attrs'.inClass word :=
  contains_eq (fun _ _ hst => hst.eq_free_iff hword) h.classNames

end Attributes.Alike

/-! ## Neighbours -/

namespace AlikeNodes

variable {ns ms ns' ms' : List Node}

theorem append (h : AlikeNodes same ns ms) (h' : AlikeNodes same ns' ms') :
    AlikeNodes same (ns ++ ns') (ms ++ ms') := by
  induction h with
  | nil => exact h'
  | text hs _ ih => exact .text hs ih
  | raw hs _ ih => exact .raw hs ih
  | root hc _ _ ih => exact .root hc ih
  | element htag hattrs hsize hc _ _ ih => exact .element htag hattrs hsize hc ih

theorem of_cons {n : Node} {ns ms : List Node} (h : AlikeNodes same (n :: ns) ms) :
    ∃ m ms', ms = m :: ms' ∧ Node.Alike same n m ∧ AlikeNodes same ns ms' := by
  cases h with
  | text hs h => exact ⟨_, _, rfl, .text hs .nil, h⟩
  | raw hs h => exact ⟨_, _, rfl, .raw hs .nil, h⟩
  | root hc h => exact ⟨_, _, rfl, .root hc .nil, h⟩
  | element htag hattrs hsize hc h =>
    exact ⟨_, _, rfl, .element htag hattrs hsize hc .nil, h⟩

theorem of_nil {ms : List Node} (h : AlikeNodes same [] ms) : ms = [] := by
  cases h
  rfl

theorem cons {n m : Node} {ns ms : List Node} (hn : Node.Alike same n m)
    (h : AlikeNodes same ns ms) : AlikeNodes same (n :: ns) (m :: ms) :=
  AlikeNodes.append hn h

/-- A presentable tree is alike to itself. -/
theorem refl {nodes : List Node} (h : Presentable nodes) : AlikeNodes same nodes nodes := by
  refine Presentable.induct (P := fun nodes => AlikeNodes same nodes nodes) ?_ ?_ ?_ ?_ ?_ h
  · exact .nil
  · exact fun s ns hs ih => .text (.of_free hs) ih
  · exact fun s ns hs ih => .raw (.of_free hs) ih
  · exact fun cs ns _ ihc ih => .root ihc ih
  · intro tag attrs cs ns htag hattrs hsize ihc ih
    refine .element htag (List.forall₂_same.2 fun a ha => ?_) hsize ihc ih
    exact ⟨rfl, (hattrs a ha).1, .item (.same (hattrs a ha).2)⟩

/-- Neighbours are alike one by one. -/
theorem iff_forall₂ : AlikeNodes same ns ms ↔ List.Forall₂ (Node.Alike same) ns ms := by
  constructor
  · intro h
    induction ns generalizing ms with
    | nil =>
      rw [h.of_nil]
      exact .nil
    | cons n ns ih =>
      obtain ⟨m, ms, rfl, hn, h⟩ := h.of_cons
      exact .cons hn (ih h)
  · intro h
    induction h with
    | nil => exact .nil
    | cons hn _ ih => exact .cons hn ih

theorem exists_left (h : AlikeNodes same ns ms) {m : Node} (hm : m ∈ ms) :
    ∃ n ∈ ns, Node.Alike same n m := by
  have h := iff_forall₂.1 h
  induction h with
  | nil => exact absurd hm List.not_mem_nil
  | cons hn _ ih =>
    rcases List.mem_cons.1 hm with rfl | hm
    · exact ⟨_, List.mem_cons_self, hn⟩
    · obtain ⟨n, hmem, hn⟩ := ih (iff_forall₂.2 ‹_›) hm
      exact ⟨n, List.mem_cons_of_mem _ hmem, hn⟩

theorem filter {p q : Node → Bool} (hpq : ∀ n m, Node.Alike same n m → p n = q m)
    (h : AlikeNodes same ns ms) : AlikeNodes same (ns.filter p) (ms.filter q) :=
  iff_forall₂.2 (List.rel_filter (fun n m hnm => by show p n = true ↔ q m = true; rw [hpq n m hnm])
    (iff_forall₂.1 h))

theorem all_eq {p q : Node → Bool} (hpq : ∀ n m, Node.Alike same n m → p n = q m)
    (h : AlikeNodes same ns ms) : ns.all p = ms.all q := by
  have h := iff_forall₂.1 h
  induction h with
  | nil => rfl
  | cons hn _ ih => rw [List.all_cons, List.all_cons, hpq _ _ hn, ih (iff_forall₂.2 ‹_›)]

theorem isEmpty_eq (h : AlikeNodes same ns ms) : ns.isEmpty = ms.isEmpty := by
  cases h <;> rfl

/-! ## Reading trees -/

theorem characterDataOf (h : AlikeNodes same ns ms) :
    Alike same (Node.characterDataOf ns) (Node.characterDataOf ms) := by
  induction h with
  | nil => exact .nil
  | text hs _ ih => exact hs.append ih
  | raw _ _ ih => exact ih
  | root _ _ ihc ih => exact ihc.append ih
  | element _ _ _ _ _ ihc ih => exact ihc.append ih

/-- The elements of alike trees, each before those inside it. -/
theorem elementsOf (h : AlikeNodes same ns ms) :
    List.Forall₂ (Element.Alike same) (Node.elementsOf ns) (Node.elementsOf ms) := by
  induction h with
  | nil => exact .nil
  | text _ _ ih => exact ih
  | raw _ _ ih => exact ih
  | root _ _ ihc ih => exact List.rel_append ihc ih
  | element htag hattrs hsize hc _ ihc ih =>
    exact .cons (.element htag hattrs hsize hc .nil) (List.rel_append ihc ih)

end AlikeNodes

namespace Node.Alike

variable {n m : Node}

theorem characterData (h : Node.Alike same n m) :
    StorageMarkup.Alike same n.characterData m.characterData := by
  have hsingle : ∀ n : Node, characterDataOf [n] = n.characterData := fun n => by
    rw [characterDataOf, characterDataOf, List.append_nil]
  rw [← hsingle n, ← hsingle m]
  exact AlikeNodes.characterDataOf h

theorem isBlank_eq (h : Node.Alike same n m) : n.isBlank = m.isBlank := by
  cases h with
  | text hs _ => exact hs.isBlank_eq
  | raw | root | element => rfl

theorem hasTag_eq (h : Node.Alike same n m) (tag : List Char) : n.hasTag tag = m.hasTag tag := by
  cases h <;> rfl

end Node.Alike

namespace Element.Alike

variable {e e' : Element}

theorem mk {tag : List Char} {attrs attrs' : Attributes} {cs ds : List Node}
    (htag : startMark ∉ tag) (hattrs : attrs.Alike same attrs') (hsize : SizedImage tag attrs)
    (hc : AlikeNodes same cs ds) : Element.Alike same ⟨tag, attrs, cs⟩ ⟨tag, attrs', ds⟩ :=
  .element htag hattrs hsize hc .nil

theorem parts (h : Element.Alike same e e') :
    e.tag = e'.tag ∧ startMark ∉ e.tag ∧ e.attributes.Alike same e'.attributes ∧
      SizedImage e.tag e.attributes ∧ AlikeNodes same e.children e'.children := by
  obtain ⟨tag, attrs, cs⟩ := e
  obtain ⟨tag', attrs', ds⟩ := e'
  cases h with
  | element htag hattrs hsize hc _ => exact ⟨rfl, htag, hattrs, hsize, hc⟩

end Element.Alike

/-! ## Writing trees -/

theorem alike_attributeText {a b : List Char × Value}
    (h : a.1 = b.1 ∧ startMark ∉ a.1 ∧ Value.Alike same a.2 b.2) :
    Alike same (attributeText a) (attributeText b) := by
  obtain ⟨name, x⟩ := a
  obtain ⟨name', y⟩ := b
  obtain ⟨rfl, hname, hxy⟩ := h
  have hblank : Alike same (' ' :: name) (' ' :: name) := .char (by decide) (.of_free hname)
  have hquoted : ∀ {s t : List Char}, Alike same s t →
      Alike same (' ' :: name ++ "=\"".toList ++ escapeQuoted s ++ ['"'])
        (' ' :: name ++ "=\"".toList ++ escapeQuoted t ++ ['"']) := fun h =>
    .append (.append (.append hblank (.of_free (by decide))) h.escapeQuoted) (.of_free (by decide))
  cases x with
  | text s =>
    obtain ⟨t, rfl, hst⟩ := hxy.of_text
    exact hquoted hst
  | list xs =>
    obtain ⟨ys, rfl, h⟩ := hxy.of_list
    rw [attributeText, attributeText]
    rcases rel_cases (alike_texts? h) with ⟨hx, hy⟩ | ⟨ss, ts, hx, hy, hst⟩ <;> rw [hx, hy]
    · exact .nil
    · exact hquoted (.joinWith (by decide) hst)
  | flag on =>
    cases hxy with
    | item h =>
      cases h
      cases on with
      | false => exact .nil
      | true => exact hblank
  | absent | number | record | other =>
    cases hxy with
    | item h =>
      cases h
      exact .nil

theorem Attributes.Alike.print {attrs attrs' : Attributes} (h : attrs.Alike same attrs') :
    StorageMarkup.Alike same attrs.print attrs'.print := by
  induction h with
  | nil => exact .nil
  | cons hab _ ih =>
    rw [Attributes.print, Attributes.print, List.flatMap_cons, List.flatMap_cons]
    exact .append (alike_attributeText hab) ih

/-- Alike trees are written as alike texts, or writing them fails in the same way. -/
theorem AlikeNodes.printAllAt {ns ms : List Node} (h : AlikeNodes same ns ms) (limit : Limit)
    (pre : Bool) (depth : Nat) :
    Agree (Alike same) (Node.printAllAt limit pre depth ns)
      (Node.printAllAt limit pre depth ms) := by
  have happend : ∀ s t u w : List Char, Alike same s t → Alike same u w →
      Alike same (s ++ u) (t ++ w) := fun _ _ _ _ => .append
  induction h generalizing pre depth with
  | nil => exact .ok .nil
  | text hs _ ih => exact .map₂ (.ok (hs.printText pre)) (ih pre depth) happend
  | raw hs _ ih => exact .map₂ (.ok hs) (ih pre depth) happend
  | root _ _ ihc ih => exact .map₂ (ihc pre depth) (ih pre depth) happend
  | @element tag attrs attrs' cs ds ns ms htag hattrs hsize _ _ ihc ih =>
    refine .map₂ ?_ (ih pre depth) happend
    rw [Node.printAt, Node.printAt]
    refine (Agree.refl _).bind fun _ _ _ => ?_
    have hopen : Alike same ('<' :: tag ++ attrs.print) ('<' :: tag ++ attrs'.print) :=
      .append (.char (by decide) (.of_free htag)) hattrs.print
    split
    · exact .ok (hopen.append (.of_free (by decide)))
    · refine (ihc _ _).bind fun _ _ hinner => .ok ?_
      exact .append (.append (.append (.append (.append hopen (.of_free (by decide))) hinner)
        (.of_free (by decide))) (.of_free htag)) (.of_free (by decide))

theorem AlikeNodes.printAll {ns ms : List Node} (h : AlikeNodes same ns ms) (limit : Limit) :
    Agree (Alike same) (Node.printAll limit ns) (Node.printAll limit ms) :=
  h.printAllAt _ _ _

end StorageMarkup
