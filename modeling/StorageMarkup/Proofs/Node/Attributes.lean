import StorageMarkup.Mapping
import StorageMarkup.Proofs.Node.Strings
import StorageMarkup.Proofs.Outcome
import StorageMarkup.Proofs.Text.Lines
import StorageMarkup.Tree.Body

/-!
# Attributes that passes change and write

A pass takes namespace declarations off an element and gives a table cell a style. It
looks up and changes single names, so the names that make an element a container of
footnotes keep their values.

Results:
1. `get?_filter`, `get?_set_of_ne`, `get?_set_self`: a change to one name leaves the others alone.
2. `holdsFootnotes_withoutNamespaces`, `holdsFootnotes_cellAttributes`: containers of
   footnotes stay what they are, and so do all other elements.
3. `Attributes.All.print`, `Attributes.All.cellAttributes`: properties of every string
   that writing and aligning keep.
4. `Mapping.all_languageOf?`: properties that words and ends of a text have with it.
-/

namespace StorageMarkup

variable {P : List Char → Prop} {attrs : Attributes}

/-! ## Looking up -/

namespace Attributes

theorem get?_filter {keep : List Char × Value → Bool} {name : List Char}
    (h : ∀ value, keep (name, value) = true) (attrs : Attributes) :
    Attributes.get? (List.filter keep attrs) name = attrs.get? name := by
  induction attrs with
  | nil => rfl
  | cons a attrs ih =>
    obtain ⟨key, value⟩ := a
    rw [get?, get?] at ih
    rw [get?, get?, List.filter_cons, List.lookup_cons]
    split
    · rw [List.lookup_cons, ih]
    · next hk =>
      have hne : (name == key) = false := beq_false_of_ne fun he => hk (he ▸ h value)
      rw [hne, ih]

theorem get?_set_of_ne {name key : List Char} (h : name ≠ key) (value : Value)
    (attrs : Attributes) : (attrs.set key value).get? name = attrs.get? name := by
  have hne : (name == key) = false := beq_false_of_ne h
  induction attrs with
  | nil =>
    rw [set, get?, List.lookup_cons, hne]
    rfl
  | cons a attrs ih =>
    obtain ⟨other, old⟩ := a
    rw [set]
    split
    · next he => rw [get?, get?, List.lookup_cons, List.lookup_cons, he, hne]
    · rw [get?, get?] at ih
      rw [get?, get?, List.lookup_cons, List.lookup_cons, ih]

theorem get?_set_self (name : List Char) (value : Value) (attrs : Attributes) :
    (attrs.set name value).get? name = some value := by
  induction attrs with
  | nil => simp [set, get?]
  | cons a attrs ih =>
    obtain ⟨key, old⟩ := a
    rw [set]
    split
    · next he => simp [get?, he]
    · next hne =>
      rw [get?] at ih ⊢
      rw [List.lookup_cons, beq_false_of_ne (Ne.symm hne), ih]

/-- To set what is there already changes nothing. -/
theorem set_of_get? {name : List Char} {value : Value} (h : attrs.get? name = some value) :
    attrs.set name value = attrs := by
  induction attrs with
  | nil => cases h
  | cons a attrs ih =>
    obtain ⟨key, old⟩ := a
    rw [get?, List.lookup_cons] at h
    rw [set]
    by_cases hkey : key = name
    · simp [hkey] at h ⊢
      rw [h]
    · rw [beq_false_of_ne (Ne.symm hkey)] at h
      rw [if_neg hkey, ih h]

theorem get?_erase_of_ne {name key : List Char} (h : name ≠ key) (attrs : Attributes) :
    (attrs.erase key).get? name = attrs.get? name :=
  get?_filter (fun _ => decide_eq_true h) attrs

theorem get?_withoutNamespaces {name : List Char} (h : isNamespace name = false)
    (attrs : Attributes) : attrs.withoutNamespaces.get? name = attrs.get? name :=
  get?_filter (fun _ => show (!isNamespace name) = true by rw [h]; rfl) attrs

/-- The cells of a table get no attributes but these. -/
theorem get?_cellAttributes {name : List Char} (halign : name ≠ "align".toList)
    (hstyle : name ≠ "style".toList) (hscope : name ≠ "scope".toList) (header : Bool)
    (attrs : Attributes) : (Mapping.cellAttributes header attrs).get? name = attrs.get? name := by
  have hrest : (attrs.erase "align".toList).get? name = attrs.get? name :=
    get?_erase_of_ne halign attrs
  have hscoped : ∀ {styled : Attributes}, styled.get? name = attrs.get? name → Attributes.get?
      (if header then styled.set "scope".toList (.text "col".toList) else styled) name =
        attrs.get? name := by
    intro styled h
    split
    · rw [get?_set_of_ne hscope, h]
    · exact h
  unfold Mapping.cellAttributes
  simp only
  refine hscoped ?_
  split
  · split
    · exact hrest
    · rw [get?_set_of_ne hstyle, hrest]
  · exact hrest

end Attributes

/-! ## Containers of footnotes -/

/-- Three names decide. -/
theorem holdsFootnotes_congr {e e' : Element}
    (h : ∀ name ∈ ["data-footnotes".toList, "class".toList, "role".toList],
      e.attributes.get? name = e'.attributes.get? name) : e.holdsFootnotes = e'.holdsFootnotes := by
  rw [List.forall_mem_cons, List.forall_mem_cons, List.forall_mem_singleton] at h
  obtain ⟨hdata, hclass, hrole⟩ := h
  have hclasses : e.attributes.classes = e'.attributes.classes := by
    rw [Attributes.classes, hclass, Attributes.classes]
  rw [Element.holdsFootnotes, hdata, Attributes.inClass, Attributes.classNames, hclasses,
    Attributes.text?, hrole]
  rfl

theorem holdsFootnotes_withoutNamespaces (tag : List Char) (attrs : Attributes)
    (children children' : List Node) :
    Element.holdsFootnotes ⟨tag, attrs.withoutNamespaces, children⟩ =
      Element.holdsFootnotes ⟨tag, attrs, children'⟩ := by
  refine holdsFootnotes_congr fun name hn => Attributes.get?_withoutNamespaces ?_ attrs
  revert name
  decide

theorem holdsFootnotes_cellAttributes (tag : List Char) (header : Bool) (attrs : Attributes)
    (children children' : List Node) :
    Element.holdsFootnotes ⟨tag, Mapping.cellAttributes header attrs, children⟩ =
      Element.holdsFootnotes ⟨tag, attrs, children'⟩ := by
  refine holdsFootnotes_congr fun name hn => ?_
  have hne : name ≠ "align".toList ∧ name ≠ "style".toList ∧ name ≠ "scope".toList := by
    revert name
    decide
  exact Attributes.get?_cellAttributes hne.1 hne.2.1 hne.2.2 header attrs

/-! ## Every string of the attributes -/

/-- A property that fixed texts have and that joining, trimming and quoting keep. -/
structure Writable (P : List Char → Prop) : Prop where
  fixed {s : List Char} (hmark : Vault.startMark ∉ s)
    (hbrace : ∀ c ∈ s, Directive.isBrace c = false) : P s
  append {s t : List Char} (hs : P s) (ht : P t) : P (s ++ t)
  strip {s : List Char} (hs : P s) : P (StorageMarkup.strip s)
  escapeQuoted {s : List Char} (hs : P s) : P (StorageMarkup.escapeQuoted s)

namespace Writable

variable (hP : Writable P)

include hP

theorem nil : P [] := hP.fixed List.not_mem_nil fun _ hc => absurd hc List.not_mem_nil

theorem attributeText {a : List Char × Value} (hname : P a.1) (hvalue : a.2.All P) :
    P (StorageMarkup.attributeText a) := by
  have hblank : P (' ' :: a.1) := hP.append (hP.fixed (by decide) (by decide) : P [' ']) hname
  have hquoted : ∀ s, P s →
      P (' ' :: a.1 ++ "=\"".toList ++ StorageMarkup.escapeQuoted s ++ ['"']) :=
    fun s hs => hP.append (hP.append (hP.append hblank (hP.fixed (by decide) (by decide)))
      (hP.escapeQuoted hs)) (hP.fixed (by decide) (by decide))
  obtain ⟨name, value⟩ := a
  cases value with
  | text s => exact hquoted s hvalue.of_text
  | absent | number | record | other => exact hP.nil
  | flag on =>
    cases on with
    | false => exact hP.nil
    | true => exact hblank
  | list items =>
    rw [StorageMarkup.attributeText]
    split
    · next texts htexts =>
      exact hquoted _ (joinWith_induct hP.nil (fun _ _ => hP.append)
        (hP.fixed (by decide) (by decide)) (hvalue.of_texts? htexts))
    · exact hP.nil

theorem print (h : attrs.All P) : P attrs.print := by
  induction attrs with
  | nil => exact hP.nil
  | cons a attrs ih =>
    rw [Attributes.All, List.forall_mem_cons] at h
    rw [Attributes.print, List.flatMap_cons]
    exact hP.append (hP.attributeText h.1.1 h.1.2) (ih h.2)

theorem alignedStyle {align : List Char} {style : Option (List Char)} (halign : P align)
    (hstyle : ∀ s, style = some s → P s) : P (Mapping.alignedStyle align style) := by
  have hrule : P ("text-align: ".toList ++ StorageMarkup.strip align ++ [';']) :=
    hP.append (hP.append (hP.fixed (by decide) (by decide)) (hP.strip halign))
      (hP.fixed (by decide) (by decide))
  unfold Mapping.alignedStyle
  cases style with
  | none => exact hrule
  | some s =>
    simp only
    split
    · exact hrule
    · refine hP.append hrule (hP.append (s := [' ']) (hP.fixed (by decide) (by decide)) ?_)
      exact hP.strip (hstyle s rfl)

theorem cellAttributes (h : attrs.All P) (header : Bool) :
    (Mapping.cellAttributes header attrs).All P := by
  have hrest := h.erase "align".toList
  have hscope : ∀ {attrs : Attributes}, attrs.All P → Attributes.All P
      (if header then attrs.set "scope".toList (.text "col".toList) else attrs) := by
    intro attrs h
    split
    · exact h.set (hP.fixed (by decide) (by decide)) (.text (hP.fixed (by decide) (by decide)))
    · exact h
  unfold Mapping.cellAttributes
  simp only
  refine hscope ?_
  split
  · next align halign =>
    split
    · exact hrest
    · exact hrest.set (hP.fixed (by decide) (by decide))
        (.text (hP.alignedStyle (h.text? halign) fun s hs => hrest.text? hs))
  · exact hrest

end Writable

/-! ## Classes and languages -/

section

variable (words : ∀ s, P s → ∀ word ∈ words s, P word)

include words

theorem Attributes.All.classes (h : attrs.All P) : ∀ value ∈ attrs.classes, value.All P := by
  unfold Attributes.classes
  split
  · next s hs =>
    intro value hm
    obtain ⟨word, hw, rfl⟩ := List.mem_map.1 hm
    exact .text (words s (h.get? hs).of_text word hw)
  · next items hs => exact (h.get? hs).of_list
  · exact fun value hm => absurd hm List.not_mem_nil

theorem Attributes.All.classNames (h : attrs.All P) : ∀ name ∈ attrs.classNames, P name := by
  intro name hm
  obtain ⟨value, hv, hn⟩ := List.mem_filterMap.1 hm
  exact (h.classes words value hv).of_text? hn

end

namespace Mapping

variable (suffix : ∀ s t, P (s ++ t) → P t)

include suffix

theorem all_markedIn? {values : List Value} (h : ∀ value ∈ values, value.All P)
    {language : List Char} (hl : markedIn? values = .ok (some language)) : P language := by
  fun_induction markedIn? values with
  | case1 => cases hl
  | case2 name rest found hfound =>
    cases hl
    obtain ⟨ht, _⟩ := Option.filter_eq_some_iff.1 hfound
    have hname := (h _ List.mem_cons_self).of_text
    rw [dropStart?_eq_some.1 ht] at hname
    exact suffix _ _ hname
  | case3 name rest _ ih => exact ih (List.forall_mem_cons.1 h).2 hl
  | case4 => cases hl

/-- The language of a code block comes from a class, whole or cut at its start. -/
theorem all_languageOf? (words : ∀ s, P s → ∀ word ∈ words s, P word) {code block : Attributes}
    (hcode : code.All P) (hblock : block.All P) {language : List Char}
    (h : languageOf? code block = .ok (some language)) : P language := by
  unfold languageOf? at h
  obtain ⟨marked, hmarked, h⟩ := bind_eq_ok.1 h
  have hl := pure_eq_ok.1 h
  cases marked with
  | some found =>
    cases hl
    exact all_markedIn? suffix
      (List.forall_mem_append.2 ⟨hcode.classes words, hblock.classes words⟩) hmarked
  | none =>
    rw [Option.none_or] at hl
    exact List.forall_mem_append.2 ⟨hcode.classNames words, hblock.classNames words⟩ _
      (List.mem_of_find?_eq_some hl)

end Mapping

end StorageMarkup
