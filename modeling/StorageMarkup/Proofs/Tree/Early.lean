import StorageMarkup.Proofs.Node.Alike
import StorageMarkup.Proofs.Tree.Shielded
import StorageMarkup.Proofs.Vault.Filling
import StorageMarkup.Tree.Body
import StorageMarkup.Tree.Marker

/-!
# Trees with directives set aside early

Some directives of a tree may be set aside before its conversion. The passes that come
before the others are set aside see the same elements and the same markers, so that in
the end, with all directives set aside, the tree is alike to what it would have been.

Results:
1. `EarlyNodes.refl`: nothing set aside early.
2. `EarlyNodes.heightOf_eq`, `EarlyNodes.bodyOf`, `EarlyNodes.liftMarkersAmong`: nesting,
   body and markers.
3. `EarlyNodes.shieldNodes`: setting the other directives aside.
-/

namespace StorageMarkup

open Vault

variable {w : Vault} {numbers more : List Nat}

/-! ## Early values and trees -/

/-- Items of a list, the texts among them with directives set aside early. -/
inductive EarlyItems (w : Vault) : List Nat → List Value → List Value → Prop
  | nil : EarlyItems w [] [] []
  | text {numbers more : List Nat} {s t : List Char} {xs ys : List Value}
      (hs : Early w numbers s t) (h : EarlyItems w more xs ys) :
      EarlyItems w (numbers ++ more) (.text s :: xs) (.text t :: ys)
  | same {numbers : List Nat} {x : Value} {xs ys : List Value} (hx : x.All (startMark ∉ ·))
      (htext : x.text? = none) (h : EarlyItems w numbers xs ys) :
      EarlyItems w numbers (x :: xs) (x :: ys)

/-- A text or a list of items with directives set aside early, any other value as it is. -/
inductive Value.Early (w : Vault) : List Nat → Value → Value → Prop
  | text {numbers : List Nat} {s t : List Char} (h : StorageMarkup.Early w numbers s t) :
      Value.Early w numbers (.text s) (.text t)
  | list {numbers : List Nat} {xs ys : List Value} (h : EarlyItems w numbers xs ys) :
      Value.Early w numbers (.list xs) (.list ys)
  | same {x : Value} (hx : x.All (startMark ∉ ·)) (htext : x.text? = none)
      (hlist : ∀ items, x ≠ .list items) : Value.Early w [] x x

/-- The same names, the values with directives set aside early. -/
inductive Attributes.Early (w : Vault) : List Nat → Attributes → Attributes → Prop
  | nil : Attributes.Early w [] [] []
  | cons {numbers more : List Nat} {name : List Char} {x y : Value} {attrs attrs' : Attributes}
      (hname : startMark ∉ name) (hx : Value.Early w numbers x y)
      (h : Attributes.Early w more attrs attrs') :
      Attributes.Early w (numbers ++ more) ((name, x) :: attrs) ((name, y) :: attrs')

/-- Neighbours without start marks in them and without lists as sizes of images, and the same with
some directives of their texts and attributes set aside early in `w`, with these numbers. Final
output and documents inside the document are as they were. -/
inductive EarlyNodes (w : Vault) : List Nat → List Node → List Node → Prop
  | nil : EarlyNodes w [] [] []
  | text {numbers more : List Nat} {s t : List Char} {ns ms : List Node}
      (hs : Early w numbers s t) (h : EarlyNodes w more ns ms) :
      EarlyNodes w (numbers ++ more) (.text s :: ns) (.text t :: ms)
  | raw {numbers : List Nat} {s : List Char} {ns ms : List Node} (hs : startMark ∉ s)
      (h : EarlyNodes w numbers ns ms) : EarlyNodes w numbers (.raw s :: ns) (.raw s :: ms)
  | root {numbers : List Nat} {cs ns ms : List Node} (hc : Presentable cs)
      (h : EarlyNodes w numbers ns ms) : EarlyNodes w numbers (.root cs :: ns) (.root cs :: ms)
  | element {own inner more : List Nat} {tag : List Char} {attrs attrs' : Attributes}
      {cs ds ns ms : List Node} (htag : startMark ∉ tag) (hattrs : attrs.Early w own attrs')
      (hsize : SizedImage tag attrs) (hc : EarlyNodes w inner cs ds)
      (h : EarlyNodes w more ns ms) :
      EarlyNodes w (own ++ inner ++ more) (.element tag attrs cs :: ns)
        (.element tag attrs' ds :: ms)

/-! ## Nothing set aside early -/

theorem EarlyItems.refl {xs : List Value} (h : ∀ x ∈ xs, x.All (startMark ∉ ·)) :
    EarlyItems w [] xs xs := by
  induction xs with
  | nil => exact .nil
  | cons x xs ih =>
    rw [List.forall_mem_cons] at h
    cases x with
    | text s => exact .text (.same h.1.of_text) (ih h.2)
    | absent | flag | number | list | record | other => exact .same h.1 rfl (ih h.2)

theorem Value.Early.refl {x : Value} (h : x.All (startMark ∉ ·)) : Value.Early w [] x x := by
  cases x with
  | text s => exact .text (.same h.of_text)
  | list xs => exact .list (.refl h.of_list)
  | absent | flag | number | record | other => exact .same h rfl fun _ he => nomatch he

theorem Attributes.Early.refl {attrs : Attributes} (h : attrs.All (startMark ∉ ·)) :
    attrs.Early w [] attrs := by
  induction attrs with
  | nil => exact .nil
  | cons a attrs ih =>
    rw [Attributes.All, List.forall_mem_cons] at h
    exact .cons h.1.1 (.refl h.1.2) (ih h.2)

namespace EarlyNodes

variable {ns ms ns' ms' : List Node}

theorem append (h : EarlyNodes w numbers ns ms) (h' : EarlyNodes w more ns' ms') :
    EarlyNodes w (numbers ++ more) (ns ++ ns') (ms ++ ms') := by
  induction h with
  | nil => exact h'
  | text hs _ ih =>
    rw [List.append_assoc]
    exact .text hs ih
  | raw hs _ ih => exact .raw hs ih
  | root hc _ ih => exact .root hc ih
  | element htag hattrs hsize hc _ _ ih =>
    rw [List.append_assoc]
    exact .element htag hattrs hsize hc ih

theorem single_text {s t : List Char} (h : Early w numbers s t) :
    EarlyNodes w numbers [.text s] [.text t] := by
  have := EarlyNodes.text h (.nil (w := w))
  rwa [List.append_nil] at this

theorem single_element {own inner : List Nat} {tag : List Char} {attrs attrs' : Attributes}
    {cs ds : List Node} (htag : startMark ∉ tag) (hattrs : attrs.Early w own attrs')
    (hsize : SizedImage tag attrs) (hc : EarlyNodes w inner cs ds) :
    EarlyNodes w (own ++ inner) [.element tag attrs cs] [.element tag attrs' ds] := by
  have := EarlyNodes.element htag hattrs hsize hc (.nil (w := w))
  rwa [List.append_nil] at this

/-- Nothing is set aside early. -/
theorem refl {nodes : List Node} (h : Presentable nodes) : EarlyNodes w [] nodes nodes := by
  refine Presentable.induct (P := fun nodes => EarlyNodes w [] nodes nodes) ?_ ?_ ?_ ?_ ?_ h
  · exact .nil
  · exact fun s ns hs ih => .text (.same hs) ih
  · exact fun s ns hs ih => .raw hs ih
  · exact fun cs ns hc _ ih => .root hc ih
  · exact fun tag attrs cs ns htag hattrs hsize ihc ih => .element htag (.refl hattrs) hsize ihc ih

end EarlyNodes

/-! ## Numbers -/

theorem EarlyItems.known {xs ys : List Value} (h : EarlyItems w numbers xs ys) :
    ∀ n ∈ numbers, n < w.size := by
  induction h with
  | nil => exact fun n hn => absurd hn List.not_mem_nil
  | text hs _ ih => exact List.forall_mem_append.2 ⟨hs.known, ih⟩
  | same _ _ _ ih => exact ih

theorem Value.Early.known {x y : Value} (h : Value.Early w numbers x y) :
    ∀ n ∈ numbers, n < w.size := by
  cases h with
  | text h => exact h.known
  | list h => exact h.known
  | same => exact fun n hn => absurd hn List.not_mem_nil

theorem Attributes.Early.known {attrs attrs' : Attributes} (h : attrs.Early w numbers attrs') :
    ∀ n ∈ numbers, n < w.size := by
  induction h with
  | nil => exact fun n hn => absurd hn List.not_mem_nil
  | cons _ hx _ ih => exact List.forall_mem_append.2 ⟨hx.known, ih⟩

/-- The numbers of directives set aside early are those of texts in the vault. -/
theorem EarlyNodes.known {ns ms : List Node} (h : EarlyNodes w numbers ns ms) :
    ∀ n ∈ numbers, n < w.size := by
  induction h with
  | nil => exact fun n hn => absurd hn List.not_mem_nil
  | text hs _ ih => exact List.forall_mem_append.2 ⟨hs.known, ih⟩
  | raw _ _ ih => exact ih
  | root _ _ ih => exact ih
  | element _ hattrs _ _ _ ihc ih =>
    exact List.forall_mem_append.2 ⟨List.forall_mem_append.2 ⟨hattrs.known, ihc⟩, ih⟩

/-! ## Nesting -/

theorem EarlyNodes.heightOf_eq {ns ms : List Node} (h : EarlyNodes w numbers ns ms) :
    Node.heightOf ns = Node.heightOf ms := by
  induction h with
  | nil => rfl
  | text _ _ ih => exact congrArg (max 0) ih
  | raw _ _ ih | root _ _ ih => rw [Node.heightOf, Node.heightOf, ih]
  | element _ _ _ _ _ ihc ih =>
    rw [Node.heightOf, Node.heightOf, Node.height, Node.height, ihc, ih]

/-! ## Body and markers -/

/-- Early trees with some of these numbers, in the same order. -/
def EarlyAmong (w : Vault) (numbers : List Nat) (ns ms : List Node) : Prop :=
  ∃ fewer, List.Sublist fewer numbers ∧ EarlyNodes w fewer ns ms

namespace EarlyAmong

variable {ns ms ns' ms' : List Node}

theorem of_nodes (h : EarlyNodes w numbers ns ms) : EarlyAmong w numbers ns ms :=
  ⟨numbers, .refl numbers, h⟩

theorem append : EarlyAmong w numbers ns ms → EarlyAmong w more ns' ms' →
    EarlyAmong w (numbers ++ more) (ns ++ ns') (ms ++ ms')
  | ⟨_, hsub, h⟩, ⟨_, hsub', h'⟩ => ⟨_, hsub.append hsub', h.append h'⟩

theorem below (h : EarlyAmong w numbers ns ms) (hsub : numbers.Sublist more) :
    EarlyAmong w more ns ms :=
  h.imp fun _ hfewer => ⟨hfewer.1.trans hsub, hfewer.2⟩

end EarlyAmong

theorem Attributes.Early.filter {attrs attrs' : Attributes} (keep : List Char → Bool)
    (h : attrs.Early w numbers attrs') : ∃ fewer, List.Sublist fewer numbers ∧
      Attributes.Early w fewer (List.filter (fun a => keep a.1) attrs)
        (List.filter (fun a => keep a.1) attrs') := by
  induction h with
  | nil => exact ⟨[], .slnil, .nil⟩
  | @cons numbers more name x y attrs attrs' hname hx _ ih =>
    obtain ⟨fewer, hsub, h⟩ := ih
    rw [List.filter_cons, List.filter_cons]
    cases keep name with
    | true => exact ⟨numbers ++ fewer, hsub.append_left numbers, .cons hname hx h⟩
    | false => exact ⟨fewer, hsub.trans (List.sublist_append_right numbers more), h⟩

theorem SizedImage.withoutNamespaces {tag : List Char} {attrs : Attributes}
    (h : SizedImage tag attrs) : SizedImage tag attrs.withoutNamespaces := by
  intro htag name hname items
  have hkept : isNamespace name = false := by
    rcases List.mem_cons.1 hname with rfl | hname
    · decide
    · rw [List.mem_singleton.1 hname]
      decide
  rw [Attributes.get?_withoutNamespaces hkept]
  exact h htag name hname items

/-- The body has the directives of the tree but those of page heads and namespaces. -/
theorem EarlyNodes.bodyOf {ns ms : List Node} (h : EarlyNodes w numbers ns ms) :
    EarlyAmong w numbers (Node.bodyOf ns) (Node.bodyOf ms) := by
  induction h with
  | nil => exact .of_nodes .nil
  | text hs _ ih => exact .append (.of_nodes (.single_text hs)) ih
  | raw hs _ ih => exact .append (.of_nodes (.raw hs .nil)) ih
  | root hc _ ih => exact .append (.of_nodes (.root hc .nil)) ih
  | @element own inner more tag attrs attrs' cs ds ns ms htag hattrs hsize _ _ ihc ih =>
    refine .append ?_ ih
    rw [Node.body, Node.body]
    split
    · exact ⟨[], List.nil_sublist _, .nil⟩
    split
    · exact ihc.below (List.sublist_append_right own inner)
    · obtain ⟨kept, hkept, hattrs⟩ := hattrs.filter (!isNamespace ·)
      obtain ⟨fewer, hfewer, hc⟩ := ihc
      exact ⟨kept ++ fewer, hkept.append hfewer,
        .single_element htag hattrs hsize.withoutNamespaces hc⟩

theorem EarlyTexts.markers {ss ts : List (List Char)} (h : EarlyTexts w numbers ss ts) :
    EarlyNodes w numbers (StorageMarkup.markers ss) (StorageMarkup.markers ts) := by
  induction h with
  | nil => exact .nil
  | cons h hs ih =>
    cases hs with
    | nil =>
      rw [List.append_nil]
      exact .single_text h
    | cons _ _ =>
      have hfeed : EarlyNodes w [] [.text ['\n']] [.text ['\n']] := .single_text (.same (by decide))
      exact .text h (hfeed.append ih :)

theorem Early.isMarkerLine_eq (v : Vault) {s t : List Char} (h : Early w numbers s t) :
    isMarkerLine (some v) s = isMarkerLine (some w) t :=
  congrArg (fun said => Directive.isOpenOrClose said || isRegionText said) (h.reveal_eq v)

theorem EarlyTexts.all_isMarkerLine_eq {ss ts : List (List Char)} (v : Vault)
    (h : EarlyTexts w numbers ss ts) :
    ss.isEmpty = ts.isEmpty ∧ ss.all (isMarkerLine (some v)) = ts.all (isMarkerLine (some w)) := by
  induction h with
  | nil => exact ⟨rfl, List.all_nil.trans List.all_nil.symm⟩
  | cons h _ ih => exact ⟨rfl, by rw [List.all_cons, List.all_cons, h.isMarkerLine_eq v, ih.2]⟩

/-- Markers are recognised by what they say. -/
theorem EarlyNodes.markersOf? (v : Vault) (tag : List Char) {cs ds : List Node}
    (h : EarlyNodes w numbers cs ds) :
    Option.Rel (EarlyTexts w numbers) (StorageMarkup.markersOf? (some v) tag cs)
      (StorageMarkup.markersOf? (some w) tag ds) := by
  cases h with
  | nil | raw | root | element => exact .none
  | text hs h =>
    cases h with
    | text | raw | root | element => exact .none
    | nil =>
      have hlines := hs.contentLines
      obtain ⟨hempty, hall⟩ := hlines.all_isMarkerLine_eq v
      rw [List.append_nil, StorageMarkup.markersOf?, StorageMarkup.markersOf?, hempty, hall]
      split
      · exact .some hlines
      · exact .none

theorem EarlyNodes.liftMarkersAmong (v : Vault) {ns ms : List Node}
    (h : EarlyNodes w numbers ns ms) :
    EarlyAmong w numbers (Node.liftMarkersAmong (some v) ns)
      (Node.liftMarkersAmong (some w) ms) := by
  induction h with
  | nil => exact .of_nodes .nil
  | text hs _ ih => exact .append (.of_nodes (.single_text hs)) ih
  | raw hs _ ih => exact .append (.of_nodes (.raw hs .nil)) ih
  | root hc _ ih => exact .append (.of_nodes (.root hc .nil)) ih
  | @element own inner more tag attrs attrs' cs ds ns ms htag hattrs hsize hc _ ihc ih =>
    refine .append ?_ ih
    rw [Node.liftMarkers, Node.liftMarkers]
    rcases rel_cases (hc.markersOf? v tag) with ⟨hx, hy⟩ | ⟨ls, ls', hx, hy, hlines⟩ <;> rw [hx, hy]
    · obtain ⟨fewer, hfewer, hc⟩ := ihc
      exact ⟨own ++ fewer, hfewer.append_left own, .single_element htag hattrs hsize hc⟩
    · exact (EarlyAmong.of_nodes hlines.markers).below (List.sublist_append_right own inner)

/-! ## Setting the other directives aside -/

section

variable {w₀ v : Vault} {same : Nat → Nat → Prop}

theorem EarlyItems.shieldItems {xs ys : List Value} (h : EarlyItems w₀ numbers xs ys)
    (hfill : Filling w₀ v w same (numbers ++ more)) :
    Filled w₀ same more (fun same => List.Forall₂ (Value.AlikeItem same)) (v.shieldItems xs)
      (w.shieldItems ys) := by
  induction h generalizing v w same with
  | nil => exact .pure hfill .nil
  | @text numbers _ s t _ _ hs _ ih =>
    rw [List.append_assoc] at hfill
    exact (hs.shield hfill).bind fun _ _ hfill hst =>
      (ih hfill).map (f := (.text (v.shield s).2 :: ·)) (g := (.text (w.shield t).2 :: ·))
        fun _ hsub h => .cons (.text (hst.mono hsub)) h
  | @same _ x xs ys hx htext _ ih =>
    have hpass : ∀ (u : Vault) (zs : List Value),
        u.shieldItems (x :: zs) = ((u.shieldItems zs).1, x :: (u.shieldItems zs).2) := by
      cases x with
      | text s => cases htext
      | absent | flag | number | list | record | other => exact fun _ _ => rfl
    rw [hpass, hpass]
    exact (ih hfill).map (f := (x :: ·)) (g := (x :: ·)) fun _ _ h => .cons (.same hx) h

theorem Value.Early.shieldValue {x y : Value} (h : Value.Early w₀ numbers x y)
    (hfill : Filling w₀ v w same (numbers ++ more)) :
    Filled w₀ same more Value.Alike (v.shieldValue x) (w.shieldValue y) := by
  cases h with
  | text h =>
    exact (h.shield hfill).map (f := Value.text) (g := Value.text) fun _ _ h =>
      Value.Alike.item (.text h)
  | list h =>
    exact (h.shieldItems hfill).map (f := Value.list) (g := Value.list) fun _ _ h =>
      Value.Alike.list h
  | same hx htext hlist =>
    cases x with
    | text s => cases htext
    | list xs => exact absurd rfl (hlist xs)
    | absent | flag | number | record | other => exact .pure hfill (.item (.same hx))

theorem Attributes.Early.shieldAttributes {attrs attrs' : Attributes}
    (h : attrs.Early w₀ numbers attrs') (hfill : Filling w₀ v w same (numbers ++ more)) :
    Filled w₀ same more Attributes.Alike (v.shieldAttributes attrs)
      (w.shieldAttributes attrs') := by
  induction h generalizing v w same with
  | nil => exact .pure hfill .nil
  | @cons numbers _ name x y _ _ hname hx _ ih =>
    rw [List.append_assoc] at hfill
    exact (hx.shieldValue hfill).bind fun _ _ hfill hxy =>
      (ih hfill).map (f := ((name, (v.shieldValue x).2) :: ·))
        (g := ((name, (w.shieldValue y).2) :: ·))
        fun _ hsub h => .cons ⟨rfl, hname, hxy.mono hsub⟩ h

theorem SizedImage.shieldAttributes {tag : List Char} {attrs : Attributes}
    (h : SizedImage tag attrs) (v : Vault) : SizedImage tag (v.shieldAttributes attrs).2 := by
  intro htag name hname items hg
  obtain ⟨_, old, -, -, hold, hv⟩ := get?_shieldAttributes hg
  cases old with
  | list olds => exact h htag name hname olds hold
  | absent | flag | number | text | record | other => cases hv

/-- Once all directives are set aside, a tree is alike to what it is after an early start. -/
theorem EarlyNodes.shieldNodes {ns ms : List Node} (h : EarlyNodes w₀ numbers ns ms)
    (hfill : Filling w₀ v w same (numbers ++ more)) :
    Filled w₀ same more AlikeNodes (v.shieldNodes ns) (w.shieldNodes ms) := by
  induction h generalizing v w same more with
  | nil => exact .pure hfill .nil
  | @text _ _ s t _ _ hs _ ih =>
    rw [List.append_assoc] at hfill
    exact (hs.shield hfill).bind fun _ _ hfill hst =>
      (ih hfill).map (f := (.text (v.shield s).2 :: ·)) (g := (.text (w.shield t).2 :: ·))
        fun _ hsub h => .text (hst.mono hsub) h
  | @raw _ s _ _ hs _ ih =>
    exact (ih hfill).map (f := (.raw s :: ·)) (g := (.raw s :: ·)) fun _ _ h =>
      AlikeNodes.raw (.of_free hs) h
  | @root _ cs _ _ hc _ ih =>
    exact (ih hfill).map (f := (.root cs :: ·)) (g := (.root cs :: ·)) fun _ _ h =>
      AlikeNodes.root (.refl hc) h
  | @element _ _ _ tag attrs attrs' cs ds _ _ htag hattrs hsize _ _ ihc ih =>
    rw [List.append_assoc, List.append_assoc] at hfill
    refine (hattrs.shieldAttributes hfill).bind fun _ _ hfill ha => ?_
    refine (ihc hfill).bind fun _ hsubc hfill hchildren => ?_
    refine (ih hfill).map (f := (.element tag (v.shieldAttributes attrs).2
      ((v.shieldAttributes attrs).1.shieldNodes cs).2 :: ·)) (g := (.element tag
      (w.shieldAttributes attrs').2 ((w.shieldAttributes attrs').1.shieldNodes ds).2 :: ·))
      fun _ hsub h => ?_
    exact .element htag (ha.mono fun m n hm => hsub m n (hsubc m n hm)) (hsize.shieldAttributes v)
      (hchildren.mono hsub) h

end

end StorageMarkup
