import StorageMarkup.Proofs.Node.Alike
import StorageMarkup.Proofs.Region.Closing
import StorageMarkup.Proofs.Region.Folding

/-!
# Regions of alike trees

The same open markers pair with the same close tokens in alike trees, whatever numbers
their placeholders have, and what is folded is alike.

Results:
1. `Matching.openingMarker?_eq`, `Matching.span?`: a region has the same head, name and
   extent.
2. `Matching.foldAll`: folding alike trees.
-/

namespace StorageMarkup

open Vault

variable {same : Nat → Nat → Prop} {v w : Vault} {name : List Char}

/-! ## Open markers -/

/-- Nodes that may be open markers have alike texts. -/
theorem Node.Alike.says {n m : Node} (h : Node.Alike same n m) :
    (∀ s, Region.Says s n → ∃ t, Region.Says t m ∧ StorageMarkup.Alike same s t) ∧
      ∀ t, Region.Says t m → ∃ s, Region.Says s n ∧ StorageMarkup.Alike same s t := by
  constructor
  · intro s hs
    cases hs with
    | text =>
      cases h with
      | text hst _ => exact ⟨_, .text, hst⟩
    | paragraph hp =>
      cases h with
      | element _ _ _ hc _ =>
        cases hc with
        | text hst h =>
          cases h
          exact ⟨_, .paragraph hp, hst⟩
  · intro t ht
    cases ht with
    | text =>
      cases h with
      | text hst _ => exact ⟨_, .text, hst⟩
    | paragraph hp =>
      cases h with
      | element _ _ _ hc _ =>
        cases hc with
        | text hst h =>
          cases h
          exact ⟨_, .paragraph hp, hst⟩

namespace Matching

variable (hsame : Matching v w same)

include hsame

theorem reveal_eq {s t : List Char} (h : Alike same s t) :
    reveal (some v) s = reveal (some w) t :=
  hsame.expand_eq h

/-- Open markers are revealed, so their heads and names are the same. -/
theorem openingMarker?_eq {n m : Node} (h : Node.Alike same n m) :
    n.openingMarker? (some v) = m.openingMarker? (some w) := by
  refine Option.ext fun ⟨head, name⟩ => ?_
  rw [Region.openingMarker?_eq_some, Region.openingMarker?_eq_some]
  constructor
  · rintro ⟨s, hs, rfl, hname⟩
    obtain ⟨t, ht, hst⟩ := h.says.1 s hs
    exact ⟨t, ht, by rw [hsame.reveal_eq hst.strip], hname⟩
  · rintro ⟨t, ht, rfl, hname⟩
    obtain ⟨s, hs, hst⟩ := h.says.2 t ht
    exact ⟨s, hs, by rw [hsame.reveal_eq hst.strip], hname⟩

/-- What is revealed holds no start mark. -/
theorem openingMarker?_free {n m : Node} (h : Node.Alike same n m) {head : List Char}
    (hn : n.openingMarker? (some v) = some (head, name)) : startMark ∉ head ∧ startMark ∉ name := by
  obtain ⟨s, hs, rfl, hname⟩ := Region.openingMarker?_eq_some.1 hn
  obtain ⟨t, -, hst⟩ := h.says.1 s hs
  have hhead : startMark ∉ strip (reveal (some v) (strip s)) := fun hm =>
    hsame.expand_free hst.strip (mem_of_mem_strip hm)
  exact ⟨hhead, fun hm => hhead (Directive.mem_of_openName? hname hm)⟩

end Matching

/-! ## Close tokens -/

/-- What is taken out of neighbours is taken out of one of them. -/
theorem takeClosingAmong_eq_span? (v : Option Vault) (name : List Char) (nodes : List Node) :
    Node.takeClosingAmong v name nodes =
      (Region.span? v name nodes).map fun (span, after) => span ++ after := by
  induction nodes with
  | nil => rfl
  | cons n rest ih =>
    rw [Node.takeClosingAmong, Region.span?]
    cases n.takeClosing v name with
    | some left => rfl
    | none =>
      simp only
      rw [ih, Option.map_map, Option.map_map]
      rfl

/-- A span and the nodes after it. -/
def AlikeSpan (same : Nat → Nat → Prop) (p q : List Node × List Node) : Prop :=
  AlikeNodes same p.1 q.1 ∧ AlikeNodes same p.2 q.2

/-- What is left of two nodes, if anything is. -/
def AlikeLeft (same : Nat → Nat → Prop) (left left' : Option Node) : Prop :=
  AlikeNodes same left.toList left'.toList

theorem span?_cons {n m : Node} {ns ms : List Node} (hnm : Node.Alike same n m)
    (hleft : Option.Rel (AlikeLeft same) (n.takeClosing (some v) name)
      (m.takeClosing (some w) name))
    (h : AlikeNodes same ns ms)
    (hrest : Option.Rel (AlikeSpan same) (Region.span? (some v) name ns)
      (Region.span? (some w) name ms)) :
    Option.Rel (AlikeSpan same) (Region.span? (some v) name (n :: ns))
      (Region.span? (some w) name (m :: ms)) := by
  rw [Region.span?, Region.span?]
  rcases rel_cases hleft with ⟨hn, hm⟩ | ⟨left, left', hn, hm, hll⟩ <;> rw [hn, hm]
  · exact rel_map hrest fun _ _ hs => ⟨.cons hnm hs.1, hs.2⟩
  · exact .some ⟨hll, h⟩

namespace Matching

variable (hsame : Matching v w same)

include hsame

theorem takeClosing_text (hname : startMark ∉ name) {s t : List Char} (h : Alike same s t) :
    Option.Rel (AlikeLeft same) ((Node.text s).takeClosing (some v) name)
      ((Node.text t).takeClosing (some w) name) := by
  rw [Node.takeClosing, Node.takeClosing]
  refine rel_map (hsame.cutFirstClosing hname h) fun cut cut' hcut => ?_
  have hleft := (hcut.1.append hcut.2).stripRight
  show AlikeLeft same (if _ then _ else _) (if _ then _ else _)
  rw [hleft.isBlank_eq]
  split
  · exact .nil
  · exact .text hleft .nil

/-- The first close token stands in alike nodes. -/
theorem span? (hname : startMark ∉ name) {ns ms : List Node} (h : AlikeNodes same ns ms) :
    Option.Rel (AlikeSpan same) (Region.span? (some v) name ns)
      (Region.span? (some w) name ms) := by
  induction h with
  | nil => exact .none
  | text hs h ih => exact span?_cons (.text hs .nil) (hsame.takeClosing_text hname hs) h ih
  | raw hs h ih => exact span?_cons (.raw hs .nil) .none h ih
  | root hc h _ ih => exact span?_cons (.root hc .nil) .none h ih
  | element htag hattrs hsize hc h ihc ih =>
    refine span?_cons (.element htag hattrs hsize hc .nil) ?_ h ih
    rw [Node.takeClosing, Node.takeClosing, takeClosingAmong_eq_span?, takeClosingAmong_eq_span?]
    refine rel_map (rel_map ihc fun _ _ hs => hs.1.append hs.2) fun left left' hleft => ?_
    show AlikeLeft same (if _ then _ else _) (if _ then _ else _)
    rw [hleft.all_eq fun _ _ hnm => hnm.isBlank_eq]
    split
    · exact .nil
    · exact .element htag hattrs hsize hleft .nil

/-! ## Folding -/

theorem foldAmong (limit : Limit) {ns ms : List Node} (h : AlikeNodes same ns ms) (depth : Nat) :
    Traced.Agree (AlikeNodes same) (Region.foldAmong limit (some v) depth ns)
      (Region.foldAmong limit (some w) depth ms) := by
  induction hn : ns.length using Nat.strongRecOn generalizing ns ms depth with
  | ind k ih =>
    cases ns with
    | nil =>
      rw [h.of_nil, Region.foldAmong_nil, Region.foldAmong_nil]
      exact .pure .nil
    | cons n ns =>
      obtain ⟨m, ms, rfl, hnm, h⟩ := h.of_cons
      have hmarker := hsame.openingMarker?_eq hnm
      have hothers := ih ns.length (by rw [← hn]; exact Nat.lt_succ_self _) h depth rfl
      cases hm : n.openingMarker? (some v) with
      | none =>
        rw [Region.foldAmong_content hm, Region.foldAmong_content (hmarker ▸ hm)]
        exact hothers.bind fun _ _ hrest => .pure (.cons hnm hrest)
      | some marker =>
        obtain ⟨head, name⟩ := marker
        obtain ⟨hhead, hname⟩ := hsame.openingMarker?_free hnm hm
        rcases rel_cases (hsame.span? hname h) with
          ⟨hv, hw⟩ | ⟨⟨span, after⟩, ⟨span', after'⟩, hv, hw, hs⟩
        · rw [Region.foldAmong_unclosed hm hv, Region.foldAmong_unclosed (hmarker ▸ hm) hw]
          exact (Traced.Agree.refl _).bind fun _ _ _ =>
            hothers.bind fun _ _ hrest => .pure (.cons hnm hrest)
        · have hlen := Region.span?_length hv
          rw [List.length_cons] at hn
          rw [Region.foldAmong_region hm hv, Region.foldAmong_region (hmarker ▸ hm) hw]
          refine (Traced.Agree.refl _).bind fun _ _ _ => ?_
          refine (ih span.length (by omega) hs.1 (depth + 1) rfl).bind fun _ _ hinner => ?_
          refine (Traced.Agree.lift (hinner.printAll limit)).bind fun _ _ hbody => ?_
          refine (Traced.Agree.refl _).bind fun _ _ _ => ?_
          refine (ih after.length (by omega) hs.2 depth rfl).bind fun _ _ hrest => .pure ?_
          exact .raw (Directive.alike_region (.of_free hhead) hbody.strip hname) hrest

theorem foldBelowAll (limit : Limit) {ns ms : List Node} (h : AlikeNodes same ns ms) (depth : Nat) :
    Traced.Agree (AlikeNodes same) (Region.foldBelowAll limit (some v) depth ns)
      (Region.foldBelowAll limit (some w) depth ms) := by
  have hcons : ∀ n m ns ms, Node.Alike same n m → AlikeNodes same ns ms →
      AlikeNodes same (n :: ns) (m :: ms) := fun _ _ _ _ => .cons
  induction h generalizing depth with
  | nil => exact .pure .nil
  | text hs _ ih => exact .map₂ (.pure (.text hs .nil)) (ih depth) hcons
  | raw hs _ ih => exact .map₂ (.pure (.raw hs .nil)) (ih depth) hcons
  | root hc _ _ ih => exact .map₂ (.pure (.root hc .nil)) (ih depth) hcons
  | element htag hattrs hsize _ _ ihc ih =>
    refine .map₂ ?_ (ih depth) hcons
    rw [Region.foldBelow, Region.foldBelow]
    refine (Traced.Agree.refl _).bind fun _ _ _ => ?_
    refine (ihc (depth + 1)).bind fun _ _ hmapped => ?_
    refine (hsame.foldAmong limit hmapped (depth + 1)).bind fun _ _ hfolded => .pure ?_
    exact .element htag hattrs hsize hfolded .nil

/-- Folding makes alike trees of alike trees, and reports the same. -/
theorem foldAll (limit : Limit) {ns ms : List Node} (h : AlikeNodes same ns ms) :
    Traced.Agree (AlikeNodes same) (Region.foldAll limit (some v) ns)
      (Region.foldAll limit (some w) ms) :=
  (Traced.Agree.refl _).bind fun _ _ _ =>
    (hsame.foldBelowAll limit h 0).bind fun _ _ hmapped => hsame.foldAmong limit hmapped 0

end Matching

end StorageMarkup
