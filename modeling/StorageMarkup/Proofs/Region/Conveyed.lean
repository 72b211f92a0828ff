import StorageMarkup.Proofs.Tree.Conveyed

/-!
# What folding does to directives

A fold takes one close token out of the tree and writes it behind what came before
it, with the open token in front. So each directive stays, and all but close tokens
stay in order.

Results:
1. `Rearranged`: the same directives, of which close tokens only have moved.
2. `holds_takeClosing`: a search for a close token takes one away and no other.
3. `holds_foldAll`: folding rearranges.
-/

namespace StorageMarkup

open Directive (Portable SetAside Written)

variable {a b c x y ds : List (List Char)} {v : Vault} {limit : Limit} {nodes : List Node}

/-- The text is a close token. -/
def Directive.isClose (s : List Char) : Bool := (Directive.closeName? s).isSome

/-! ## Rearranging -/

/-- The same directives, and in the same order but for close tokens. -/
structure Rearranged (a b : List (List Char)) : Prop where
  perm : a.Perm b
  order : a.filter (!Directive.isClose ·) = b.filter (!Directive.isClose ·)

namespace Rearranged

theorem refl (a : List (List Char)) : Rearranged a a := ⟨.refl a, rfl⟩

theorem trans (h : Rearranged a b) (h' : Rearranged b c) : Rearranged a c :=
  ⟨h.perm.trans h'.perm, h.order.trans h'.order⟩

theorem append (h : Rearranged a b) (h' : Rearranged x y) : Rearranged (a ++ x) (b ++ y) where
  perm := h.perm.append h'.perm
  order := by rw [List.filter_append, List.filter_append, h.order, h'.order]

theorem eq_nil (h : Rearranged a b) (ha : a = []) : b = [] := by
  rw [ha] at h
  exact List.nil_perm.1 h.perm

/-- A close token goes behind what follows it. -/
theorem moved {d : List Char} (hd : Directive.isClose d = true) (a b : List (List Char)) :
    Rearranged (a ++ d :: b) (a ++ b ++ [d]) where
  perm := by
    rw [List.append_assoc]
    exact List.Perm.append_left a (List.perm_append_singleton d b).symm
  order := by
    have hnone : ([d] : List (List Char)).filter (!Directive.isClose ·) = [] :=
      List.filter_cons_of_neg (by rw [hd]; decide)
    have hcons : (d :: b).filter (!Directive.isClose ·) = b.filter (!Directive.isClose ·) :=
      List.filter_cons_of_neg (by rw [hd]; decide)
    rw [List.filter_append, List.filter_append, List.filter_append, hnone, hcons, List.append_nil]

end Rearranged

/-! ## Taking a close token out -/

/-- What the search takes out of a tree is one close token of the name. -/
def TakesClosing (v : Vault) (name : List Char) (a : List (List Char)) (left : List Node) : Prop :=
  ∃ front back, a = front ++ Directive.closing name :: back ∧ Portable (Directive.closing name) ∧
    Directive.IsName name ∧ Holds v left (front ++ back)

/-- Around the place where the token was, everything stays. -/
theorem TakesClosing.among {name : List Char} {before after left : List Node}
    (hbefore : Holds v before x) (h : TakesClosing v name a left) (hafter : Holds v after y) :
    TakesClosing v name (x ++ (a ++ y)) (before ++ left ++ after) := by
  obtain ⟨front, back, rfl, hd, hname, hleft⟩ := h
  refine ⟨x ++ front, back ++ y, by simp, hd, hname, ?_⟩
  have hall := (hbefore.append hleft).append hafter
  simpa using hall

theorem holds_takeClosing {name : List Char} {n : Node} {left : Option Node}
    (hleft : n.takeClosing (some v) name = some left) (h : Holds v [n] a) :
    TakesClosing v name a left.toList := by
  refine Region.takeClosing_ok (T := fun n left => ∀ a, Holds v [n] a →
    TakesClosing v name a left.toList) ?_ ?_ n left hleft a h
  · intro s before after hcut a h
    obtain ⟨front, back, rfl, hd, hname, hrest⟩ := Directive.closing_of_woven h.of_text hcut
    refine ⟨front, back, rfl, hd, hname, ?_⟩
    have hstripped := hrest.stripRight Directive.placeholders_setAside.capped
    split
    · next hblank =>
      rw [hstripped.labels_eq_nil_of_blank Directive.placeholders_setAside.capped hblank]
      exact .nil
    · exact .single_text hstripped
  · intro tag attrs before c left after _ hleft a h
    obtain ⟨he, hvoid, hchildren⟩ := h.of_element
    obtain ⟨x, _, rfl, hbefore, hrest⟩ := hchildren.of_append
    obtain ⟨b, y, rfl, hc, hafter⟩ := hrest.of_cons
    obtain ⟨front, back, hab, hd, hname, hall⟩ := (hleft b hc).among hbefore hafter
    refine ⟨front, back, hab, hd, hname, ?_⟩
    split
    · next hblank =>
      rw [Bool.and_eq_true] at hblank
      rw [eq_nil_of_blank hall hblank.2]
      exact .nil
    · refine .single_element he (fun hv => ?_) hall
      -- a void element has no content to take a token from
      have hnil := hvoid hv
      rw [hab] at hnil
      simp at hnil

theorem holds_span? {name : List Char} {span after : List Node} (h : Holds v nodes ds)
    (hs : Region.span? (some v) name nodes = some (span, after)) :
    ∃ a b, ds = a ++ b ∧ TakesClosing v name a span ∧ Holds v after b := by
  obtain ⟨before, n, left, rfl, rfl, hleft⟩ := Region.span?_eq_some hs
  obtain ⟨x, _, rfl, hbefore, hrest⟩ := h.of_append
  obtain ⟨a, b, rfl, hn, hafter⟩ := hrest.of_cons
  have htaken := (holds_takeClosing hleft hn).among hbefore .nil
  rw [List.append_nil, List.append_nil] at htaken
  exact ⟨x ++ a, b, (List.append_assoc _ _ _).symm, htaken, hafter⟩

/-! ## Folding -/

/-- An open marker carries its open token alone. -/
theorem eq_head_of_openingMarker? {n : Node} {head name : List Char} (h : Holds v [n] a)
    (hm : n.openingMarker? (some v) = some (head, name)) : a = [head] := by
  obtain ⟨s, hs, rfl, hname⟩ := Region.openingMarker?_eq_some.1 hm
  have htext : Woven Plain (SetAside v) a s := by
    cases hs with
    | text => exact h.of_text
    | paragraph _ => exact h.of_element.2.2.of_text
  exact Directive.head_of_woven htext hname

theorem portable_of_holds (h : Holds v nodes ds) : ∀ d ∈ ds, Portable d := by
  induction h with
  | nil => exact fun d hd => absurd hd List.not_mem_nil
  | text h _ ih =>
    refine List.forall_mem_append.2 ⟨?_, ih⟩
    have hwritten : Woven Plain (Written v) _ _ := h.mono (fun _ hc => hc) fun _ _ => .inr
    exact Directive.portable_of_woven (Directive.expand_woven hwritten)
  | raw h _ ih =>
    exact List.forall_mem_append.2 ⟨Directive.portable_of_woven (Directive.expand_woven h), ih⟩
  | element _ _ _ _ ihchildren ih => exact List.forall_mem_append.2 ⟨ihchildren, ih⟩

theorem woven_region {head body name : List Char} (hhead : Portable head)
    (hclosing : Portable (Directive.closing name)) (h : Woven Plain (Written v) ds body) :
    Woven Plain (Written v) ([head] ++ ds ++ [Directive.closing name])
      (Directive.region head (strip body) name) := by
  have hopen : Woven Plain (Written v) [head] head := .of_unit (.inl ⟨rfl, hhead⟩)
  have hclose : Woven Plain (Written v) [Directive.closing name] (Directive.closing name) :=
    .of_unit (.inl ⟨rfl, hclosing⟩)
  exact (hopen.append (.char (by decide) (h.strip Directive.capped_written))).append
    (.char (by decide) hclose)

theorem holds_foldAmong {out : List Node} {depth : Nat} (h : Holds v nodes ds)
    (hout : (Region.foldAmong limit (some v) depth nodes).result = .ok out) :
    ∃ ds', Rearranged ds ds' ∧ Holds v out ds' := by
  refine Region.foldAmong_ok (S := fun nodes out => ∀ ds, Holds v nodes ds →
    ∃ ds', Rearranged ds ds' ∧ Holds v out ds') ?_ ?_ ?_ nodes depth out hout ds h
  · exact fun ds h => ⟨ds, .refl ds, h⟩
  · intro n rest others hothers ds h
    obtain ⟨a, b, rfl, ha, hb⟩ := h.of_cons
    obtain ⟨b', hb', hothers⟩ := hothers b hb
    exact ⟨a ++ b', (Rearranged.refl a).append hb', ha.append hothers⟩
  · intro n head name rest span after inner body others hm hs hinner hbody hothers ds h
    obtain ⟨a, _, rfl, ha, hrest⟩ := h.of_cons
    have hhead := portable_of_holds ha
    rw [eq_head_of_openingMarker? ha hm] at hhead ⊢
    obtain ⟨_, b, rfl, ⟨front, back, rfl, hclosing, hname, hspan⟩, hafter⟩ := holds_span? hrest hs
    obtain ⟨inside, hinside, hinner⟩ := hinner _ hspan
    obtain ⟨b', hb', hothers⟩ := hothers b hafter
    have hclose : Directive.isClose (Directive.closing name) = true := by
      rw [Directive.isClose, Directive.closeName?_closing hname]
      rfl
    refine ⟨[head] ++ inside ++ [Directive.closing name] ++ b', ?_, .raw ?_ hothers⟩
    · -- the close token goes behind the content, which is rearranged itself
      have hfold := (Rearranged.moved hclose front back).trans
        (hinside.append (.refl [Directive.closing name]))
      have hall := ((Rearranged.refl [head]).append hfold).append hb'
      simpa using hall
    · exact woven_region (hhead head List.mem_cons_self) hclosing (woven_printAll hinner hbody)

/-- Folding below nodes and among them rearranges. -/
theorem rearranged_cons {n first : Node} {rest others : List Node}
    (hfirst : ∀ a, Holds v [n] a → ∃ a', Rearranged a a' ∧ Holds v [first] a')
    (hothers : ∀ b, Holds v rest b → ∃ b', Rearranged b b' ∧ Holds v others b')
    (ds : List (List Char)) (h : Holds v (n :: rest) ds) :
    ∃ ds', Rearranged ds ds' ∧ Holds v (first :: others) ds' := by
  obtain ⟨a, b, rfl, ha, hb⟩ := h.of_cons
  obtain ⟨a', hra, hfirst⟩ := hfirst a ha
  obtain ⟨b', hrb, hothers⟩ := hothers b hb
  exact ⟨a' ++ b', hra.append hrb, hfirst.append hothers⟩

theorem holds_foldBelowAll {out : List Node} {depth : Nat} (h : Holds v nodes ds)
    (hout : (Region.foldBelowAll limit (some v) depth nodes).result = .ok out) :
    ∃ ds', Rearranged ds ds' ∧ Holds v out ds' := by
  refine Region.foldBelowAll_ok
    (R := fun n out => ∀ a, Holds v [n] a → ∃ a', Rearranged a a' ∧ Holds v [out] a')
    (S := fun nodes out => ∀ ds, Holds v nodes ds → ∃ ds', Rearranged ds ds' ∧ Holds v out ds')
    (fun ds h => ⟨ds, .refl ds, h⟩) (fun _ _ _ _ => rearranged_cons)
    (fun _ a h => ⟨a, .refl a, h⟩) (fun _ a h => ⟨a, .refl a, h⟩) (fun _ a h => ⟨a, .refl a, h⟩)
    ?_ hout ds h
  intro tag attrs children mapped depth folded hmapped hfolded a h
  obtain ⟨he, hvoid, hchildren⟩ := h.of_element
  obtain ⟨b, hb, hmapped⟩ := hmapped a hchildren
  obtain ⟨c, hc, hfolded⟩ := holds_foldAmong hmapped hfolded
  exact ⟨c, hb.trans hc,
    .single_element he (fun hv => (hb.trans hc).eq_nil (hvoid hv)) hfolded⟩

/-- Folding moves close tokens and nothing else. -/
theorem holds_foldAll {out : List Node} (h : Holds v nodes ds)
    (hout : (Region.foldAll limit (some v) nodes).result = .ok out) :
    ∃ ds', Rearranged ds ds' ∧ Holds v out ds' := by
  obtain ⟨mapped, hmapped, hfolded⟩ := Region.foldAll_eq_ok hout
  obtain ⟨b, hb, hholds⟩ := holds_foldBelowAll h hmapped
  obtain ⟨c, hc, hout⟩ := holds_foldAmong hholds hfolded
  exact ⟨c, hb.trans hc, hout⟩

end StorageMarkup
