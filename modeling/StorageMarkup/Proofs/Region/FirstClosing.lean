import StorageMarkup.Proofs.Tree.Success
import StorageMarkup.Proofs.Region.Closing

/-!
# The first close token

The search for a close token goes through the texts of a node that elements alone lead to,
in document order. It cuts the first token out of the first text that holds one; what
stands off the way to that text stays, and of the elements on the way only paragraphs
that hold nothing but blanks are dropped.

Results:
1. `cutFirstClosing_cuts`: the token that is cut out of a text is the first.
2. `takeClosing_eq_none_iff`: where the search finds nothing.
3. `leaves_within`, `Rebuilt.shown`: the leaves around a place.
4. `withoutClosing_first`: what the search leaves of a node.
-/

namespace StorageMarkup

variable {v : Option Vault} {name s t before after : List Char}

namespace Region

/-! ## Texts -/

/-- A close token for `name`, spelled out or as the placeholder of one that is set aside. -/
inductive ClosingToken (v : Option Vault) (name : List Char) : List Char → Prop
  | spelled : ClosingToken v name (Directive.closing name)
  | setAside {known : Vault} {number : Nat} {original : List Char} (hv : v = some known)
      (ho : known.originals[number]? = some original)
      (hc : Directive.closeName? original = some name) :
      ClosingToken v name (Vault.placeholder number)

/-- The text falls into what stands before and after a close token, and no close token starts
earlier. -/
structure CutsFirst (v : Option Vault) (name s before after : List Char) : Prop where
  token : ∃ token, ClosingToken v name token ∧ s = before ++ token ++ after
  first : ∀ token before' after', ClosingToken v name token → s = before' ++ token ++ after' →
    before.length ≤ before'.length

theorem holdsClosing_iff :
    HoldsClosing v name s ↔ ∃ token, ClosingToken v name token ∧ token <:+: s := by
  constructor
  · rintro (h | ⟨known, e, hv, he, hc⟩)
    · exact ⟨_, .spelled, h⟩
    · exact ⟨_, .setAside hv (known.original_of_mem_split he) hc, known.infix_of_mem_split he⟩
  · rintro ⟨token, htoken, hin⟩
    cases htoken with
    | spelled => exact .inl hin
    | @setAside known number original hv ho hc =>
      obtain ⟨a, b, rfl⟩ := hin
      obtain ⟨w, hw⟩ := Vault.placeholder_eq_cons number
      refine .inr ⟨known, ⟨number, original⟩, hv, ?_, hc⟩
      rw [List.append_assoc, hw, List.cons_append,
        known.split_append Vault.startMark_not_mem_tail, ← List.cons_append, ← hw,
        known.split_placeholder ho]
      simp

/-- Nothing is cut behind an occurrence. -/
theorem cutAt_le (needle a b : List Char) :
    ∃ cut, cutAt needle (a ++ needle ++ b) = some cut ∧ cut.1.length ≤ a.length := by
  induction a with
  | nil =>
    cases needle with
    | nil => cases b <;> exact ⟨_, rfl, Nat.le_refl _⟩
    | cons c needle =>
      have hp : (c :: needle).isPrefixOf (c :: (needle ++ b)) = true :=
        List.isPrefixOf_iff_prefix.2 (List.prefix_append (c :: needle) b)
      rw [List.nil_append, List.cons_append, cutAt, if_pos hp]
      exact ⟨_, rfl, Nat.le_refl _⟩
  | cons c a ih =>
    obtain ⟨cut, hcut, hle⟩ := ih
    rw [List.cons_append, List.cons_append, cutAt]
    split
    · exact ⟨_, rfl, Nat.zero_le _⟩
    · rw [hcut]
      exact ⟨_, rfl, Nat.succ_le_succ hle⟩

theorem cutHit_le {α : Type} (write : α → List Char) (wanted : α → Bool) {a : α}
    (ha : wanted a = true) (ps qs : List (Piece α)) :
    ∃ cut, cutHit write wanted (ps ++ .hit a :: qs) = some cut ∧
      cut.1.length ≤ (spell write ps).length := by
  induction ps with
  | nil =>
    rw [List.nil_append, cutHit, if_pos ha]
    exact ⟨_, rfl, Nat.le_refl _⟩
  | cons p ps ih =>
    obtain ⟨cut, hcut, hle⟩ := ih
    cases p with
    | char c =>
      rw [List.cons_append, cutHit, hcut]
      exact ⟨_, rfl, Nat.succ_le_succ hle⟩
    | hit b =>
      rw [List.cons_append, cutHit]
      split
      · exact ⟨_, rfl, Nat.zero_le _⟩
      · rw [hcut]
        refine ⟨_, rfl, ?_⟩
        rw [spell, List.length_append, List.length_append]
        exact Nat.add_le_add_left hle _

/-- Of the two cuts the earlier one is made. -/
theorem cutFirstClosing_le {cut other : List Char × List Char}
    (h : cutFirstClosing v name s = some cut)
    (ho : Directive.cutClosing name s = some other ∨ cutClosingPlaceholder v name s = some other) :
    cut.1.length ≤ other.1.length := by
  unfold cutFirstClosing at h
  split at h
  · next a b ha hb =>
    rw [ha, hb, Option.some.injEq, Option.some.injEq] at ho
    split at h
    · next hlt =>
      cases h
      rcases ho with rfl | rfl
      · exact Nat.le_of_lt hlt
      · exact Nat.le_refl _
    · next hlt =>
      cases h
      rcases ho with rfl | rfl
      · exact Nat.le_refl _
      · exact Nat.not_lt.1 hlt
  · next a ha hb =>
    cases h
    rw [ha, hb] at ho
    rcases ho with ho | ho
    · cases ho
      exact Nat.le_refl _
    · cases ho
  · next ha =>
    rw [ha, h] at ho
    rcases ho with ho | ho
    · cases ho
    · cases ho
      exact Nat.le_refl _

/-- The token that is cut out of a text is the first. -/
theorem cutFirstClosing_cuts (h : cutFirstClosing v name s = some (before, after)) :
    CutsFirst v name s before after where
  token := by
    rcases cutFirstClosing_eq_some h with hcut | hcut
    · exact ⟨_, .spelled, eq_of_cutAt hcut⟩
    · obtain ⟨known, hv, hcut⟩ := Option.bind_eq_some_iff.1 hcut
      obtain ⟨front, e, back, hps, hc, rfl, rfl⟩ := cutHit_eq_some hcut
      have he : .hit e ∈ known.split s := hps ▸ List.mem_append_right _ List.mem_cons_self
      refine ⟨_, .setAside hv (known.original_of_mem_split he) (of_decide_eq_true hc), ?_⟩
      rw [← known.spell_split s, hps, spell_append, spell, List.append_assoc]
      rfl
  first := by
    intro token before' after' htoken hs
    cases htoken with
    | spelled =>
      obtain ⟨cut, hcut, hle⟩ := cutAt_le (Directive.closing name) before' after'
      rw [← hs] at hcut
      exact Nat.le_trans (cutFirstClosing_le h (.inl hcut)) hle
    | @setAside known number original hv ho hc =>
      obtain ⟨w, hw⟩ := Vault.placeholder_eq_cons number
      have hsplit : known.split s =
          known.split before' ++ .hit ⟨number, original⟩ :: known.split after' := by
        rw [hs, List.append_assoc, hw, List.cons_append,
          known.split_append Vault.startMark_not_mem_tail, ← List.cons_append, ← hw,
          known.split_placeholder ho]
      let closes : Vault.Entry → Bool := fun e => Directive.closeName? e.original = some name
      have hcloses : closes ⟨number, original⟩ = true := decide_eq_true hc
      obtain ⟨cut, hcut, hle⟩ := cutHit_le Vault.Entry.placeholder closes hcloses
        (known.split before') (known.split after')
      rw [known.spell_split] at hle
      refine Nat.le_trans (cutFirstClosing_le h (.inr ?_)) hle
      rw [cutClosingPlaceholder, hv, Option.bind_some, hsplit]
      exact hcut

end Region

/-! ## The way to a text -/

/-- An element around a place among its children. -/
structure Surround where
  tag : List Char
  attributes : Attributes
  before : List Node
  after : List Node

namespace Surround

/-- The element with these nodes at the place. -/
def fill (e : Surround) (nodes : List Node) : Node :=
  .element e.tag e.attributes (e.before ++ nodes ++ e.after)

/-- A paragraph in which everything around the place is blank. -/
def IsSpent (e : Surround) : Prop :=
  isParagraph e.tag = true ∧ ∀ n ∈ e.before ++ e.after, n.isBlank = true

end Surround

namespace Node

/-- A node inside elements, the outermost first. -/
def within : List Surround → Node → Node
  | [], n => n
  | e :: path, n => e.fill [within path n]

/-- Elements alone lead from the node to a text. -/
def LeadsTo (n : Node) (s : List Char) : Prop := ∃ path, n = within path (.text s)

mutual

/-- The texts and the pieces of final output at and below a node, in document order. -/
def leaves : Node → List Node
  | .text s => [.text s]
  | .raw s => [.raw s]
  | .element _ _ children => leavesOf children
  | .root children => leavesOf children

def leavesOf : List Node → List Node
  | [] => []
  | n :: rest => n.leaves ++ leavesOf rest

end

/-- The leaves before a place, those of the outermost element first. -/
def leavesBefore (path : List Surround) : List Node := leavesOf (path.flatMap (·.before))

/-- The leaves after a place, those of the innermost element first. -/
def leavesAfter (path : List Surround) : List Node := leavesOf (path.reverse.flatMap (·.after))

/-- What is not white space between elements. -/
def shown (nodes : List Node) : List Node := nodes.filter (!·.isBlank)

/-- Whether a node holds a close token for `name`, and what stands in its place without the first
one. -/
def withoutClosing (v : Option Vault) (name : List Char) (n : Node) : Bool × Option Node :=
  match n.takeClosing v name with
  | some left => (true, left)
  | none => (false, some n)

end Node

/-- What is left of a node when the text at the end of the way gives way to `t`. A blank `t` goes
altogether, and with it the paragraphs around it that are spent, up to the first other element. -/
inductive Rebuilt (t : List Char) : List Surround → Option Node → Prop
  | changed (path : List Surround) (ht : isBlank t = false) :
      Rebuilt t path (some (Node.within path (.text t)))
  | emptied (outer : List Surround) (e : Surround) (spent : List Surround) (ht : isBlank t = true)
      (he : ¬ e.IsSpent) (h : ∀ p ∈ spent, p.IsSpent) :
      Rebuilt t (outer ++ e :: spent) (some (Node.within outer (e.fill [])))
  | gone (spent : List Surround) (ht : isBlank t = true) (h : ∀ p ∈ spent, p.IsSpent) :
      Rebuilt t spent none

namespace Node

variable {n : Node} {path : List Surround}

theorem leavesOf_append (a b : List Node) : leavesOf (a ++ b) = leavesOf a ++ leavesOf b := by
  induction a with
  | nil => rfl
  | cons n a ih => rw [List.cons_append, leavesOf, leavesOf, ih, List.append_assoc]

theorem leaves_fill (e : Surround) (nodes : List Node) :
    (e.fill nodes).leaves = leavesOf e.before ++ leavesOf nodes ++ leavesOf e.after := by
  rw [Surround.fill, leaves, leavesOf_append, leavesOf_append]

theorem leavesBefore_append (a b : List Surround) :
    leavesBefore (a ++ b) = leavesBefore a ++ leavesBefore b := by
  rw [leavesBefore, List.flatMap_append, leavesOf_append, leavesBefore, leavesBefore]

theorem leavesAfter_append (a b : List Surround) :
    leavesAfter (a ++ b) = leavesAfter b ++ leavesAfter a := by
  rw [leavesAfter, List.reverse_append, List.flatMap_append, leavesOf_append, leavesAfter,
    leavesAfter]

theorem leavesBefore_singleton (e : Surround) : leavesBefore [e] = leavesOf e.before := by
  simp [leavesBefore]

theorem leavesAfter_singleton (e : Surround) : leavesAfter [e] = leavesOf e.after := by
  simp [leavesAfter]

/-- The leaves of a node around those at a place in it. -/
theorem leaves_within (path : List Surround) (n : Node) :
    (within path n).leaves = leavesBefore path ++ n.leaves ++ leavesAfter path := by
  induction path with
  | nil =>
    show n.leaves = [] ++ n.leaves ++ []
    rw [List.nil_append, List.append_nil]
  | cons e path ih =>
    have hcons : e :: path = [e] ++ path := rfl
    rw [within, leaves_fill, leavesOf, leavesOf, ih, hcons, leavesBefore_append,
      leavesAfter_append, leavesBefore_singleton, leavesAfter_singleton]
    simp only [List.append_assoc, List.append_nil]

theorem shown_append (a b : List Node) : shown (a ++ b) = shown a ++ shown b :=
  List.filter_append _ _

/-- A blank node is a leaf, and it is not shown. -/
theorem shown_leaves_of_blank (h : n.isBlank = true) : shown n.leaves = [] := by
  cases n with
  | text s =>
    rw [leaves, shown, List.filter_cons_of_neg (by simp [h]), List.filter_nil]
  | raw | element | root => cases h

theorem shown_leavesOf_of_blank {nodes : List Node} (h : ∀ n ∈ nodes, n.isBlank = true) :
    shown (leavesOf nodes) = [] := by
  induction nodes with
  | nil => rfl
  | cons n nodes ih =>
    rw [List.forall_mem_cons] at h
    rw [leavesOf, shown_append, shown_leaves_of_blank h.1, ih h.2, List.append_nil]

theorem shown_around_spent {spent : List Surround} (h : ∀ p ∈ spent, p.IsSpent) :
    shown (leavesBefore spent) = [] ∧ shown (leavesAfter spent) = [] := by
  constructor
  · refine shown_leavesOf_of_blank fun n hn => ?_
    obtain ⟨p, hp, hn⟩ := List.mem_flatMap.1 hn
    exact (h p hp).2 n (List.mem_append_left _ hn)
  · refine shown_leavesOf_of_blank fun n hn => ?_
    obtain ⟨p, hp, hn⟩ := List.mem_flatMap.1 hn
    exact (h p (List.mem_reverse.1 hp)).2 n (List.mem_append_right _ hn)

end Node

/-- The leaves of what is left are those before and after the text, with `t` between them. -/
theorem Rebuilt.shown {path : List Surround} {left : Option Node} (h : Rebuilt t path left) :
    Node.shown (Node.leavesOf left.toList) =
      Node.shown (Node.leavesBefore path ++ .text t :: Node.leavesAfter path) := by
  have hgone : isBlank t = true → Node.shown [.text t] = [] := fun ht =>
    Node.shown_leaves_of_blank (n := .text t) ht
  rw [← List.singleton_append, Node.shown_append, Node.shown_append]
  cases h with
  | changed path ht =>
    rw [Option.toList_some, Node.leavesOf, Node.leavesOf, List.append_nil, Node.leaves_within,
      Node.shown_append, Node.shown_append, List.append_assoc]
    rfl
  | emptied outer e spent ht he hspent =>
    obtain ⟨hbefore, hafter⟩ := Node.shown_around_spent hspent
    have hcons : e :: spent = [e] ++ spent := rfl
    rw [Option.toList_some, Node.leavesOf, Node.leavesOf, List.append_nil, Node.leaves_within,
      Node.leaves_fill, hcons, Node.leavesBefore_append, Node.leavesBefore_append,
      Node.leavesAfter_append, Node.leavesAfter_append, Node.leavesBefore_singleton,
      Node.leavesAfter_singleton]
    simp only [Node.shown_append, hbefore, hafter, hgone ht, Node.leavesOf, List.append_assoc,
      List.append_nil, List.nil_append]
  | gone spent ht hspent =>
    obtain ⟨hbefore, hafter⟩ := Node.shown_around_spent hspent
    rw [hbefore, hafter, hgone ht]
    rfl

/-- One element more around what is left: it is dropped just in case it is spent and nothing is left
at its place. -/
theorem Rebuilt.cons {path : List Surround} {left : Option Node} (h : Rebuilt t path left)
    (e : Surround) :
    Rebuilt t (e :: path)
      (if isParagraph e.tag && (e.before ++ left.toList ++ e.after).all Node.isBlank then none
        else some (e.fill left.toList)) := by
  have hkept : ∀ m : Node, m.isBlank = false →
      (isParagraph e.tag && (e.before ++ [m] ++ e.after).all Node.isBlank) = false := by
    intro m hm
    simp [hm]
  cases h with
  | changed path ht =>
    have hblank : (Node.within path (.text t)).isBlank = false := by
      cases path with
      | nil => exact ht
      | cons p path => rfl
    rw [Option.toList_some, hkept _ hblank]
    exact .changed (e :: path) ht
  | emptied outer p spent ht hp hspent =>
    have hblank : (Node.within outer (p.fill [])).isBlank = false := by
      cases outer with
      | nil => rfl
      | cons q outer => rfl
    rw [Option.toList_some, hkept _ hblank]
    exact .emptied (e :: outer) p spent ht hp hspent
  | gone spent ht hspent =>
    rw [Option.toList_none, List.append_nil]
    split
    · next hall =>
      rw [Bool.and_eq_true, List.all_eq_true] at hall
      exact .gone (e :: path) ht (List.forall_mem_cons.2 ⟨hall, hspent⟩)
    · next hall =>
      rw [Bool.and_eq_true, List.all_eq_true] at hall
      exact .emptied [] e path ht hall hspent

/-! ## The search -/

namespace Region

variable {n : Node}

theorem takeClosingAmong_eq_none_iff {nodes : List Node} :
    Node.takeClosingAmong v name nodes = none ↔ ∀ n ∈ nodes, n.takeClosing v name = none := by
  refine ⟨fun h n hn => ?_, takeClosingAmong_eq_none⟩
  induction nodes with
  | nil => exact absurd hn List.not_mem_nil
  | cons m nodes ih =>
    rw [Node.takeClosingAmong] at h
    split at h
    · cases h
    · next hm =>
      rcases List.mem_cons.1 hn with rfl | hn
      · exact hm
      · exact ih (Option.map_eq_none_iff.1 h) hn

theorem takeClosing_text_eq_none_iff :
    Node.takeClosing v name (.text s) = none ↔ ¬ HoldsClosing v name s := by
  rw [Node.takeClosing, Option.map_eq_none_iff, cutFirstClosing_eq_none]

/-- A token in a text that elements lead to is found. -/
theorem takeClosing_within_ne_none (h : HoldsClosing v name s) (path : List Surround) :
    (Node.within path (.text s)).takeClosing v name ≠ none := by
  induction path with
  | nil => exact fun hnone => takeClosing_text_eq_none_iff.1 hnone h
  | cons e path ih =>
    rw [Node.within, Surround.fill, Node.takeClosing, Ne, Option.map_eq_none_iff,
      takeClosingAmong_eq_none_iff]
    exact fun hnone => ih (hnone _ (by simp))

/-- What the search comes to, if it finds a token: the way to the first text that holds one, the two
sides of the first one there, and the node built again without it. -/
theorem exists_path_of_takeClosing {left : Option Node} (h : n.takeClosing v name = some left) :
    ∃ path s before after, n = Node.within path (.text s) ∧
      (∀ e ∈ path, ∀ m ∈ e.before, m.takeClosing v name = none) ∧
      cutFirstClosing v name s = some (before, after) ∧
      Rebuilt (stripRight (before ++ after)) path left := by
  refine takeClosing_ok (T := fun n left => ∃ path s before after,
    n = Node.within path (.text s) ∧ (∀ e ∈ path, ∀ m ∈ e.before, m.takeClosing v name = none) ∧
    cutFirstClosing v name s = some (before, after) ∧
    Rebuilt (stripRight (before ++ after)) path left) ?_ ?_ n left h
  · intro s before after hcut
    refine ⟨[], s, before, after, rfl, fun _ he => absurd he List.not_mem_nil, hcut, ?_⟩
    split
    · next ht => exact .gone [] ht fun _ he => absurd he List.not_mem_nil
    · next ht => exact .changed [] (Bool.eq_false_iff.2 ht)
  · rintro tag attrs front c left back hfront ⟨path, s, before, after, rfl, hpath, hcut, hleft⟩
    refine ⟨⟨tag, attrs, front, back⟩ :: path, s, before, after, ?_,
      List.forall_mem_cons.2 ⟨hfront, hpath⟩, hcut, hleft.cons ⟨tag, attrs, front, back⟩⟩
    rw [Node.within, Surround.fill, List.append_assoc, List.singleton_append]

/-- The search comes back empty just where no text that elements lead to holds a token. -/
theorem takeClosing_eq_none_iff :
    n.takeClosing v name = none ↔ ∀ s, n.LeadsTo s → ¬ HoldsClosing v name s := by
  constructor
  · rintro hnone s ⟨path, rfl⟩ hs
    exact takeClosing_within_ne_none hs path hnone
  · intro h
    cases hleft : n.takeClosing v name with
    | none => rfl
    | some left =>
      obtain ⟨path, s, before, after, rfl, -, hcut, -⟩ := exists_path_of_takeClosing hleft
      rw [cutFirstClosing_eq_none.2 (h s ⟨path, rfl⟩)] at hcut
      cases hcut

end Region

open Region

/-- A close token is found just in case a text that elements alone lead to holds one. -/
theorem withoutClosing_found_iff {v : Option Vault} {name : List Char} {n : Node} :
    (n.withoutClosing v name).1 = true ↔
      ∃ s token, n.LeadsTo s ∧ ClosingToken v name token ∧ token <:+: s := by
  have hnone : n.takeClosing v name = none ↔
      ¬ ∃ s token, n.LeadsTo s ∧ ClosingToken v name token ∧ token <:+: s := by
    rw [takeClosing_eq_none_iff]
    constructor
    · rintro h ⟨s, token, hs, htoken, hin⟩
      exact h s hs (holdsClosing_iff.2 ⟨token, htoken, hin⟩)
    · intro h s hs hholds
      obtain ⟨token, htoken, hin⟩ := holdsClosing_iff.1 hholds
      exact h ⟨s, token, hs, htoken, hin⟩
  rw [Node.withoutClosing]
  cases hleft : n.takeClosing v name with
  | none => exact ⟨fun h => absurd h Bool.false_ne_true, fun h => absurd h (hnone.1 hleft)⟩
  | some left =>
    refine ⟨fun _ => Classical.byContradiction fun h => ?_, fun _ => rfl⟩
    rw [hnone.2 h] at hleft
    cases hleft

/-- The search finds a close token just in case a text that elements alone lead to holds one,
spelled out or set aside; a node without one stays. Else the first such text, in document order,
loses the first token in it and the white space at its end. Nothing off the way to it changes, and
the leaves but for blanks are the same before and after it; an element on the way goes only if it
is a paragraph with nothing else than blanks left. -/
theorem withoutClosing_first (v : Option Vault) (name : List Char) (n : Node) :
    ((n.withoutClosing v name).1 = true ↔
      ∃ s token, n.LeadsTo s ∧ ClosingToken v name token ∧ token <:+: s) ∧
    ((n.withoutClosing v name).1 = false → (n.withoutClosing v name).2 = some n) ∧
    ((n.withoutClosing v name).1 = true → ∃ path s before after,
      n = Node.within path (.text s) ∧
      (∀ e ∈ path, ∀ m ∈ e.before, ∀ t, m.LeadsTo t →
        ∀ token, ClosingToken v name token → ¬ token <:+: t) ∧
      CutsFirst v name s before after ∧
      n.leaves = Node.leavesBefore path ++ .text s :: Node.leavesAfter path ∧
      Node.shown (Node.leavesOf (n.withoutClosing v name).2.toList) =
        Node.shown (Node.leavesBefore path ++
          .text (stripRight (before ++ after)) :: Node.leavesAfter path) ∧
      Rebuilt (stripRight (before ++ after)) path (n.withoutClosing v name).2) := by
  refine ⟨withoutClosing_found_iff, ?_⟩
  unfold Node.withoutClosing
  cases hleft : n.takeClosing v name with
  | none => exact ⟨fun _ => rfl, fun h => absurd h Bool.false_ne_true⟩
  | some left =>
    refine ⟨fun h => absurd h.symm Bool.false_ne_true, fun _ => ?_⟩
    obtain ⟨path, s, before, after, rfl, hfirst, hcut, hrebuilt⟩ :=
      exists_path_of_takeClosing hleft
    refine ⟨path, s, before, after, rfl, ?_, cutFirstClosing_cuts hcut, ?_, hrebuilt.shown,
      hrebuilt⟩
    · intro e he m hm t ht token htoken hin
      exact takeClosing_eq_none_iff.1 (hfirst e he m hm) t ht
        (holdsClosing_iff.2 ⟨token, htoken, hin⟩)
    · rw [Node.leaves_within, List.append_assoc]
      rfl

/-- The first token of a list item is a placeholder in a paragraph of its own; the paragraph goes,
and the token spelled out after it stays. No token of another name is found. -/
theorem withoutClosing_first_paragraph :
    let known : Vault := ⟨["\x7b\x7b/x\x7d\x7d".toList]⟩
    let item (children : List Node) : Node := .element "li".toList [] children
    let rest : Node := .text "\x7b\x7b/x\x7d\x7d three".toList
    let n := item [.text "two".toList, .element ['p'] [] [.text [' '], .text (Vault.placeholder 0)],
      rest]
    let left := item [.text "two".toList, rest]
    (n.withoutClosing (some known) ['x'] = (true, some left) ∧ ∃ path s before after,
      n = Node.within path (.text s) ∧ CutsFirst (some known) ['x'] s before after ∧
      Node.shown left.leaves = Node.shown (Node.leavesBefore path ++
        .text (stripRight (before ++ after)) :: Node.leavesAfter path) ∧
      Rebuilt (stripRight (before ++ after)) path (some left)) ∧
    (n.withoutClosing (some known) ['y']).1 = false ∧
      (n.withoutClosing (some known) ['y']).2 = some n := by
  intro known item rest n left
  have hrun : n.withoutClosing (some known) ['x'] = (true, some left) := rfl
  have hnone : (n.withoutClosing (some known) ['y']).1 = false := rfl
  obtain ⟨-, -, hfound⟩ := withoutClosing_first (some known) ['x'] n
  obtain ⟨-, hkept, -⟩ := withoutClosing_first (some known) ['y'] n
  obtain ⟨path, s, before, after, hn, -, hcut, -, hshown, hrebuilt⟩ := hfound (by rw [hrun])
  rw [hrun] at hshown hrebuilt
  rw [Option.toList_some, Node.leavesOf, Node.leavesOf, List.append_nil] at hshown
  exact ⟨⟨hrun, path, s, before, after, hn, hcut, hshown, hrebuilt⟩, hnone, hkept hnone⟩

end StorageMarkup
