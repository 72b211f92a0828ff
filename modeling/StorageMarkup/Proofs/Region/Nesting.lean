import StorageMarkup.Proofs.Tree.Heights

/-!
# Regions too deep

A region inside `depth` elements and regions is on level `depth + 1`, and folding checks
the level of each region that it meets. The elements are no higher than the limit if the
tree is not, and neither is anything that is written. So one level too much is all that
folding can run into, and it takes a region for that.

Results:
1. `RegionAmong`, `RegionIn`: a region that folding meets, and its level.
2. `RegionAmong.le`, `RegionIn.le`: what is folded is within the limit.
3. `foldAmong_ends`, `foldBelow_ends`: what is not folded holds a region one level too deep.
4. `foldAll_tooDeep_iff`: the two together.
5. `not_regionIn`: a tree without open tokens holds no region.
-/

namespace StorageMarkup

variable {α β : Type} {limit : Limit} {m : Int} {P Q : Prop}

/-! ## One level too much -/

/-- The computation succeeds, or it is refused for one level too much, and then `P` holds. -/
def Ends (limit : Limit) (m : Int) (x : Except Failure α) (P : Prop) : Prop :=
  (∃ a, x = .ok a) ∨ x = .error (.tooDeep (m + 1) limit) ∧ P

namespace Ends

theorem ok (a : α) : Ends limit m (.ok a) P := .inl ⟨a, rfl⟩

theorem mono {x : Except Failure α} (h : Ends limit m x P) (hPQ : P → Q) : Ends limit m x Q :=
  h.imp_right fun ⟨hx, hp⟩ => ⟨hx, hPQ hp⟩

theorem bind {x : Except Failure α} {f : α → Except Failure β} (hx : Ends limit m x P)
    (hf : ∀ a, x = .ok a → Ends limit m (f a) P) : Ends limit m (x >>= f) P := by
  rcases hx with ⟨a, rfl⟩ | ⟨rfl, hp⟩
  · exact hf a rfl
  · exact .inr ⟨rfl, hp⟩

theorem bindTraced {x : Traced α} {f : α → Traced β} (hx : Ends limit m x.result P)
    (hf : ∀ a, x.result = .ok a → Ends limit m (f a).result P) :
    Ends limit m (x >>= f).result P := by
  rw [Traced.result_bind]
  exact hx.bind hf

/-- Where the computation is refused exactly if `P` holds. -/
theorem tooDeep_iff {x : Except Failure α} (hx : Ends limit m x P) (hok : ∀ a, x = .ok a → ¬ P)
    {d : Int} {l : Limit} : x = .error (.tooDeep d l) ↔ l = limit ∧ d = m + 1 ∧ P := by
  constructor
  · rintro rfl
    rcases hx with ⟨a, ha⟩ | ⟨he, hp⟩
    · cases ha
    · cases he
      exact ⟨rfl, rfl, hp⟩
  · rintro ⟨rfl, rfl, hp⟩
    rcases hx with ⟨a, rfl⟩ | ⟨he, -⟩
    · exact absurd hp (hok a rfl)
    · exact he

end Ends

theorem le_of_withinLimit {depth : Int} (hm : limit.levels? = some m)
    (h : withinLimit depth limit = .ok ()) : depth ≤ m := by
  refine Int.not_lt.1 fun hlt => ?_
  rw [withinLimit_error hm hlt] at h
  cases h

/-- A level below an allowed one is allowed too, or it is the first that is not. -/
theorem ends_withinLimit {depth : Int} (hm : limit.levels? = some m) (hdepth : depth ≤ m) :
    Ends limit m (withinLimit (depth + 1) limit) (depth + 1 = m + 1) := by
  rcases Int.le_iff_lt_or_eq.1 hdepth with hlt | rfl
  · rw [withinLimit_ok hm (Int.add_one_le_iff.2 hlt)]
    exact .ok ()
  · exact .inr ⟨withinLimit_error hm (Int.lt_succ depth), rfl⟩

namespace Region

open Node

variable {v : Option Vault} {depth : Nat} {nodes out : List Node} {level : Int}

/-- Folding neighbours that `depth` elements and regions are around meets a region on this
level. -/
inductive RegionAmong (v : Option Vault) : Nat → List Node → Int → Prop
  | here {depth : Nat} {n : Node} {head name : List Char} {rest span after : List Node}
      (hn : n.openingMarker? v = some (head, name)) (hs : span? v name rest = some (span, after)) :
      RegionAmong v depth (n :: rest) (depth + 1)
  | inside {depth : Nat} {n : Node} {head name : List Char} {rest span after : List Node}
      {level : Int} (hn : n.openingMarker? v = some (head, name))
      (hs : span? v name rest = some (span, after)) (h : RegionAmong v (depth + 1) span level) :
      RegionAmong v depth (n :: rest) level
  | after {depth : Nat} {n : Node} {head name : List Char} {rest span after : List Node}
      {level : Int} (hn : n.openingMarker? v = some (head, name))
      (hs : span? v name rest = some (span, after)) (h : RegionAmong v depth after level) :
      RegionAmong v depth (n :: rest) level
  | content {depth : Nat} {n : Node} {rest : List Node} {level : Int}
      (hn : n.openingMarker? v = none) (h : RegionAmong v depth rest level) :
      RegionAmong v depth (n :: rest) level
  | unclosed {depth : Nat} {n : Node} {head name : List Char} {rest : List Node} {level : Int}
      (hn : n.openingMarker? v = some (head, name)) (hs : span? v name rest = none)
      (h : RegionAmong v depth rest level) : RegionAmong v depth (n :: rest) level

/-- The same for neighbours and all that is below them: the region is among the children of an
element however deep, or among the neighbours once the regions below them are folded. -/
inductive RegionIn (limit : Limit) (v : Option Vault) : Nat → List Node → Int → Prop
  | among {depth : Nat} {nodes mapped : List Node} {level : Int}
      (hmapped : (foldBelowAll limit v depth nodes).result = .ok mapped)
      (h : RegionAmong v depth mapped level) : RegionIn limit v depth nodes level
  | deeper {depth : Nat} {nodes children : List Node} {tag : List Char} {attrs : Attributes}
      {level : Int} (hn : .element tag attrs children ∈ nodes)
      (h : RegionIn limit v (depth + 1) children level) : RegionIn limit v depth nodes level

/-! ## Trees without regions -/

variable {E : List Char → Attributes → Prop}

theorem not_regionAmong (h : ∀ n ∈ nodes, n.openingMarker? v = none) :
    ¬ RegionAmong v depth nodes level := by
  intro hr
  induction hr with
  | here hn | inside hn | after hn | unclosed hn =>
    rw [h _ List.mem_cons_self] at hn
    cases hn
  | content _ _ ih => exact ih fun n hn => h n (List.mem_cons_of_mem _ hn)

/-- Where no text stands for an open token, there is no region, however deep. -/
theorem not_regionIn (h : ∀ n ∈ nodes, n.Each (StartsNoRegion v) E) :
    ¬ RegionIn limit v depth nodes level := by
  intro hr
  induction hr with
  | among hmapped hr =>
    exact not_regionAmong (fun n hn => openingMarker?_eq_none (each_foldBelowAll hmapped h n hn)) hr
  | deeper hn _ ih => exact ih (h _ hn).of_element.2

/-! ## What is folded -/

theorem RegionAmong.le (hm : limit.levels? = some m) (h : RegionAmong v depth nodes level)
    (hout : (foldAmong limit v depth nodes).result = .ok out) : level ≤ m := by
  induction h generalizing out with
  | here hn hs =>
    rw [foldAmong_region hn hs] at hout
    obtain ⟨_, hlimit, -⟩ := Traced.bind_eq_ok.1 hout
    exact le_of_withinLimit hm hlimit
  | inside hn hs _ ih =>
    rw [foldAmong_region hn hs] at hout
    obtain ⟨_, -, hout⟩ := Traced.bind_eq_ok.1 hout
    obtain ⟨inner, hinner, -⟩ := Traced.bind_eq_ok.1 hout
    exact ih hinner
  | after hn hs _ ih =>
    rw [foldAmong_region hn hs] at hout
    obtain ⟨_, -, hout⟩ := Traced.bind_eq_ok.1 hout
    obtain ⟨inner, -, hout⟩ := Traced.bind_eq_ok.1 hout
    obtain ⟨body, -, hout⟩ := Traced.bind_eq_ok.1 hout
    obtain ⟨_, -, hout⟩ := Traced.bind_eq_ok.1 hout
    obtain ⟨others, hothers, -⟩ := Traced.bind_eq_ok.1 hout
    exact ih hothers
  | content hn _ ih =>
    rw [foldAmong_content hn] at hout
    obtain ⟨others, hothers, -⟩ := Traced.bind_eq_ok.1 hout
    exact ih hothers
  | unclosed hn hs _ ih =>
    rw [foldAmong_unclosed hn hs] at hout
    obtain ⟨_, -, hout⟩ := Traced.bind_eq_ok.1 hout
    obtain ⟨others, hothers, -⟩ := Traced.bind_eq_ok.1 hout
    exact ih hothers

theorem exists_folded_of_mem {n : Node} (hn : n ∈ nodes)
    (hout : (foldBelowAll limit v depth nodes).result = .ok out) :
    ∃ folded, (foldBelow limit v depth n).result = .ok folded := by
  induction nodes generalizing out with
  | nil => exact absurd hn List.not_mem_nil
  | cons k nodes ih =>
    rw [foldBelowAll] at hout
    obtain ⟨first, hfirst, hout⟩ := Traced.bind_eq_ok.1 hout
    obtain ⟨others, hothers, -⟩ := Traced.bind_eq_ok.1 hout
    rcases List.mem_cons.1 hn with rfl | hn
    · exact ⟨first, hfirst⟩
    · exact ih hn hothers

theorem RegionIn.le (hm : limit.levels? = some m) (h : RegionIn limit v depth nodes level)
    {mapped : List Node} (hmapped : (foldBelowAll limit v depth nodes).result = .ok mapped)
    (hout : (foldAmong limit v depth mapped).result = .ok out) : level ≤ m := by
  induction h generalizing mapped out with
  | among hmapped' h =>
    cases hmapped.symm.trans hmapped'
    exact h.le hm hout
  | deeper hn _ ih =>
    obtain ⟨folded, hfolded⟩ := exists_folded_of_mem hn hmapped
    rw [foldBelow] at hfolded
    obtain ⟨_, -, hfolded⟩ := Traced.bind_eq_ok.1 hfolded
    obtain ⟨inner, hinner, hfolded⟩ := Traced.bind_eq_ok.1 hfolded
    obtain ⟨children, hchildren, -⟩ := Traced.bind_eq_ok.1 hfolded
    exact ih hinner hchildren

/-! ## What is not folded -/

/-- The scan over neighbours writes nothing too high, so only the level of a region stops it. -/
theorem foldAmong_ends (hm : limit.levels? = some m) (nodes : List Node) : ∀ {depth : Nat},
    (heightOf nodes : Int) ≤ m → (depth : Int) ≤ m →
      Ends limit m (foldAmong limit v depth nodes).result (RegionAmong v depth nodes (m + 1)) := by
  induction hlen : nodes.length using Nat.strongRecOn generalizing nodes with
  | ind k ih =>
    intro depth hheight hdepth
    cases nodes with
    | nil =>
      rw [foldAmong_nil]
      exact .ok []
    | cons n rest =>
      rw [List.length_cons] at hlen
      have hrest : (heightOf rest : Int) ≤ m := by
        rw [heightOf] at hheight
        omega
      cases hn : n.openingMarker? v with
      | none =>
        rw [foldAmong_content hn]
        refine .bindTraced ?_ fun others _ => .ok _
        exact (ih rest.length (by omega) rest rfl hrest hdepth).mono (.content hn)
      | some marker =>
        obtain ⟨head, name⟩ := marker
        cases hs : span? v name rest with
        | none =>
          rw [foldAmong_unclosed hn hs]
          refine .bindTraced (.ok _) fun _ _ => .bindTraced ?_ fun others _ => .ok _
          exact (ih rest.length (by omega) rest rfl hrest hdepth).mono (.unclosed hn hs)
        | some found =>
          obtain ⟨span, after⟩ := found
          -- both recursive calls are for fewer nodes, and none of them is higher
          have hshort := span?_length hs
          obtain ⟨hspan, hafter⟩ := heightOf_span? hs
          rw [foldAmong_region hn hs]
          refine .bindTraced ((ends_withinLimit hm hdepth).mono fun he => he ▸ .here hn hs)
            fun _ hlimit => .bindTraced ?_ fun inner hinner => .bindTraced ?_ fun body _ =>
              .bindTraced (.ok _) fun _ _ => .bindTraced ?_ fun others _ => .ok _
          · exact (ih span.length (by omega) span rfl (by omega)
              (by exact_mod_cast le_of_withinLimit hm hlimit)).mono (.inside hn hs)
          · have hbody := (folds_of_foldAmong span hinner).heightOf_le
            exact .inl (printAll_ok hm (by omega))
          · exact (ih after.length (by omega) after rfl (by omega) hdepth).mono (.after hn hs)

theorem foldBelowAll_ends_of_each
    (h : ∀ n ∈ nodes, Ends limit m (foldBelow limit v depth n).result P) :
    Ends limit m (foldBelowAll limit v depth nodes).result P := by
  induction nodes with
  | nil => exact .ok []
  | cons n nodes ih =>
    rw [List.forall_mem_cons] at h
    rw [foldBelowAll]
    exact h.1.bindTraced fun first _ => (ih h.2).bindTraced fun others _ => .ok _

/-- An element no deeper than allowed is gone into, so it takes a region inside it to stop. -/
theorem foldBelow_ends (hm : limit.levels? = some m) (n : Node) : ∀ {depth : Nat}
    {nodes : List Node}, n ∈ nodes → ((depth + n.height : Nat) : Int) ≤ m →
      Ends limit m (foldBelow limit v depth n).result (RegionIn limit v depth nodes (m + 1)) := by
  induction n using Node.induct with
  | text s => exact fun _ _ => .ok _
  | raw s => exact fun _ _ => .ok _
  | root children => exact fun _ _ => .ok _
  | element tag attrs children ih =>
    intro depth nodes hn hheight
    rw [height] at hheight
    have hlimit : withinLimit (depth + 1) limit = .ok () := withinLimit_ok hm (by omega)
    rw [foldBelow, hlimit, Traced.lift_ok_bind]
    refine Ends.mono (P := RegionIn limit v (depth + 1) children (m + 1)) ?_ (.deeper hn)
    refine .bindTraced ?_ fun mapped hmapped => .bindTraced ?_ fun folded _ => .ok _
    · refine foldBelowAll_ends_of_each fun c hc => ih c hc hc ?_
      have := height_le_heightOf hc
      omega
    · have hlow := heightOf_foldBelowAll hmapped
      exact (foldAmong_ends hm mapped (by omega) (by omega)).mono (.among hmapped)

/-- Folding a tree within the limit is refused just in case it meets a region one level deeper than
allowed. -/
theorem foldAll_tooDeep_iff (hm : limit.levels? = some m) (hheight : (heightOf nodes : Int) ≤ m)
    {d : Int} {l : Limit} : (foldAll limit v nodes).result = .error (.tooDeep d l) ↔
      l = limit ∧ d = m + 1 ∧ RegionIn limit v 0 nodes (m + 1) := by
  refine Ends.tooDeep_iff ?_ fun out hout h => ?_
  · have hlimit : withinLimit 0 limit = .ok () := withinLimit_ok hm (by omega)
    rw [foldAll, hlimit, Traced.lift_ok_bind]
    refine .bindTraced ?_ fun mapped hmapped => ?_
    · refine foldBelowAll_ends_of_each fun n hn => foldBelow_ends hm n hn ?_
      have := height_le_heightOf hn
      omega
    · have hlow := heightOf_foldBelowAll hmapped
      exact (foldAmong_ends hm mapped (by omega) (by omega)).mono (.among hmapped)
  · obtain ⟨mapped, hmapped, hfolded⟩ := foldAll_eq_ok hout
    have := h.le hm hmapped hfolded
    omega

end Region

end StorageMarkup
