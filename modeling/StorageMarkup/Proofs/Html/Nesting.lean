import StorageMarkup.Proofs.Html.Canonical

/-!
# The depth check of the reader

The reader counts lists of children, the outermost being the first level; a conversion counts
elements. Every element has a list of children, which is one level deeper than the element itself
even if it is empty. So a limit allows the reader one element fewer than it allows a conversion.

Results:
1. `parse_forall`: induction over the nodes that markup denotes.
2. `checkNode_eq`, `checkNodes_eq`: the check of all lists of children, by the height.
3. `read_eq`: markup is read as the tree it denotes, or refused in one way.
4. `read_refuses_at_limit`: the reader's check beside that of a conversion.
5. `read_refuses_allowed`: a paragraph where one level is allowed.
-/

namespace StorageMarkup.Html

open Node

variable {limit : Limit} {m : Int} {nodes : List Node} {markup : List Char}

/-! ## What markup denotes -/

/-- All nodes that a builder holds so far have the property. -/
structure Builder.All (P : Node → Prop) (b : Builder) : Prop where
  top : ∀ n ∈ b.top, P n
  stack : ∀ f ∈ b.stack, ∀ n ∈ f.content, P n

namespace Builder.All

variable {P : Node → Prop} {b : Builder}

theorem add {n : Node} (h : b.All P) (hn : P n) : (b.add n).All P := by
  unfold Builder.add
  split
  · exact ⟨List.forall_mem_cons.2 ⟨hn, h.top⟩, h.stack⟩
  · next f rest hstack =>
    have hframes := h.stack
    rw [hstack, List.forall_mem_cons] at hframes
    exact ⟨h.top, List.forall_mem_cons.2 ⟨List.forall_mem_cons.2 ⟨hn, hframes.1⟩, hframes.2⟩⟩

variable (element : ∀ tag attrs children, (∀ c ∈ children, P c) → P (.element tag attrs children))

include element

theorem closeTop (h : b.All P) : b.closeTop.All P := by
  unfold Builder.closeTop
  split
  · exact h
  · next f rest hstack =>
    have hframes := h.stack
    rw [hstack, List.forall_mem_cons] at hframes
    refine add ⟨h.top, hframes.2⟩ (element f.tag f.attributes _ fun c hc => ?_)
    exact hframes.1 c (List.mem_reverse.1 hc)

theorem closeMany {k : Nat} (h : b.All P) : (Builder.closeMany k b).All P := by
  induction k generalizing b with
  | zero => exact h
  | succ k ih => exact ih (h.closeTop element)

theorem step (text : ∀ s, P (.text s)) (raw : ∀ s, P (.raw s)) (h : b.All P) (t : Token) :
    (b.step t).All P := by
  cases t with
  | text => exact h.add (text _)
  | comment | cdata => exact h.add (raw _)
  | skipped => exact h
  | endTag name => exact h.closeMany element
  | startTag name written selfClosing =>
    unfold Builder.step
    simp only
    split
    · exact h.add (element _ _ [] fun c hc => absurd hc List.not_mem_nil)
    · exact ⟨h.top, List.forall_mem_cons.2 ⟨fun n hn => absurd hn List.not_mem_nil, h.stack⟩⟩

end Builder.All

/-- Markup denotes texts, final output, and elements around what it denotes. -/
theorem parse_forall {P : Node → Prop} (text : ∀ s, P (.text s)) (raw : ∀ s, P (.raw s))
    (element : ∀ tag attrs children, (∀ c ∈ children, P c) → P (.element tag attrs children))
    (markup : List Char) : ∀ n ∈ parse markup, P n := by
  have hall : ∀ (ts : List Token) (b : Builder), b.All P → (ts.foldl Builder.step b).All P := by
    intro ts
    induction ts with
    | nil => exact fun b h => h
    | cons t ts ih => exact fun b h => ih _ (h.step element text raw t)
  have hempty : Builder.empty.All P :=
    ⟨fun n hn => absurd hn List.not_mem_nil, fun f hf => absurd hf List.not_mem_nil⟩
  intro n hn
  exact ((hall (tokens markup) _ hempty).closeMany element).top n (List.mem_reverse.1 hn)

/-! ## The check -/

/-- The check of a node that stands in a list of children within the limit. -/
def ChecksHeight (limit : Limit) (m : Int) (n : Node) : Prop :=
  ∀ depth : Nat, (depth : Int) + 1 ≤ m → checkNode limit depth n =
    if m < depth + 1 + n.height then .error (.tooDeep (m + 1) limit) else .ok ()

/-- The first of neighbours that is refused decides, and all that are refused are so in the same
way. -/
theorem checkNodes_eq (h : ∀ n ∈ nodes, ChecksHeight limit m n) {depth : Nat}
    (hdepth : (depth : Int) + 1 ≤ m) : checkNodes limit depth nodes =
      if m < depth + 1 + heightOf nodes then .error (.tooDeep (m + 1) limit) else .ok () := by
  induction nodes with
  | nil =>
    rw [if_neg (by rw [heightOf]; omega)]
    rfl
  | cons n nodes ih =>
    rw [List.forall_mem_cons] at h
    rw [checkNodes, h.1 depth hdepth, ih h.2, heightOf]
    by_cases hn : m < depth + 1 + n.height
    · rw [if_pos hn, error_bind, if_pos (by omega)]
    · rw [if_neg hn, ok_bind]
      exact if_congr (by omega) rfl rfl

/-- Each element of markup has a list of children, which is one level deeper than the element. -/
theorem checksHeight_of_mem_parse (hm : limit.levels? = some m) :
    ∀ n ∈ parse markup, ChecksHeight limit m n := by
  refine parse_forall (fun s depth hdepth => ?_) (fun s depth hdepth => ?_) ?_ markup
  · rw [if_neg (by rw [height]; omega)]
    rfl
  · rw [if_neg (by rw [height]; omega)]
    rfl
  · intro tag attrs children ih depth hdepth
    rw [checkNode, height]
    by_cases hlist : m < depth + 2
    · rw [withinLimit_error hm hlist, if_pos (by omega), error_bind,
        show m + 1 = (depth : Int) + 2 by omega]
    · rw [withinLimit_ok hm (Int.not_lt.1 hlist), ok_bind, checkNodes_eq ih (by omega)]
      exact if_congr (by omega) rfl rfl

/-! ## Reading -/

/-- Markup is read as the tree it denotes if that is less high than the limit. Else the first list
of children beyond the limit is reported, or the outermost if none is allowed. -/
theorem read_eq (hm : limit.levels? = some m) (markup : List Char) : read limit markup =
    if m ≤ heightOf (parse markup) then .error (.tooDeep (max 1 (m + 1)) limit)
    else .ok (parse markup) := by
  by_cases hone : m < 1
  · rw [read, withinLimit_error hm hone, if_pos (by omega), error_bind,
      show max 1 (m + 1) = 1 by omega]
  · rw [read, withinLimit_ok hm (Int.not_lt.1 hone), ok_bind,
      checkNodes_eq (checksHeight_of_mem_parse hm) (by omega)]
    by_cases hheight : m ≤ heightOf (parse markup)
    · rw [if_pos (by omega), if_pos hheight, error_bind, show max 1 (m + 1) = m + 1 by omega]
    · rw [if_neg (by omega), if_neg hheight]
      rfl

/-- Markup is refused for nesting just in case its tree is as high as the limit or higher, and the
check before a conversion refuses the tree just in case it is higher. Otherwise markup is read as
the tree it denotes. -/
theorem read_refuses_at_limit (limit : Limit) (markup : List Char) :
    (∀ d l, read limit markup = .error (.tooDeep d l) ↔ l = limit ∧
      ∃ m, limit.levels? = some m ∧ m ≤ depthOf (parse markup) ∧ d = max 1 (m + 1)) ∧
    (∀ d l, withinLimit (depthOf (parse markup)) limit = .error (.tooDeep d l) ↔ l = limit ∧
      ∃ m, limit.levels? = some m ∧ m < depthOf (parse markup) ∧ d = depthOf (parse markup)) ∧
    ∀ nodes, read limit markup = .ok nodes ↔ nodes = parse markup ∧
      ∃ m, limit.levels? = some m ∧ depthOf (parse markup) < m := by
  rw [depthOf_eq]
  cases hm : limit.levels? with
  | none =>
    have hbad : ∀ d, withinLimit d limit = .error .badLimit := fun d => by rw [withinLimit, hm]
    have hread : read limit markup = .error .badLimit := by
      rw [read, hbad, error_bind]
    rw [hread, hbad]
    simp
  | some m =>
    rw [read_eq hm]
    refine ⟨fun d l => ?_, fun d l => ?_, fun nodes => ?_⟩
    · by_cases hheight : m ≤ heightOf (parse markup)
      · rw [if_pos hheight]
        simp [hheight, eq_comm, and_comm]
      · rw [if_neg hheight]
        simp [hheight]
    · by_cases hheight : m < heightOf (parse markup)
      · rw [withinLimit_error hm hheight]
        simp [hheight, eq_comm, and_comm]
      · rw [withinLimit_ok hm (Int.not_lt.1 hheight)]
        simp [hheight]
    · by_cases hheight : m ≤ heightOf (parse markup)
      · rw [if_pos hheight]
        simp [hheight]
      · rw [if_neg hheight]
        simp [Int.not_le.1 hheight, eq_comm]

/-- One paragraph where one level is allowed. -/
theorem read_refuses_allowed :
    let limit : Limit := .levels 1
    let markup := "<p></p>".toList
    read limit markup = .error (.tooDeep 2 limit) ∧
      withinLimit (depthOf (parse markup)) limit = .ok () := by
  intro limit markup
  have htokens : tokens markup = [.startTag ['p'] [] false, .endTag ['p']] := by decide +kernel
  have hparse : parse markup = [.element ['p'] [] []] := by
    rw [parse, htokens]
    rfl
  have hm : limit.levels? = some 1 := rfl
  rw [depthOf_eq, read_eq hm, hparse]
  exact ⟨rfl, rfl⟩

end StorageMarkup.Html
