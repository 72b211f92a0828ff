import StorageMarkup.Proofs.Region.Kept

/-!
# What folding shows

Neighbours are folded and then written. A text that they show is written as it is, unless folding
reads it: an open marker becomes the head of its region, and out of a text with the close token of
a region the token is taken, to be written behind the region, while the rest of the text stays.
Final output is taken into regions as it stands.

Results:
1. `Represented`: what a written string says of a text.
2. `shows_takeClosing`: the search for a close token changes at most the text it finds it in.
3. `shows_foldAll`: folding shows what was shown.
4. `in_printAll`: what is shown is written.
-/

namespace StorageMarkup

variable {P : Node → Prop} {v : Option Vault} {s t u name : List Char} {n : Node}
  {nodes out : List Node} {limit : Limit}

/-! ## Texts in written strings -/

/-- The string says what the text does. The text is in it, escaped and perhaps with blank runs
folded and its ends trimmed; or it is the head of a region there; or a close token was taken out of
it, which the string has, and what is left of the text is blank or in the string too. -/
inductive Represented (v : Option Vault) (d : List Char) : List Char → Prop
  | whole (pre : Bool) {s : List Char} (h : strip (Node.printText pre s) <:+: d) :
      Represented v d s
  | head {s : List Char} (hopen : (Directive.openName? (Vault.reveal v (strip s))).isSome = true)
      (h : strip (Vault.reveal v (strip s)) <:+: d) : Represented v d s
  | closed {s name before after : List Char}
      (hcut : cutFirstClosing v name s = some (before, after))
      (hclosing : Directive.closing name <:+: d)
      (hrest : isBlank (stripRight (before ++ after)) = false →
        Represented v d (stripRight (before ++ after))) : Represented v d s

theorem infix_strip_of_strip (h : strip s <:+: t) : strip s <:+: strip t := by
  by_cases hs : strip s = []
  · rw [hs]
    exact List.nil_infix
  · exact infix_strip (capped_strip hs) h

namespace Represented

theorem mono (h : Represented v s u) (hst : s <:+: t) : Represented v t u := by
  induction h with
  | whole pre h => exact .whole pre (h.trans hst)
  | head hopen h => exact .head hopen (h.trans hst)
  | closed hcut hclosing _ ih => exact .closed hcut (hclosing.trans hst) ih

theorem strip (h : Represented v s u) : Represented v (strip s) u := by
  induction h with
  | whole pre h => exact .whole pre (infix_strip_of_strip h)
  | head hopen h => exact .head hopen (infix_strip_of_strip h)
  | closed hcut hclosing _ ih =>
    exact .closed hcut (infix_strip (Directive.capped_closing _) hclosing) ih

end Represented

/-! ## What nodes bear -/

/-- What is followed through a tree: a text, or a part of final output. -/
inductive Load where
  | text (s : List Char)
  | part (u : List Char)

/-- The string has what is followed. -/
def Load.In (v : Option Vault) (d : List Char) : Load → Prop
  | .text s => Represented v d s
  | .part u => Capped u ∧ u <:+: d

/-- A text bears itself, final output what it has. -/
inductive Bears (v : Option Vault) : Load → Node → Prop
  | text {s : List Char} (h : isBlank s = false) : Bears v (.text s) (.text s)
  | raw {load : Load} {r : List Char} (h : load.In v r) : Bears v load (.raw r)

variable {load : Load}

theorem Load.In.mono (h : load.In v s) (hst : s <:+: t) : load.In v t := by
  cases load with
  | text u => exact Represented.mono h hst
  | part u => exact ⟨h.1, h.2.trans hst⟩

theorem Load.In.strip (h : load.In v s) : load.In v (strip s) := by
  cases load with
  | text u => exact Represented.strip h
  | part u => exact ⟨h.1, infix_strip h.1 h.2⟩

theorem Bears.not_blank (h : Bears v load n) : n.isBlank = false := by
  cases h with
  | text h => exact h
  | raw => rfl

theorem Shows.not_blank (hP : ∀ m, P m → m.isBlank = false) (h : Shows P n) :
    n.isBlank = false := by
  cases h with
  | here h => exact hP _ h
  | inside => rfl

/-- What an element shows one of its children shows. -/
theorem Shows.of_element {tag : List Char} {attrs : Attributes} {children : List Node}
    (h : Shows (Bears v load) (.element tag attrs children)) :
    isVoid tag = false ∧ ∃ n ∈ children, Shows (Bears v load) n := by
  cases h with
  | here h => cases h
  | inside hv hm hn => exact ⟨hv, _, hm, hn⟩

/-- A text shows nothing but itself. -/
theorem Shows.of_text (h : Shows (Bears v load) (.text s)) : load = .text s := by
  cases h with
  | here h =>
    cases h
    rfl

/-! ## Writing -/

/-- What neighbours show is written. -/
theorem in_printAll (hs : Node.printAll limit nodes = .ok s)
    (h : ∃ n ∈ nodes, Shows (Bears v load) n) : load.In v s := by
  obtain ⟨n, hn, h⟩ := h
  obtain ⟨m, pre, depth, t, hm, ht, hin⟩ := h.exists_printed hn hs
  cases hm with
  | text =>
    cases ht
    exact .whole pre ((strip_infix_self _).trans hin)
  | raw hr =>
    cases ht
    exact hr.mono hin

/-! ## Taking a close token out -/

/-- What is left of a node after a close token is taken out of it shows what the node did, unless
the token was in the text that is followed. -/
theorem shows_takeClosing {left : Option Node} (hleft : n.takeClosing v name = some left)
    (h : Shows (Bears v load) n) :
    (∃ m, left = some m ∧ Shows (Bears v load) m) ∨
      ∃ s before after, load = .text s ∧ cutFirstClosing v name s = some (before, after) ∧
        (isBlank (stripRight (before ++ after)) = false →
          ∃ m, left = some m ∧ Shows (Bears v (.text (stripRight (before ++ after)))) m) := by
  refine Region.takeClosing_ok (T := fun n left => Shows (Bears v load) n →
    (∃ m, left = some m ∧ Shows (Bears v load) m) ∨
      ∃ s before after, load = .text s ∧ cutFirstClosing v name s = some (before, after) ∧
        (isBlank (stripRight (before ++ after)) = false →
          ∃ m, left = some m ∧ Shows (Bears v (.text (stripRight (before ++ after)))) m))
    ?_ ?_ n left hleft h
  · intro s before after hcut h
    refine .inr ⟨s, before, after, h.of_text, hcut, fun hblank => ?_⟩
    rw [if_neg (by rw [hblank]; decide)]
    exact ⟨_, rfl, .here (.text hblank)⟩
  · intro tag attrs before c left after _ hleft h
    obtain ⟨hv, n, hm, hn⟩ := h.of_element
    -- an element that shows something is built again
    have hbuilt : ∀ {load : Load}, (∃ k ∈ before ++ left.toList ++ after, Shows (Bears v load) k) →
        ∃ m, (if isParagraph tag && (before ++ left.toList ++ after).all Node.isBlank then none
          else some (.element tag attrs (before ++ left.toList ++ after))) = some m ∧
          Shows (Bears v load) m := by
      rintro load ⟨k, hk, hshows⟩
      have hblank :
          ¬ (isParagraph tag && (before ++ left.toList ++ after).all Node.isBlank) = true := by
        rw [Bool.and_eq_true, List.all_eq_true]
        rintro ⟨_, hall⟩
        have hk := hall k hk
        rw [hshows.not_blank fun _ => Bears.not_blank] at hk
        cases hk
      rw [if_neg hblank]
      exact ⟨_, rfl, .inside hv hk hshows⟩
    rcases List.mem_append.1 hm with hm | hm
    · exact .inl (hbuilt ⟨n, by simp [hm], hn⟩)
    rcases List.mem_cons.1 hm with rfl | hm
    · rcases hleft hn with ⟨m, rfl, hshows⟩ | ⟨s, b, a, hload, hcut, hrest⟩
      · exact .inl (hbuilt ⟨m, by simp, hshows⟩)
      · refine .inr ⟨s, b, a, hload, hcut, fun hblank => ?_⟩
        obtain ⟨m, rfl, hshows⟩ := hrest hblank
        exact hbuilt ⟨m, by simp, hshows⟩
    · exact .inl (hbuilt ⟨n, by simp [hm], hn⟩)

/-! ## Folding -/

/-- The head of a region is the open marker it starts with. -/
theorem in_region_of_openingMarker? {head : List Char}
    (hm : n.openingMarker? v = some (head, name)) (h : Shows (Bears v load) n) (body : List Char) :
    load.In v (Directive.region head body name) := by
  obtain ⟨s, hs, rfl, hname⟩ := Region.openingMarker?_eq_some.1 hm
  have hload : load = .text s := by
    cases hs with
    | text => exact h.of_text
    | paragraph _ =>
      obtain ⟨-, m, hm, hshows⟩ := h.of_element
      rw [List.mem_singleton.1 hm] at hshows
      exact hshows.of_text
  have hopen : (Directive.openName? (Vault.reveal v (strip s))).isSome = true := by
    rw [Directive.openName?_strip] at hname
    rw [hname]
    rfl
  subst hload
  exact .head hopen (Directive.head_infix_region _ _ _)

theorem shows_foldAmong {depth : Nat}
    (hout : (Region.foldAmong limit v depth nodes).result = .ok out)
    (h : ∃ n ∈ nodes, Shows (Bears v load) n) : ∃ m ∈ out, Shows (Bears v load) m := by
  refine Region.foldAmong_ok (S := fun nodes out => ∀ load, (∃ n ∈ nodes, Shows (Bears v load) n) →
    ∃ m ∈ out, Shows (Bears v load) m) ?_ ?_ ?_ nodes depth out hout load h
  · exact fun _ h => h
  · rintro n rest others hothers load ⟨m, hm, h⟩
    rcases List.mem_cons.1 hm with rfl | hm
    · exact ⟨m, List.mem_cons_self, h⟩
    · obtain ⟨m, hm, h⟩ := hothers load ⟨m, hm, h⟩
      exact ⟨m, List.mem_cons_of_mem n hm, h⟩
  · intro n head name rest span after inner body others hopen hs hinner hbody hothers load h
    obtain ⟨m, hm, h⟩ := h
    -- what the region has is in its final output
    have hregion : ∀ {load : Load}, (∃ k ∈ span, Shows (Bears v load) k) →
        load.In v (Directive.region head (strip body) name) := fun h =>
      ((in_printAll hbody (hinner _ h)).strip).mono (Directive.infix_region head name)
    have hfolded : load.In v (Directive.region head (strip body) name) →
        ∃ m ∈ .raw (Directive.region head (strip body) name) :: others, Shows (Bears v load) m :=
      fun h => ⟨_, List.mem_cons_self, .here (.raw h)⟩
    rcases List.mem_cons.1 hm with rfl | hm
    · exact hfolded (in_region_of_openingMarker? hopen h _)
    obtain ⟨before, k, left, rfl, rfl, hleft⟩ := Region.span?_eq_some hs
    rcases List.mem_append.1 hm with hm | hm
    · exact hfolded (hregion ⟨m, List.mem_append_left _ hm, h⟩)
    rcases List.mem_cons.1 hm with rfl | hm
    · rcases shows_takeClosing hleft h with ⟨m, rfl, h⟩ | ⟨s, b, a, rfl, hcut, hrest⟩
      · exact hfolded (hregion ⟨m, List.mem_append_right _ List.mem_cons_self, h⟩)
      · refine hfolded (.closed hcut (Directive.closing_infix_region _ _ _) fun hblank => ?_)
        obtain ⟨m, rfl, h⟩ := hrest hblank
        exact hregion ⟨m, List.mem_append_right _ List.mem_cons_self, h⟩
    · obtain ⟨m, hm, h⟩ := hothers load ⟨m, hm, h⟩
      exact ⟨m, List.mem_cons_of_mem _ hm, h⟩

/-- Folding shows what was shown. -/
theorem shows_foldAll (hout : (Region.foldAll limit v nodes).result = .ok out)
    (h : ∃ n ∈ nodes, Shows (Bears v load) n) : ∃ m ∈ out, Shows (Bears v load) m := by
  obtain ⟨mapped, hmapped, hfolded⟩ := Region.foldAll_eq_ok hout
  refine shows_foldAmong hfolded ?_
  refine Region.foldBelowAll_ok
    (R := fun n out => Shows (Bears v load) n → Shows (Bears v load) out)
    (S := fun nodes out => (∃ n ∈ nodes, Shows (Bears v load) n) →
      ∃ m ∈ out, Shows (Bears v load) m)
    (fun h => h) ?_ (fun _ h => h) (fun _ h => h) (fun _ h => h) ?_ hmapped h
  · rintro n rest first others hfirst hothers ⟨m, hm, h⟩
    rcases List.mem_cons.1 hm with rfl | hm
    · exact ⟨first, List.mem_cons_self, hfirst h⟩
    · obtain ⟨m, hm, h⟩ := hothers ⟨m, hm, h⟩
      exact ⟨m, List.mem_cons_of_mem first hm, h⟩
  · intro tag attrs children mapped depth folded hmapped hfolded h
    obtain ⟨hv, hchildren⟩ := h.of_element
    obtain ⟨m, hm, h⟩ := shows_foldAmong hfolded (hmapped hchildren)
    exact .inside hv hm h

end StorageMarkup
