import StorageMarkup.Proofs.Mapping.Kept
import StorageMarkup.Proofs.Region.Closing
import StorageMarkup.Proofs.Text.Runs

/-!
# An exposed placeholder in folded and written trees

The placeholder of a verbatim region stands neither for an open token nor for a close
token, so folding takes it for content; where it is in a region that is folded, it
comes to stand in the final output of that region.

Results:
1. `exposed_takeClosing`: the search for a close token leaves it alone.
2. `exposes_foldAll`, `exposes_settleFootnotes`: the passes after mapping.
3. `infix_printAllAt`, `infix_printAll`: the written tree holds it.
-/

namespace StorageMarkup

open Vault

variable {T : Targets} {P : Node → Prop} {linked below : Bool} {n : Node} {nodes out : List Node}
  {tag region : List Char} {attrs : Attributes} {k : Nat} {v : Vault} {limit : Limit}

/-! ## What a node of each kind says -/

namespace Exposed

theorem eq_of_text {s : List Char} (h : Exposed T (KeptIn k) linked (.text s)) :
    s = placeholder k := by
  cases h with
  | here h =>
    rcases h with h | ⟨_, he, _⟩
    · exact Node.text.inj h
    · cases he

theorem of_element {children : List Node}
    (h : Exposed T (KeptIn k) linked (.element tag attrs children)) :
    ∃ below n, Passable T linked below tag attrs ∧ n ∈ children ∧ Exposed T (KeptIn k) below n := by
  cases h with
  | here h =>
    rcases h with h | ⟨_, he, _⟩
    · cases h
    · cases he
  | inside he hm hn => exact ⟨_, _, he, hm, hn⟩

end Exposed

/-! ## Writing -/

theorem printText_placeholder (pre : Bool) (k : Nat) :
    Node.printText pre (placeholder k) = placeholder k := by
  have hescape : escapeText (placeholder k) = placeholder k :=
    Woven.flatMap_eq_self fun c hc => Woven.escapeTextChar_eq_self (inPlaceholder_of_mem hc)
  have hline : '\n' ∉ placeholder k := not_mem_placeholder (by decide)
  cases pre with
  | true => exact hescape
  | false => exact (congrArg foldBlankRuns hescape).trans (foldBlankRuns_of_not_mem hline)

theorem exposes_cons {rest : List Node} (h : Exposes T P linked (n :: rest)) :
    Exposed T P linked n ∨ Exposes T P linked rest := by
  obtain ⟨m, hm, he⟩ := h
  rcases List.mem_cons.1 hm with rfl | hm
  · exact .inl he
  · exact .inr ⟨m, hm, he⟩

/-- What is written of a node stands in what is written of those around it. -/
theorem Shows.exists_printed {pre : Bool} {depth : Nat} {s : List Char} (h : Shows P n)
    (hn : n ∈ nodes) (hs : Node.printAllAt limit pre depth nodes = .ok s) :
    ∃ m pre' depth' t, P m ∧ m.printAt limit pre' depth' = .ok t ∧ t <:+: s := by
  obtain ⟨t, ht, hin⟩ := Node.exists_printed_of_mem hn hs
  suffices hnode : ∃ m pre' depth' u, P m ∧ m.printAt limit pre' depth' = .ok u ∧ u <:+: t by
    obtain ⟨m, pre', depth', u, hm, hu, hut⟩ := hnode
    exact ⟨m, pre', depth', u, hm, hu, hut.trans hin⟩
  clear hn hs hin
  induction h generalizing pre depth t with
  | here h => exact ⟨_, pre, depth, t, h, ht, List.infix_rfl⟩
  | inside hv hm _ ih =>
    obtain ⟨inner, hinner, rfl⟩ := Node.printAt_element hv ht
    obtain ⟨u, hu, hin⟩ := Node.exists_printed_of_mem hm hinner
    obtain ⟨m, pre', depth', w, hm, hw, hwu⟩ := ih _ hu
    refine ⟨m, pre', depth', w, hm, hw, (hwu.trans hin).trans ?_⟩
    rw [List.append_assoc, List.append_assoc, List.append_assoc]
    exact ⟨_, _, List.append_assoc _ _ _⟩

section

variable {part : List Char}
  (hP : ∀ n, P n → ∀ pre depth s, n.printAt limit pre depth = .ok s → part <:+: s) {pre : Bool}
  {depth : Nat} {s : List Char}

include hP

theorem Shows.infix_printAllAt (h : Shows P n) (hn : n ∈ nodes)
    (hs : Node.printAllAt limit pre depth nodes = .ok s) : part <:+: s := by
  obtain ⟨m, pre', depth', t, hm, ht, hin⟩ := h.exists_printed hn hs
  exact (hP m hm pre' depth' t ht).trans hin

theorem infix_printAllAt (hs : Node.printAllAt limit pre depth nodes = .ok s)
    (h : Exposes T P linked nodes) : part <:+: s := by
  obtain ⟨n, hm, h⟩ := h
  exact h.shows.infix_printAllAt hP hm hs

end

/-- The written tree holds the placeholder. -/
theorem infix_printAll {s : List Char} (hs : Node.printAll limit nodes = .ok s)
    (h : Exposes T (KeptIn k) linked nodes) : placeholder k <:+: s := by
  refine infix_printAllAt (P := KeptIn k) ?_ hs h
  rintro n (rfl | ⟨t, rfl, ht⟩) pre depth s hs
  · cases hs
    exact (printText_placeholder pre k).symm ▸ List.infix_rfl
  · cases hs
    exact ht

/-! ## Taking a close token out -/

/-- The placeholder of a region holds no close token. -/
theorem cutFirstClosing_placeholder (hv : Stored v k region) (name : List Char) :
    cutFirstClosing (some v) name (placeholder k) = none := by
  rw [Region.cutFirstClosing_eq_none]
  rintro (hin | ⟨known, e, hknown, he, hc⟩)
  · rw [Directive.closing_eq] at hin
    exact not_infix_of_not_mem (not_mem_placeholder (by decide)) hin
  · cases hknown
    have hsplit := v.split_placeholder hv.original []
    rw [List.append_nil, split_nil] at hsplit
    rw [hsplit, List.mem_singleton, Piece.hit.injEq] at he
    rw [he] at hc
    rw [hv.isRegion.closeName?_eq_none] at hc
    cases hc

/-- The search leaves an exposed placeholder alone. -/
theorem exposed_takeClosing (hv : Stored v k region) {name : List Char} {left : Option Node}
    (hleft : n.takeClosing (some v) name = some left) (h : Exposed T (KeptIn k) linked n) :
    ∃ m, left = some m ∧ Exposed T (KeptIn k) linked m := by
  refine Region.takeClosing_ok (T := fun n left => ∀ linked, Exposed T (KeptIn k) linked n →
    ∃ m, left = some m ∧ Exposed T (KeptIn k) linked m) ?_ ?_ n left hleft linked h
  · intro s before after hcut _ h
    rw [h.eq_of_text, cutFirstClosing_placeholder hv] at hcut
    cases hcut
  · intro tag attrs before c left after _ hleft _ h
    obtain ⟨below, n, he, hm, hn⟩ := h.of_element
    have hmem : ∃ m ∈ before ++ left.toList ++ after, Exposed T (KeptIn k) below m := by
      rcases List.mem_append.1 hm with hm | hm
      · exact ⟨n, by simp [hm], hn⟩
      rcases List.mem_cons.1 hm with rfl | hm
      · obtain ⟨m, rfl, hexposed⟩ := hleft below hn
        exact ⟨m, by simp, hexposed⟩
      · exact ⟨n, by simp [hm], hn⟩
    obtain ⟨m, hmem, hexposed⟩ := hmem
    -- the paragraph is not empty, so it is not dropped
    have hblank :
        ¬ (isParagraph tag && (before ++ left.toList ++ after).all Node.isBlank) = true := by
      rw [Bool.and_eq_true, List.all_eq_true]
      rintro ⟨_, hall⟩
      have hm := hall m hmem
      rw [hexposed.not_blank fun _ => not_blank_keptIn] at hm
      cases hm
    rw [if_neg hblank]
    exact ⟨_, rfl, .inside he hmem hexposed⟩

/-- The span of a region and the nodes after it expose what the nodes did. -/
theorem exposes_span? (hv : Stored v k region) {name : List Char} {span after : List Node}
    (hs : Region.span? (some v) name nodes = some (span, after))
    (h : Exposes T (KeptIn k) linked nodes) :
    Exposes T (KeptIn k) linked span ∨ Exposes T (KeptIn k) linked after := by
  obtain ⟨before, m, left, rfl, rfl, hleft⟩ := Region.span?_eq_some hs
  obtain ⟨n, hm, hn⟩ := h
  rcases List.mem_append.1 hm with hm | hm
  · exact .inl ⟨n, List.mem_append_left _ hm, hn⟩
  rcases List.mem_cons.1 hm with rfl | hm
  · obtain ⟨m, rfl, hexposed⟩ := exposed_takeClosing hv hleft hn
    exact .inl ⟨m, List.mem_append_right _ List.mem_cons_self, hexposed⟩
  · exact .inr ⟨n, hm, hn⟩

/-! ## Folding -/

/-- The placeholder of a region is no open marker. -/
theorem not_exposed_of_openingMarker? (hv : Stored v k region) {head name : List Char}
    (hm : n.openingMarker? (some v) = some (head, name)) : ¬ Exposed T (KeptIn k) linked n := by
  intro h
  obtain ⟨s, hs, hhead, hname⟩ := Region.openingMarker?_eq_some.1 hm
  have htext : s = placeholder k := by
    cases hs with
    | text => exact h.eq_of_text
    | paragraph _ =>
      obtain ⟨below, n, _, hm, hn⟩ := h.of_element
      rw [List.mem_singleton.1 hm] at hn
      exact hn.eq_of_text
  rw [htext, (capped_placeholder k).strip, hv.reveal] at hhead
  rw [← hhead, Directive.openName?_strip, hv.isRegion.openName?_eq_none] at hname
  cases hname

theorem exposes_foldAmong (hv : Stored v k region) {depth : Nat}
    (hout : (Region.foldAmong limit (some v) depth nodes).result = .ok out)
    (h : Exposes T (KeptIn k) linked nodes) : Exposes T (KeptIn k) linked out := by
  refine Region.foldAmong_ok (S := fun nodes out => ∀ linked, Exposes T (KeptIn k) linked nodes →
    Exposes T (KeptIn k) linked out) ?_ ?_ ?_ nodes depth out hout linked h
  · exact fun _ h => h
  · intro n rest others hothers linked h
    rcases exposes_cons h with h | h
    · exact ⟨n, List.mem_cons_self, h⟩
    · obtain ⟨m, hm, he⟩ := hothers linked h
      exact ⟨m, List.mem_cons_of_mem n hm, he⟩
  · intro n head name rest span after inner body others hm hs hinner hbody hothers linked h
    have hrest := (exposes_cons h).resolve_left (not_exposed_of_openingMarker? hv hm)
    rcases exposes_span? hv hs hrest with h | h
    · -- the region that is folded holds the placeholder
      have hin := infix_strip (capped_placeholder k) (infix_printAll hbody (hinner linked h))
      exact ⟨_, List.mem_cons_self,
        .here (.inr ⟨_, rfl, hin.trans (Directive.infix_region head name)⟩)⟩
    · obtain ⟨m, hm, he⟩ := hothers linked h
      exact ⟨m, List.mem_cons_of_mem _ hm, he⟩

theorem exposes_map_cons {first : Node} {rest others : List Node}
    (hfirst : ∀ linked, Exposed T (KeptIn k) linked n → Exposed T (KeptIn k) linked first)
    (hothers : ∀ linked, Exposes T (KeptIn k) linked rest → Exposes T (KeptIn k) linked others)
    (linked : Bool) (h : Exposes T (KeptIn k) linked (n :: rest)) :
    Exposes T (KeptIn k) linked (first :: others) := by
  rcases exposes_cons h with h | h
  · exact ⟨first, List.mem_cons_self, hfirst linked h⟩
  · obtain ⟨m, hm, he⟩ := hothers linked h
    exact ⟨m, List.mem_cons_of_mem first hm, he⟩

/-- Folding keeps an exposed placeholder. -/
theorem exposes_foldAll (hv : Stored v k region)
    (hout : (Region.foldAll limit (some v) nodes).result = .ok out)
    (h : Exposes T (KeptIn k) linked nodes) : Exposes T (KeptIn k) linked out := by
  obtain ⟨mapped, hmapped, hfolded⟩ := Region.foldAll_eq_ok hout
  refine exposes_foldAmong hv hfolded ?_
  refine Region.foldBelowAll_ok
    (R := fun n out => ∀ linked, Exposed T (KeptIn k) linked n → Exposed T (KeptIn k) linked out)
    (S := fun nodes out => ∀ linked, Exposes T (KeptIn k) linked nodes →
      Exposes T (KeptIn k) linked out)
    (fun _ h => h) (fun _ _ _ _ => exposes_map_cons) (fun _ _ h => h) (fun _ _ h => h)
    (fun _ _ h => h) ?_ hmapped linked h
  intro tag attrs children mapped depth folded hmapped hfolded linked h
  obtain ⟨below, n, he, hm, hn⟩ := h.of_element
  obtain ⟨m, hm, hexposed⟩ := exposes_foldAmong hv hfolded (hmapped below ⟨n, hm, hn⟩)
  exact .inside he hm hexposed

/-! ## Footnotes -/

/-- Settling footnotes keeps the way to a node. -/
theorem exposes_settled {Q : Node → Prop} {index : Footnote.Index} {heading : Value}
    (hPQ : ∀ n, P n → ∀ out, n.settleFootnotes index heading limit = .ok out → Q out)
    (hout : Node.settleFootnotesAmong index heading limit nodes = .ok out)
    (h : Exposes T P linked nodes) : Exposes T Q linked out := by
  obtain ⟨n, hm, h⟩ := h
  have hnode : ∀ m, n.settleFootnotes index heading limit = .ok m → Exposed T Q linked m := by
    clear hm hout
    induction h with
    | here h => exact fun m hsettled => .here (hPQ _ h m hsettled)
    | @inside linked below tag attrs children n he hm _ ih =>
      intro m hsettled
      have hnone : Element.holdsFootnotes ⟨tag, attrs, children⟩ = false := he.noFootnotes
      obtain ⟨settled, hchildren, rfl⟩ := Node.settleFootnotes_element hnone hsettled
      obtain ⟨c, hc, hsettled⟩ := Node.exists_settled_of_mem hm hchildren
      exact .inside he hc (ih c hsettled)
  obtain ⟨m, hmout, hsettled⟩ := Node.exists_settled_of_mem hm hout
  exact ⟨m, hmout, hnode m hsettled⟩

/-- Settling footnotes keeps an exposed placeholder. -/
theorem exposes_settleFootnotes {index : Footnote.Index} {heading : Value}
    (hout : Node.settleFootnotesAmong index heading limit nodes = .ok out)
    (h : Exposes T (KeptIn k) linked nodes) : Exposes T (KeptIn k) linked out := by
  refine exposes_settled ?_ hout h
  rintro n (rfl | ⟨t, rfl, ht⟩) m hm
  · cases hm
    exact .inl rfl
  · cases hm
    exact .inr ⟨t, rfl, ht⟩

end StorageMarkup
