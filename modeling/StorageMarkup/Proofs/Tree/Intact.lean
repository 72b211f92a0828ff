import StorageMarkup.Proofs.Directive.Written
import StorageMarkup.Proofs.Tree.Shielded
import StorageMarkup.Proofs.Tree.Success

/-!
# Every pass keeps placeholders whole

A tree is intact when every string in it is. Each pass over a tree cuts, joins and
rewrites strings, and leaves an intact tree intact; so does writing it.

Results:
1. `intact_liftMarkersAmong`: lifting the markers of regions.
2. `Ordered.shieldNodes`: setting the directives of a tree aside.
3. `intact_printAll`: writing a tree.
-/

namespace StorageMarkup

open Vault

variable {P : List Char → Prop} {known : Nat → Prop} {limit : Limit} {v : Vault}

/-! ## Body and markers -/

theorem Node.All.body {n : Node} (h : n.All P) : ∀ m ∈ n.body, m.All P := by
  induction h with
  | @root children h _ => exact List.forall_mem_singleton.2 (.root h)
  | text h => exact List.forall_mem_singleton.2 (.text h)
  | raw h => exact List.forall_mem_singleton.2 (.raw h)
  | @element tag attrs children htag hattrs _ ih =>
    have hchildren : ∀ m ∈ Node.bodyOf children, m.All P := by
      rw [Node.bodyOf_eq]
      intro m hm
      obtain ⟨c, hc, hmc⟩ := List.mem_flatMap.1 hm
      exact ih c hc m hmc
    rw [Node.body]
    split
    · exact fun m hm => absurd hm List.not_mem_nil
    split
    · exact hchildren
    · exact List.forall_mem_singleton.2 (.element htag (hattrs.filter _) hchildren)

theorem all_bodyOf {nodes : List Node} (h : ∀ n ∈ nodes, n.All P) :
    ∀ m ∈ Node.bodyOf nodes, m.All P := by
  rw [Node.bodyOf_eq]
  intro m hm
  obtain ⟨n, hn, hmn⟩ := List.mem_flatMap.1 hm
  exact (h n hn).body m hmn

theorem intact_contentLines {s : List Char} (h : Intact known s) :
    ∀ line ∈ contentLines s, Intact known line := by
  intro line hm
  obtain ⟨l, hl, rfl⟩ := List.mem_map.1 hm
  exact (h.lines l (List.mem_filter.1 hl).1).strip

theorem all_markers {ls : List (List Char)} (h : ∀ line ∈ ls, Intact known line) :
    ∀ m ∈ markers ls, m.All (Intact known) := by
  fun_induction markers ls with
  | case1 => exact fun m hm => absurd hm List.not_mem_nil
  | case2 line => exact List.forall_mem_singleton.2 (.text (h line List.mem_cons_self))
  | case3 line rest _ ih =>
    rw [List.forall_mem_cons] at h
    exact List.forall_mem_cons.2 ⟨.text h.1,
      List.forall_mem_cons.2 ⟨.text (.of_free (by decide)), ih h.2⟩⟩

theorem intact_markersOf? {w : Option Vault} {tag : List Char} {children : List Node}
    {ls : List (List Char)} (h : ∀ c ∈ children, c.All (Intact known))
    (hls : markersOf? w tag children = some ls) : ∀ line ∈ ls, Intact known line := by
  unfold markersOf? at hls
  split at hls
  · next s =>
    simp only at hls
    split at hls
    · cases hls
      exact intact_contentLines (h _ List.mem_cons_self).of_text
    · cases hls
  · cases hls

theorem Node.All.liftMarkers (w : Option Vault) {n : Node} (h : n.All (Intact known)) :
    ∀ m ∈ n.liftMarkers w, m.All (Intact known) := by
  induction h with
  | @root children h _ => exact List.forall_mem_singleton.2 (.root h)
  | text h => exact List.forall_mem_singleton.2 (.text h)
  | raw h => exact List.forall_mem_singleton.2 (.raw h)
  | @element tag attrs children htag hattrs hchildren ih =>
    rw [Node.liftMarkers]
    split
    · next ls hls => exact all_markers (intact_markersOf? hchildren hls)
    · refine List.forall_mem_singleton.2 (.element htag hattrs ?_)
      rw [Node.liftMarkersAmong_eq]
      intro m hm
      obtain ⟨c, hc, hmc⟩ := List.mem_flatMap.1 hm
      exact ih c hc m hmc

theorem intact_liftMarkersAmong (w : Option Vault) {nodes : List Node}
    (h : ∀ n ∈ nodes, n.All (Intact known)) :
    ∀ m ∈ Node.liftMarkersAmong w nodes, m.All (Intact known) := by
  rw [Node.liftMarkersAmong_eq]
  intro m hm
  obtain ⟨n, hn, hmn⟩ := List.mem_flatMap.1 hm
  exact (h n hn).liftMarkers w m hmn

/-! ## Setting directives aside -/

namespace Vault.Ordered

theorem shieldItems {k : Nat} {items : List Value}
    (h : ∀ item ∈ items, item.All (Intact (· < k))) :
    ∀ {v : Vault}, v.Ordered → k ≤ v.size → (v.shieldItems items).1.Ordered ∧
      ∀ item ∈ (v.shieldItems items).2, item.All (Intact (· < (v.shieldItems items).1.size)) := by
  induction items with
  | nil => exact fun hv _ => ⟨hv, fun item hm => absurd hm List.not_mem_nil⟩
  | cons item items ih =>
    rw [List.forall_mem_cons] at h
    have hkeep : ∀ {v : Vault} {item : Value}, item.All (Intact (· < k)) → v.Ordered →
        k ≤ v.size → (v.shieldItems items).1.Ordered ∧ ∀ i ∈ item :: (v.shieldItems items).2,
          i.All (Intact (· < (v.shieldItems items).1.size)) := by
      intro v item hi hv hk
      obtain ⟨hv', hothers⟩ := ih h.2 hv hk
      have hsize := Nat.le_trans hk (shieldItems_extends v items).size_le
      refine ⟨hv', List.forall_mem_cons.2 ⟨hi.mono fun s hs => ?_, hothers⟩⟩
      exact hs.mono fun n hn => Nat.lt_of_lt_of_le hn hsize
    intro v hv hk
    cases item with
    | text s =>
      obtain ⟨hv', hs'⟩ := Ordered.shield h.1.of_text hv hk
      have hk' := Nat.le_trans hk (shield_extends v s).size_le
      obtain ⟨hv'', hothers⟩ := ih h.2 hv' hk'
      exact ⟨hv'', List.forall_mem_cons.2 ⟨.text (hs'.grow (shieldItems_extends _ items)), hothers⟩⟩
    | absent | flag | number | list | record | other => exact hkeep h.1 hv hk

theorem shieldValue {k : Nat} {value : Value} (h : value.All (Intact (· < k))) {v : Vault}
    (hv : v.Ordered) (hk : k ≤ v.size) : (v.shieldValue value).1.Ordered ∧
      (v.shieldValue value).2.All (Intact (· < (v.shieldValue value).1.size)) := by
  have hkeep : value.All (Intact (· < v.size)) :=
    h.mono fun s hs => hs.mono fun n hn => Nat.lt_of_lt_of_le hn hk
  cases value with
  | text s =>
    obtain ⟨hv', hs'⟩ := Ordered.shield h.of_text hv hk
    exact ⟨hv', .text hs'⟩
  | list items =>
    obtain ⟨hv', hitems⟩ := shieldItems h.of_list hv hk
    exact ⟨hv', .list hitems⟩
  | absent | flag | number | record | other => exact ⟨hv, hkeep⟩

theorem shieldAttributes {k : Nat} {attrs : Attributes} (h : attrs.All (Intact (· < k))) :
    ∀ {v : Vault}, v.Ordered → k ≤ v.size → (v.shieldAttributes attrs).1.Ordered ∧
      Attributes.All (Intact (· < (v.shieldAttributes attrs).1.size))
        (v.shieldAttributes attrs).2 := by
  induction attrs with
  | nil => exact fun hv _ => ⟨hv, fun a hm => absurd hm List.not_mem_nil⟩
  | cons a attrs ih =>
    rw [Attributes.All, List.forall_mem_cons] at h
    intro v hv hk
    obtain ⟨hv', hvalue⟩ := shieldValue h.1.2 hv hk
    have hk' := Nat.le_trans hk (shieldValue_extends v a.2).size_le
    obtain ⟨hv'', hothers⟩ := ih h.2 hv' hk'
    have hgrow := shieldAttributes_extends (v.shieldValue a.2).1 attrs
    refine ⟨hv'', List.forall_mem_cons.2 ⟨⟨?_, ?_⟩, hothers⟩⟩
    · exact h.1.1.mono fun n hn => Nat.lt_of_lt_of_le hn (Nat.le_trans hk' hgrow.size_le)
    · exact hvalue.mono fun s hs => hs.grow hgrow

/-- What setting the directives of a node aside does to vault and node. -/
def NodeKept (k : Nat) (n : Node) : Prop :=
  ∀ {v : Vault}, v.Ordered → k ≤ v.size → (v.shieldNode n).1.Ordered ∧
    (v.shieldNode n).2.All (Intact (· < (v.shieldNode n).1.size))

theorem shieldNodes_of_kept {k : Nat} {nodes : List Node} (h : ∀ n ∈ nodes, NodeKept k n) :
    ∀ {v : Vault}, v.Ordered → k ≤ v.size → (v.shieldNodes nodes).1.Ordered ∧
      ∀ n ∈ (v.shieldNodes nodes).2, n.All (Intact (· < (v.shieldNodes nodes).1.size)) := by
  induction nodes with
  | nil => exact fun hv _ => ⟨hv, fun n hm => absurd hm List.not_mem_nil⟩
  | cons n nodes ih =>
    rw [List.forall_mem_cons] at h
    intro v hv hk
    obtain ⟨hv', hn⟩ := h.1 hv hk
    obtain ⟨hv'', hothers⟩ := ih h.2 hv' (Nat.le_trans hk (shieldNode_extends n v).size_le)
    exact ⟨hv'', List.forall_mem_cons.2
      ⟨hn.mono fun s hs => hs.grow (shieldNodes_extends _ nodes), hothers⟩⟩

theorem shieldNode {k : Nat} {n : Node} (h : n.All (Intact (· < k))) : NodeKept k n := by
  induction h with
  | @root children h _ =>
    exact fun hv hk => ⟨hv, .root fun c hc =>
      (h c hc).mono fun s hs => hs.mono fun n hn => Nat.lt_of_lt_of_le hn hk⟩
  | raw h => exact fun hv hk => ⟨hv, .raw (h.mono fun n hn => Nat.lt_of_lt_of_le hn hk)⟩
  | @text s h =>
    intro v hv hk
    obtain ⟨hv', hs'⟩ := Ordered.shield h hv hk
    exact ⟨hv', .text hs'⟩
  | @element tag attrs children htag hattrs _ ih =>
    intro v hv hk
    obtain ⟨hv', hattrs'⟩ := shieldAttributes hattrs hv hk
    have hk' := Nat.le_trans hk (shieldAttributes_extends v attrs).size_le
    obtain ⟨hv'', hchildren⟩ := shieldNodes_of_kept ih hv' hk'
    have hgrow := shieldNodes_extends (v.shieldAttributes attrs).1 children
    refine ⟨hv'', .element ?_ (hattrs'.mono fun s hs => hs.grow hgrow) hchildren⟩
    exact htag.mono fun n hn => Nat.lt_of_lt_of_le hn (Nat.le_trans hk' hgrow.size_le)

/-- Setting the directives of a tree aside keeps the vault in order and the tree intact. -/
theorem shieldNodes {nodes : List Node} {v : Vault} (hv : v.Ordered)
    (h : ∀ n ∈ nodes, n.All (Intact (· < v.size))) : (v.shieldNodes nodes).1.Ordered ∧
      ∀ n ∈ (v.shieldNodes nodes).2, n.All (Intact (· < (v.shieldNodes nodes).1.size)) :=
  shieldNodes_of_kept (fun n hn => shieldNode (h n hn)) hv (Nat.le_refl _)

end Vault.Ordered

/-! ## Writing -/

theorem writable_intact : Writable (Intact known) where
  fixed hmark _ := .of_free hmark
  append := .append
  strip := .strip
  escapeQuoted := .escapeQuoted

theorem intact_printAll {nodes : List Node} (h : ∀ n ∈ nodes, n.All (Intact known))
    {s : List Char} (hs : Node.printAll limit nodes = .ok s) : Intact known s := by
  refine Node.printAll_ok_induct (R := fun _ n s => n.All (Intact known) → Intact known s)
    (S := fun _ nodes s => (∀ n ∈ nodes, n.All (Intact known)) → Intact known s)
    ?_ ?_ ?_ ?_ ?_ ?_ ?_ hs h
  · exact fun _ _ => .of_free List.not_mem_nil
  · intro _ n rest first others hfirst hothers h
    rw [List.forall_mem_cons] at h
    exact (hfirst h.1).append (hothers h.2)
  · exact fun pre s h => h.of_text.printText pre
  · exact fun _ s h => h.of_raw
  · exact fun _ children s hs h => hs h.of_root
  · intro _ tag attrs children _ h
    obtain ⟨htag, hattrs, _⟩ := h.of_element
    have hopening := (htag.append (writable_intact.print hattrs)).cons (c := '<') (by decide)
    exact hopening.append (.of_free (by decide))
  · intro _ tag attrs children inner _ hinner h
    obtain ⟨htag, hattrs, hchildren⟩ := h.of_element
    have hopening := (htag.append (writable_intact.print hattrs)).cons (c := '<') (by decide)
    have hcontent := (hopening.append (t := ['>']) (.of_free (by decide))).append (hinner hchildren)
    exact ((hcontent.append (.of_free (by decide))).append htag).append (.of_free (by decide))

end StorageMarkup
