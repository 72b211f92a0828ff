import Mathlib.Data.List.Nodup
import Mathlib.Logic.Function.Iterate
import StorageMarkup.Proofs.Vault.Ordered

/-!
# Putting back is full expansion

Putting back works in rounds over a whole text, each round looking for placeholders
anew. For the texts and vaults of a conversion that comes to the same as replacing
each placeholder by the expansion of the text behind it, once and recursively: what
is put back never forms a placeholder with its neighbours, and each text refers to
older texts only.

Results:
1. `Ordered.expand_eq_iterate`: as many rounds as there are texts are enough.
2. `Ordered.expands_iff`: the rounds compute the recursive expansion.
3. `Ordered.expand_append`, `Ordered.expand_shield`: joining and setting aside.
4. `expand_is_full_expansion`: all of it, for the vaults that calls make.
-/

namespace StorageMarkup.Vault

variable {v w : Vault} {s t u o : List Char}

/-! ## Recursive expansion -/

/-- The text with every placeholder replaced by the expansion of the text it stands for. -/
inductive Expands (v : Vault) : List Char → List Char → Prop
  | nil : Expands v [] []
  | char {c : Char} {s t : List Char} (hc : c ≠ startMark) (h : Expands v s t) :
      Expands v (c :: s) (c :: t)
  | placeholder {n : Nat} {original expansion s t : List Char}
      (ho : v.originals[n]? = some original) (horiginal : Expands v original expansion)
      (h : Expands v s t) : Expands v (Vault.placeholder n ++ s) (expansion ++ t)

namespace Expands

theorem append (h : Expands v s t) (h' : Expands v u o) : Expands v (s ++ u) (t ++ o) := by
  induction h with
  | nil => exact h'
  | char hc _ ih => exact .char hc ih
  | placeholder ho horiginal _ _ ih =>
    rw [List.append_assoc, List.append_assoc]
    exact .placeholder ho horiginal ih

theorem of_free (h : startMark ∉ s) : Expands v s s := by
  induction s with
  | nil => exact .nil
  | cons c s ih =>
    rw [List.mem_cons, not_or] at h
    exact .char (Ne.symm h.1) (ih h.2)

/-- A text without start marks expands to itself only. -/
theorem eq_of_free (h : Expands v s t) (hs : startMark ∉ s) : t = s := by
  induction h with
  | nil => rfl
  | char _ _ ih =>
    rw [List.mem_cons, not_or] at hs
    rw [ih hs.2]
  | @placeholder n original expansion s t _ _ _ _ _ =>
    have hp : Vault.placeholder n <:+: Vault.placeholder n ++ s := (List.prefix_append _ s).isInfix
    exact absurd (startMark_mem_of_placeholder hp) hs

theorem grow (h : Expands v s t) (hw : v.Extends w) : Expands w s t := by
  induction h with
  | nil => exact .nil
  | char hc _ ih => exact .char hc ih
  | placeholder ho _ _ ihoriginal ih => exact .placeholder (hw.original ho) ihoriginal ih

/-- A round of putting back does one level of the expansion. -/
theorem expandOnce (h : Expands v s t) : Expands v (v.expandOnce s) t := by
  induction h with
  | nil => exact .nil
  | char hc _ ih =>
    rw [expandOnce_char v hc]
    exact .char hc ih
  | placeholder ho horiginal _ _ ih =>
    rw [expandOnce_placeholder v ho]
    exact horiginal.append ih

theorem iterate (h : Expands v s t) (rounds : Nat) : Expands v (v.expandOnce^[rounds] s) t := by
  induction rounds generalizing s with
  | zero => exact h
  | succ rounds ih => exact ih h.expandOnce

end Expands

/-! ## Rounds -/

/-- Stopping early makes no difference: a text that a round leaves alone stays for good. -/
theorem expandUpTo_eq_iterate (v : Vault) (rounds : Nat) (s : List Char) :
    v.expandUpTo rounds s = v.expandOnce^[rounds] s := by
  induction rounds generalizing s with
  | zero => rfl
  | succ rounds ih =>
    rw [expandUpTo, Function.iterate_succ_apply]
    split
    · next h => rw [h, Function.iterate_fixed h]
    · exact ih (v.expandOnce s)

namespace Ordered

variable {b : Nat}

theorem iterate_free (hv : v.Ordered) (hs : Intact (· < v.size) s) :
    startMark ∉ v.expandOnce^[v.size] s := by
  rw [← expandUpTo_eq_iterate]
  exact hv.expandUpTo v.size v.size s (Nat.le_refl _) (Nat.le_refl _) hs

/-- As many rounds as there are texts are enough. -/
theorem expand_eq_iterate (hv : v.Ordered) (hs : Intact (· < v.size) s) :
    v.expand s = v.expandOnce^[v.size] s := by
  have hfree := hv.iterate_free hs
  unfold expand
  split
  · rw [expandUpTo_eq_iterate, Nat.add_comm, Function.iterate_add_apply,
      Function.iterate_fixed (expandOnce_eq_self v hfree)]
  · next h => rw [Function.iterate_fixed (expandOnce_eq_self v h)]

/-! ## The expansion there is -/

theorem exists_expands (hv : v.Ordered) :
    ∀ (b : Nat) {s : List Char}, b ≤ v.size → Intact (· < b) s → ∃ t, Expands v s t := by
  intro b
  induction b with
  | zero => exact fun _ hs => ⟨_, .of_free (hs.mono fun n hn => Nat.not_lt_zero n hn).free⟩
  | succ b ihb =>
    intro s hb hs
    obtain ⟨numbers, hw⟩ := intact_iff_woven.1 hs
    clear hs
    induction hw with
    | nil => exact ⟨[], .nil⟩
    | char hc _ ih =>
      obtain ⟨t, ht⟩ := ih
      exact ⟨_, .char hc ht⟩
    | @unit n u numbers s hu _ ih =>
      obtain ⟨hn, rfl⟩ := hu
      obtain ⟨t, ht⟩ := ih
      have ho := List.getElem?_eq_getElem (Nat.lt_of_lt_of_le hn hb)
      -- what the placeholder stands for holds older ones only
      obtain ⟨expansion, he⟩ := ihb (Nat.le_of_succ_le hb)
        ((hv n _ ho).mono fun k hk => Nat.lt_of_lt_of_le hk (Nat.le_of_lt_succ hn))
      exact ⟨_, .placeholder ho he ht⟩

theorem eq_expand (hv : v.Ordered) (hs : Intact (· < v.size) s) (h : Expands v s t) :
    t = v.expand s := by
  rw [hv.expand_eq_iterate hs]
  exact (h.iterate v.size).eq_of_free (hv.iterate_free hs)

/-- The rounds compute the recursive expansion, and there is no other. -/
theorem expands_iff (hv : v.Ordered) (hs : Intact (· < v.size) s) :
    Expands v s t ↔ t = v.expand s := by
  refine ⟨hv.eq_expand hs, ?_⟩
  rintro rfl
  obtain ⟨t, ht⟩ := hv.exists_expands v.size (Nat.le_refl _) hs
  exact hv.eq_expand hs ht ▸ ht

theorem expands (hv : v.Ordered) (hs : Intact (· < v.size) s) : Expands v s (v.expand s) :=
  (hv.expands_iff hs).2 rfl

/-! ## Joining, growing and setting aside -/

theorem expand_append (hv : v.Ordered) (hs : Intact (· < v.size) s) (ht : Intact (· < v.size) t) :
    v.expand (s ++ t) = v.expand s ++ v.expand t :=
  (hv.eq_expand (hs.append ht) ((hv.expands hs).append (hv.expands ht))).symm

theorem expand_cons (hv : v.Ordered) {c : Char} (hc : c ≠ startMark)
    (hs : Intact (· < v.size) s) : v.expand (c :: s) = c :: v.expand s :=
  (hv.eq_expand (hs.cons hc) (.char hc (hv.expands hs))).symm

theorem expand_unlines (hv : v.Ordered) {ls : List (List Char)}
    (hls : ∀ l ∈ ls, Intact (· < v.size) l) :
    v.expand (unlines ls) = unlines (ls.map v.expand) := by
  induction ls with
  | nil => exact expand_eq_self List.not_mem_nil
  | cons l ls ih =>
    rw [List.forall_mem_cons] at hls
    cases ls with
    | nil => rfl
    | cons m ls =>
      have hrest : Intact (· < v.size) (unlines (m :: ls)) := .joinWith (by decide) hls.2
      rw [unlines_cons_cons, hv.expand_append hls.1 (hrest.cons (by decide)),
        hv.expand_cons (by decide) hrest, ih hls.2]
      exact (unlines_cons_cons _ _ _).symm

/-- What is set aside later changes nothing. -/
theorem expand_grow (hv : v.Ordered) (hw : w.Ordered) (hvw : v.Extends w)
    (hs : Intact (· < v.size) s) : w.expand s = v.expand s :=
  (hw.eq_expand (hs.grow hvw) ((hv.expands hs).grow hvw)).symm

theorem expand_number (hv : v.Ordered) {n : Nat} (ho : v.originals[n]? = some o) :
    v.expand (placeholder n) = v.expand o := by
  have hn := lt_size_of_original ho
  have hintact : Intact (· < v.size) o := (hv n o ho).mono fun k hk => Nat.lt_trans hk hn
  have h : Expands v (placeholder n ++ []) (v.expand o ++ []) :=
    .placeholder ho (hv.expands hintact) .nil
  rw [List.append_nil, List.append_nil] at h
  exact (hv.eq_expand (.placeholder hn) h).symm

/-- Setting directives aside changes nothing that is put back. -/
theorem expand_shield {k : Nat} (hs : Intact (· < k) s) :
    ∀ {v : Vault}, v.Ordered → k ≤ v.size →
      (v.shield s).1.expand (v.shield s).2 = v.expand s := by
  refine hs.induct (P := fun s => ∀ {v : Vault}, v.Ordered → k ≤ v.size →
    (v.shield s).1.expand (v.shield s).2 = v.expand s) ?_ ?_ ?_ ?_
  · exact fun _ _ => rfl
  · intro c s hc hr hs ih v hv hk
    obtain ⟨hw, hshielded⟩ := hv.shield hs hk
    rw [shield_char hr, hw.expand_cons hc hshielded, ih hv hk,
      hv.expand_cons hc (hs.below hk)]
  · intro token s ht htoken hs ih v hv hk
    have hdeposit := hv.deposit (htoken.below hk)
    have hgrow := deposit_extends v token
    have hk' := Nat.le_trans hk hgrow.size_le
    obtain ⟨hw, hshielded⟩ := hdeposit.shield hs hk'
    have hmore := shield_extends (v.deposit token).1 s
    have ho := hmore.original (deposit_original v token)
    rw [shield_token ht]
    calc ((v.deposit token).1.shield s).1.expand
          (placeholder v.size ++ ((v.deposit token).1.shield s).2)
      _ = ((v.deposit token).1.shield s).1.expand token ++ (v.deposit token).1.expand s := by
        rw [hw.expand_append (.placeholder (lt_size_of_original ho)) hshielded, ih hdeposit hk',
          hw.expand_number ho]
      _ = v.expand token ++ v.expand s := by
        rw [hv.expand_grow hw (hgrow.trans hmore) (htoken.below hk),
          hv.expand_grow hdeposit hgrow (hs.below hk)]
      _ = v.expand (token ++ s) := (hv.expand_append (htoken.below hk) (hs.below hk)).symm
  · intro m s hm hs ih v hv hk
    obtain ⟨hw, hshielded⟩ := hv.shield hs hk
    have hmore := shield_extends v s
    have hm' : m < v.size := Nat.lt_of_lt_of_le hm hk
    rw [shield_append not_brace_of_mem_placeholder,
      hw.expand_append (.placeholder (Nat.lt_of_lt_of_le hm' hmore.size_le)) hshielded, ih hv hk,
      hv.expand_grow hw hmore (.placeholder hm'), hv.expand_append (.placeholder hm') (hs.below hk)]

end Ordered

/-! ## Calls -/

/-- What a vault is asked to do with a text: take it, or take its directives. -/
inductive Call where
  | deposit (text : List Char)
  | shield (text : List Char)
  deriving Repr, DecidableEq

def Call.text : Call → List Char
  | .deposit s => s
  | .shield s => s

/-- The vault after a call, and the answer: a placeholder, or the text without directives. -/
def answer (v : Vault) : Call → Vault × List Char
  | .deposit s => v.deposit s
  | .shield s => v.shield s

/-- The vault after calls. -/
def after (v : Vault) : List Call → Vault
  | [] => v
  | call :: rest => (v.answer call).1.after rest

/-- The placeholders that a call hands out: those of its answer that are new. -/
def issued (v : Vault) (call : Call) : List Entry :=
  (((v.answer call).1.find (v.answer call).2).map Prod.snd).filter (v.size ≤ ·.number)

/-- The placeholders that calls hand out, one call after the other. -/
def issuedBy (v : Vault) : List Call → List Entry
  | [] => []
  | call :: rest => v.issued call ++ (v.answer call).1.issuedBy rest

/-- Each text holds placeholders that the vault has handed out by then, and no other start mark. -/
def Allowed (v : Vault) : List Call → Prop
  | [] => True
  | call :: rest => Intact (· < v.size) call.text ∧ (v.answer call).1.Allowed rest

/-- A text with layers of placeholders over it: its directives are set aside, then those of the
outcome, and so on, with other calls between. -/
inductive Layered (v : Vault) (s : List Char) : Vault → List Char → Prop
  | bare : Layered v s v s
  | layer {w : Vault} {t : List Char} (h : Layered v s w t) :
      Layered v s (w.shield t).1 (w.shield t).2
  | call {w : Vault} {t : List Char} (h : Layered v s w t) (call : Call)
      (hcall : Intact (· < w.size) call.text) : Layered v s (w.answer call).1 t

theorem answer_extends (v : Vault) (call : Call) : v.Extends (v.answer call).1 := by
  cases call with
  | deposit s => exact deposit_extends v s
  | shield s => exact shield_extends v s

theorem after_extends (v : Vault) (calls : List Call) : v.Extends (v.after calls) := by
  induction calls generalizing v with
  | nil => exact .refl v
  | cons call rest ih => exact (answer_extends v call).trans (ih _)

theorem Ordered.answer (hv : v.Ordered) {call : Call} (h : Intact (· < v.size) call.text) :
    (v.answer call).1.Ordered := by
  cases call with
  | deposit s => exact hv.deposit h
  | shield s => exact (hv.shield h (Nat.le_refl _)).1

theorem Ordered.after (hv : v.Ordered) {calls : List Call} (h : v.Allowed calls) :
    (v.after calls).Ordered := by
  induction calls generalizing v with
  | nil => exact hv
  | cons call rest ih => exact ih (hv.answer h.1) h.2

/-- However many layers there are, what is put back is the same. -/
theorem Ordered.expand_layered (hv : v.Ordered) (hs : Intact (· < v.size) s)
    (h : Layered v s w t) :
    w.Ordered ∧ Intact (· < w.size) t ∧ w.expand t = v.expand s := by
  induction h with
  | bare => exact ⟨hv, hs, rfl⟩
  | layer _ ih =>
    obtain ⟨hw, ht, hexpand⟩ := ih
    obtain ⟨hw', ht'⟩ := hw.shield ht (Nat.le_refl _)
    exact ⟨hw', ht', (expand_shield ht hw (Nat.le_refl _)).trans hexpand⟩
  | @call w t _ call hcall ih =>
    obtain ⟨hw, ht, hexpand⟩ := ih
    have hgrow := answer_extends w call
    exact ⟨hw.answer hcall, ht.grow hgrow,
      (hw.expand_grow (hw.answer hcall) hgrow ht).trans hexpand⟩

/-! ## Placeholders that are handed out -/

theorem placeholder_injective {m n : Nat} (h : placeholder m = placeholder n) : m = n :=
  placeholder_prefix_unique (List.prefix_refl _) (h ▸ List.prefix_refl _)

theorem placeholders_nodup (v : Vault) : (v.entries.map Entry.placeholder).Nodup := by
  have hnumbers : v.entries.map Entry.placeholder = (List.range v.size).map placeholder := by
    have hindices := List.zipIdx_map_snd 0 v.originals
    rw [← List.range_eq_range'] at hindices
    rw [entries, List.map_map, size, ← hindices, List.map_map]
    rfl
  rw [hnumbers]
  exact List.nodup_range.map fun _ _ => placeholder_injective

theorem mem_entries {e : Entry} : e ∈ v.entries ↔ v.originals[e.number]? = some e.original := by
  unfold entries
  rw [List.mem_map]
  constructor
  · rintro ⟨⟨original, n⟩, hm, rfl⟩
    exact List.mem_zipIdx_iff_getElem?.1 hm
  · intro h
    exact ⟨(e.original, e.number), List.mem_zipIdx_iff_getElem?.2 h, rfl⟩

/-- An entry is found under its placeholder. -/
theorem original?_of_mem_entries {e : Entry} (h : e ∈ v.entries) :
    v.original? e.placeholder = some e.original := by
  have hread : v.read e.placeholder = some (e, e.placeholder.length - 1) := by
    refine v.read_exact.read_eq_some.2 ⟨mem_entries.1 h, List.prefix_refl _, ?_⟩
    have := List.length_pos_iff.2 (placeholder_ne_nil e.number)
    rw [Entry.placeholder]
    omega
  rw [original?, hread]
  exact if_pos rfl

/-- The known placeholders of a text, from left to right. -/
def found (v : Vault) (s : List Char) : List Entry := (v.find s).map Prod.snd

theorem found_char {c : Char} (hc : c ≠ startMark) (s : List Char) :
    v.found (c :: s) = v.found s := by
  rw [found, find, split_char v hc, hitsFrom]
  exact map_snd_hitsFrom _ _ _ _

theorem found_placeholder {n : Nat} (ho : v.originals[n]? = some o) (s : List Char) :
    v.found (placeholder n ++ s) = ⟨n, o⟩ :: v.found s := by
  rw [found, find, split_placeholder v ho, hitsFrom, List.map_cons]
  exact congrArg (_ :: ·) (map_snd_hitsFrom _ _ _ _)

/-- The texts from a number on, with their numbers. -/
def entriesFrom (v : Vault) (n : Nat) : List Entry :=
  ((v.originals.drop n).zipIdx n).map fun (original, n) => ⟨n, original⟩

theorem entriesFrom_original {n : Nat} (ho : v.originals[n]? = some o) :
    v.entriesFrom n = ⟨n, o⟩ :: v.entriesFrom (n + 1) := by
  obtain ⟨hn, he⟩ := List.getElem?_eq_some_iff.1 ho
  rw [entriesFrom, List.drop_eq_getElem_cons hn, he, List.zipIdx_cons, List.map_cons, entriesFrom]

theorem entriesFrom_size (v : Vault) : v.entriesFrom v.size = [] := by
  rw [entriesFrom, size, List.drop_length]
  rfl

theorem entries_append_entriesFrom (h : v.Extends w) :
    w.entries = v.entries ++ w.entriesFrom v.size := by
  obtain ⟨more, hm⟩ := h
  rw [entries, entries, entriesFrom, ← hm, size, List.drop_left, List.zipIdx_append,
    List.map_append, Nat.zero_add]

/-- Setting directives aside hands out placeholders for these, and writes them in this order. -/
theorem found_shield {k : Nat} (hs : Intact (· < k) s) :
    ∀ {v w : Vault}, k ≤ v.size → (v.shield s).1.Extends w →
      (w.found (v.shield s).2).filter (k ≤ ·.number) = (v.shield s).1.entriesFrom v.size := by
  refine hs.induct (P := fun s => ∀ {v w : Vault}, k ≤ v.size → (v.shield s).1.Extends w →
    (w.found (v.shield s).2).filter (k ≤ ·.number) = (v.shield s).1.entriesFrom v.size) ?_ ?_ ?_ ?_
  · exact fun {v _} _ _ => (entriesFrom_size v).symm
  · intro c s hc hr _ ih v w hk hw
    rw [shield_char hr] at hw ⊢
    rw [found_char hc, ih hk hw]
  · intro token s ht _ _ ih v w hk hw
    rw [shield_token ht] at hw ⊢
    have ho := (shield_extends (v.deposit token).1 s).original (deposit_original v token)
    have hrest := ih (Nat.le_trans hk (deposit_extends v token).size_le) hw
    rw [size_deposit] at hrest
    show (w.found (placeholder v.size ++ _)).filter _ = _
    rw [found_placeholder (hw.original ho), entriesFrom_original ho, ← hrest]
    exact List.filter_cons_of_pos (decide_eq_true hk)
  · intro m s hm _ ih v w hk hw
    rw [shield_append not_brace_of_mem_placeholder] at hw ⊢
    have hlt : m < v.originals.length := Nat.lt_of_lt_of_le hm hk
    have ho := (shield_extends v s).original (List.getElem?_eq_getElem hlt)
    show (w.found (placeholder m ++ (v.shield s).2)).filter _ = _
    rw [found_placeholder (hw.original ho), ← ih hk hw]
    -- a placeholder of the text as it was is not a new one
    exact List.filter_cons_of_neg fun h => Nat.not_le.2 hm (of_decide_eq_true h)

theorem issued_eq (v : Vault) {call : Call} (h : Intact (· < v.size) call.text) :
    v.issued call = (v.answer call).1.entriesFrom v.size := by
  cases call with
  | shield s => exact found_shield h (Nat.le_refl _) (.refl _)
  | deposit s =>
    have ho := deposit_original v s
    have hfound := found_placeholder ho []
    rw [List.append_nil] at hfound
    show ((v.deposit s).1.found (placeholder v.size)).filter _ = (v.deposit s).1.entriesFrom v.size
    rw [hfound, entriesFrom_original ho, ← size_deposit v s, entriesFrom_size]
    exact List.filter_cons_of_pos (decide_eq_true (Nat.le_refl _))

/-- What a vault holds is what it has handed out placeholders for. -/
theorem entries_after {calls : List Call} (h : v.Allowed calls) :
    (v.after calls).entries = v.entries ++ v.issuedBy calls := by
  induction calls generalizing v with
  | nil => exact (List.append_nil _).symm
  | cons call rest ih =>
    rw [after, ih h.2, issuedBy, v.issued_eq h.1, ← List.append_assoc,
      ← entries_append_entriesFrom (answer_extends v call)]

/-- A vault hands every placeholder out once and keeps what it stands for. In texts with these
placeholders only, putting back ends, and it is the recursive expansion: nothing is left to put
back, texts can be put back piece by piece, and layers of placeholders make no difference. -/
theorem expand_is_full_expansion (calls : List Call) (h : empty.Allowed calls) :
    let v := empty.after calls
    ((empty.issuedBy calls).map Entry.placeholder).Nodup ∧
      (∀ more, ∀ e ∈ empty.issuedBy calls,
        (v.after more).original? e.placeholder = some e.original) ∧
      ∀ s t, Intact (· < v.size) s → Intact (· < v.size) t →
        (v.expand t = v.expandOnce^[v.size] t ∧ v.expandOnce (v.expand t) = v.expand t) ∧
        (∀ u, Expands v t u ↔ u = v.expand t) ∧ startMark ∉ v.expand t ∧
        v.expand (v.expand t) = v.expand t ∧ v.expand (s ++ t) = v.expand s ++ v.expand t ∧
        ∀ w u, Layered v t w u → w.expand u = v.expand t := by
  intro v
  have hv : v.Ordered := ordered_empty.after h
  have hentries : v.entries = empty.issuedBy calls := entries_after h
  rw [← hentries]
  refine ⟨placeholders_nodup v, fun more e he => ?_, fun s t hs ht => ?_⟩
  · exact original?_of_mem_entries
      (mem_entries.2 ((after_extends v more).original (mem_entries.1 he)))
  · have hfree := hv.expand_free ht
    exact ⟨⟨hv.expand_eq_iterate ht, expandOnce_eq_self v hfree⟩, fun u => hv.expands_iff ht,
      hfree, expand_eq_self hfree, hv.expand_append hs ht,
      fun w u hlayered => (hv.expand_layered ht hlayered).2.2⟩

/-- A directive with a placeholder in it is set aside, then a text with the placeholder of that
directive, and two layers are put over a text with both. -/
theorem expand_is_full_expansion_nested :
    let calls : List Call := [.deposit "x".toList,
      .shield ("\x7b\x7ba ".toList ++ placeholder 0 ++ "\x7d\x7d".toList),
      .deposit ('y' :: placeholder 1)]
    let v := empty.after calls
    let t := placeholder 2 ++ "\x7b\x7b\x7b\x7bb\x7d\x7d\x7d\x7d".toList
    let w := (v.shield t).1
    empty.Allowed calls ∧ Intact (· < v.size) t ∧
      v.expand t = "y\x7b\x7ba x\x7d\x7d\x7b\x7b\x7b\x7bb\x7d\x7d\x7d\x7d".toList ∧
      (w.shield (v.shield t).2).2 = placeholder 2 ++ placeholder 4 ∧
      (w.shield (v.shield t).2).1.expand (placeholder 2 ++ placeholder 4) = v.expand t := by
  intro calls v t w
  have hallowed : empty.Allowed calls := by
    refine ⟨.of_free (by decide), ?_, .cons (by decide) (.placeholder (by decide)), trivial⟩
    exact .append (.append (.of_free (by decide)) (.placeholder (by decide))) (.of_free (by decide))
  have ht : Intact (· < v.size) t := .append (.placeholder (by decide)) (.of_free (by decide))
  obtain ⟨-, -, hexpand⟩ := expand_is_full_expansion calls hallowed
  have hlayers := (hexpand t t ht ht).2.2.2.2.2 _ _ (.layer (.layer .bare))
  have houter : (w.shield (v.shield t).2).2 = placeholder 2 ++ placeholder 4 := by decide +kernel
  refine ⟨hallowed, ht, by decide +kernel, houter, ?_⟩
  rw [← houter]
  exact hlayers

end StorageMarkup.Vault
