import StorageMarkup.Proofs.Directive.Lexicon
import StorageMarkup.Proofs.Vault.Intact

/-!
# Vaults that refer back

Texts that are set aside may hold placeholders of texts set aside before them. In a
vault where they hold no others, putting back comes to an end: each round only
leaves placeholders that are older than the newest one before it.

Results:
1. `Ordered.expand_free`: putting back leaves no start mark.
2. `Extends`, `shield_extends`: a vault only grows, texts keep their placeholders.
3. `Intact.induct`: an intact text, piece by piece.
4. `Ordered.shield`: setting directives aside keeps the vault in order.
-/

namespace StorageMarkup.Vault

variable {v w : Vault} {s : List Char}

/-! ## Growth -/

/-- The second vault has the texts of the first under the same placeholders. -/
def Extends (v w : Vault) : Prop := v.originals <+: w.originals

namespace Extends

theorem refl (v : Vault) : Extends v v := List.prefix_refl _

theorem trans {u : Vault} (h : Extends u v) (h' : Extends v w) : Extends u w :=
  List.IsPrefix.trans h h'

theorem size_le (h : Extends v w) : v.size ≤ w.size := List.IsPrefix.length_le h

theorem original (h : Extends v w) {n : Nat} {original : List Char}
    (ho : v.originals[n]? = some original) : w.originals[n]? = some original := by
  obtain ⟨more, hm⟩ := h
  rw [← hm, List.getElem?_append_left (List.getElem?_eq_some_iff.1 ho).1, ho]

end Extends

theorem Intact.below {k b : Nat} (h : Intact (· < k) s) (hk : k ≤ b) : Intact (· < b) s :=
  h.mono fun _ hn => Nat.lt_of_lt_of_le hn hk

theorem Intact.grow (h : Intact (· < v.size) s) (hw : v.Extends w) : Intact (· < w.size) s :=
  h.below hw.size_le

theorem deposit_extends (v : Vault) (text : List Char) : v.Extends (v.deposit text).1 :=
  List.prefix_append _ _

theorem deposit_original (v : Vault) (text : List Char) :
    (v.deposit text).1.originals[v.size]? = some text := by
  show (v.originals ++ [text])[v.originals.length]? = some text
  rw [List.getElem?_append_right (Nat.le_refl _), Nat.sub_self]
  rfl

theorem size_deposit (v : Vault) (text : List Char) : (v.deposit text).1.size = v.size + 1 :=
  List.length_append

theorem lt_size_of_original {n : Nat} {original : List Char}
    (h : v.originals[n]? = some original) : n < v.size :=
  (List.getElem?_eq_some_iff.1 h).1

/-! ## Setting directives aside, step by step -/

@[simp]
theorem shield_nil (v : Vault) : v.shield [] = (v, []) := rfl

theorem shield_char {c : Char} (h : Directive.read (c :: s) = none) (v : Vault) :
    v.shield (c :: s) = ((v.shield s).1, c :: (v.shield s).2) := by
  rw [shield, Directive.split, scan_char h, shieldHits, shield, Directive.split]

theorem shield_token {token : List Char} (h : Directive.IsToken token) (v : Vault) (s : List Char) :
    v.shield (token ++ s) =
      (((v.deposit token).1.shield s).1,
        (v.deposit token).2 ++ ((v.deposit token).1.shield s).2) := by
  rw [shield, Directive.split_token h, shieldHits, shield]

/-- Text without braces passes. -/
theorem shield_append {u : List Char} (hu : ∀ c ∈ u, Directive.isBrace c = false) (v : Vault)
    (s : List Char) : v.shield (u ++ s) = ((v.shield s).1, u ++ (v.shield s).2) := by
  induction u with
  | nil => rfl
  | cons c u ih =>
    rw [List.forall_mem_cons] at hu
    rw [List.cons_append, shield, Directive.split_char hu.1, shieldHits, ← shield, ih hu.2,
      List.cons_append]

theorem shield_eq_self {s : List Char} (h : ∀ c ∈ s, Directive.isBrace c = false) (v : Vault) :
    v.shield s = (v, s) := by
  have := shield_append h v []
  rwa [List.append_nil, shield_nil, List.append_nil] at this

theorem shield_extends (v : Vault) (s : List Char) : v.Extends (v.shield s).1 := by
  induction s using Directive.read_exact.induct generalizing v with
  | nil => exact .refl v
  | char c s hr ih =>
    rw [shield_char hr]
    exact ih v
  | hit token s ht _ ih =>
    rw [shield_token ht]
    exact (deposit_extends v token).trans (ih _)

/-! ## Order -/

/-- Every text refers to older texts only. -/
def Ordered (v : Vault) : Prop := ∀ n s, v.originals[n]? = some s → Intact (· < n) s

theorem ordered_empty : Ordered empty := fun _ _ h => nomatch h

theorem Ordered.deposit (hv : v.Ordered) (hs : Intact (· < v.size) s) :
    (v.deposit s).1.Ordered := by
  intro n o ho
  rcases Nat.lt_or_ge n v.size with hn | hn
  · refine hv n o ?_
    rw [← ho]
    exact (List.getElem?_append_left hn).symm
  · have hlt := lt_size_of_original ho
    rw [size_deposit] at hlt
    have hn : n = v.size := by omega
    rw [hn, deposit_original] at ho
    cases ho
    rw [hn]
    exact hs

/-- One round takes the newest placeholders away and puts none as new in their place. -/
theorem Ordered.expandOnce (hv : v.Ordered) {b : Nat} (hb : b + 1 ≤ v.size)
    (h : Intact (· < b + 1) s) : Intact (· < b) (v.expandOnce s) := by
  obtain ⟨numbers, hw⟩ := intact_iff_woven.1 h
  clear h
  induction hw with
  | nil => exact .of_free List.not_mem_nil
  | char hc _ ih =>
    rw [expandOnce_char v hc]
    exact ih.cons hc
  | @unit n u numbers s hu _ ih =>
    obtain ⟨hn, rfl⟩ := hu
    have hlt : n < v.originals.length := Nat.lt_of_lt_of_le hn hb
    have ho := List.getElem?_eq_getElem hlt
    rw [expandOnce_placeholder v ho]
    exact ((hv n _ ho).mono fun k hk => by omega).append ih

theorem Ordered.expandUpTo (hv : v.Ordered) (b : Nat) :
    ∀ (rounds : Nat) (s : List Char), b ≤ rounds → b ≤ v.size → Intact (· < b) s →
      startMark ∉ v.expandUpTo rounds s := by
  induction b with
  | zero =>
    intro rounds s _ _ hs
    have hfree := (hs.mono fun n hn => Nat.not_lt_zero n hn).free
    cases rounds with
    | zero => exact hfree
    | succ rounds => rwa [Vault.expandUpTo, if_pos (expandOnce_eq_self v hfree)]
  | succ b ih =>
    intro rounds s hr hb hs
    cases rounds with
    | zero => omega
    | succ rounds =>
      have hnext := hv.expandOnce hb hs
      rw [Vault.expandUpTo]
      split
      · next heq =>
        -- a text that a round leaves alone is as far as the next one
        rw [heq] at hnext
        have := ih (rounds + 1) s (by omega) (by omega) hnext
        rwa [Vault.expandUpTo, if_pos heq] at this
      · exact ih rounds _ (by omega) (by omega) hnext

/-- Putting back leaves no start mark. -/
theorem Ordered.expand_free (hv : v.Ordered) (hs : Intact (· < v.size) s) :
    startMark ∉ v.expand s := by
  unfold expand
  split
  · exact hv.expandUpTo v.size _ s (Nat.le_add_right _ _) (Nat.le_refl _) hs
  · next h => exact h

/-! ## Order and setting aside -/

theorem not_brace_of_mem_placeholder {n : Nat} :
    ∀ c ∈ placeholder n, Directive.isBrace c = false := by
  intro c hc
  rw [Directive.isBrace_eq_false]
  constructor <;>
  · rintro rfl
    exact absurd (inPlaceholder_of_mem hc) (by decide)

theorem intact_token {known : Nat → Prop} {token : List Char} (ht : Directive.IsToken token)
    (h : Intact known (token ++ s)) : Intact known token := by
  obtain ⟨inner, rfl, _⟩ := ht
  have hcut : '{' :: '{' :: (inner ++ ['}', '}']) ++ s =
      '{' :: '{' :: (inner ++ ['}']) ++ '}' :: s := by simp
  rw [hcut] at h
  have hend : Intact known ['}'] := .of_free (by decide)
  have := (h.cut (by decide)).1.append hend
  simpa using this

/-- An intact text is empty, or it starts with a placeholder, a directive or a character that starts
neither. -/
theorem Intact.induct {known : Nat → Prop} {P : List Char → Prop} (nil : P [])
    (char : ∀ c s, c ≠ startMark → Directive.read (c :: s) = none → Intact known s → P s →
      P (c :: s))
    (token : ∀ token s, Directive.IsToken token → Intact known token → Intact known s → P s →
      P (token ++ s))
    (placeholder : ∀ n s, known n → Intact known s → P s → P (Vault.placeholder n ++ s))
    (hs : Intact known s) : P s := by
  induction hn : s.length using Nat.strongRecOn generalizing s with
  | ind n ih =>
    obtain ⟨numbers, hw⟩ := intact_iff_woven.1 hs
    cases hw with
    | nil => exact nil
    | @char c numbers s hc hw =>
      cases hr : Directive.read (c :: s) with
      | none =>
        have hrest : Intact known s := Intact.of_suffix (t := [c]) hs
        exact char c s hc hr hrest (ih s.length (by simp [← hn]) hrest rfl)
      | some hit =>
        obtain ⟨d, more⟩ := hit
        have ht := (Directive.read_exact.read_eq_some.1 hr).1
        rw [Directive.read_exact.read_split hr] at hs ⊢
        have hlt : (s.drop more).length < n := by
          rw [List.length_drop, ← hn, List.length_cons]
          omega
        exact token d _ ht (intact_token ht hs) hs.of_suffix (ih _ hlt hs.of_suffix rfl)
    | @unit m u numbers s hu hw =>
      obtain ⟨hm, rfl⟩ := hu
      have hlt : s.length < n := by
        have := List.length_pos_iff.2 (placeholder_ne_nil m)
        rw [List.length_append] at hn
        omega
      exact placeholder m s hm hs.of_suffix (ih _ hlt hs.of_suffix rfl)

/-- Setting directives aside keeps the vault in order and placeholders whole. -/
theorem Ordered.shield {k : Nat} (hs : Intact (· < k) s) :
    ∀ {v : Vault}, v.Ordered → k ≤ v.size →
      (v.shield s).1.Ordered ∧ Intact (· < (v.shield s).1.size) (v.shield s).2 := by
  refine Intact.induct (P := fun s => ∀ {v : Vault}, v.Ordered → k ≤ v.size →
    (v.shield s).1.Ordered ∧ Intact (· < (v.shield s).1.size) (v.shield s).2) ?_ ?_ ?_ ?_ hs
  · exact fun hv _ => ⟨hv, .of_free List.not_mem_nil⟩
  · intro c s hc hr _ ih v hv hk
    obtain ⟨hv', hs'⟩ := ih hv hk
    rw [shield_char hr]
    exact ⟨hv', hs'.cons hc⟩
  · intro token s ht htoken _ ih v hv hk
    -- a directive refers to older texts only, so it can be deposited
    have hdeposit := hv.deposit (htoken.below hk)
    have hsize := size_deposit v token
    obtain ⟨hv', hs'⟩ := ih hdeposit (by omega)
    rw [shield_token ht]
    refine ⟨hv', .append (.placeholder ?_) hs'⟩
    have hgrow := (shield_extends (v.deposit token).1 s).size_le
    exact Nat.lt_of_lt_of_le (by omega) hgrow
  · intro m s hm _ ih v hv hk
    -- no directive starts inside a placeholder, which has no braces
    obtain ⟨hv', hs'⟩ := ih hv hk
    rw [shield_append not_brace_of_mem_placeholder]
    refine ⟨hv', .append (.placeholder ?_) hs'⟩
    exact Nat.lt_of_lt_of_le (Nat.lt_of_lt_of_le hm hk) (shield_extends v s).size_le

end StorageMarkup.Vault
