import StorageMarkup.Proofs.Text.Scan
import StorageMarkup.Vault

/-!
# Placeholders in a text

A placeholder is read back as the number it was written for, and it is made of
characters that are neither white space nor braces nor anything markup escapes.
So a text can be cut before any other character without cutting a placeholder.

Results:
1. `inPlaceholder_of_mem`, `not_mem_placeholder_tail`: what a placeholder is made of.
2. `readPlaceholder_exact`, `read_exact`: placeholders are recognised exactly.
3. `split_append`, `expandOnce_append`: a vault looks at both sides of a cut apart.
4. `expandOnce_eq_self`: text without start marks stays as it is.
-/

namespace StorageMarkup

namespace Vault

/-! ## What a placeholder is made of -/

/-- The characters of placeholders. -/
def inPlaceholder (c : Char) : Bool :=
  c == startMark || c == 'h' || c == 'b' || c == 's' || c.isDigit || c == endMark

theorem inPlaceholder_startMark : inPlaceholder startMark = true := rfl

theorem placeholder_eq_cons (n : Nat) : ∃ w, placeholder n = startMark :: w := ⟨_, rfl⟩

theorem placeholder_ne_nil (n : Nat) : placeholder n ≠ [] := by
  obtain ⟨w, hw⟩ := placeholder_eq_cons n
  rw [hw]
  exact List.cons_ne_nil _ _

theorem mem_placeholder_tail {n : Nat} {c : Char} (h : c ∈ (placeholder n).tail) :
    c = 'h' ∨ c = 'b' ∨ c = 's' ∨ c.isDigit = true ∨ c = endMark := by
  simp only [placeholder, List.cons_append, List.tail_cons, List.mem_cons, List.mem_append,
    List.not_mem_nil, or_false] at h
  rcases h with h | h | h | h | h
  · exact .inl h
  · exact .inr (.inl h)
  · exact .inr (.inr (.inl h))
  · exact .inr (.inr (.inr (.inl (Nat.isDigit_of_mem_toDigits (by decide) (by decide) h))))
  · exact .inr (.inr (.inr (.inr h)))

theorem inPlaceholder_of_mem {n : Nat} {c : Char} (h : c ∈ placeholder n) :
    inPlaceholder c = true := by
  obtain ⟨w, hw⟩ := placeholder_eq_cons n
  rw [hw, List.mem_cons] at h
  rcases h with rfl | h
  · exact inPlaceholder_startMark
  · have ht : c ∈ (placeholder n).tail := by rw [hw]; exact h
    rcases mem_placeholder_tail ht with rfl | rfl | rfl | hd | rfl
    · rfl
    · rfl
    · rfl
    · simp [inPlaceholder, hd]
    · rfl

/-- A start mark stands at the start of a placeholder only. -/
theorem startMark_not_mem_tail (n : Nat) : startMark ∉ (placeholder n).tail := by
  intro h
  rcases mem_placeholder_tail h with h | h | h | h | h <;> revert h <;> decide

theorem not_mem_placeholder_tail {n : Nat} {c : Char} (h : inPlaceholder c = false) :
    c ∉ (placeholder n).tail := by
  intro hm
  rw [inPlaceholder_of_mem (List.mem_of_mem_tail hm)] at h
  cases h

theorem not_mem_placeholder {n : Nat} {c : Char} (h : inPlaceholder c = false) :
    c ∉ placeholder n := by
  intro hm
  rw [inPlaceholder_of_mem hm] at h
  cases h

/-! ## Reading a placeholder back -/

theorem readDigits_toDigits (n : Nat) : readDigits (Nat.toDigits 10 n) = n := by
  show (Nat.toDigits 10 n).foldl _ 0 = n
  rw [← Nat.ofDigitChars_eq_foldl]
  exact Nat.ofDigitChars_ten_toDigits

theorem takeWhile_isDigit_toDigits (n : Nat) (s : List Char) :
    (Nat.toDigits 10 n ++ endMark :: s).takeWhile Char.isDigit = Nat.toDigits 10 n :=
  takeWhile_append_stop (fun _ hc => Nat.isDigit_of_mem_toDigits (by decide) (by decide) hc)
    (by decide) s

/-- The number of a placeholder is the one it was written for. -/
theorem readPlaceholder_placeholder (n : Nat) (s : List Char) :
    readPlaceholder (placeholder n ++ s) = some (n, (placeholder n).length - 1) := by
  have hs : placeholder n ++ s =
      startMark :: 'h' :: 'b' :: 's' :: (Nat.toDigits 10 n ++ endMark :: s) := by
    simp [placeholder]
  rw [hs, readPlaceholder]
  simp only [takeWhile_isDigit_toDigits, readDigits_toDigits]
  rw [if_pos ⟨trivial, List.isPrefixOf_iff_prefix.2 (hs ▸ List.prefix_append _ s)⟩]

theorem prefix_of_readPlaceholder {s : List Char} {n more : Nat}
    (h : readPlaceholder s = some (n, more)) :
    placeholder n <+: s ∧ (placeholder n).length = more + 1 := by
  unfold readPlaceholder at h
  split at h
  · next c rest =>
    simp only at h
    split at h
    · next hp =>
      simp only [Option.some.injEq, Prod.mk.injEq] at h
      obtain ⟨rfl, rfl⟩ := h
      exact ⟨List.isPrefixOf_iff_prefix.1 hp.2, by simp [placeholder]⟩
    · cases h
  · cases h

theorem readPlaceholder_exact : Exact readPlaceholder placeholder fun _ => True where
  read_eq_some {s n more} := by
    constructor
    · intro h
      exact ⟨trivial, prefix_of_readPlaceholder h⟩
    · rintro ⟨-, ⟨rest, rfl⟩, hlen⟩
      rw [readPlaceholder_placeholder, hlen]
      rfl

/-- A text starts with one placeholder at most. -/
theorem placeholder_prefix_unique {m n : Nat} {s : List Char} (hm : placeholder m <+: s)
    (hn : placeholder n <+: s) : m = n := by
  obtain ⟨a, ha⟩ := hm
  obtain ⟨b, hb⟩ := hn
  have h := readPlaceholder_placeholder m a
  rw [ha, ← hb, readPlaceholder_placeholder] at h
  exact (Prod.mk.inj (Option.some.inj h)).1.symm

/-- A vault recognises the placeholders it has handed out, with what they stand for. -/
theorem read_exact (v : Vault) :
    Exact v.read Entry.placeholder fun e => v.originals[e.number]? = some e.original where
  read_eq_some {s e more} := by
    obtain ⟨n, original⟩ := e
    show v.read s = some (⟨n, original⟩, more) ↔
      v.originals[n]? = some original ∧ placeholder n <+: s ∧ (placeholder n).length = more + 1
    have hread : readPlaceholder s = some (n, more) ↔
        placeholder n <+: s ∧ (placeholder n).length = more + 1 := by
      rw [readPlaceholder_exact.read_eq_some]
      exact and_iff_right trivial
    unfold read
    constructor
    · intro h
      split at h
      · next m more' hm =>
        obtain ⟨o, ho, he⟩ := Option.map_eq_some_iff.1 h
        simp only [Prod.mk.injEq, Entry.mk.injEq] at he
        obtain ⟨⟨rfl, rfl⟩, rfl⟩ := he
        exact ⟨ho, hread.1 hm⟩
      · cases h
    · rintro ⟨ho, hp⟩
      rw [hread.2 hp]
      simp [ho]

/-! ## A text as a vault sees it -/

variable (v : Vault)

@[simp]
theorem split_nil : v.split [] = [] := rfl

/-- A character that no placeholder starts with passes. -/
theorem split_char {c : Char} (hc : c ≠ startMark) (s : List Char) :
    v.split (c :: s) = .char c :: v.split s := by
  refine scan_char ?_
  cases hr : v.read (c :: s) with
  | none => rfl
  | some hit =>
    obtain ⟨_, hp, _⟩ := v.read_exact.read_eq_some.1 hr
    obtain ⟨w, hw⟩ := placeholder_eq_cons hit.1.number
    rw [Entry.placeholder, hw] at hp
    exact absurd (List.cons_prefix_cons.1 hp).1.symm hc

theorem split_placeholder {n : Nat} {original : List Char}
    (h : v.originals[n]? = some original) (s : List Char) :
    v.split (placeholder n ++ s) = .hit ⟨n, original⟩ :: v.split s :=
  v.read_exact.scan_written (a := ⟨n, original⟩) h (placeholder_ne_nil n) s

/-- Before a character of no placeholder's inside, a text is cut without loss. -/
theorem split_append {c : Char} (hc : ∀ n, c ∉ (placeholder n).tail) (u s : List Char) :
    v.split (u ++ c :: s) = v.split u ++ v.split (c :: s) :=
  v.read_exact.scan_append (fun e _ => hc e.number) u s

theorem spell_split (s : List Char) : spell Entry.placeholder (v.split s) = s :=
  v.read_exact.spell_scan s

theorem original_of_mem_split {s : List Char} {e : Entry} (h : .hit e ∈ v.split s) :
    v.originals[e.number]? = some e.original :=
  v.read_exact.valid_of_hit h

theorem infix_of_mem_split {s : List Char} {e : Entry} (h : .hit e ∈ v.split s) :
    placeholder e.number <:+: s :=
  v.read_exact.infix_of_hit h

/-- A text without start marks has no placeholders; what follows it is looked at by itself. -/
theorem split_free_append {u : List Char} (hu : startMark ∉ u) (s : List Char) :
    v.split (u ++ s) = u.map .char ++ v.split s := by
  induction u with
  | nil => rfl
  | cons c u ih =>
    rw [List.mem_cons, not_or] at hu
    rw [List.cons_append, split_char v (Ne.symm hu.1), ih hu.2, List.map_cons, List.cons_append]

/-! ## One round of putting back -/

@[simp]
theorem expandOnce_nil : v.expandOnce [] = [] := rfl

theorem expandOnce_char {c : Char} (hc : c ≠ startMark) (s : List Char) :
    v.expandOnce (c :: s) = c :: v.expandOnce s := by
  rw [expandOnce, split_char v hc, spell, expandOnce]

theorem expandOnce_placeholder {n : Nat} {original : List Char}
    (h : v.originals[n]? = some original) (s : List Char) :
    v.expandOnce (placeholder n ++ s) = original ++ v.expandOnce s := by
  rw [expandOnce, split_placeholder v h, spell, expandOnce]

theorem expandOnce_append {c : Char} (hc : ∀ n, c ∉ (placeholder n).tail) (u s : List Char) :
    v.expandOnce (u ++ c :: s) = v.expandOnce u ++ v.expandOnce (c :: s) := by
  rw [expandOnce, split_append v hc, spell_append, expandOnce, expandOnce]

theorem expandOnce_free_append {u : List Char} (hu : startMark ∉ u) (s : List Char) :
    v.expandOnce (u ++ s) = u ++ v.expandOnce s := by
  induction u with
  | nil => rfl
  | cons c u ih =>
    rw [List.mem_cons, not_or] at hu
    rw [List.cons_append, expandOnce_char v (Ne.symm hu.1), ih hu.2, List.cons_append]

theorem expandOnce_eq_self {s : List Char} (h : startMark ∉ s) : v.expandOnce s = s := by
  have := expandOnce_free_append v h []
  rwa [List.append_nil, expandOnce_nil, List.append_nil] at this

end Vault

end StorageMarkup
