import Mathlib.Data.List.Forall2
import StorageMarkup.Proofs.Text.Twin
import StorageMarkup.Proofs.Vault.Intact

/-!
# Texts that differ in the numbers of placeholders

A conversion never looks at the number of a placeholder, only at what the vault keeps
under it. Two texts are alike when they are the same but for these numbers, and each
operation on texts makes alike texts of alike texts.

Results:
1. `Alike.of_append_free`, `Alike.of_placeholder`: how an alike text starts.
2. `Alike.biUnique`: matched one to one, numbers do not show in comparisons.
3. `Alike.strip`, `Alike.words`, `Alike.dropStart?`: cutting.
4. `Alike.printText`, `Alike.escapeQuoted`, `Alike.replaceAll`: writing.
5. `Matching.expand_eq`: what is put back is the same.
-/

namespace StorageMarkup

open Vault

variable {same : Nat → Nat → Prop} {s t u w : List Char}

/-- Placeholders with matched numbers. -/
def MatchedPlaceholders (same : Nat → Nat → Prop) (numbers : Nat × Nat) (u w : List Char) : Prop :=
  same numbers.1 numbers.2 ∧ u = placeholder numbers.1 ∧ w = placeholder numbers.2

/-- The same text but for the numbers of placeholders, which `same` matches. -/
def Alike (same : Nat → Nat → Prop) (s t : List Char) : Prop :=
  ∃ numbers, Twin (· ≠ startMark) (MatchedPlaceholders same) numbers s t

/-- Matched numbers stand for one text, which holds no placeholders, and are matched one to one. -/
structure Matching (v w : Vault) (same : Nat → Nat → Prop) : Prop where
  original {m n : Nat} (h : same m n) :
    ∃ d, v.originals[m]? = some d ∧ w.originals[n]? = some d ∧ startMark ∉ d
  unique {m n m' n' : Nat} (h : same m n) (h' : same m' n') : m = m' ↔ n = n'

theorem capped_matched (numbers : Nat × Nat) (u w : List Char)
    (h : MatchedPlaceholders same numbers u w) : Capped u ∧ Capped w := by
  obtain ⟨-, rfl, rfl⟩ := h
  exact ⟨capped_placeholder _, capped_placeholder _⟩

namespace Alike

/-! ## Making alike texts -/

theorem nil : Alike same [] [] := ⟨[], .nil⟩

theorem char {c : Char} (hc : c ≠ startMark) : Alike same s t → Alike same (c :: s) (c :: t)
  | ⟨numbers, h⟩ => ⟨numbers, .char hc h⟩

theorem placeholder {m n : Nat} (hmn : same m n) :
    Alike same s t → Alike same (placeholder m ++ s) (Vault.placeholder n ++ t)
  | ⟨numbers, h⟩ => ⟨(m, n) :: numbers, .unit ⟨hmn, rfl, rfl⟩ h⟩

/-- Alike texts are empty, or start with the same character or with matched placeholders. -/
@[elab_as_elim]
theorem induct {P : (s t : List Char) → Alike same s t → Prop} (nil : P [] [] .nil)
    (char : ∀ c s t hc h, P s t h → P (c :: s) (c :: t) (.char hc h))
    (placeholder : ∀ m n s t hmn h, P s t h →
      P (Vault.placeholder m ++ s) (Vault.placeholder n ++ t) (.placeholder hmn h))
    {s t : List Char} (h : Alike same s t) : P s t h := by
  obtain ⟨numbers, h⟩ := h
  induction h with
  | nil => exact nil
  | char hc h ih => exact char _ _ _ hc ⟨_, h⟩ ih
  | unit hu h ih =>
    obtain ⟨hmn, rfl, rfl⟩ := hu
    exact placeholder _ _ _ _ hmn ⟨_, h⟩ ih

theorem append : Alike same s t → Alike same u w → Alike same (s ++ u) (t ++ w)
  | ⟨_, h⟩, ⟨_, h'⟩ => ⟨_, h.append h'⟩

theorem of_free (h : startMark ∉ s) : Alike same s s :=
  ⟨[], .of_plain fun _ hc he => h (he ▸ hc)⟩

theorem swap (h : Alike same s t) : Alike (fun m n => same n m) t s := by
  induction h using induct with
  | nil => exact .nil
  | char c s t hc _ ih => exact .char hc ih
  | placeholder m n s t hmn _ ih => exact .placeholder hmn ih

theorem mono {same' : Nat → Nat → Prop} (h : Alike same s t) (hs : ∀ m n, same m n → same' m n) :
    Alike same' s t := by
  induction h using induct with
  | nil => exact .nil
  | char c s t hc _ ih => exact .char hc ih
  | placeholder m n s t hmn _ ih => exact .placeholder (hs m n hmn) ih

/-! ## Starts -/

theorem of_nil (h : Alike same [] t) : t = [] := by
  obtain ⟨_, h⟩ := h
  exact (h.eq_nil capped_matched).2

theorem of_char {c : Char} (hc : c ≠ startMark) (h : Alike same (c :: s) t) :
    ∃ t', t = c :: t' ∧ Alike same s t' := by
  generalize hr : c :: s = r at h
  induction h using induct with
  | nil => cases hr
  | char d s' t' _ h _ =>
    cases hr
    exact ⟨t', rfl, h⟩
  | placeholder m n s' t' _ _ _ =>
    obtain ⟨w, hw⟩ := placeholder_eq_cons m
    rw [hw] at hr
    exact absurd (List.cons.inj hr).1 hc

theorem of_placeholder {m : Nat} (h : Alike same (Vault.placeholder m ++ s) t) :
    ∃ n t', same m n ∧ t = Vault.placeholder n ++ t' ∧ Alike same s t' := by
  generalize hr : Vault.placeholder m ++ s = r at h
  induction h using induct with
  | nil => exact absurd (List.append_eq_nil_iff.1 hr).1 (placeholder_ne_nil m)
  | char c s' t' hc _ _ =>
    obtain ⟨w, hw⟩ := placeholder_eq_cons m
    rw [hw] at hr
    exact absurd (List.cons.inj hr).1.symm hc
  | placeholder m' n s' t' hmn h _ =>
    obtain rfl : m = m' :=
      placeholder_prefix_unique (List.prefix_append _ s) (hr ▸ List.prefix_append _ _)
    cases List.append_cancel_left hr
    exact ⟨n, t', hmn, rfl, h⟩

theorem of_append_free {p : List Char} (hp : startMark ∉ p) (h : Alike same (p ++ s) t) :
    ∃ t', t = p ++ t' ∧ Alike same s t' := by
  induction p generalizing t with
  | nil => exact ⟨t, rfl, h⟩
  | cons c p ih =>
    rw [List.mem_cons, not_or] at hp
    obtain ⟨t', rfl, h'⟩ := h.of_char (Ne.symm hp.1)
    obtain ⟨t'', rfl, h''⟩ := ih hp.2 h'
    exact ⟨t'', rfl, h''⟩

theorem eq_of_free (hs : startMark ∉ s) (h : Alike same s t) : t = s := by
  rw [← List.append_nil s] at h
  obtain ⟨t', rfl, h'⟩ := h.of_append_free hs
  rw [h'.of_nil, List.append_nil]

/-! ## Comparing -/

theorem eq_nil_iff (h : Alike same s t) : s = [] ↔ t = [] :=
  ⟨fun hs => (hs ▸ h).of_nil, fun ht => (ht ▸ h.swap).of_nil⟩

theorem exists_cons {c : Char} (h : Alike same (c :: s) t) : ∃ d t', t = d :: t' :=
  List.exists_cons_of_ne_nil fun ht => List.cons_ne_nil c s (h.eq_nil_iff.2 ht)

theorem isEmpty_eq (h : Alike same s t) : s.isEmpty = t.isEmpty := by
  rw [Bool.eq_iff_iff, List.isEmpty_iff, List.isEmpty_iff, h.eq_nil_iff]

theorem isBlank_eq : Alike same s t → isBlank s = isBlank t
  | ⟨_, h⟩ => h.isBlank_eq capped_matched

/-- Numbers do not show in a comparison with a fixed text. -/
theorem eq_free_iff {p : List Char} (hp : startMark ∉ p) (h : Alike same s t) : s = p ↔ t = p := by
  constructor
  · rintro rfl
    exact h.eq_of_free hp
  · rintro rfl
    exact h.swap.eq_of_free hp

theorem eq_of_eq {v w : Vault} (hsame : Matching v w same) {s' t' : List Char} (h : Alike same s t)
    (h' : Alike same s' t') (he : s = s') : t = t' := by
  induction h using induct generalizing s' t' with
  | nil =>
    rw [← he] at h'
    exact h'.of_nil.symm
  | char c s t hc _ ih =>
    rw [← he] at h'
    obtain ⟨t'', rfl, h''⟩ := h'.of_char hc
    rw [ih h'' rfl]
  | placeholder m n s t hmn _ ih =>
    rw [← he] at h'
    obtain ⟨n', t'', hmn', rfl, h''⟩ := h'.of_placeholder
    rw [(hsame.unique hmn hmn').1 rfl, ih h'' rfl]

end Alike

theorem Matching.swap {v w : Vault} (hsame : Matching v w same) :
    Matching w v fun m n => same n m where
  original h := by
    obtain ⟨d, hv, hw, hd⟩ := hsame.original h
    exact ⟨d, hw, hv, hd⟩
  unique h h' := (hsame.unique h h').symm

namespace Alike

/-- Numbers do not show in a comparison of two texts. -/
theorem biUnique {v w : Vault} (hsame : Matching v w same) : Relator.BiUnique (Alike same) :=
  ⟨fun _ _ _ h h' => h.swap.eq_of_eq hsame.swap h'.swap rfl,
    fun _ _ _ h h' => h.eq_of_eq hsame h' rfl⟩

/-! ## Cutting -/

theorem stripRight :
    Alike same s t → Alike same (StorageMarkup.stripRight s) (StorageMarkup.stripRight t)
  | ⟨_, h⟩ => ⟨_, h.stripRight capped_matched⟩

theorem strip : Alike same s t → Alike same (StorageMarkup.strip s) (StorageMarkup.strip t)
  | ⟨_, h⟩ => ⟨_, h.strip capped_matched⟩

end Alike

theorem forall₂_of_twins {numbers : List (Nat × Nat)} {ss ts : List (List Char)}
    (h : Twins (· ≠ startMark) (MatchedPlaceholders same) numbers ss ts) :
    List.Forall₂ (Alike same) ss ts := by
  induction h with
  | nil => exact .nil
  | cons h _ ih => exact .cons ⟨_, h⟩ ih

namespace Alike

theorem words (h : Alike same s t) :
    List.Forall₂ (Alike same) (StorageMarkup.words s) (StorageMarkup.words t) := by
  obtain ⟨_, h⟩ := h
  have hsep : ∀ c, inPlaceholder c = true → isSpace c = false := fun _ => isSpace_of_inPlaceholder
  have hpieces : List.Forall₂ (Alike same) (pieces isSpace s) (pieces isSpace t) :=
    forall₂_of_twins (h.pieces fun numbers u w hu => by
      obtain ⟨-, rfl, rfl⟩ := hu
      exact ⟨fun c hc => hsep c (inPlaceholder_of_mem hc),
        fun c hc => hsep c (inPlaceholder_of_mem hc)⟩)
  refine List.rel_filter (fun a b hab => ?_) hpieces
  show (!a.isEmpty) = true ↔ (!b.isEmpty) = true
  rw [hab.isEmpty_eq]

theorem dropStart? {p : List Char} (hp : startMark ∉ p) (h : Alike same s t) :
    Option.Rel (Alike same) (StorageMarkup.dropStart? p s) (StorageMarkup.dropStart? p t) := by
  cases hs : StorageMarkup.dropStart? p s with
  | some r =>
    rw [dropStart?_eq_some.1 hs] at h
    obtain ⟨r', rfl, hr⟩ := h.of_append_free hp
    rw [dropStart?_eq_some.2 rfl]
    exact .some hr
  | none =>
    cases ht : StorageMarkup.dropStart? p t with
    | none => exact .none
    | some r =>
      rw [dropStart?_eq_some.1 ht] at h
      obtain ⟨r', rfl, -⟩ := h.swap.of_append_free hp
      rw [dropStart?_eq_some.2 rfl] at hs
      cases hs

theorem isPrefixOf_eq {p : List Char} (hp : startMark ∉ p) (h : Alike same s t) :
    p.isPrefixOf s = p.isPrefixOf t := by
  rw [Bool.eq_iff_iff, List.isPrefixOf_iff_prefix, List.isPrefixOf_iff_prefix]
  constructor
  · rintro ⟨r, rfl⟩
    obtain ⟨r', rfl, -⟩ := h.of_append_free hp
    exact List.prefix_append p r'
  · rintro ⟨r, rfl⟩
    obtain ⟨r', rfl, -⟩ := h.swap.of_append_free hp
    exact List.prefix_append p r'

/-- A stretch of characters that may be those of placeholders, and what follows it. -/
theorem span {p : Char → Bool} (hp : ∀ c, inPlaceholder c = true → p c = true)
    (h : Alike same s t) :
    Alike same (s.takeWhile p) (t.takeWhile p) ∧ Alike same (s.dropWhile p) (t.dropWhile p) := by
  induction h using induct with
  | nil => exact ⟨.nil, .nil⟩
  | char c s t hc h ih =>
    rw [List.takeWhile_cons, List.takeWhile_cons, List.dropWhile_cons, List.dropWhile_cons]
    split
    · exact ⟨.char hc ih.1, ih.2⟩
    · exact ⟨.nil, .char hc h⟩
  | placeholder m n s t hmn _ ih =>
    have hall : ∀ k, ∀ c ∈ Vault.placeholder k, p c = true := fun k c hc =>
      hp c (inPlaceholder_of_mem hc)
    rw [List.takeWhile_append_of_pos (hall m), List.takeWhile_append_of_pos (hall n),
      List.dropWhile_append_of_pos (hall m), List.dropWhile_append_of_pos (hall n)]
    exact ⟨.placeholder hmn ih.1, ih.2⟩

/-- White space at the start. -/
theorem takeWhile_isSpace_eq (h : Alike same s t) : s.takeWhile isSpace = t.takeWhile isSpace := by
  induction h using induct with
  | nil => rfl
  | char c s t _ _ ih => rw [List.takeWhile_cons, List.takeWhile_cons, ih]
  | placeholder m n s t _ _ _ =>
    have hstop : ∀ k r, (Vault.placeholder k ++ r).takeWhile isSpace = [] := by
      intro k r
      obtain ⟨u, hu⟩ := placeholder_eq_cons k
      rw [hu]
      rfl
    rw [hstop, hstop]

end Alike

/-! ## Writing -/

namespace Alike

theorem flatMap {f : Char → List Char} (hf : ∀ c, c ≠ startMark → startMark ∉ f c)
    (hfixed : ∀ c, inPlaceholder c = true → f c = [c]) (h : Alike same s t) :
    Alike same (s.flatMap f) (t.flatMap f) := by
  induction h using induct with
  | nil => exact .nil
  | char c s t hc _ ih =>
    rw [List.flatMap_cons, List.flatMap_cons]
    exact .append (.of_free (hf c hc)) ih
  | placeholder m n s t hmn _ ih =>
    have hall : ∀ k, (Vault.placeholder k).flatMap f = Vault.placeholder k := fun k =>
      Woven.flatMap_eq_self fun c hc => hfixed c (inPlaceholder_of_mem hc)
    rw [List.flatMap_append, List.flatMap_append, hall, hall]
    exact .placeholder hmn ih

theorem escapeText (h : Alike same s t) :
    Alike same (StorageMarkup.escapeText s) (StorageMarkup.escapeText t) := by
  have hmark : ∀ {c d : Char}, c ≠ startMark → d ∈ escapeTextChar c → d ≠ startMark := fun hc hd =>
    Woven.plain_of_mem_escapeTextChar (fun _ h _ => h) hc hd
  exact h.flatMap (fun _ hc hm => hmark hc hm rfl) fun _ => Woven.escapeTextChar_eq_self

theorem escapeQuoted (h : Alike same s t) :
    Alike same (StorageMarkup.escapeQuoted s) (StorageMarkup.escapeQuoted t) := by
  have hmark : ∀ {c d : Char}, c ≠ startMark → d ∈ escapeQuotedChar c → d ≠ startMark :=
    fun hc hd => Woven.plain_of_mem_escapeQuotedChar (fun _ h _ => h) hc hd
  exact h.flatMap (fun _ hc hm => hmark hc hm rfl) fun _ => Woven.escapeQuotedChar_eq_self

end Alike

/-- A recogniser that reads the same in alike texts, and no placeholder takes part in what it
reads. -/
structure ReadsAlike {α : Type} (read : List Char → Option (α × Nat)) : Prop where
  hit {same : Nat → Nat → Prop} {s t : List Char} {a : α} {more : Nat} (h : Alike same s t)
    (hr : read s = some (a, more)) : read t = some (a, more)
  free {s : List Char} {a : α} {more : Nat} (hr : read s = some (a, more)) :
    more < s.length ∧ startMark ∉ s.take (more + 1)
  passes {c : Char} (hc : inPlaceholder c = true) (s : List Char) : read (c :: s) = none

namespace ReadsAlike

variable {α : Type} {read : List Char → Option (α × Nat)} {a : α} {more : Nat}

theorem miss (hread : ReadsAlike read) (h : Alike same s t) (hr : read s = none) :
    read t = none := by
  cases ht : read t with
  | none => rfl
  | some hit =>
    obtain ⟨a, more⟩ := hit
    rw [hread.hit h.swap ht] at hr
    cases hr

theorem drop (hread : ReadsAlike read) (h : Alike same s t) (hr : read s = some (a, more)) :
    Alike same (s.drop (more + 1)) (t.drop (more + 1)) := by
  obtain ⟨hlt, hfree⟩ := hread.free hr
  rw [← List.take_append_drop (more + 1) s] at h
  obtain ⟨t', rfl, h'⟩ := h.of_append_free hfree
  have hlen : (s.take (more + 1)).length = more + 1 := List.length_take_of_le hlt
  rwa [List.drop_append_of_le_length (Nat.le_of_eq hlen.symm), List.drop_of_length_le
    (Nat.le_of_eq hlen), List.nil_append]

/-- What is read gives way to fixed text. -/
theorem spell_scan (hread : ReadsAlike read) {write : α → List Char}
    (hwrite : ∀ a, startMark ∉ write a) (h : Alike same s t) :
    Alike same (spell write (scan read s)) (spell write (scan read t)) := by
  induction hn : s.length using Nat.strongRecOn generalizing s t with
  | ind n ih =>
    cases hr : read s with
    | some found =>
      obtain ⟨a, more⟩ := found
      have hrest := ih _ (by have := (hread.free hr).1; rw [List.length_drop]; omega)
        (hread.drop h hr) rfl
      have hr' := hread.hit h hr
      obtain ⟨c, s, rfl⟩ := List.exists_cons_of_ne_nil (List.ne_nil_of_length_pos
        (Nat.zero_lt_of_lt (hread.free hr).1))
      obtain ⟨d, t, rfl⟩ := List.exists_cons_of_ne_nil (List.ne_nil_of_length_pos
        (Nat.zero_lt_of_lt (hread.free hr').1))
      rw [scan_hit hr, scan_hit hr', spell, spell]
      exact .append (.of_free (hwrite a)) hrest
    | none =>
      have hr' := hread.miss h hr
      cases h using Alike.induct with
      | nil => exact .nil
      | char c s t hc h =>
        rw [scan_char hr, scan_char hr', spell, spell]
        exact .char hc (ih s.length (by rw [← hn]; exact Nat.lt_succ_self _) h rfl)
      | placeholder m n' s t hmn h =>
        have hlt : s.length < n := by
          have := List.length_pos_iff.2 (placeholder_ne_nil m)
          rw [List.length_append] at hn
          omega
        have hpass : ∀ k, ∀ c ∈ placeholder k, ∀ r, read (c :: r) = none := fun k c hc =>
          hread.passes (inPlaceholder_of_mem hc)
        rw [scan_append_of_none (hpass m), scan_append_of_none (hpass n'), spell_append,
          spell_append, spell_chars, spell_chars]
        exact .placeholder hmn (ih _ hlt h rfl)

theorem readBlankRun : ReadsAlike readBlankRun where
  hit {same s t a more} h hr := by
    cases s with
    | nil => cases hr
    | cons c s =>
      by_cases hc : c = '\n'
      · subst hc
        obtain ⟨t, rfl, hrest⟩ := h.of_char (by decide)
        rwa [readBlankRun_newline, ← hrest.takeWhile_isSpace_eq]
      · rw [readBlankRun_of_ne hc] at hr
        cases hr
  free {s a more} hr := by
    refine ⟨?_, fun hm => absurd (isSpace_of_readBlankRun hr _ hm) (by decide)⟩
    cases s with
    | nil => cases hr
    | cons c s =>
      have hle := (List.takeWhile_sublist isSpace (l := s)).length_le
      exact Nat.lt_succ_of_le (Nat.le_trans (readBlankRun_le hr) hle)
  passes {c} hc s := readBlankRun_of_ne (fun he => by rw [he] at hc; cases hc) s

theorem needle {d : Char} {w : List Char} (hd : inPlaceholder d = false) (hw : startMark ∉ d :: w) :
    ReadsAlike fun t =>
      if (d :: w).isPrefixOf t then some ((), (d :: w).length - 1) else none where
  hit {same s t a more} h hr := by rwa [← h.isPrefixOf_eq hw]
  free {s a more} hr := by
    split at hr
    · next hp =>
      cases hr
      obtain ⟨r, rfl⟩ := List.isPrefixOf_iff_prefix.1 hp
      refine ⟨by rw [List.length_append, List.length_cons]; omega, ?_⟩
      have hlen : (d :: w).length - 1 + 1 = (d :: w).length := rfl
      rwa [hlen, List.take_left]
    · cases hr
  passes {c} hc s := if_neg fun hp => by
    rw [(List.cons_prefix_cons.1 (List.isPrefixOf_iff_prefix.1 hp)).1, hc] at hd
    cases hd

end ReadsAlike

namespace Alike

theorem foldBlankRuns (h : Alike same s t) :
    Alike same (StorageMarkup.foldBlankRuns s) (StorageMarkup.foldBlankRuns t) :=
  ReadsAlike.readBlankRun.spell_scan (fun _ => by decide) h

theorem printText (pre : Bool) (h : Alike same s t) :
    Alike same (Node.printText pre s) (Node.printText pre t) := by
  cases pre with
  | true => exact h.escapeText
  | false => exact h.escapeText.foldBlankRuns

theorem replaceAll {d : Char} {w new : List Char} (hd : inPlaceholder d = false)
    (hw : startMark ∉ d :: w) (hnew : startMark ∉ new) (h : Alike same s t) :
    Alike same (StorageMarkup.replaceAll (d :: w) new s)
      (StorageMarkup.replaceAll (d :: w) new t) :=
  (ReadsAlike.needle hd hw).spell_scan (fun _ => hnew) h

theorem joinWith {separator : List Char} (hsep : startMark ∉ separator) {ss ts : List (List Char)}
    (h : List.Forall₂ (Alike same) ss ts) :
    Alike same (StorageMarkup.joinWith separator ss) (StorageMarkup.joinWith separator ts) := by
  induction h with
  | nil => exact .nil
  | @cons s t ss ts hst h ih =>
    cases h with
    | nil => exact hst
    | @cons s' t' ss ts _ _ =>
      have hcons : ∀ a b : List Char, ∀ rest, StorageMarkup.joinWith separator (a :: b :: rest) =
          a ++ separator ++ StorageMarkup.joinWith separator (b :: rest) := fun _ _ _ => rfl
      rw [hcons, hcons]
      exact .append (.append hst (.of_free hsep)) ih

end Alike

/-! ## Putting back -/

namespace Matching

variable {v w : Vault} (hsame : Matching v w same)

include hsame

theorem expandOnce_eq (h : Alike same s t) :
    v.expandOnce s = w.expandOnce t ∧ startMark ∉ v.expandOnce s := by
  induction h using Alike.induct with
  | nil => exact ⟨rfl, List.not_mem_nil⟩
  | char c s t hc _ ih =>
    rw [expandOnce_char v hc, expandOnce_char w hc, ih.1, List.mem_cons, not_or]
    exact ⟨rfl, Ne.symm hc, ih.1 ▸ ih.2⟩
  | placeholder m n s t hmn _ ih =>
    obtain ⟨d, hv, hw, hd⟩ := hsame.original hmn
    rw [expandOnce_placeholder v hv, expandOnce_placeholder w hw, ih.1, List.mem_append, not_or]
    exact ⟨rfl, hd, ih.1 ▸ ih.2⟩

/-- What is put back is the same. -/
theorem expand_eq (h : Alike same s t) : v.expand s = w.expand t := by
  obtain ⟨he, hfree⟩ := hsame.expandOnce_eq h
  rw [expand_eq_expandOnce hfree, expand_eq_expandOnce (he ▸ hfree), he]

theorem expand_free (h : Alike same s t) : startMark ∉ v.expand s := by
  obtain ⟨-, hfree⟩ := hsame.expandOnce_eq h
  rwa [expand_eq_expandOnce hfree]

end Matching

end StorageMarkup
