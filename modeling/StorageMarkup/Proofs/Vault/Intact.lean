import StorageMarkup.Node.Printer
import StorageMarkup.Proofs.Text.Escape
import StorageMarkup.Proofs.Text.Runs
import StorageMarkup.Proofs.Text.Search
import StorageMarkup.Proofs.Text.Woven
import StorageMarkup.Proofs.Vault.Expansion
import StorageMarkup.Region

/-!
# Intact placeholders

A text is intact when a start mark stands in it only as the start of a whole
placeholder. What trims, cuts, escapes and joins texts looks for characters that
stand in no placeholder, so it keeps placeholders whole.

Results:
1. `intact_iff_woven`: an intact text is woven from plain characters and placeholders.
2. `Woven.escaped`, `Woven.blankRunsFolded`: placeholders and writing.
3. `Intact.cut`, `Intact.pieces`: placeholders and cutting.
-/

namespace StorageMarkup

open Vault

variable {α : Type} {plain : Char → Prop} {unit : α → List Char → Prop} {labels : List α}
  {s t : List Char}

/-! ## Texts woven from placeholders -/

/-- Every unit is a placeholder. -/
def Placeholders (unit : α → List Char → Prop) : Prop := ∀ a u, unit a u → ∃ n, u = placeholder n

namespace Placeholders

variable (hp : Placeholders unit)

include hp

theorem capped : ∀ a u, unit a u → Capped u := by
  intro a u hu
  obtain ⟨n, rfl⟩ := hp a u hu
  exact capped_placeholder n

theorem not_mem {c : Char} (hc : inPlaceholder c = false) : ∀ a u, unit a u → c ∉ u := by
  intro a u hu
  obtain ⟨n, rfl⟩ := hp a u hu
  exact not_mem_placeholder hc

theorem head {c : Char} (hc : c ≠ startMark) : ∀ a u, unit a u → ∃ d w, u = d :: w ∧ d ≠ c := by
  intro a u hu
  obtain ⟨n, rfl⟩ := hp a u hu
  obtain ⟨w, hw⟩ := placeholder_eq_cons n
  exact ⟨startMark, w, hw, Ne.symm hc⟩

/-- Anything that starts outside placeholders is not found in one. -/
theorem passes {P : Char → Prop} (hP : ∀ c, inPlaceholder c = true → P c) :
    ∀ a u, unit a u → ∀ c ∈ u, P c := by
  intro a u hu c hc
  obtain ⟨n, rfl⟩ := hp a u hu
  exact hP c (inPlaceholder_of_mem hc)

end Placeholders

namespace Woven

/-! ## Cutting -/

theorem cut (hp : Placeholders unit) {c : Char} (h : Woven plain unit labels (s ++ c :: t))
    (hc : inPlaceholder c = false) :
    ∃ a b, labels = a ++ b ∧ Woven plain unit a s ∧ Woven plain unit b (c :: t) :=
  h.split fun a u hu hm => hp.not_mem hc a u hu (List.mem_of_mem_tail hm)

/-! ## Writing -/

theorem flatMap_eq_self {f : Char → List Char} {u : List Char} (h : ∀ c ∈ u, f c = [c]) :
    u.flatMap f = u := by
  induction u with
  | nil => rfl
  | cons c u ih =>
    rw [List.forall_mem_cons] at h
    rw [List.flatMap_cons, h.1, ih h.2, List.singleton_append]

theorem escapeTextChar_eq_self {c : Char} (h : inPlaceholder c = true) :
    escapeTextChar c = [c] :=
  escapeTextChar_of_not_mem fun hm => by
    rw [(by decide : ∀ c ∈ "&<>".toList, inPlaceholder c = false) c hm] at h
    cases h

theorem escapeQuotedChar_eq_self {c : Char} (h : inPlaceholder c = true) :
    escapeQuotedChar c = [c] :=
  escapeQuotedChar_of_not_mem fun hm => by
    rw [(by decide : ∀ c ∈ "\"'&<>".toList, inPlaceholder c = false) c hm] at h
    cases h

section

variable (hplain : ∀ c, c ≠ startMark → Directive.isBrace c = false → plain c)

include hplain

theorem plain_of_mem_escapeTextChar {c d : Char} (hc : plain c) (hd : d ∈ escapeTextChar c) :
    plain d := by
  have hfixed : ∀ d ∈ "&ampltg;".toList, d ≠ startMark ∧ Directive.isBrace d = false := by
    decide
  rcases mem_escapeTextChar hd with hin | ⟨rfl, -⟩
  · exact hplain d (hfixed d hin).1 (hfixed d hin).2
  · exact hc

theorem plain_of_mem_escapeQuotedChar {c d : Char} (hc : plain c) (hd : d ∈ escapeQuotedChar c) :
    plain d := by
  have hfixed : ∀ d ∈ "&quot#x27ampltg;".toList, d ≠ startMark ∧ Directive.isBrace d = false := by
    decide
  rcases mem_escapeQuotedChar hd with hin | ⟨rfl, -⟩
  · exact hplain d (hfixed d hin).1 (hfixed d hin).2
  · exact hc

variable (hp : Placeholders unit)

include hp

theorem escaped (h : Woven plain unit labels s) : Woven plain unit labels (escapeText s) :=
  h.flatMap (fun _ hc _ hd => plain_of_mem_escapeTextChar hplain hc hd) fun a u hu =>
    flatMap_eq_self (hp.passes (fun _ hc => escapeTextChar_eq_self hc) a u hu)

theorem quoteEscaped (h : Woven plain unit labels s) : Woven plain unit labels (escapeQuoted s) :=
  h.flatMap (fun _ hc _ hd => plain_of_mem_escapeQuotedChar hplain hc hd) fun a u hu =>
    flatMap_eq_self (hp.passes (fun _ hc => escapeQuotedChar_eq_self hc) a u hu)

theorem blankRunsFolded (h : Woven plain unit labels s) :
    Woven plain unit labels (foldBlankRuns s) := by
  refine h.replaced hp.capped ?_ ?_ ?_
  · intro _ c hc
    rw [List.mem_singleton.1 hc]
    exact hplain _ (by decide) (by decide)
  · intro r b more hr c hc
    refine hp.head ?_
    rintro rfl
    exact absurd (isSpace_of_readBlankRun hr _ hc) (by decide)
  · refine hp.passes fun c hc r => ?_
    unfold readBlankRun
    split
    · next he =>
      cases he
      exact absurd hc (by decide)
    · rfl

/-- The written form of character data. -/
theorem printed (pre : Bool) (h : Woven plain unit labels s) :
    Woven plain unit labels (Node.printText pre s) := by
  cases pre with
  | true => exact h.escaped hplain hp
  | false => exact (h.escaped hplain hp).blankRunsFolded hplain hp

theorem occurrencesReplaced {d : Char} {w new : List Char} (hd : inPlaceholder d = false)
    (hw : startMark ∉ d :: w) (hnew : ∀ c ∈ new, c ≠ startMark ∧ Directive.isBrace c = false)
    (h : Woven plain unit labels s) : Woven plain unit labels (replaceAll (d :: w) new s) := by
  refine h.replaced hp.capped ?_ ?_ ?_
  · intro _ c hc
    exact hplain c (hnew c hc).1 (hnew c hc).2
  · intro r b more hr c hc
    split at hr
    · next hpre =>
      cases hr
      obtain ⟨rest, hrest⟩ := List.isPrefixOf_iff_prefix.1 hpre
      rw [← hrest] at hc
      have hlen : (d :: w).length - 1 + 1 = (d :: w).length := rfl
      rw [hlen, List.take_left] at hc
      exact hp.head fun he => hw (he ▸ hc)
    · cases hr
  · refine hp.passes fun c hc r => if_neg fun hpre => ?_
    have := (List.cons_prefix_cons.1 (List.isPrefixOf_iff_prefix.1 hpre)).1
    rw [this, hc] at hd
    cases hd

end

end Woven

namespace Vault

variable {known : Nat → Prop}

/-! ## Intact texts -/

/-- Every start mark in the text starts a whole placeholder with a known number. -/
def Intact (known : Nat → Prop) (s : List Char) : Prop :=
  ∀ a b, s = a ++ startMark :: b → ∃ n, known n ∧ placeholder n <+: startMark :: b

/-- The placeholder with a known number, labelled by the number. -/
def Known (known : Nat → Prop) (n : Nat) (u : List Char) : Prop := known n ∧ u = placeholder n

theorem placeholders_known : Placeholders (Known known) := fun n _ hu => ⟨n, hu.2⟩

theorem Intact.of_suffix (h : Intact known (t ++ s)) : Intact known s := fun a b hs =>
  h (t ++ a) b (by rw [hs, List.append_assoc])

/-- An intact text is woven from plain characters and known placeholders. -/
theorem intact_iff_woven :
    Intact known s ↔ ∃ numbers, Woven (· ≠ startMark) (Known known) numbers s := by
  constructor
  · intro h
    induction hn : s.length using Nat.strongRecOn generalizing s with
    | ind k ih =>
      cases s with
      | nil => exact ⟨[], .nil⟩
      | cons c s =>
        by_cases hc : c = startMark
        · obtain ⟨n, hk, r, hr⟩ := h [] s (by rw [hc, List.nil_append])
          rw [hc, ← hr] at h
          have hlt : r.length < k := by
            have hlen := congrArg List.length hr
            have hpos := List.length_pos_iff.2 (placeholder_ne_nil n)
            rw [List.length_append, List.length_cons] at hlen
            rw [← hn, List.length_cons]
            omega
          obtain ⟨numbers, hw⟩ := ih _ hlt h.of_suffix rfl
          refine ⟨n :: numbers, ?_⟩
          rw [hc, ← hr]
          exact .unit ⟨hk, rfl⟩ hw
        · have hs : Intact known s := Intact.of_suffix (t := [c]) h
          obtain ⟨numbers, hw⟩ := ih s.length (by simp [← hn]) hs rfl
          exact ⟨numbers, .char hc hw⟩
  · rintro ⟨numbers, h⟩
    induction h with
    | nil => exact fun a b hs => absurd hs (by simp)
    | @char c numbers s hc _ ih =>
      intro a b hs
      cases a with
      | nil => exact absurd (List.cons.inj hs).1 hc
      | cons d a => exact ih a b (List.cons.inj hs).2
    | @unit n u numbers s hu _ ih =>
      obtain ⟨hk, rfl⟩ := hu
      intro a b hs
      rcases List.append_eq_append_iff.1 hs with ⟨w, hw, hr⟩ | ⟨w, hw, hr⟩
      · exact ih w b hr
      · cases w with
        | nil => exact ih [] b hr.symm
        | cons d w =>
          cases a with
          | nil =>
            rw [List.nil_append] at hw
            refine ⟨n, hk, s, ?_⟩
            rw [hw, hr]
          | cons e a =>
            -- a start mark inside the placeholder
            have hd : startMark = d := (List.cons.inj hr).1
            refine absurd ?_ (startMark_not_mem_tail n)
            rw [hw, ← hd, List.cons_append, List.tail_cons]
            simp

namespace Intact

theorem of_free (h : startMark ∉ s) : Intact known s := by
  rintro a b rfl
  simp at h

theorem mono {known' : Nat → Prop} (h : Intact known s) (hk : ∀ n, known n → known' n) :
    Intact known' s := fun a b hs =>
  let ⟨n, hn, hp⟩ := h a b hs
  ⟨n, hk n hn, hp⟩

theorem free (h : Intact (fun _ => False) s) : startMark ∉ s := by
  intro hm
  obtain ⟨a, b, hs⟩ := List.append_of_mem hm
  obtain ⟨_, hf, _⟩ := h a b hs
  exact hf

theorem placeholder {n : Nat} (h : known n) : Intact known (placeholder n) :=
  intact_iff_woven.2 ⟨[n], .of_unit ⟨h, rfl⟩⟩

/-- A placeholder in an intact text is one of the known. -/
theorem known_of_infix {n : Nat} (h : Intact known s) (hn : Vault.placeholder n <:+: s) :
    known n := by
  obtain ⟨a, b, rfl⟩ := hn
  obtain ⟨w, hw⟩ := placeholder_eq_cons n
  rw [List.append_assoc] at h
  obtain ⟨m, hm, hp⟩ := h.of_suffix [] (w ++ b) (by rw [hw]; rfl)
  have hn : Vault.placeholder n <+: startMark :: (w ++ b) := by
    rw [hw]
    exact List.prefix_append _ b
  exact placeholder_prefix_unique hp hn ▸ hm

theorem append (hs : Intact known s) (ht : Intact known t) : Intact known (s ++ t) := by
  obtain ⟨as, ha⟩ := intact_iff_woven.1 hs
  obtain ⟨bs, hb⟩ := intact_iff_woven.1 ht
  exact intact_iff_woven.2 ⟨as ++ bs, ha.append hb⟩

theorem cons {c : Char} (hc : c ≠ startMark) (h : Intact known s) : Intact known (c :: s) := by
  obtain ⟨as, ha⟩ := intact_iff_woven.1 h
  exact intact_iff_woven.2 ⟨as, .char hc ha⟩

/-- Both sides of a cut before a character of no placeholder are intact. -/
theorem cut {c : Char} (h : Intact known (s ++ c :: t)) (hc : inPlaceholder c = false) :
    Intact known s ∧ Intact known (c :: t) := by
  obtain ⟨as, ha⟩ := intact_iff_woven.1 h
  obtain ⟨a, b, _, h1, h2⟩ := ha.cut placeholders_known hc
  exact ⟨intact_iff_woven.2 ⟨a, h1⟩, intact_iff_woven.2 ⟨b, h2⟩⟩

section

variable (h : Intact known s)

include h

theorem strip : Intact known (StorageMarkup.strip s) := by
  obtain ⟨as, ha⟩ := intact_iff_woven.1 h
  exact intact_iff_woven.2 ⟨as, ha.strip placeholders_known.capped⟩

theorem stripRight : Intact known (StorageMarkup.stripRight s) := by
  obtain ⟨as, ha⟩ := intact_iff_woven.1 h
  exact intact_iff_woven.2 ⟨as, ha.stripRight placeholders_known.capped⟩

theorem pieces {separator : Char → Bool}
    (hsep : ∀ c, inPlaceholder c = true → separator c = false) :
    ∀ piece ∈ StorageMarkup.pieces separator s, Intact known piece := by
  obtain ⟨as, ha⟩ := intact_iff_woven.1 h
  intro piece hm
  exact intact_iff_woven.2 (ha.pieces (placeholders_known.passes hsep) piece hm)

theorem lines : ∀ line ∈ StorageMarkup.lines s, Intact known line := by
  refine h.pieces fun c hc => ?_
  cases hn : c == '\n' with
  | false => rfl
  | true =>
    rw [eq_of_beq hn] at hc
    cases hc

theorem words : ∀ word ∈ StorageMarkup.words s, Intact known word := fun word hm =>
  h.pieces (fun _ hc => isSpace_of_inPlaceholder hc) word (List.mem_filter.1 hm).1

theorem escapeText : Intact known (StorageMarkup.escapeText s) := by
  obtain ⟨as, ha⟩ := intact_iff_woven.1 h
  exact intact_iff_woven.2 ⟨as, ha.escaped (fun _ hc _ => hc) placeholders_known⟩

theorem escapeQuoted : Intact known (StorageMarkup.escapeQuoted s) := by
  obtain ⟨as, ha⟩ := intact_iff_woven.1 h
  exact intact_iff_woven.2 ⟨as, ha.quoteEscaped (fun _ hc _ => hc) placeholders_known⟩

theorem printText (pre : Bool) : Intact known (Node.printText pre s) := by
  obtain ⟨as, ha⟩ := intact_iff_woven.1 h
  exact intact_iff_woven.2 ⟨as, ha.printed (fun _ hc _ => hc) placeholders_known pre⟩

theorem replaceAll {d : Char} {w new : List Char} (hd : inPlaceholder d = false)
    (hw : startMark ∉ d :: w) (hnew : startMark ∉ new)
    (hbrace : ∀ c ∈ new, Directive.isBrace c = false) :
    Intact known (StorageMarkup.replaceAll (d :: w) new s) := by
  obtain ⟨as, ha⟩ := intact_iff_woven.1 h
  exact intact_iff_woven.2 ⟨as, ha.occurrencesReplaced (fun _ hc _ => hc) placeholders_known hd hw
    fun c hc => ⟨fun he => hnew (he ▸ hc), hbrace c hc⟩⟩

end

theorem joinWith {separator : List Char} (hsep : startMark ∉ separator) {parts : List (List Char)}
    (h : ∀ part ∈ parts, Intact known part) :
    Intact known (StorageMarkup.joinWith separator parts) :=
  joinWith_induct (.of_free List.not_mem_nil) (fun _ _ => .append) (.of_free hsep) h

end Intact

end Vault

end StorageMarkup
