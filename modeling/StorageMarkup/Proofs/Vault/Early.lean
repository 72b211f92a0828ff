import Mathlib.Data.List.ReduceOption
import StorageMarkup.Proofs.Directive.Conveyed
import StorageMarkup.Proofs.Vault.Alike

/-!
# Directives set aside early

Directives may be set aside before a conversion starts, all of them, some or none.
Whichever come early, a text says the same and has the same lines.

Results:
1. `twin_of_someAside`: a text with directives set aside early is a twin of the text it was.
2. `Early.reveal_eq`: what it says.
3. `Early.contentLines`: its lines.
-/

namespace StorageMarkup

open Vault

variable {w : Vault} {s t : List Char} {numbers : List Nat}

namespace Directive

variable {d : List Char}

/-! ## Directives on one line -/

/-- A directive on one line, without start marks. -/
structure OnLine (d : List Char) : Prop where
  token : IsToken d
  unmarked : startMark ∉ d
  line : '\n' ∉ d

/-- A character that is no brace, or a directive on one line. -/
def Unbroken : Piece (List Char) → Prop
  | .char c => isBrace c = false
  | .hit d => '\n' ∉ d

/-- No start marks, every brace belongs to a directive, and every directive is on one line. -/
structure OneLined (s : List Char) : Prop where
  unmarked : startMark ∉ s
  pieces : ∀ p ∈ split s, Unbroken p

theorem oneLined_nil : OneLined [] := ⟨List.not_mem_nil, fun _ h => absurd h List.not_mem_nil⟩

theorem split_of_read_eq_none {c : Char} (hr : read (c :: s) = none) :
    split (c :: s) = .char c :: split s := scan_char hr

theorem oneLined_char {c : Char} (hr : read (c :: s) = none) :
    OneLined (c :: s) ↔ Plain c ∧ OneLined s := by
  constructor
  · rintro ⟨hmark, hpieces⟩
    rw [List.mem_cons, not_or] at hmark
    rw [split_of_read_eq_none hr, List.forall_mem_cons] at hpieces
    exact ⟨⟨Ne.symm hmark.1, hpieces.1⟩, hmark.2, hpieces.2⟩
  · rintro ⟨hc, hmark, hpieces⟩
    refine ⟨List.not_mem_cons_of_ne_of_not_mem (Ne.symm hc.1) hmark, ?_⟩
    rw [split_of_read_eq_none hr, List.forall_mem_cons]
    exact ⟨hc.2, hpieces⟩

theorem oneLined_token (hd : IsToken d) : OneLined (d ++ s) ↔ OnLine d ∧ OneLined s := by
  constructor
  · rintro ⟨hmark, hpieces⟩
    rw [List.mem_append, not_or] at hmark
    rw [split_token hd, List.forall_mem_cons] at hpieces
    exact ⟨⟨hd, hmark.1, hpieces.1⟩, hmark.2, hpieces.2⟩
  · rintro ⟨hline, hmark, hpieces⟩
    refine ⟨fun hm => (List.mem_append.1 hm).elim hline.unmarked hmark, ?_⟩
    rw [split_token hd, List.forall_mem_cons]
    exact ⟨hline.line, hpieces⟩

end Directive

/-! ## Early texts -/

/-- The pieces of a text written again, some of its directives as placeholders of `w`, with these
numbers. -/
inductive SomeAside (w : Vault) : List Nat → List (Piece (List Char)) → List Char → Prop
  | nil : SomeAside w [] [] []
  | char {c : Char} {numbers : List Nat} {ps : List (Piece (List Char))} {t : List Char}
      (h : SomeAside w numbers ps t) : SomeAside w numbers (.char c :: ps) (c :: t)
  | spelled {d : List Char} {numbers : List Nat} {ps : List (Piece (List Char))} {t : List Char}
      (h : SomeAside w numbers ps t) : SomeAside w numbers (.hit d :: ps) (d ++ t)
  | placeholder {n : Nat} {d : List Char} {numbers : List Nat} {ps : List (Piece (List Char))}
      {t : List Char} (hn : w.originals[n]? = some d) (h : SomeAside w numbers ps t) :
      SomeAside w (n :: numbers) (.hit d :: ps) (placeholder n ++ t)

/-- A text without start marks, and what it is once some of its directives have been set aside
early in `w`, with these numbers. -/
inductive Early (w : Vault) : List Nat → List Char → List Char → Prop
  | same {s : List Char} (hs : startMark ∉ s) : Early w [] s s
  | aside {numbers : List Nat} {s t : List Char} (hs : Directive.OneLined s)
      (h : SomeAside w numbers (Directive.split s) t) : Early w numbers s t

/-- A directive that stands in both texts, or in the second as a placeholder of `w`. -/
inductive Occurrence (w : Vault) : Option Nat → List Char → List Char → Prop
  | spelled {d : List Char} (hd : Directive.OnLine d) : Occurrence w none d d
  | placeholder {n : Nat} {d : List Char} (hd : Directive.OnLine d)
      (hn : w.originals[n]? = some d) : Occurrence w (some n) d (placeholder n)

namespace Occurrence

variable {a : Option Nat} {u u' : List Char}

theorem capped (h : Occurrence w a u u') : Capped u ∧ Capped u' := by
  cases h with
  | spelled hd => exact ⟨hd.token.capped, hd.token.capped⟩
  | placeholder hd _ => exact ⟨hd.token.capped, capped_placeholder _⟩

theorem not_newline (h : Occurrence w a u u') :
    (∀ c ∈ u, (c == '\n') = false) ∧ ∀ c ∈ u', (c == '\n') = false := by
  cases h with
  | spelled hd => exact ⟨StorageMarkup.not_newline hd.line, StorageMarkup.not_newline hd.line⟩
  | placeholder hd _ =>
    exact ⟨StorageMarkup.not_newline hd.line,
      StorageMarkup.not_newline (not_mem_placeholder (by decide))⟩

end Occurrence

/-- A text with directives set aside early is a twin of the text it was. -/
theorem twin_of_someAside (hs : Directive.OneLined s)
    (h : SomeAside w numbers (Directive.split s) t) :
    ∃ labels, labels.reduceOption = numbers ∧ Twin Plain (Occurrence w) labels s t := by
  induction s using Directive.read_exact.induct generalizing numbers t with
  | nil =>
    cases h
    exact ⟨[], rfl, .nil⟩
  | char c s hr ih =>
    obtain ⟨hc, hs⟩ := (Directive.oneLined_char hr).1 hs
    rw [Directive.split_of_read_eq_none hr] at h
    cases h with
    | char h =>
      obtain ⟨labels, hlabels, htwin⟩ := ih hs h
      exact ⟨labels, hlabels, .char hc htwin⟩
  | hit d s hd _ ih =>
    obtain ⟨hline, hs⟩ := (Directive.oneLined_token hd).1 hs
    rw [Directive.split_token hd] at h
    cases h with
    | spelled h =>
      obtain ⟨labels, hlabels, htwin⟩ := ih hs h
      exact ⟨none :: labels, hlabels, .unit (.spelled hline) htwin⟩
    | placeholder hn h =>
      obtain ⟨labels, rfl, htwin⟩ := ih hs h
      exact ⟨some _ :: labels, rfl, .unit (.placeholder hline hn) htwin⟩

theorem someAside_of_twin {labels : List (Option Nat)} (h : Twin Plain (Occurrence w) labels s t) :
    Directive.OneLined s ∧ SomeAside w labels.reduceOption (Directive.split s) t := by
  induction h with
  | nil => exact ⟨Directive.oneLined_nil, .nil⟩
  | @char c labels s t hc _ ih =>
    have hr := Directive.read_eq_none_of_plain hc s
    rw [Directive.split_of_read_eq_none hr]
    exact ⟨(Directive.oneLined_char hr).2 ⟨hc, ih.1⟩, .char ih.2⟩
  | unit hu _ ih =>
    cases hu with
    | spelled hd =>
      rw [Directive.split_token hd.token]
      exact ⟨(Directive.oneLined_token hd.token).2 ⟨hd, ih.1⟩, .spelled ih.2⟩
    | placeholder hd hn =>
      rw [Directive.split_token hd.token]
      exact ⟨(Directive.oneLined_token hd.token).2 ⟨hd, ih.1⟩, .placeholder hn ih.2⟩

theorem expandOnce_of_twin {labels : List (Option Nat)}
    (h : Twin Plain (Occurrence w) labels s t) : w.expandOnce t = s := by
  induction h with
  | nil => rfl
  | char hc _ ih => rw [expandOnce_char w hc.1, ih]
  | unit hu _ ih =>
    cases hu with
    | spelled hd => rw [expandOnce_free_append w hd.unmarked, ih]
    | placeholder hd hn => rw [expandOnce_placeholder w hn, ih]

theorem known_of_twin {labels : List (Option Nat)} (h : Twin Plain (Occurrence w) labels s t) :
    ∀ n ∈ labels.reduceOption, n < w.size := by
  induction h with
  | nil => exact fun n hn => absurd hn List.not_mem_nil
  | char _ _ ih => exact ih
  | unit hu _ ih =>
    cases hu with
    | spelled _ => exact ih
    | placeholder _ hn => exact List.forall_mem_cons.2 ⟨lt_size_of_original hn, ih⟩

namespace Early

theorem of_twin {labels : List (Option Nat)} (h : Twin Plain (Occurrence w) labels s t) :
    Early w labels.reduceOption s t := by
  obtain ⟨hs, h⟩ := someAside_of_twin h
  exact .aside hs h

/-- A directive that is set aside early. -/
theorem placeholder {n : Nat} {d : List Char} (hd : Directive.OnLine d)
    (hn : w.originals[n]? = some d) : Early w [n] d (Vault.placeholder n) := by
  have := of_twin (.unit (.placeholder hd hn) .nil)
  rwa [List.append_nil, List.append_nil] at this

theorem unmarked (h : Early w numbers s t) : startMark ∉ s := by
  cases h with
  | same hs => exact hs
  | aside hs _ => exact hs.unmarked

theorem known (h : Early w numbers s t) : ∀ n ∈ numbers, n < w.size := by
  cases h with
  | same _ => exact fun n hn => absurd hn List.not_mem_nil
  | aside hs h =>
    obtain ⟨labels, rfl, htwin⟩ := twin_of_someAside hs h
    exact known_of_twin htwin

/-- An early text says what the text said. -/
theorem reveal_eq (h : Early w numbers s t) (v : Vault) :
    Vault.reveal (some v) s = Vault.reveal (some w) t := by
  refine (expand_eq_self h.unmarked).trans ?_
  cases h with
  | same hs => exact (expand_eq_self hs).symm
  | aside hs h =>
    obtain ⟨labels, -, htwin⟩ := twin_of_someAside hs h
    have honce := expandOnce_of_twin htwin
    exact (honce ▸ expand_eq_expandOnce (honce ▸ hs.unmarked)).symm

end Early

/-! ## Lines -/

/-- Early texts one by one, their numbers in a row. -/
inductive EarlyTexts (w : Vault) : List Nat → List (List Char) → List (List Char) → Prop
  | nil : EarlyTexts w [] [] []
  | cons {numbers more : List Nat} {s t : List Char} {ss ts : List (List Char)}
      (h : Early w numbers s t) (hs : EarlyTexts w more ss ts) :
      EarlyTexts w (numbers ++ more) (s :: ss) (t :: ts)

/-- Blank lines hold no directives, so leaving them out leaves no number out. -/
theorem contentLines_of_twins {labels : List (Option Nat)} {ss ts : List (List Char)}
    (h : Twins Plain (Occurrence w) labels ss ts) :
    EarlyTexts w labels.reduceOption ((ss.filter (!isBlank ·)).map strip)
      ((ts.filter (!isBlank ·)).map strip) := by
  induction h with
  | nil => exact .nil
  | @cons labels more s t ss ts h _ ih =>
    have hcap : ∀ a u u', Occurrence w a u u' → Capped u ∧ Capped u' := fun _ _ _ hu => hu.capped
    rw [List.filter_cons, List.filter_cons, ← h.isBlank_eq hcap]
    cases hblank : isBlank s with
    | true =>
      rw [h.labels_eq_nil_of_blank hcap hblank]
      exact ih
    | false =>
      rw [List.reduceOption_append]
      exact .cons (.of_twin (h.strip hcap)) ih

theorem Early.contentLines (h : Early w numbers s t) :
    EarlyTexts w numbers (StorageMarkup.contentLines s) (StorageMarkup.contentLines t) := by
  cases h with
  | same hs =>
    have hnone : Intact (fun _ => False) s := .of_free hs
    have hlines : ∀ l ∈ StorageMarkup.contentLines s, startMark ∉ l := by
      intro l hl
      obtain ⟨l', hl', rfl⟩ := List.mem_map.1 hl
      exact (hnone.lines l' (List.mem_filter.1 hl').1).strip.free
    clear hs hnone
    generalize StorageMarkup.contentLines s = ls at hlines ⊢
    induction ls with
    | nil => exact .nil
    | cons l ls ih =>
      rw [List.forall_mem_cons] at hlines
      exact .cons (.same hlines.1) (ih hlines.2)
  | aside hs h =>
    obtain ⟨labels, rfl, htwin⟩ := twin_of_someAside hs h
    exact contentLines_of_twins (htwin.pieces fun _ _ _ => Occurrence.not_newline)

end StorageMarkup
