import StorageMarkup.Proofs.Directive.Written
import StorageMarkup.Proofs.Text.NewlineRuns

/-!
# Directives in which no other one starts

A directive is written with the values of attributes and options in it. No token starts
inside it if these hold no opening brace: a record is written with braces of its own, but
a quote or another brace stands behind each.

Results:
1. `Sparse`: no opening brace has another one behind it, in whatever text it stands.
2. `sparse_toText`, `Sparse.quote`: values.
3. `braced_inline`, `braced_opening`, `braced_closing`: directives.
-/

namespace StorageMarkup

open Vault

variable {c : Char} {s t : List Char}

/-- A character other than an opening brace stands behind each opening brace. -/
inductive Sparse : List Char → Prop
  | nil : Sparse []
  | char {c : Char} {s : List Char} (hc : c ≠ '{') (h : Sparse s) : Sparse (c :: s)
  | brace {d : Char} {s : List Char} (hd : d ≠ '{') (h : Sparse (d :: s)) : Sparse ('{' :: d :: s)

namespace Sparse

theorem of_not_mem (h : '{' ∉ s) : Sparse s := by
  induction s with
  | nil => exact .nil
  | cons c s ih =>
    rw [List.mem_cons, not_or] at h
    exact .char (Ne.symm h.1) (ih h.2)

theorem append (hs : Sparse s) (ht : Sparse t) : Sparse (s ++ t) := by
  induction hs with
  | nil => exact ht
  | char hc _ ih => exact .char hc ih
  | brace hd _ ih => exact .brace hd ih

theorem tail (h : Sparse (c :: s)) : Sparse s := by
  cases h with
  | char _ h => exact h
  | brace _ h => exact h

theorem of_append (h : Sparse (s ++ t)) : Sparse t := by
  induction s with
  | nil => exact h
  | cons c s ih => exact ih h.tail

/-- No token starts at a sparse text. -/
theorem not_doubled (h : Sparse ('{' :: s)) : ∃ d r, s = d :: r ∧ d ≠ '{' := by
  cases h with
  | char hc _ => exact absurd rfl hc
  | brace hd _ => exact ⟨_, _, rfl, hd⟩

theorem quote (h : Sparse s) : Sparse (replaceAll ['"'] "&quot;".toList s) := by
  have hchar : ∀ {c : Char}, c ≠ '{' →
      ∃ d w, (if c = '"' then "&quot;".toList else [c]) = d :: w ∧ '{' ∉ d :: w := by
    intro c hc
    split
    · exact ⟨'&', _, rfl, by decide⟩
    · exact ⟨c, [], rfl, fun hm => hc (List.mem_singleton.1 hm).symm⟩
  rw [replaceAll_singleton]
  induction h with
  | nil => exact .nil
  | char hc _ ih =>
    obtain ⟨d, w, hd, hw⟩ := hchar hc
    rw [List.flatMap_cons, hd]
    exact (of_not_mem hw).append ih
  | brace hc _ ih =>
    obtain ⟨d, w, hd, hw⟩ := hchar hc
    rw [List.flatMap_cons, if_neg (by decide), List.singleton_append]
    rw [List.flatMap_cons, hd, List.cons_append] at ih ⊢
    exact .brace (fun he => hw (he ▸ List.mem_cons_self)) ih

theorem capNewlineRuns (h : Sparse s) : Sparse (StorageMarkup.capNewlineRuns s) := by
  induction h with
  | nil => exact .nil
  | char hc _ ih =>
    rw [StorageMarkup.capNewlineRuns]
    split
    · exact ih
    · exact .char hc ih
  | @brace d s hd _ ih =>
    obtain ⟨r, hr⟩ := exists_capNewlineRuns_cons d s
    rw [capNewlineRuns_cons_of_ne (by decide)]
    rw [hr] at ih ⊢
    exact .brace hd ih

end Sparse

/-! ## Values -/

theorem brace_not_mem_quoted (h : '{' ∉ s) : '{' ∉ Value.quoted s :=
  not_mem_quoted (by decide) fun _ hd _ he => h (he ▸ hd)

/-- A record is not written with a brace behind its own. -/
theorem head_displayEntries {entries : List (List Char × Value)}
    (hkeys : ∀ e ∈ entries, '{' ∉ e.1) :
    ∃ d r, joinWith ", ".toList (Value.displayEntries entries) ++ ['}'] = d :: r ∧ d ≠ '{' := by
  cases entries with
  | nil => exact ⟨'}', [], rfl, by decide⟩
  | cons e entries =>
    obtain ⟨t, ht⟩ := prefix_joinWith ", ".toList (Value.quoted e.1 ++ ':' :: ' ' :: e.2.display)
      (Value.displayEntries entries)
    rw [Value.displayEntries, ← ht]
    refine ⟨_, _, rfl, fun he => ?_⟩
    have hquoted := brace_not_mem_quoted (hkeys e List.mem_cons_self)
    rw [← he] at hquoted
    exact hquoted List.mem_cons_self

theorem sparse_display {value : Value} (h : value.All ('{' ∉ ·)) : Sparse value.display := by
  have hjoin : ∀ {parts : List (List Char)}, (∀ part ∈ parts, Sparse part) →
      Sparse (joinWith ", ".toList parts) := fun hparts =>
    joinWith_induct .nil (fun _ _ => .append) (.of_not_mem (by decide)) hparts
  induction h with
  | absent => exact .of_not_mem (by decide)
  | flag on => cases on <;> exact .of_not_mem (by decide)
  | number n => exact .of_not_mem (not_mem_numeral (by decide) n)
  | text h => exact .of_not_mem (brace_not_mem_quoted h)
  | other h => exact .of_not_mem h
  | list _ ih =>
    rw [Value.display, displayItems_eq]
    refine (Sparse.char (by decide) (hjoin fun part hm => ?_)).append (.of_not_mem (by decide))
    obtain ⟨item, hi, rfl⟩ := List.mem_map.1 hm
    exact ih item hi
  | @record entries hkeys _ ih =>
    have hentries : Sparse (joinWith ", ".toList (Value.displayEntries entries)) := by
      rw [displayEntries_eq]
      refine hjoin fun part hm => ?_
      obtain ⟨e, he, rfl⟩ := List.mem_map.1 hm
      exact (Sparse.of_not_mem (brace_not_mem_quoted (hkeys e he))).append
        (.char (by decide) (.char (by decide) (ih e he)))
    have hend := hentries.append (.of_not_mem (by decide : '{' ∉ ['}']))
    obtain ⟨d, r, hr, hd⟩ := head_displayEntries hkeys
    rw [hr] at hend
    rw [Value.display, List.cons_append, hr]
    exact .brace hd hend

theorem sparse_toText {value : Value} (h : value.All ('{' ∉ ·)) : Sparse value.toText := by
  cases value with
  | text s => exact .of_not_mem h.of_text
  | absent | flag | number | list | record | other => exact sparse_display h

/-! ## Directives -/

/-- Doubled braces around a text in which no token starts. -/
structure Braced (u : List Char) : Prop where
  starts : ∃ w, u = '{' :: '{' :: w ∧ Sparse ('{' :: w)
  ends : ∃ w, u = w ++ ['}']

namespace Braced

theorem capped {u : List Char} (h : Braced u) : Capped u where
  starts := by
    obtain ⟨w, rfl, -⟩ := h.starts
    exact ⟨_, _, rfl, by decide⟩
  ends := by
    obtain ⟨w, rfl⟩ := h.ends
    exact ⟨_, _, rfl, by decide⟩

theorem capNewlineRuns {u : List Char} (h : Braced u) :
    Braced (StorageMarkup.capNewlineRuns u) where
  starts := by
    obtain ⟨w, rfl, hw⟩ := h.starts
    refine ⟨StorageMarkup.capNewlineRuns w, ?_, ?_⟩
    · rw [capNewlineRuns_cons_of_ne (by decide), capNewlineRuns_cons_of_ne (by decide)]
    · rw [← capNewlineRuns_cons_of_ne (by decide)]
      exact hw.capNewlineRuns
  ends := by
    obtain ⟨w, rfl⟩ := h.ends
    exact ⟨_, capNewlineRuns_append_cons (by decide) w []⟩

end Braced

namespace Directive

/-- Keys are fixed words. -/
def SparseParams (ps : List Param) : Prop := ∀ p ∈ ps, '{' ∉ p.1 ∧ Sparse p.2.toText

theorem SparseParams.of_all {ps : List Param} (h : ∀ p ∈ ps, '{' ∉ p.1 ∧ p.2.All ('{' ∉ ·)) :
    SparseParams ps := fun p hp => ⟨(h p hp).1, sparse_toText (h p hp).2⟩

theorem sparse_nameAndParams {name : List Char} {ps : List Param} (hname : '{' ∉ name)
    (h : SparseParams ps) : Sparse (nameAndParams name ps) :=
  nameAndParams_induct (fun _ _ hbrace => .of_not_mem fun hm => absurd (hbrace _ hm) (by decide))
    (fun _ _ => .append) (.of_not_mem hname) fun p hp => ⟨.of_not_mem (h p hp).1, (h p hp).2.quote⟩

theorem prefix_nameAndParams (name : List Char) (ps : List Param) :
    name <+: nameAndParams name ps := by
  unfold nameAndParams
  simp only
  split
  · exact List.prefix_rfl
  · exact List.prefix_append _ _

theorem nameAndParams_of_ne_nil {ps : List Param} (h : params ps ≠ []) (name : List Char) :
    nameAndParams name ps = name ++ ' ' :: params ps :=
  if_neg fun he => h (List.isEmpty_iff.1 he)

theorem prefix_inline (name : List Char) (ps : List Param) :
    '{' :: '{' :: name <+: inline name ps :=
  List.cons_prefix_cons.2 ⟨rfl, List.cons_prefix_cons.2 ⟨rfl,
    (prefix_nameAndParams name ps).trans (List.prefix_append _ _)⟩⟩

theorem braced_of_head {d : Char} {w : List Char} (hd : d ≠ '{') (h : Sparse (d :: w)) :
    Braced ('{' :: '{' :: (d :: w) ++ ['}', '}']) where
  starts := ⟨_, rfl, .brace hd (h.append (.of_not_mem (by decide)))⟩
  ends := ⟨'{' :: '{' :: (d :: w ++ ['}']), by simp⟩

theorem braced_inline {name : List Char} {ps : List Param} (hne : name ≠ []) (hname : '{' ∉ name)
    (h : SparseParams ps) : Braced (inline name ps) := by
  obtain ⟨d, name, rfl⟩ := List.exists_cons_of_ne_nil hne
  obtain ⟨r, hr⟩ := prefix_nameAndParams (d :: name) ps
  have hsparse := sparse_nameAndParams hname h
  rw [← hr, List.cons_append] at hsparse
  rw [inline, ← hr, List.cons_append]
  exact braced_of_head (fun he => hname (he ▸ List.mem_cons_self)) hsparse

theorem braced_opening {name : List Char} {ps : List Param} (hname : '{' ∉ name)
    (h : SparseParams ps) : Braced (opening name ps) :=
  braced_of_head (by decide) (.char (by decide) (sparse_nameAndParams hname h))

theorem braced_closing {name : List Char} (hname : '{' ∉ name) : Braced (closing name) := by
  rw [closing_eq]
  exact braced_of_head (by decide) (.char (by decide) (.of_not_mem hname))

end Directive

end StorageMarkup
