import StorageMarkup.Proofs.Directive.Sparse
import StorageMarkup.Proofs.Footnote.Ids
import StorageMarkup.Proofs.Text.Woven

/-!
# Links that rules write

A text that rules have put together from their own directives, and from text without
opening braces, has no links but theirs: no link starts inside a directive or across its
ends, and no value that is quoted in one can pass for another parameter.

Results:
1. `Authored`: such texts, where links lead as the rules let them.
2. `Authored.leads_of_link`: a link that stands in one leads there.
3. `emitted_anchor`, `emitted_anchorLink`, `authored_block`: the directives that rules write.
-/

namespace StorageMarkup

open Directive (Param SparseParams params param? quoteValue)

variable {leads : List Char → Prop} {s t u : List Char}

/-! ## Links -/

def linkStart : List Char := "\x7b\x7bconfluence-link".toList

def linkHead : List Char := "\x7b\x7bconfluence-link type=\"anchor\" text=\"".toList

def anchorKey : List Char := " anchor=\"".toList

/-- A link up to its target, label and target as they are quoted, and what comes after. -/
def linkOf (label target rest : List Char) : List Char :=
  linkHead ++ (label ++ '"' :: (anchorKey ++ (target ++ '"' :: rest)))

theorem exists_linkOf (label target : List Char) (tooltip : Value) :
    ∃ rest, Directive.anchorLink (.text label) (.text target) tooltip =
      linkOf (quoteValue (.text label)) (quoteValue (.text target)) rest := by
  let quoted (key : String) (value : List Char) : List Char :=
    key.toList ++ "=\"".toList ++ quoteValue (.text value) ++ ['"']
  obtain ⟨more, hmore⟩ := prefix_joinWith [' '] (quoted "anchor" target)
    ([("tooltip".toList, tooltip)].filterMap param?)
  have hparams : params [("type".toList, .text "anchor".toList), ("text".toList, .text label),
      ("anchor".toList, .text target), ("tooltip".toList, tooltip)] =
      quoted "type" "anchor".toList ++ [' '] ++ (quoted "text" label ++ [' '] ++
        (quoted "anchor" target ++ more)) := by
    rw [hmore]
    rfl
  refine ⟨more ++ ['}', '}'], ?_⟩
  rw [Directive.anchorLink, Directive.inline,
    Directive.nameAndParams_of_ne_nil (by rw [hparams]; exact List.cons_ne_nil _ _), hparams]
  simp only [quoted, linkOf, List.append_assoc, List.cons_append, List.nil_append]
  rfl

theorem linkOf_append (label target rest t : List Char) :
    linkOf label target rest ++ t = linkOf label target (rest ++ t) := by
  simp only [linkOf, List.append_assoc, List.cons_append]

theorem linkStart_prefix_linkOf (label target rest : List Char) :
    linkStart <+: linkOf label target rest :=
  List.IsPrefix.trans (by decide : linkStart <+: linkHead) (List.prefix_append _ _)

theorem exists_linkOf_eq_cons (label target rest : List Char) :
    ∃ tail, linkOf label target rest = '{' :: '{' :: tail := ⟨_, rfl⟩

/-- Label and target of a link can be read off it, since no quote is left in them. -/
theorem target_eq_of_linkOf {label label' target target' rest rest' : List Char}
    (hl : '"' ∉ label) (hl' : '"' ∉ label') (ht : '"' ∉ target) (ht' : '"' ∉ target')
    (h : linkOf label target rest = linkOf label' target' rest') : target = target' := by
  have hlabel := List.append_cancel_left h
  have htarget := List.append_cancel_left (eq_and_eq_of_append_cons_eq hl hl' hlabel).2
  exact (eq_and_eq_of_append_cons_eq ht ht' htarget).1

theorem capNewlineRuns_linkOf {target : List Char} (ht : '\n' ∉ target) (label rest : List Char) :
    capNewlineRuns (linkOf label target rest) =
      linkOf (capNewlineRuns label) target (capNewlineRuns rest) := by
  have hquote : ∀ s, capNewlineRuns ('"' :: s) = '"' :: capNewlineRuns s :=
    capNewlineRuns_cons_of_ne (by decide)
  rw [linkOf, capNewlineRuns_append (narrow_of_not_mem (by decide)),
    capNewlineRuns_append_cons (by decide), hquote,
    capNewlineRuns_append (narrow_of_not_mem (by decide)),
    capNewlineRuns_append (narrow_of_not_mem ht), hquote, linkOf]

/-! ## Texts that the rules put together -/

/-- A directive that is no link to an anchor, or one whose target, as it is quoted, is such. -/
structure Emitted (leads : List Char → Prop) (u : List Char) : Prop extends Braced u where
  link : linkStart <+: u → ∃ label target rest, u = linkOf label target rest ∧
    '"' ∉ label ∧ '"' ∉ target ∧ '\n' ∉ target ∧ leads target

/-- Directives of this kind, and characters other than opening braces around them. -/
def Authored (leads : List Char → Prop) (s : List Char) : Prop :=
  ∃ labels, Woven (· ≠ '{') (fun _ : Unit => Emitted leads) labels s

theorem Emitted.capNewlineRuns (h : Emitted leads u) :
    Emitted leads (StorageMarkup.capNewlineRuns u) where
  toBraced := h.toBraced.capNewlineRuns
  link hp := by
    obtain ⟨label, target, rest, rfl, hl, ht, hfeed, hleads⟩ :=
      h.link (prefix_of_prefix_capNewlineRuns (by decide) hp)
    exact ⟨_, target, _, capNewlineRuns_linkOf hfeed label rest,
      fun hm => hl (mem_of_capNewlineRuns hm), ht, hfeed, hleads⟩

/-- What starts otherwise is no link. -/
theorem Emitted.of_braced {p : List Char} (h : Braced u) (hp : p <+: u) (hlong : ¬ linkStart <+: p)
    (hshort : ¬ p <+: linkStart) : Emitted leads u where
  toBraced := h
  link hlink := absurd (List.prefix_or_prefix_of_prefix hlink hp) (not_or.2 ⟨hlong, hshort⟩)

namespace Authored

theorem of_not_mem (h : '{' ∉ s) : Authored leads s :=
  ⟨[], .of_plain fun _ hc he => h (he ▸ hc)⟩

theorem of_emitted (h : Emitted leads u) : Authored leads u := ⟨[()], .of_unit h⟩

theorem append (hs : Authored leads s) (ht : Authored leads t) : Authored leads (s ++ t) := by
  obtain ⟨a, hs⟩ := hs
  obtain ⟨b, ht⟩ := ht
  exact ⟨a ++ b, hs.append ht⟩

theorem strip (h : Authored leads s) : Authored leads (StorageMarkup.strip s) := by
  obtain ⟨a, h⟩ := h
  exact ⟨a, h.strip fun _ _ hu => hu.toBraced.capped⟩

theorem capNewlineRuns (h : Authored leads s) :
    Authored leads (StorageMarkup.capNewlineRuns s) := by
  obtain ⟨a, h⟩ := h
  refine ⟨a, ?_⟩
  induction h with
  | nil => exact .nil
  | char hc _ ih =>
    rw [StorageMarkup.capNewlineRuns]
    split
    · exact ih
    · exact .char hc ih
  | @unit _ u _ s hu _ ih =>
    obtain ⟨w, hw⟩ := hu.ends
    have hcut : StorageMarkup.capNewlineRuns (u ++ s) =
        StorageMarkup.capNewlineRuns u ++ StorageMarkup.capNewlineRuns s := by
      rw [hw, List.append_assoc, List.singleton_append, capNewlineRuns_append_cons (by decide),
        capNewlineRuns_append_cons (by decide) w [], capNewlineRuns_cons_of_ne (by decide),
        List.append_assoc]
      rfl
    rw [hcut]
    exact .unit hu.capNewlineRuns ih

/-- A doubled brace is the start of a directive. -/
theorem exists_emitted (h : Authored leads (s ++ '{' :: '{' :: t)) :
    ∃ u r, Emitted leads u ∧ '{' :: '{' :: t = u ++ r := by
  obtain ⟨labels, h⟩ := h
  generalize hw : s ++ '{' :: '{' :: t = w at h
  induction h generalizing s with
  | nil => simp at hw
  | char hc _ ih =>
    cases s with
    | nil => exact absurd (List.cons.inj hw).1.symm hc
    | cons d s => exact ih (List.cons.inj hw).2
  | @unit _ u _ r hu _ ih =>
    rcases List.append_eq_append_iff.1 hw with ⟨x, rfl, hx⟩ | ⟨x, rfl, hx⟩
    · -- the doubled brace starts in the directive, or right after it
      cases s with
      | nil => exact ⟨x, r, hu, hx⟩
      | cons d s =>
        cases x with
        | nil => exact ih (s := []) hx
        | cons e x =>
          obtain ⟨w, hstart, hsparse⟩ := hu.starts
          rw [List.cons_append, List.cons.injEq] at hstart hx
          rw [← hstart.2, ← hx.1] at hsparse
          obtain ⟨d, y, rfl, hd⟩ := hsparse.of_append.not_doubled
          exact absurd (List.cons.inj hx.2).1.symm hd
    · exact ih hx.symm

/-- A link that stands in the text leads where links may lead. -/
theorem leads_of_link {label target : List Char} {tooltip : Value} (h : Authored leads s)
    (hlink : Directive.anchorLink (.text label) (.text target) tooltip <:+: s) :
    leads (quoteValue (.text target)) := by
  obtain ⟨rest, hlinkOf⟩ := exists_linkOf label target tooltip
  obtain ⟨a, b, rfl⟩ := hlink
  rw [hlinkOf, List.append_assoc, linkOf_append] at h
  obtain ⟨tail, htail⟩ := exists_linkOf_eq_cons (quoteValue (.text label))
    (quoteValue (.text target)) (rest ++ b)
  rw [htail] at h
  obtain ⟨u, r, hu, hr⟩ := h.exists_emitted
  rw [← htail] at hr
  -- the directive does not end before the link has started
  have hstart : linkStart <+: u ++ r := hr ▸ linkStart_prefix_linkOf _ _ _
  rcases List.prefix_or_prefix_of_prefix hstart (List.prefix_append u r) with hp | hp
  · obtain ⟨label', target', rest', rfl, hl', ht', -, hleads⟩ := hu.link hp
    rw [linkOf_append] at hr
    rwa [target_eq_of_linkOf (Directive.quote_not_mem_quoteValue _) hl'
      (Directive.quote_not_mem_quoteValue _) ht' hr]
  · obtain ⟨w, rfl⟩ := hu.ends
    exact absurd (hp.subset (List.mem_append_right w List.mem_cons_self)) (by decide)

end Authored

/-! ## Directives -/

theorem emitted_anchor {name : List Char} (h : '{' ∉ name) :
    Emitted leads (Directive.anchor (.text name)) := by
  have hparams : SparseParams [("name".toList, .text name)] :=
    List.forall_mem_singleton.2 ⟨(by decide : '{' ∉ "name".toList), .of_not_mem h⟩
  exact .of_braced (Directive.braced_inline (by decide) (by decide) hparams)
    (Directive.prefix_inline _ _) (by decide) (by decide)

theorem emitted_anchorLink {label target : List Char} {tooltip : Value} (hlabel : '{' ∉ label)
    (htarget : '{' ∉ target) (htooltip : tooltip.All ('{' ∉ ·)) (hfeed : '\n' ∉ target)
    (h : leads (quoteValue (.text target))) :
    Emitted leads (Directive.anchorLink (.text label) (.text target) tooltip) where
  toBraced := by
    refine Directive.braced_inline (by decide) (by decide) ?_
    simp only [SparseParams, List.forall_mem_cons]
    exact ⟨⟨by decide, .of_not_mem (by decide)⟩, ⟨by decide, .of_not_mem hlabel⟩,
      ⟨by decide, .of_not_mem htarget⟩, ⟨by decide, sparse_toText htooltip⟩,
      fun _ hm => absurd hm List.not_mem_nil⟩
  link _ := by
    obtain ⟨rest, hrest⟩ := exists_linkOf label target tooltip
    exact ⟨_, _, rest, hrest, Directive.quote_not_mem_quoteValue _,
      Directive.quote_not_mem_quoteValue _, Directive.feed_not_mem_quoteValue hfeed, h⟩

/-- A block directive around such a text. -/
theorem authored_block {name body : List Char} {ps : List Param} (hname : '{' ∉ name)
    (hps : SparseParams ps) (hbody : Authored leads body) :
    Authored leads (Directive.block name body ps) := by
  have hhead : Emitted leads (Directive.opening name ps) :=
    .of_braced (p := "\x7b\x7b#".toList) (Directive.braced_opening hname hps) ⟨_, rfl⟩ (by decide)
      (by decide)
  have hend : Emitted leads (Directive.closing name) :=
    .of_braced (p := "\x7b\x7b/".toList) (Directive.braced_closing hname)
      ⟨_, (Directive.closing_eq name).symm⟩ (by decide) (by decide)
  have hbreak : Authored leads ['\n'] := .of_not_mem (by decide)
  exact ((Authored.of_emitted hhead).append (hbreak.append hbody)).append
    (hbreak.append (.of_emitted hend))

end StorageMarkup
