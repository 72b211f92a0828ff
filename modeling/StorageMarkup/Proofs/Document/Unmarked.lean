import StorageMarkup.Proofs.Document.Stages
import StorageMarkup.Proofs.Mapping.Intact
import StorageMarkup.Proofs.Source.Intact
import StorageMarkup.Proofs.Text.NewlineRuns

/-!
# No placeholder leaves

A conversion whose tree holds whole placeholders of its vault only, and whose vault is
in order, writes markup without start marks: every pass keeps placeholders whole, and
putting back resolves them all.

Results:
1. `convertWith_unmarked`: trees and vaults.
2. `render_unmarked`: sources, whatever the reader makes of the placeholders.
3. `output_unmarked`: both.
-/

namespace StorageMarkup

open Vault

variable {options : Options} {v : Vault} {nodes : List Node} {out : List Char}

theorem convertWith_unmarked (hv : v.Ordered) (ho : options.Unmarked)
    (h : ∀ n ∈ nodes, n.All (Intact (· < v.size)))
    (hout : (convertWith options v nodes).2.result = .ok out) : startMark ∉ out := by
  obtain ⟨mapped, folded, settled, text, hmapped, hfolded, hsettled, htext, rfl⟩ :=
    convertWith_eq_ok hout
  have hlifted : ∀ n ∈ lifted v nodes, n.All (Intact (· < v.size)) :=
    intact_liftMarkersAmong (some v) (all_bodyOf h)
  obtain ⟨hordered, hshielded⟩ := hv.shieldNodes hlifted
  have hm := intact_mapping hordered rfl ho hshielded hmapped
  have hf := intact_foldAll hordered hm hfolded
  have hs := intact_settleFootnotesAmong (all_of_unmarked ho.footnotesHeading) hf hsettled
  exact fun hmem => hordered.expand_free (intact_printAll hs htext) (mem_of_capNewlineRuns hmem)

theorem render_unmarked {reader : Reader} {text : List Char} (ho : options.Unmarked)
    (htext : startMark ∉ text)
    (h : ∀ v source nodes, prepareSource options text = .ok (v, source) →
      readTree reader options source = .ok nodes →
      ∀ n ∈ nodes, n.All (Intact fun number => placeholder number <:+: source))
    (hout : render reader options text = .ok out) : startMark ∉ out := by
  obtain ⟨v, source, nodes, hsource, hnodes, hout⟩ := render_eq_ok.1 hout
  obtain ⟨hv, hintact⟩ := prepareSource_ordered htext hsource
  refine convertWith_unmarked hv ho (fun n hn => ?_) hout
  exact (h v source nodes hsource hnodes n hn).mono fun s hs =>
    hs.mono fun number hp => hintact.known_of_infix hp

/-- No start mark is written: not for a tree with placeholders of a vault in order, hence not for
a tree without start marks and a new vault, and not for a source without start marks, if the
reader's markup holds placeholders of the source it was sent and no other start mark. -/
theorem output_unmarked (options : Options) (ho : options.Unmarked) :
    (∀ (ctx : Context) (nodes : List Node) (out : List Char), ctx.options = options →
      (ctx.vault.getD .empty).Ordered →
      (∀ n ∈ nodes, n.All (Intact (· < (ctx.vault.getD .empty).size))) →
      (ctx.convert nodes).2.result = .ok out → startMark ∉ out) ∧
    (∀ (nodes : List Node) (out : List Char), (∀ n ∈ nodes, n.All (startMark ∉ ·)) →
      (convert options nodes).result = .ok out → startMark ∉ out) ∧
    ∀ (reader : Reader) (text out : List Char), startMark ∉ text →
      (∀ v source nodes, prepareSource options text = .ok (v, source) →
        readTree reader options source = .ok nodes →
        ∀ n ∈ nodes, n.All (Intact fun number => placeholder number <:+: source)) →
      render reader options text = .ok out → startMark ∉ out := by
  refine ⟨?_, ?_, ?_⟩
  · rintro ctx nodes out rfl hv hnodes hout
    exact convertWith_unmarked hv ho hnodes hout
  · intro nodes out hnodes hout
    refine convertWith_unmarked ordered_empty ho (fun n hn => ?_) hout
    exact (hnodes n hn).mono fun s => .of_free
  · intro reader text out htext hnodes hout
    exact render_unmarked ho htext hnodes hout

theorem standard_unmarked : Options.standard.Unmarked where
  footnotesHeading := .text (by decide)
  codeLanguage := .text (by decide)
  codeLineNumbers := .flag true
  expandTitle := .text (by decide)

/-- A placeholder inside the text of another, a directive in a new document, and a directive that
goes through a reader. -/
theorem output_unmarked_runs :
    let known : Vault := ⟨["x".toList, 'y' :: placeholder 0]⟩
    let reader : Reader := fun source => .ok ("<p>".toList ++ source ++ "</p>".toList)
    let directive := "\x7b\x7bx\x7d\x7d".toList
    (((Context.mk .standard (some known) none).convert [.text (placeholder 1)]).2.result =
        .ok "yx".toList ∧ startMark ∉ "yx".toList) ∧
      ((convert .standard [.text directive]).result = .ok directive ∧ startMark ∉ directive) ∧
      render reader .standard directive = .ok ("<p>".toList ++ directive ++ "</p>".toList) ∧
      startMark ∉ "<p>".toList ++ directive ++ "</p>".toList := by
  intro known reader directive
  obtain ⟨hcontext, hconvert, hrender⟩ := output_unmarked .standard standard_unmarked
  have hrun : ((Context.mk .standard (some known) none).convert [.text (placeholder 1)]).2.result =
      .ok "yx".toList := by decide +kernel
  have hrun' : (convert .standard [.text directive]).result = .ok directive := by decide +kernel
  have hrun'' : render reader .standard directive =
      .ok ("<p>".toList ++ directive ++ "</p>".toList) := by decide +kernel
  have hordered : known.Ordered := by
    intro n s hs
    match n, hs with
    | 0, hs =>
      cases hs
      exact .of_free (by decide)
    | 1, hs =>
      cases hs
      exact .cons (by decide) (.placeholder (by decide))
  refine ⟨⟨hrun, hcontext ⟨.standard, some known, none⟩ _ _ rfl hordered ?_ hrun⟩,
    ⟨hrun', hconvert _ _ ?_ hrun'⟩, hrun'', hrender _ _ _ (by decide) ?_ hrun''⟩
  · exact List.forall_mem_singleton.2 (.text (.placeholder (by decide)))
  · exact List.forall_mem_singleton.2 (.text (by decide))
  · intro v source nodes hsource hnodes
    have hsent : prepareSource .standard directive = .ok (⟨[directive]⟩, placeholder 0) := by
      decide +kernel
    rw [hsent] at hsource
    cases hsource
    have htree : readTree reader .standard (placeholder 0) =
        .ok [.element ['p'] [] [.text (placeholder 0)]] := by with_unfolding_all rfl
    rw [htree] at hnodes
    cases hnodes
    refine List.forall_mem_singleton.2 (.element (.of_free (by decide)) ?_ ?_)
    · exact fun a ha => absurd ha List.not_mem_nil
    · exact List.forall_mem_singleton.2 (.text (.placeholder List.infix_rfl))

end StorageMarkup
