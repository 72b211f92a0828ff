import StorageMarkup.Proofs.Document.Stages
import StorageMarkup.Proofs.Region.Kept

/-!
# Verbatim regions are written as they stand

A verbatim region goes through a conversion as one placeholder. If the reader makes it
a paragraph of its own and no element around that paragraph is dropped or rewritten,
the placeholder stays to the end and the region takes its place there.

Results:
1. `convertWith_keeps_region`: trees and vaults.
2. `verbatim_region_kept`: sources, whatever else the reader makes of them.
3. `verbatim_region_lost`: links to footnotes and long runs of line feeds in a region.
-/

namespace StorageMarkup

open Vault

variable {options : Options} {v : Vault} {nodes : List Node} {region out : List Char} {k : Nat}

/-- What a written placeholder becomes: the region, if no run of line feeds in it is capped. -/
theorem region_infix_written {s : List Char} (hv : Stored v k region)
    (hshort : ¬ "\n\n\n".toList <:+: region) (hs : placeholder k <:+: s) :
    region <:+: capNewlineRuns (v.expand s) := by
  have hexpanded : region <:+: v.expand s :=
    (hv.isRegion.solid hv.unmarked).infix_expand_placeholder hv.original List.infix_rfl hs
  have hnarrow := hv.isRegion.narrow hshort
  obtain ⟨c, rest, rfl, _, hc⟩ := hv.isRegion.exists_cons
  exact infix_capNewlineRuns hc hnarrow hexpanded

/-- The links of a tree that its conversion rewrites: those of footnotes that it defines and refers
to. -/
def rewrittenLinks (v : Vault) (nodes : List Node) : Targets :=
  (Targets.ofIndex (.ofNodes (shielded v nodes))).beforeShield v (filledVault v nodes)

/-- A region whose placeholder is an exposed paragraph is written as it stands in the vault. -/
theorem convertWith_keeps_region (hv : Stored v k region) (hshort : ¬ "\n\n\n".toList <:+: region)
    (h : Exposes (rewrittenLinks v nodes) (ParagraphOf k) true nodes)
    (hout : (convertWith options v nodes).2.result = .ok out) : region <:+: out := by
  obtain ⟨mapped, folded, settled, text, hmapped, hfolded, hsettled, htext, rfl⟩ :=
    convertWith_eq_ok hout
  have hfilled : Stored (filledVault v nodes) k region := hv.grow (shieldNodes_extends v _)
  have hlifted : Exposes (rewrittenLinks v nodes) (TextOf k) true (lifted v nodes) :=
    exposes_liftMarkers hv (exposes_bodyOf h)
  have hshielded :
      Exposes (.ofIndex (.ofNodes (shielded v nodes))) (TextOf k) true (shielded v nodes) :=
    exposes_shieldNodes hlifted
  have hm := keeps_mapping hshielded hmapped
  have hf := exposes_foldAll hfilled hfolded hm
  have hs := exposes_settleFootnotes hsettled hf
  exact region_infix_written hfilled hshort (infix_printAll htext hs)

/-- What is set aside for a verbatim region is made of lines of the source, and it stands in the
output, if the reader's tree has its placeholder as an exposed paragraph of its own and there are
no three line feeds one after the other in it. Around an exposed paragraph there is no link back of
a linked footnote, and one link to such a footnote at most. -/
theorem verbatim_region_kept (reader : Reader) (options : Options) (text : List Char)
    (htext : startMark ∉ text) {listed : VerbatimNames}
    (hlisted : VerbatimNames.ofValue options.verbatim = .ok listed) {stashed : Vault}
    {regionless : List Char}
    (hset : setRegionsAside listed .empty text = (stashed, .ok regionless)) {k : Nat}
    {region : List Char} (hk : stashed.originals[k]? = some region) {v : Vault}
    {source : List Char} (hsource : prepareSource options text = .ok (v, source))
    {nodes : List Node} (hnodes : readTree reader options source = .ok nodes)
    (h : Exposes (rewrittenLinks v nodes) (ParagraphOf k) true nodes)
    (hshort : ¬ "\n\n\n".toList <:+: region) {out : List Char}
    (hout : render reader options text = .ok out) :
    StandsIn listed (linesWithFences (lines text)) region ∧ region <:+: out := by
  have hstands := setRegionsAside_stands hset hk
  refine ⟨hstands, ?_⟩
  have hstashed : Stored stashed k region := ⟨hk, hstands.isRegion, hstands.unmarked htext⟩
  obtain ⟨listed', w, regionless', hlisted', hset', hshield⟩ := prepareSource_eq_ok hsource
  cases hlisted.symm.trans hlisted'
  cases hset.symm.trans hset'
  -- the directives are set aside after the regions
  have hv : stashed.Extends v := by
    have := shield_extends stashed (setLinesApart regionless)
    rwa [hshield] at this
  obtain ⟨v', source', nodes', hsource', hnodes', hrun⟩ := render_eq_ok.1 hout
  cases hsource.symm.trans hsource'
  cases hnodes.symm.trans hnodes'
  exact convertWith_keeps_region (hstashed.grow hv) hshort h hrun

/-- A region with a fence, a directive and an empty line in it. -/
theorem verbatim_region_kept_body :
    let region := ("\x7b\x7b#confluence-code\x7d\x7d\n```\n\n*a* \x7b\x7bx\x7d\x7d" ++
      "\n\x7b\x7b/confluence-code\x7d\x7d").toList
    let listed : VerbatimNames := ⟨["confluence-code".toList], false, false⟩
    let reader : Reader := fun _ => .ok ("<p>".toList ++ placeholder 0 ++ "</p>".toList)
    render reader .standard region = .ok region ∧
      StandsIn listed (linesWithFences (lines region)) region ∧ region <:+: region := by
  intro region listed reader
  have hrun : render reader .standard region = .ok region := by decide +kernel
  have hset : setRegionsAside listed .empty region =
      (⟨[region]⟩, .ok ('\n' :: placeholder 0 ++ ['\n'])) := by decide +kernel
  have hsource : prepareSource .standard region =
      .ok (⟨[region]⟩, '\n' :: placeholder 0 ++ ['\n']) := by decide +kernel
  have hnodes : readTree reader .standard ('\n' :: placeholder 0 ++ ['\n']) =
      .ok [.element ['p'] [] [.text (placeholder 0)]] := by with_unfolding_all rfl
  have hparagraph : ParagraphOf 0 (.element ['p'] [] [.text (placeholder 0)]) :=
    ⟨[], placeholder 0, rfl, (capped_placeholder 0).strip⟩
  exact ⟨hrun, verbatim_region_kept reader .standard region (by decide +kernel) rfl hset rfl hsource
    hnodes ⟨_, List.mem_singleton.2 rfl, .here hparagraph⟩ (by decide +kernel) hrun⟩

/-- A paragraph of the placeholder alone is not enough: a link back from a footnote and the inner
one of two links to it are written without what they hold, and of three line feeds in a row two
are written. -/
theorem verbatim_region_lost :
    let region (body : String) : List Char := "\x7b\x7b#confluence-code\x7d\x7d\n".toList ++
      body.toList ++ "\n\x7b\x7b/confluence-code\x7d\x7d".toList
    let sent := '\n' :: placeholder 0 ++ ['\n']
    let target (name : String) : List Char := "#user-content-".toList ++ name.toList
    let paragraph := "<p>".toList ++ placeholder 0 ++ "</p>".toList
    let link (name : String) (content : List Char) : List Char :=
      "<a href=\"".toList ++ target name ++ "\">".toList ++ content ++ "</a>".toList
    let notes := "<ol class=\"footnotes\">".toList ++
      "<li id=\"user-content-fn1\">s</li></ol>".toList
    let paragraphNode : Node := .element ['p'] [] [.text (placeholder 0)]
    let linkNode (name : String) (children : List Node) : Node :=
      .element ['a'] [("href".toList, .text (target name))] children
    let noteNode : Node :=
      .element "li".toList [("id".toList, .text "user-content-fn1".toList)] [.text ['s']]
    let notesNode : Node :=
      .element "ol".toList [("class".toList, .list [.text "footnotes".toList])] [noteNode]
    let settled := "<h2>Footnotes</h2>\n".toList ++
      Directive.anchor (Footnote.anchorName ['1']) ++ "s\n\n".toList
    let Loses (body : String) (markup : List Char) (nodes : List Node) (out : List Char) : Prop :=
      prepareSource .standard (region body) = .ok (⟨[region body]⟩, sent) ∧
        readTree (fun _ => .ok markup) .standard sent = .ok nodes ∧
        render (fun _ => .ok markup) .standard (region body) = .ok out ∧ ¬ region body <:+: out
    Loses "a" (link "fnref1" paragraph ++ link "fn1" ['1'] ++ notes)
        [linkNode "fnref1" [paragraphNode], linkNode "fn1" [.text ['1']], notesNode]
        (Footnote.backLink ['1'] ++ Footnote.referenceLink ['1'] ['1'] ++ settled) ∧
      Loses "a" (link "fn1" (link "fn1" paragraph) ++ notes)
        [linkNode "fn1" [linkNode "fn1" [paragraphNode]], notesNode]
        (Footnote.referenceLink ['1'] [] ++ settled) ∧
      Loses "a\n\n\nb" paragraph [paragraphNode] (region "a\n\nb") := by
  intro region sent target paragraph link notes paragraphNode linkNode noteNode notesNode settled
    Loses
  have hback : Html.tokens (link "fnref1" paragraph ++ link "fn1" ['1'] ++ notes) =
      [.startTag ['a'] [("href".toList, target "fnref1")] false, .startTag ['p'] [] false,
        .text (placeholder 0), .endTag ['p'], .endTag ['a'],
        .startTag ['a'] [("href".toList, target "fn1")] false, .text ['1'], .endTag ['a'],
        .startTag "ol".toList [("class".toList, "footnotes".toList)] false,
        .startTag "li".toList [("id".toList, "user-content-fn1".toList)] false, .text ['s'],
        .endTag "li".toList, .endTag "ol".toList] := by decide +kernel
  have hnested : Html.tokens (link "fn1" (link "fn1" paragraph) ++ notes) =
      [.startTag ['a'] [("href".toList, target "fn1")] false,
        .startTag ['a'] [("href".toList, target "fn1")] false, .startTag ['p'] [] false,
        .text (placeholder 0), .endTag ['p'], .endTag ['a'], .endTag ['a'],
        .startTag "ol".toList [("class".toList, "footnotes".toList)] false,
        .startTag "li".toList [("id".toList, "user-content-fn1".toList)] false, .text ['s'],
        .endTag "li".toList, .endTag "ol".toList] := by decide +kernel
  have hloses : ∀ {body : String} {markup : List Char} {nodes : List Node} {out : List Char},
      prepareSource .standard (region body) = .ok (⟨[region body]⟩, sent) →
      readTree (fun _ => .ok markup) .standard sent = .ok nodes →
      (convertWith .standard ⟨[region body]⟩ nodes).2.result = .ok out →
      ¬ region body <:+: out → Loses body markup nodes out := fun hsource hnodes hrun hlost =>
    ⟨hsource, hnodes, render_eq_ok.2 ⟨_, _, _, hsource, hnodes, hrun⟩, hlost⟩
  have hprepared : prepareSource .standard (region "a") = .ok (⟨[region "a"]⟩, sent) := by
    decide +kernel
  refine ⟨hloses hprepared ?_ (by decide +kernel) (by decide +kernel),
    hloses hprepared ?_ (by decide +kernel) (by decide +kernel),
    hloses (by decide +kernel) ?_ (by decide +kernel) (by decide +kernel)⟩
  · refine (readTree_of_tokens rfl hback (by decide +kernel) (by decide +kernel)).trans ?_
    with_unfolding_all rfl
  · refine (readTree_of_tokens rfl hnested (by decide +kernel) (by decide +kernel)).trans ?_
    with_unfolding_all rfl
  · with_unfolding_all rfl

end StorageMarkup
