import StorageMarkup.Proofs.Document.Stages
import StorageMarkup.Proofs.Document.Unmarked
import StorageMarkup.Proofs.Footnote.Alike
import StorageMarkup.Proofs.Mapping.Alike
import StorageMarkup.Proofs.Region.Alike
import StorageMarkup.Proofs.Tree.Early

/-!
# What a conversion does not depend on

Whatever a vault holds when a conversion starts, and whichever directives of the document
have been set aside in it, the same markup is written and the same failures and events are
reported: the texts of the two conversions are alike at every stage.

Results:
1. `convertWith_early`: an early start and a late one.
2. `convert_early`: a new document, some of its directives set aside early.
3. `convert_ignores_context`: documents that share a context.
-/

namespace StorageMarkup

open Vault

variable {options : Options} {numbers : List Nat} {nodes nodes' : List Node}

/-! ## Early and late -/

/-- With all directives set aside, a tree is alike to what it is after an early start. -/
theorem alike_shielded {w : Vault} (h : EarlyNodes w numbers nodes nodes') (hnew : numbers.Nodup)
    (v : Vault) : ∃ same, Matching (filledVault v nodes) (filledVault w nodes') same ∧
      AlikeNodes same (shielded v nodes) (shielded w nodes') := by
  obtain ⟨_, hbody, h⟩ := h.bodyOf
  obtain ⟨fewer, hmarkers, h⟩ := h.liftMarkersAmong v
  have hfill : Filling w v w (fun _ _ => False) (fewer ++ []) := by
    rw [List.append_nil]
    exact {
      original := False.elim
      unique := False.elim
      kept := .refl w
      nodup := (hmarkers.trans hbody).nodup hnew
      known := h.known
      fresh := False.elim }
  obtain ⟨same, -, hfilled, halike⟩ := h.shieldNodes hfill
  exact ⟨same, hfilled.toMatching, halike⟩

/-- Whichever directives have been set aside early, the conversion comes to the same. -/
theorem convertWith_early (ho : options.Unmarked) {w : Vault}
    (h : EarlyNodes w numbers nodes nodes') (hnew : numbers.Nodup) (v : Vault) :
    (convertWith options v nodes).2 = (convertWith options w nodes').2 := by
  obtain ⟨same, hsame, halike⟩ := alike_shielded h hnew v
  have hindex := Footnote.Index.alike_ofNodes halike
  rw [convertWith_eq, convertWith_eq, Node.depthOf_eq, Node.depthOf_eq, h.heightOf_eq]
  refine ((Traced.Agree.refl _).bind fun _ _ _ => ?_).eq
  refine (hsame.mapping ho hindex halike 0).bind fun _ _ hmapped => ?_
  refine (hsame.foldAll options.limit hmapped).bind fun _ _ hfolded => ?_
  refine (Traced.Agree.lift (hfolded.settleFootnotesAmong hsame hindex ho.footnotesHeading
    options.limit)).bind fun _ _ hsettled => ?_
  refine (Traced.Agree.lift (hsettled.printAll options.limit)).bind fun _ _ htext => ?_
  exact .pure (congrArg capNewlineRuns (hsame.expand_eq htext))

/-- A document some of whose directives have been set aside early, in a vault that may hold other
texts too, is converted as it would have been from a new vault, if the options hold no start marks
and the documents inside the document are as they were. -/
theorem convert_early (ho : options.Unmarked) {w : Vault} (h : EarlyNodes w numbers nodes nodes')
    (hnew : numbers.Nodup) (footnotes : Option Footnote.Index) :
    (Context.convert ⟨options, some w, footnotes⟩ nodes').2 = convert options nodes :=
  (convertWith_early ho h hnew .empty).symm

theorem sizedImage_of_ne {tag : List Char} {attrs : Attributes} (h : tag ≠ "img".toList) :
    SizedImage tag attrs := fun htag => absurd htag h

/-- An attribute and an open token are set aside early, another directive and the close token are
not. -/
theorem convert_early_region :
    let w : Vault := ⟨["kept".toList, "\x7b\x7b#x\x7d\x7d".toList, "\x7b\x7by\x7d\x7d".toList]⟩
    let others : List Node := [.text "\x7b\x7bz\x7d\x7d".toList, .text "\x7b\x7b/x\x7d\x7d".toList]
    let late : List Node := .element ['p'] [("id".toList, .text "\x7b\x7by\x7d\x7d".toList)] [] ::
      .element ['p'] [] [.text "\x7b\x7b#x\x7d\x7d".toList] :: others
    let early : List Node := .element ['p'] [("id".toList, .text (placeholder 2))] [] ::
      .element ['p'] [] [.text (placeholder 1)] :: others
    EarlyNodes w [2, 1] late early ∧ [2, 1].Nodup ∧
      (Context.convert ⟨.standard, some w, none⟩ early).2 = convert .standard late ∧
      (convert .standard late).result =
        .ok ("<p id=\"\x7b\x7by\x7d\x7d\"></p>".toList ++
          "\x7b\x7b#x\x7d\x7d\n\x7b\x7bz\x7d\x7d\n\x7b\x7b/x\x7d\x7d".toList) := by
  intro w others late early
  have hx : Early w [1] "\x7b\x7b#x\x7d\x7d".toList (placeholder 1) :=
    .placeholder ⟨⟨"#x".toList, rfl, by decide⟩, by decide, by decide⟩ rfl
  have hy : Early w [2] "\x7b\x7by\x7d\x7d".toList (placeholder 2) :=
    .placeholder ⟨⟨"y".toList, rfl, by decide⟩, by decide, by decide⟩ rfl
  have hothers : EarlyNodes w [] others others :=
    .text (.same (by decide)) (.text (.same (by decide)) .nil)
  have hattrs : Attributes.Early w [2] [("id".toList, .text "\x7b\x7by\x7d\x7d".toList)]
      [("id".toList, .text (placeholder 2))] := .cons (by decide) (.text hy) .nil
  have htag : startMark ∉ ['p'] := by decide
  have hfirst := EarlyNodes.single_element htag hattrs (sizedImage_of_ne (by decide)) .nil
  have hsecond := EarlyNodes.single_element htag .nil (sizedImage_of_ne (by decide))
    (.single_text hx)
  have hearly : EarlyNodes w [2, 1] late early := hfirst.append (hsecond.append hothers)
  have hnew : [2, 1].Nodup := by decide
  exact ⟨hearly, hnew, convert_early standard_unmarked hearly hnew none, by decide +kernel⟩

/-- An early start shows without these two conditions: a code language of the options that is a
placeholder means what the vault happens to keep under it, and a directive of a document inside the
document is never set aside late, so that its text is escaped. -/
theorem early_start_shows :
    let options : Options := { Options.standard with codeLanguage := .text (placeholder 0) }
    let listing : List Node := [.element "pre".toList [] [.element "code".toList [] []]]
    let directive := "\x7b\x7ba & b\x7d\x7d".toList
    let v : Vault := ⟨[directive]⟩
    (EarlyNodes ⟨["X".toList]⟩ [] listing listing ∧
      ((Context.convert ⟨options, some ⟨["X".toList]⟩, none⟩ listing).2.result ≠
        (convert options listing).result)) ∧
    (Context.convert ⟨.standard, some v, none⟩ [.root [.text (placeholder 0)]]).2.result =
      .ok directive ∧
    (convert .standard [.root [.text directive]]).result =
      .ok "\x7b\x7ba &amp; b\x7d\x7d".toList := by
  refine ⟨⟨?_, by decide +kernel⟩, by decide +kernel, by decide +kernel⟩
  exact .single_element (by decide) .nil (sizedImage_of_ne (by decide))
    (.single_element (by decide) .nil (sizedImage_of_ne (by decide)) .nil)

/-! ## One context for many documents -/

/-- Documents converted one after the other in one context. -/
def Context.convertEach (ctx : Context) : List (List Node) → Context × List (Traced (List Char))
  | [] => (ctx, [])
  | nodes :: rest =>
    let (ctx, done) := ctx.convert nodes
    let (ctx, others) := ctx.convertEach rest
    (ctx, done :: others)

theorem Context.options_convert (ctx : Context) (nodes : List Node) :
    (ctx.convert nodes).1.options = ctx.options := rfl

theorem Context.convert_eq (ctx : Context) (ho : ctx.options.Unmarked) (h : Presentable nodes) :
    (ctx.convert nodes).2 = StorageMarkup.convert ctx.options nodes :=
  (convertWith_early ho (.refl h) .nil .empty).symm

/-- A context is not seen in what is converted in it, whatever its vault holds and whichever
footnotes it keeps, if the options hold no start marks: each document comes to what it would be on
its own, and so does each of many documents one after the other. -/
theorem convert_ignores_context (options : Options) (ho : options.Unmarked) :
    (∀ (ctx : Context) (nodes : List Node), ctx.options = options → Presentable nodes →
      (ctx.convert nodes).2 = convert options nodes) ∧
    ∀ (ctx : Context) (documents : List (List Node)), ctx.options = options →
      (∀ nodes ∈ documents, Presentable nodes) →
      (ctx.convertEach documents).2 = documents.map (convert options) := by
  constructor
  · rintro ctx nodes rfl h
    exact ctx.convert_eq ho h
  · rintro ctx documents rfl h
    induction documents generalizing ctx with
    | nil => rfl
    | cons nodes rest ih =>
      rw [List.forall_mem_cons] at h
      exact congrArg₂ List.cons (ctx.convert_eq ho h.1)
        (ih (ctx.convert nodes).1 (ctx.options_convert nodes ▸ ho) h.2)

theorem presentable_text {s : List Char} (h : startMark ∉ s) : Presentable [.text s] :=
  ⟨List.forall_mem_singleton.2 (.text h), fun _ he => absurd he List.not_mem_nil⟩

/-- A context that has been used, and kept the footnotes of another document. -/
theorem convert_ignores_used_context :
    let ctx : Context := ⟨.standard, some ⟨["old".toList]⟩, some ⟨[['1']], [['1']]⟩⟩
    let directive := "\x7b\x7bx\x7d\x7d".toList
    let documents : List (List Node) := [[.text directive], [.text "a & b".toList]]
    (ctx.convertEach documents).2 = documents.map (convert .standard) ∧
      (documents.map fun nodes => (convert .standard nodes).result) =
        [.ok directive, .ok "a &amp; b".toList] := by
  intro ctx directive documents
  refine ⟨(convert_ignores_context .standard standard_unmarked).2 ctx documents rfl ?_,
    by decide +kernel⟩
  exact List.forall_mem_cons.2 ⟨presentable_text (by decide),
    List.forall_mem_singleton.2 (presentable_text (by decide))⟩

/-- A title of the options that is a placeholder means what the vault happens to keep under it. -/
theorem used_context_shows : ¬ ∀ (ctx : Context) (nodes : List Node), Presentable nodes →
    (ctx.convert nodes).2 = convert ctx.options nodes := by
  intro h
  let options : Options := { Options.standard with expandTitle := .text (placeholder 0) }
  let ctx : Context := ⟨options, some ⟨["X".toList]⟩, none⟩
  let folding : List Node := [.element "details".toList [] []]
  have hunmarked : ∀ n ∈ folding, n.All (startMark ∉ ·) :=
    List.forall_mem_singleton.2 (.element (by decide) (fun _ ha => absurd ha List.not_mem_nil)
      fun _ hc => absurd hc List.not_mem_nil)
  have hsized : ∀ e ∈ Node.elementsOf folding, SizedImage e.tag e.attributes :=
    List.forall_mem_singleton.2 (sizedImage_of_ne (by decide))
  have hshows : (ctx.convert folding).2.result ≠ (convert options folding).result := by
    decide +kernel
  exact hshows (congrArg Traced.result (h ctx folding ⟨hunmarked, hsized⟩))

end StorageMarkup
