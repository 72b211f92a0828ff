import StorageMarkup.Proofs.Footnote.Alike
import StorageMarkup.Proofs.Mapping.Intact
import StorageMarkup.Proofs.Region.Alike

/-!
# Mapping alike trees

Each rule makes alike directives of alike elements. An image's sizes have to be no lists:
a list would be written with its texts quoted, and then the numbers would show.

Results:
1. `alike_image`, `alike_link`, `alike_codeBlock`, `alike_tableCell`, `alike_foldingSection`:
   rule by rule.
2. `Matching.mapping`: mapping alike trees.
-/

namespace StorageMarkup

open Vault

variable {same : Nat → Nat → Prop} {v w : Vault} {e e' : Element}

namespace Mapping

/-! ## Images and links -/

theorem alike_size {x y : Value} (h : Value.AlikeItem same x y) {key : List Char}
    (hkey : startMark ∉ key) :
    List.Forall₂ (Directive.AlikeParam same)
      (if x.isSet then [(key, .text x.toText)] else [])
      (if y.isSet then [(key, .text y.toText)] else []) := by
  rw [h.isSet_eq]
  split
  · exact .cons (.mk hkey (.text h.toText)) .nil
  · exact .nil

theorem alike_imageDirective {src src' alt alt' : List Char} {width width' height height' : Value}
    (hsrc : Alike same src src') (halt : Alike same alt alt')
    (hwidth : Value.AlikeItem same width width') (hheight : Value.AlikeItem same height height') :
    Alike same (Directive.image src (.text alt) width height [])
      (Directive.image src' (.text alt') width' height' []) := by
  refine Directive.alike_inline (by decide) (List.rel_append (List.rel_append (List.rel_append ?_
    (alike_size hwidth (by decide))) (alike_size hheight (by decide))) .nil)
  exact .cons (.mk (by decide) (.text (hsrc.replaceAll (by decide) (by decide) (by decide))))
    (.cons (.mk (by decide) (.text halt)) .nil)

theorem alike_sizeOf (h : Element.Alike same e e') (htag : e.tag = "img".toList) {name : List Char}
    (hname : name ∈ ["width".toList, "height".toList]) :
    Value.AlikeItem same ((e.attributes.get? name).getD .absent)
      ((e'.attributes.get? name).getD .absent) := by
  obtain ⟨-, -, hattrs, hsize, -⟩ := h.parts
  rcases rel_cases (hattrs.get? name) with ⟨hx, hy⟩ | ⟨x, y, hx, hy, hxy⟩ <;> rw [hx, hy]
  · exact .same .absent
  · exact hxy.of_not_list fun items hitems => hsize htag name hname items (by rw [hx, hitems])

theorem alike_image (h : Element.Alike same e e') (htag : e.tag = "img".toList) :
    AlikeNodes same (image e) (image e') := by
  obtain ⟨-, -, hattrs, -, -⟩ := h.parts
  unfold image
  rcases rel_cases (hattrs.text? "src".toList) with ⟨hx, hy⟩ | ⟨s, t, hx, hy, hst⟩ <;> rw [hx, hy]
  · exact h
  · have halt : Alike same ((e.attributes.text? "alt".toList).getD [])
        ((e'.attributes.text? "alt".toList).getD []) := by
      rcases rel_cases (hattrs.text? "alt".toList) with ⟨hx, hy⟩ | ⟨s, t, hx, hy, hst⟩ <;>
        rw [hx, hy]
      · exact .nil
      · exact hst
    cases s with
    | nil =>
      rw [hst.of_nil]
      exact h
    | cons c s =>
      obtain ⟨d, t, rfl⟩ := hst.exists_cons
      exact .raw (alike_imageDirective hst halt
        (alike_sizeOf h htag List.mem_cons_self)
        (alike_sizeOf h htag (List.mem_cons_of_mem _ List.mem_cons_self))) .nil

theorem alike_link (hsame : Matching v w same) {env env' : Env}
    (hindex : Footnote.Index.Alike same env.footnotes env'.footnotes)
    (h : Element.Alike same e e') : AlikeNodes same (link env e) (link env' e') := by
  unfold link
  rcases rel_cases (Footnote.alike_link? hsame hindex h) with ⟨hx, hy⟩ | ⟨s, t, hx, hy, hst⟩ <;>
    rw [hx, hy]
  · exact h
  · exact .raw hst .nil

/-! ## Code -/

theorem alike_markedLanguage? {s t : List Char} (h : Alike same s t) :
    Option.Rel (Alike same) (markedLanguage? s) (markedLanguage? t) := by
  unfold markedLanguage?
  rcases rel_cases (h.dropStart? (p := "language-".toList) (by decide)) with
    ⟨hx, hy⟩ | ⟨a, b, hx, hy, hab⟩ <;> rw [hx, hy]
  · exact .none
  · rw [Option.filter_some, Option.filter_some, hab.isEmpty_eq]
    split
    · exact .some hab
    · exact .none

theorem alike_markedIn? {xs ys : List Value} (h : List.Forall₂ (Value.AlikeItem same) xs ys) :
    Agree (Option.Rel (Alike same)) (markedIn? xs) (markedIn? ys) := by
  induction h with
  | nil => exact .ok .none
  | @cons x y xs ys hxy _ ih =>
    have htext : ∀ {s t : List Char}, Alike same s t →
        Agree (Option.Rel (Alike same)) (markedIn? (.text s :: xs))
          (markedIn? (.text t :: ys)) := by
      intro s t hst
      rw [markedIn?, markedIn?]
      rcases rel_cases (alike_markedLanguage? hst) with ⟨hx, hy⟩ | ⟨a, b, hx, hy, hab⟩ <;>
        rw [hx, hy]
      · exact ih
      · exact .ok (.some hab)
    cases hxy with
    | text hst => exact htext hst
    | same hx =>
      cases x with
      | text s => exact htext (.of_free hx.of_text)
      | absent | flag | number | list | record | other => exact .error _

theorem alike_find? {p : List Char → Bool} (hp : ∀ s t, Alike same s t → p s = p t)
    {ss ts : List (List Char)} (h : List.Forall₂ (Alike same) ss ts) :
    Option.Rel (Alike same) (ss.find? p) (ts.find? p) := by
  induction h with
  | nil => exact .none
  | @cons s t ss ts hst _ ih =>
    rw [List.find?_cons, List.find?_cons, hp s t hst]
    split
    · exact .some hst
    · exact ih

theorem isHighlighterClass_eq {s t : List Char} (h : Alike same s t) :
    isHighlighterClass s = isHighlighterClass t := by
  have hword : ∀ word, startMark ∉ word → (decide (s = word)) = decide (t = word) :=
    fun word hw => decide_eq_decide.2 (h.eq_free_iff hw)
  rw [isHighlighterClass, hword _ (by decide), hword _ (by decide), hword _ (by decide),
    hword _ (by decide), isHighlighterClass]

theorem alike_languageOf? {code code' block block' : Attributes} (hcode : code.Alike same code')
    (hblock : block.Alike same block') :
    Agree (Option.Rel (Alike same)) (languageOf? code block) (languageOf? code' block') := by
  refine (alike_markedIn? (List.rel_append hcode.classes hblock.classes)).bind
    fun _ _ hmarked => .ok ?_
  have hfirst := alike_find? (p := (!isHighlighterClass ·))
    (fun _ _ hst => by rw [isHighlighterClass_eq hst])
    (List.rel_append hcode.classNames hblock.classNames)
  cases hmarked with
  | none => exact hfirst
  | some h => exact .some h

theorem alike_content {ns ms : List Node} (h : AlikeNodes same ns ms) :
    AlikeNodes same (content ns) (content ms) :=
  h.filter fun _ _ hnm => by rw [hnm.isBlank_eq]

theorem alike_codeDirective {body body' : List Char} {language language' lineNumbers : Value}
    (hbody : Alike same body body') (hlanguage : Value.AlikeItem same language language')
    (hlines : lineNumbers.All (startMark ∉ ·)) :
    Alike same (Directive.code body language lineNumbers)
      (Directive.code body' language' lineNumbers) :=
  Directive.alike_block (by decide) hbody.stripRight
    (.cons (.mk (by decide) hlanguage) (.cons (.mk (by decide) (.same hlines)) .nil))

theorem alike_codeBlock {env env' : Env} (henv : env.options = env'.options)
    (hoptions : env.options.Unmarked) (h : Element.Alike same e e') :
    Agree (AlikeNodes same) (codeBlock env e) (codeBlock env' e') := by
  obtain ⟨-, -, hattrs, -, hchildren⟩ := h.parts
  have hinner := alike_content hchildren
  have hstays : Agree (AlikeNodes same) (.ok [e.toNode]) (.ok [e'.toNode]) := .ok h
  unfold codeBlock
  rw [← henv]
  generalize content e.children = inner at hinner ⊢
  generalize content e'.children = inner' at hinner ⊢
  cases hinner with
  | nil | text | raw | root => exact hstays
  | @element tag attrs attrs' cs ds ns ms _ hattrs' _ hc hrest =>
    cases hrest with
    | text | raw | root | element => exact hstays
    | nil =>
      simp only
      split
      · refine (alike_languageOf? hattrs' hattrs).bind fun language language' hlanguage => ?_
        refine .ok (.raw (alike_codeDirective hc.characterDataOf ?_ hoptions.codeLineNumbers) .nil)
        -- a language that is found is no empty text
        cases hlanguage with
        | none => exact .same hoptions.codeLanguage
        | @some s t hst =>
          cases s with
          | nil =>
            rw [hst.of_nil]
            exact .same hoptions.codeLanguage
          | cons c s =>
            obtain ⟨d, t, rfl⟩ := hst.exists_cons
            exact .text hst
      · exact hstays

/-- A wrapper around final output gives way to it. -/
theorem alike_codeWrapper (h : Element.Alike same e e') :
    AlikeNodes same (codeWrapper e) (codeWrapper e') := by
  obtain ⟨-, -, hattrs, -, hchildren⟩ := h.parts
  have hinner := alike_content hchildren
  have hraw : ∀ n m, Node.Alike same n m → isRaw n = isRaw m := fun n m hnm => by
    cases hnm <;> rfl
  unfold codeWrapper
  simp only [hattrs.inClass_eq (show startMark ∉ "sourceCode".toList by decide), hinner.isEmpty_eq,
    hinner.all_eq hraw]
  split
  · exact hinner
  · exact h

/-! ## Table cells -/

theorem alike_alignedStyle {align align' : List Char} {style style' : Option (List Char)}
    (halign : Alike same align align') (hstyle : Option.Rel (Alike same) style style') :
    Alike same (alignedStyle align style) (alignedStyle align' style') := by
  have hrule : Alike same ("text-align: ".toList ++ strip align ++ [';'])
      ("text-align: ".toList ++ strip align' ++ [';']) :=
    .append (.append (.of_free (by decide)) halign.strip) (.of_free (by decide))
  unfold alignedStyle
  cases hstyle with
  | none => exact hrule
  | some hst =>
    simp only [hst.isBlank_eq]
    split
    · exact hrule
    · exact hrule.append (.char (by decide) hst.strip)

theorem alike_cellAttributes {attrs attrs' : Attributes} (h : attrs.Alike same attrs')
    (header : Bool) :
    (cellAttributes header attrs).Alike same (cellAttributes header attrs') := by
  have hrest := h.erase "align".toList
  have hscope : ∀ {a b : Attributes}, a.Alike same b → Attributes.Alike same
      (if header then a.set "scope".toList (.text "col".toList) else a)
      (if header then b.set "scope".toList (.text "col".toList) else b) := by
    intro a b hab
    split
    · exact hab.set (by decide) (.item (.text (.of_free (by decide))))
    · exact hab
  unfold cellAttributes
  refine hscope ?_
  rcases rel_cases (h.text? "align".toList) with ⟨hx, hy⟩ | ⟨s, t, hx, hy, hst⟩ <;> rw [hx, hy]
  · exact hrest
  · simp only [hst.isBlank_eq]
    split
    · exact hrest
    · exact hrest.set (by decide)
        (.item (.text (alike_alignedStyle hst (hrest.text? "style".toList))))

theorem alike_tableCell (h : Element.Alike same e e') (header : Bool)
    (htag : e.tag ≠ "img".toList) :
    AlikeNodes same (tableCell header e) (tableCell header e') := by
  obtain ⟨htags, hfree, hattrs, -, hchildren⟩ := h.parts
  unfold tableCell
  rw [← htags]
  exact .element hfree (alike_cellAttributes hattrs header) (fun he => absurd he htag) hchildren
    .nil

/-! ## Folding sections -/

theorem alike_takeSummary {ns ms : List Node} (h : AlikeNodes same ns ms) :
    Option.Rel (Node.Alike same) (takeSummary ns).1 (takeSummary ms).1 ∧
      AlikeNodes same (takeSummary ns).2 (takeSummary ms).2 := by
  induction ns generalizing ms with
  | nil =>
    rw [h.of_nil]
    exact ⟨.none, .nil⟩
  | cons n ns ih =>
    obtain ⟨m, ms, rfl, hnm, h⟩ := h.of_cons
    rw [takeSummary, takeSummary, hnm.hasTag_eq]
    split
    · exact ⟨.some hnm, h⟩
    · exact ⟨(ih h).1, .cons hnm (ih h).2⟩

theorem alike_expandDirective {title title' : Value} {body body' : List Char}
    (htitle : Value.AlikeItem same title title') (hbody : Alike same body body') :
    Alike same (Directive.expand title body) (Directive.expand title' body') :=
  Directive.alike_block (by decide) hbody (.cons (.mk (by decide) htitle) .nil)

theorem alike_foldingSection (hsame : Matching v w same) {env env' : Env}
    (henv : env.options = env'.options) (hv : env.vault = some v) (hw : env'.vault = some w)
    (hoptions : env.options.Unmarked) (h : Element.Alike same e e') :
    Traced.Agree (AlikeNodes same) (foldingSection env e) (foldingSection env' e') := by
  obtain ⟨-, -, -, -, hchildren⟩ := h.parts
  obtain ⟨hsummary, hothers⟩ := alike_takeSummary hchildren
  have htitle : Alike same (strip (((takeSummary e.children).1.map Node.characterData).getD []))
      (strip (((takeSummary e'.children).1.map Node.characterData).getD [])) := by
    rcases rel_cases hsummary with ⟨hx, hy⟩ | ⟨n, m, hx, hy, hnm⟩ <;> rw [hx, hy]
    · exact .nil
    · exact hnm.characterData.strip
  unfold foldingSection
  rw [hv, hw, ← henv]
  refine (hsame.foldAll _ hothers).bind fun _ _ hbody => ?_
  refine (Traced.Agree.lift (hbody.printAll _)).bind fun _ _ htext => .pure ?_
  refine .raw (alike_expandDirective ?_ htext.strip) .nil
  show Value.AlikeItem same (if _ then _ else _) (if _ then _ else _)
  rw [htitle.isEmpty_eq]
  split
  · exact .same hoptions.expandTitle
  · exact .text htitle

/-! ## All rules -/

theorem alike_element (hsame : Matching v w same) {env env' : Env}
    (henv : env.options = env'.options) (hv : env.vault = some v) (hw : env'.vault = some w)
    (hindex : Footnote.Index.Alike same env.footnotes env'.footnotes)
    (hoptions : env.options.Unmarked) (h : Element.Alike same e e') :
    Traced.Agree (AlikeNodes same) (element env e) (element env' e') := by
  have htags := h.parts.1
  unfold element
  rw [← htags]
  split
  · next htag => exact .pure (alike_image h htag)
  next hi =>
  split
  · exact .pure (alike_link hsame hindex h)
  split
  · exact .lift (alike_codeBlock henv hoptions h)
  split
  · exact .pure (alike_codeWrapper h)
  split
  · exact .pure (alike_tableCell h true hi)
  split
  · exact .pure (alike_tableCell h false hi)
  split
  · exact alike_foldingSection hsame henv hv hw hoptions h
  · exact .pure h

end Mapping

/-- Mapping makes alike trees of alike trees, or fails in the same way. -/
theorem Matching.mapping (hsame : Matching v w same) {options : Options}
    (hoptions : options.Unmarked) {index index' : Footnote.Index}
    (hindex : Footnote.Index.Alike same index index') {ns ms : List Node}
    (h : AlikeNodes same ns ms) (depth : Nat) :
    Traced.Agree (AlikeNodes same) (Mapping.nodes ⟨options, some v, index⟩ depth ns)
      (Mapping.nodes ⟨options, some w, index'⟩ depth ms) := by
  have happend : ∀ as bs cs ds : List Node, AlikeNodes same as bs → AlikeNodes same cs ds →
      AlikeNodes same (as ++ cs) (bs ++ ds) := fun _ _ _ _ => .append
  induction h generalizing depth with
  | nil => exact .pure .nil
  | text hs _ ih => exact .map₂ (.pure (.text hs .nil)) (ih depth) happend
  | raw hs _ ih => exact .map₂ (.pure (.raw hs .nil)) (ih depth) happend
  | root hc _ _ ih => exact .map₂ (.pure (.root hc .nil)) (ih depth) happend
  | element htag hattrs hsize _ _ ihc ih =>
    refine .map₂ ?_ (ih depth) happend
    rw [Mapping.node, Mapping.node]
    refine (Traced.Agree.refl _).bind fun _ _ _ => ?_
    refine (ihc (depth + 1)).bind fun _ _ hmapped => ?_
    exact Mapping.alike_element hsame rfl rfl rfl hindex hoptions (.mk htag hattrs hsize hmapped)

end StorageMarkup
