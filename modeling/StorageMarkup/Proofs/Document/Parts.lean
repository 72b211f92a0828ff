import StorageMarkup.Proofs.Document.Independence
import StorageMarkup.Proofs.Footnote.Absent
import StorageMarkup.Proofs.Mapping.Uniform
import StorageMarkup.Proofs.Tree.Joined
import StorageMarkup.Proofs.Vault.Resolved

/-!
# Parts of a document

What is written of a part of a document, without footnotes, is what would be written of
it on its own, whatever the vault holds beside its directives and however deep the part
stands. Only open markers that the part leaves, and close tokens in it, have to do with
what is around it.

Results:
1. `convert_eq_ok`: a conversion writes, then it normalises blank lines.
2. `Stages.transport`: the same stages with another vault.
3. `exists_part`: a document on its own and as a part of another one.
-/

namespace StorageMarkup

open Vault

variable {options : Options} {v w : Vault} {same : Nat → Nat → Prop} {nodes ns ms : List Node}
  {u out : List Char}

/-! ## A document on its own -/

/-- What is written of a document on its own, with everything put back, before blank lines are
normalised. -/
def written (options : Options) (nodes : List Node) : Traced (List Char) :=
  let (ctx, passed) := TreePass.runAll (.fresh options) nodes
  passed.bind fun done => .lift ((Node.printAll options.limit done).map fun text =>
    OutputPass.restoration.run ctx.vault text)

theorem written_eq_ok : (written options nodes).result = .ok u ↔ ∃ done text,
    (TreePass.runAll (.fresh options) nodes).2.result = .ok done ∧
    Node.printAll options.limit done = .ok text ∧ u = (filledVault .empty nodes).expand text := by
  show ((TreePass.runAll (.fresh options) nodes).2 >>= fun done =>
    Traced.lift ((Node.printAll options.limit done).map fun text =>
      OutputPass.restoration.run (TreePass.runAll (.fresh options) nodes).1.vault text)).result =
      .ok u ↔ _
  rw [Context.fresh, vault_runAll, Traced.bind_eq_ok]
  refine exists_congr fun done => ?_
  constructor
  · rintro ⟨hdone, hu⟩
    obtain ⟨text, htext, hu⟩ := bind_eq_ok.1 hu
    cases hu
    exact ⟨text, hdone, htext, rfl⟩
  · rintro ⟨text, hdone, htext, rfl⟩
    exact ⟨hdone, bind_eq_ok.2 ⟨text, htext, rfl⟩⟩

/-- A conversion writes, if the document is not nested too deep, and normalises blank lines. -/
theorem convert_eq_ok : (convert options nodes).result = .ok out ↔
    withinLimit (Node.depthOf nodes) options.limit = .ok () ∧
      ∃ u, (written options nodes).result = .ok u ∧ out = capNewlineRuns u := by
  unfold convert convertWith
  cases withinLimit (Node.depthOf nodes) options.limit with
  | error e =>
    constructor
    · exact fun h => nomatch h
    · rintro ⟨h, -⟩
      cases h
  | ok _ =>
    rw [and_iff_right rfl]
    show (((TreePass.runAll (.fresh options) nodes).2 >>= fun done =>
      Traced.lift (Node.printAll options.limit done)) >>= fun text =>
        pure (OutputPass.runAll (TreePass.runAll (.fresh options) nodes).1.vault text)).result =
        .ok out ↔ _
    rw [Context.fresh, vault_runAll, Traced.bind_eq_ok]
    simp only [Traced.bind_eq_ok, written_eq_ok]
    constructor
    · rintro ⟨text, ⟨done, hdone, htext⟩, hout⟩
      cases hout
      exact ⟨_, ⟨done, text, hdone, htext, rfl⟩, rfl⟩
    · rintro ⟨u, ⟨done, text, hdone, htext, rfl⟩, rfl⟩
      exact ⟨text, ⟨done, hdone, htext⟩, rfl⟩

/-- A document on its own up to the mapping of its elements. -/
def mappedAlone (options : Options) (nodes : List Node) : Context × Traced (List Node) :=
  TreePass.runEach (.fresh options) nodes [.body, .markers, .directives, .mapping]

theorem mappedAlone_eq (options : Options) (nodes : List Node) :
    (mappedAlone options nodes).2 = Mapping.nodes ⟨options, some (filledVault .empty nodes),
      .ofNodes (shielded .empty nodes)⟩ 0 (shielded .empty nodes) := by
  show (TreePass.runEach ⟨options, some (filledVault .empty nodes), none⟩ (shielded .empty nodes)
    [.mapping]).2 = _
  rw [runEach_cons]
  exact bind_pure _

theorem vault_mappedAlone (options : Options) (nodes : List Node) :
    (mappedAlone options nodes).1.vault = some (filledVault .empty nodes) :=
  have hmapping : .directives ∉ [TreePass.mapping] := by decide
  vault_runEach hmapping

/-! ## Open markers and close tokens -/

/-- The passes leave an open marker for `name` among the neighbours of the document. -/
def LeavesOpen (options : Options) (nodes : List Node) (name : List Char) : Prop :=
  ∃ done, (TreePass.runAll (.fresh options) nodes).2.result = .ok done ∧ ∃ n ∈ done, ∃ head,
    n.openingMarker? (TreePass.runAll (.fresh options) nodes).1.vault = some (head, name)

/-- No text of the document, once its elements are mapped, holds a close token for `name`. -/
def NeverCloses (options : Options) (nodes : List Node) (name : List Char) : Prop :=
  ∀ mapped, (mappedAlone options nodes).2.result = .ok mapped → ∀ s ∈ Node.textsOf mapped,
    ¬ Region.HoldsClosing (mappedAlone options nodes).1.vault name s

/-- What succeeds can be looked at. -/
instance decidableOfOk {α : Type} {P : α → Prop} [∀ a, Decidable (P a)] (r : Except Failure α) :
    Decidable (∀ a, r = .ok a → P a) :=
  match r with
  | .ok a => decidable_of_iff (P a) ⟨fun h _ he => Except.ok.inj he ▸ h, fun h => h a rfl⟩
  | .error _ => isTrue fun _ he => nomatch he

instance (v : Option Vault) (name s : List Char) : Decidable (Region.HoldsClosing v name s) :=
  decidable_of_iff (cutFirstClosing v name s ≠ none)
    ((not_congr Region.cutFirstClosing_eq_none).trans Classical.not_not)

instance (options : Options) (nodes : List Node) (name : List Char) :
    Decidable (NeverCloses options nodes name) :=
  inferInstanceAs (Decidable (∀ mapped, (mappedAlone options nodes).2.result = .ok mapped →
    ∀ s ∈ Node.textsOf mapped, ¬ Region.HoldsClosing (mappedAlone options nodes).1.vault name s))

/-- What is left open is found among the nodes that are left. -/
theorem forall_leavesOpen {P : List Char → Prop}
    (h : ∀ done, (TreePass.runAll (.fresh options) nodes).2.result = .ok done → ∀ n ∈ done,
      ∀ marker ∈ n.openingMarker? (TreePass.runAll (.fresh options) nodes).1.vault, P marker.2)
    (name : List Char) : LeavesOpen options nodes name → P name := by
  rintro ⟨done, hdone, n, hn, head, hmarker⟩
  exact h done hdone n hn (head, name) hmarker

/-- A document without footnotes, free of start marks and of lists as sizes of images. -/
structure Composable (nodes : List Node) : Prop extends Presentable nodes where
  unfooted : ∀ e ∈ Node.elementsOf nodes, e.holdsFootnotes = false

/-- No start marks in what the options say about code and sections. -/
structure Options.UnmarkedBody (o : Options) : Prop where
  codeLanguage : o.codeLanguage.All (startMark ∉ ·)
  codeLineNumbers : o.codeLineNumbers.All (startMark ∉ ·)
  expandTitle : o.expandTitle.All (startMark ∉ ·)

theorem Options.UnmarkedBody.unfooted (h : options.UnmarkedBody) (v : Option Vault) :
    (Mapping.Env.unfooted options v).options.Unmarked where
  footnotesHeading := .absent
  codeLanguage := h.codeLanguage
  codeLineNumbers := h.codeLineNumbers
  expandTitle := h.expandTitle

theorem Composable.unfooted_shielded (h : Composable nodes) (v : Vault) :
    Unfooted (shielded v nodes) :=
  ((unfooted_of_elements h.unfooted).bodyOf.liftMarkersAmong (some v)).shieldNodes v

/-! ## Stages of a part -/

/-- Mapping the neighbours `nodes`, and folding below them, makes `below` of them. Their directives
are set aside in `v`, and they hold no footnotes. -/
def Prepared (options : Options) (v : Vault) (nodes below : List Node) : Prop :=
  ∃ depth mapped, (Mapping.nodes (.unfooted options (some v)) depth nodes).result = .ok mapped ∧
    (Region.foldBelowAll options.limit (some v) 0 mapped).result = .ok below

variable {below below' folded folded' : List Node} {text text' : List Char}

theorem Prepared.unique (h : Prepared options v nodes below)
    (h' : Prepared options v nodes below') : below = below' := by
  obtain ⟨_, mapped, hmapped, hbelow⟩ := h
  obtain ⟨_, mapped', hmapped', hbelow'⟩ := h'
  obtain rfl := Mapping.nodes_unique hmapped hmapped'
  exact Except.ok.inj (hbelow.symm.trans hbelow')

/-- Neighbours side by side are prepared each by itself. -/
theorem Prepared.of_append (h : Prepared options v (ns ++ ms) below) :
    ∃ x y, below = x ++ y ∧ Prepared options v ns x ∧ Prepared options v ms y := by
  obtain ⟨depth, mapped, hmapped, hbelow⟩ := h
  rw [Mapping.nodes_append] at hmapped
  obtain ⟨first, hfirst, hmapped⟩ := Traced.bind_eq_ok.1 hmapped
  obtain ⟨others, hothers, hmapped⟩ := Traced.bind_eq_ok.1 hmapped
  cases hmapped
  rw [Region.foldBelowAll_append] at hbelow
  obtain ⟨x, hx, hbelow⟩ := Traced.bind_eq_ok.1 hbelow
  obtain ⟨y, hy, hbelow⟩ := Traced.bind_eq_ok.1 hbelow
  cases hbelow
  exact ⟨x, y, rfl, ⟨depth, first, hfirst, hx⟩, ⟨depth, others, hothers, hy⟩⟩

/-- What the stages make of such neighbours. They may stand at any depth. -/
structure Stages (options : Options) (v : Vault) (nodes below folded : List Node)
    (text : List Char) : Prop where
  prepared : Prepared options v nodes below
  folding : ∃ depth, (Region.foldAmong options.limit (some v) depth below).result = .ok folded
  writing : Node.printAll options.limit folded = .ok text

namespace Stages

theorem folds (h : Stages options v nodes below folded text) :
    Region.Folds options.limit (some v) below folded := by
  obtain ⟨_, hfolding⟩ := h.folding
  exact Region.folds_of_foldAmong below hfolding

/-- The stages make one text only of the neighbours. -/
theorem unique (h : Stages options v nodes below folded text)
    (h' : Stages options v nodes below' folded' text') : text = text' := by
  obtain rfl := h.prepared.unique h'.prepared
  obtain rfl := h.folds.unique h'.folds
  exact Except.ok.inj (h.writing.symm.trans h'.writing)

/-- Stages of alike parts are alike. -/
theorem transport (ho : options.UnmarkedBody) (hsame : Matching v w same)
    (hnodes : AlikeNodes same ns ms) (h : Stages options v ns below folded text) :
    ∃ below' folded' text', Stages options w ms below' folded' text' ∧
      AlikeNodes same below below' ∧ AlikeNodes same folded folded' ∧ Alike same text text' := by
  have hindex : Footnote.Index.Alike same ⟨[], []⟩ ⟨[], []⟩ := ⟨.nil, .nil⟩
  obtain ⟨depth, mapped, hmapped, hbelow⟩ := h.prepared
  obtain ⟨mapped', hmapped', halike⟩ :=
    (hsame.mapping (ho.unfooted none) hindex hnodes depth).result.of_ok hmapped
  obtain ⟨below', hbelow', hbelows⟩ :=
    (hsame.foldBelowAll options.limit halike 0).result.of_ok hbelow
  obtain ⟨_, hfolding⟩ := h.folding
  obtain ⟨folded', hfolded', hfolded⟩ :=
    (hsame.foldAmong options.limit hbelows _).result.of_ok hfolding
  obtain ⟨text', htext', htext⟩ := (hfolded.printAll options.limit).of_ok h.writing
  exact ⟨below', folded', text', ⟨⟨depth, mapped', hmapped', hbelow'⟩, ⟨_, hfolded'⟩, htext'⟩,
    hbelows, hfolded, htext⟩

end Stages

/-- The stages of a document on its own. -/
theorem exists_stages_of_written (h : Composable nodes)
    (hu : (written options nodes).result = .ok u) : ∃ mapped below folded text,
      Stages options (filledVault .empty nodes) (shielded .empty nodes) below folded text ∧
      (mappedAlone options nodes).2.result = .ok mapped ∧
      (Region.foldBelowAll options.limit (some (filledVault .empty nodes)) 0 mapped).result =
        .ok below ∧
      (TreePass.runAll (.fresh options) nodes).2.result = .ok folded ∧
      u = (filledVault .empty nodes).expand text := by
  obtain ⟨done, text, hdone, htext, rfl⟩ := written_eq_ok.1 hu
  have hpassed := hdone
  rw [Context.fresh, passed_eq] at hpassed
  obtain ⟨mapped, hmapped, hpassed⟩ := Traced.bind_eq_ok.1 hpassed
  obtain ⟨folded, hfolded, hsettled⟩ := Traced.bind_eq_ok.1 hpassed
  have hunfooted := h.unfooted_shielded .empty
  have hstay : folded = done := by
    have hnone := (hunfooted.mapping hmapped).foldAll hfolded
    exact Except.ok.inj ((hnone.settleFootnotesAmong_eq _ _ _).symm.trans hsettled)
  subst hstay
  obtain ⟨below, hbelow, hfolding⟩ := Region.foldAll_eq_ok hfolded
  refine ⟨mapped, below, folded, text, ⟨⟨0, mapped, ?_, hbelow⟩, ⟨0, hfolding⟩, htext⟩, ?_, hbelow,
    hdone, rfl⟩
  · rw [← Mapping.nodes_unfooted hunfooted.definitions_eq_nil]
    exact hmapped
  · rw [mappedAlone_eq]
    exact hmapped

/-! ## Parts -/

/-- In `w` the neighbours `ns` come to what the document `nodes` comes to on its own, `u`. They
leave open what it leaves open, and they close nothing that it does not close. -/
structure Part (options : Options) (w : Vault) (nodes ns : List Node) (u : List Char)
    (below folded : List Node) (text : List Char) : Prop
    extends Stages options w ns below folded text where
  resolves : Resolves w text u
  leavesOpen : ∀ n ∈ folded, ∀ head name, n.openingMarker? (some w) = some (head, name) →
    startMark ∉ name ∧ LeavesOpen options nodes name
  closesNone : ∀ name, startMark ∉ name → NeverCloses options nodes name →
    ∀ n ∈ below, n.takeClosing (some w) name = none

/-- Where no text holds the close token, no search for it among the neighbours finds it. -/
theorem takeClosing_eq_none_of_neverCloses {name : List Char} {mapped : List Node}
    (h : NeverCloses options nodes name)
    (hmapped : (mappedAlone options nodes).2.result = .ok mapped)
    (hbelow : (Region.foldBelowAll options.limit (some (filledVault .empty nodes)) 0
      mapped).result = .ok below) :
    ∀ n ∈ below, n.takeClosing (some (filledVault .empty nodes)) name = none := by
  have htexts := h mapped hmapped
  rw [vault_mappedAlone, Node.textsOf_eq, List.forall_mem_flatMap] at htexts
  have heach := Region.each_foldBelowAll hbelow fun n hn => Node.each_of_texts n (htexts n hn)
  exact fun n hn => Region.takeClosing_eq_none_of_each (heach n hn)

/-- A document as a part of another one, with a vault that keeps its directives among others. -/
theorem exists_part (ho : options.UnmarkedBody) (h : Composable nodes)
    (hu : (written options nodes).result = .ok u) (hw : (filledVault v nodes).Extends w)
    (htokens : w.HoldsTokens) :
    ∃ below folded text, Part options w nodes (shielded v nodes) u below folded text := by
  obtain ⟨mapped₀, below₀, folded₀, text₀, hstages, hmapped₀, hbelow₀, hdone, rfl⟩ :=
    exists_stages_of_written h hu
  obtain ⟨same, hsame, halike⟩ := alike_shielded (w := v) (.refl h.toPresentable) .nil .empty
  replace hsame := hsame.grow hw
  obtain ⟨below, folded, text, hpart, hbelow, hfolded, htext⟩ := hstages.transport ho hsame halike
  refine ⟨below, folded, text, hpart, hsame.resolves htokens htext, ?_, ?_⟩
  · intro n hn head name hmarker
    obtain ⟨n₀, hn₀, hnode⟩ := hfolded.exists_left hn
    rw [← hsame.openingMarker?_eq hnode] at hmarker
    refine ⟨(hsame.openingMarker?_free hnode hmarker).2, folded₀, hdone, n₀, hn₀, head, ?_⟩
    rw [Context.fresh, vault_runAll]
    exact hmarker
  · intro name hname hnever
    have hnone := Region.span?_eq_none.2
      (takeClosing_eq_none_of_neverCloses hnever hmapped₀ hbelow₀)
    have hspan := hsame.span? hname hbelow
    rw [hnone] at hspan
    cases hw : Region.span? (some w) name below with
    | none => exact Region.span?_eq_none.1 hw
    | some found =>
      rw [hw] at hspan
      cases hspan

end StorageMarkup
