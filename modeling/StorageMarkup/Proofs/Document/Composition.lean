import StorageMarkup.Proofs.Document.Parts
import StorageMarkup.Proofs.Text.Blocks

/-!
# Documents put together

What is written of documents side by side, of a document between an open and a close
token, and of one in a folding section, all comes from what is written of the document
on its own.

Results:
1. `written_append`: documents side by side.
2. `convert_region`: a document in a region.
3. `convert_section`: a document in a folding section.
4. `conversion_composes`: all three.
-/

namespace StorageMarkup

open Vault

variable {options : Options} {v w : Vault} {nodes a b : List Node} {u out : List Char}

/-! ## Setting aside part by part -/

theorem lifted_append (v : Vault) (a b : List Node) :
    lifted v (a ++ b) = lifted v a ++ lifted v b := by
  rw [lifted, Node.bodyOf_append, Node.liftMarkersAmong_append, lifted, lifted]

theorem lifted_of_unmarked (h : ∀ n ∈ nodes, n.All (startMark ∉ ·)) (v w : Vault) :
    lifted v nodes = lifted w nodes :=
  Node.liftMarkersAmong_of_unmarked (all_bodyOf h) (some v) (some w)

theorem shieldNodes_lifted_append (hb : ∀ n ∈ b, n.All (startMark ∉ ·)) (v : Vault)
    (a : List Node) :
    v.shieldNodes (lifted v (a ++ b)) =
      (filledVault (filledVault v a) b, shielded v a ++ shielded (filledVault v a) b) := by
  rw [lifted_append, shieldNodes_append, lifted_of_unmarked hb v (filledVault v a)]
  rfl

/-- The second part of a document is set aside in the vault that the first part leaves. -/
theorem filledVault_append (hb : ∀ n ∈ b, n.All (startMark ∉ ·)) (v : Vault) (a : List Node) :
    filledVault v (a ++ b) = filledVault (filledVault v a) b := by
  rw [filledVault, shieldNodes_lifted_append hb]

theorem shielded_append (hb : ∀ n ∈ b, n.All (startMark ∉ ·)) (v : Vault) (a : List Node) :
    shielded v (a ++ b) = shielded v a ++ shielded (filledVault v a) b := by
  rw [shielded, shieldNodes_lifted_append hb]

theorem filledVault_extends (v : Vault) (nodes : List Node) : v.Extends (filledVault v nodes) :=
  shieldNodes_extends v _

theorem Vault.HoldsTokens.filledVault (hv : v.HoldsTokens) (nodes : List Node) :
    (filledVault v nodes).HoldsTokens :=
  hv.shieldNodes _

/-! ## Side by side -/

theorem Composable.append (ha : Composable a) (hb : Composable b) : Composable (a ++ b) where
  unmarked := List.forall_mem_append.2 ⟨ha.unmarked, hb.unmarked⟩
  sized := by
    rw [Node.elementsOf_eq, List.flatMap_append, ← Node.elementsOf_eq, ← Node.elementsOf_eq]
    exact List.forall_mem_append.2 ⟨ha.sized, hb.sized⟩
  unfooted := by
    rw [Node.elementsOf_eq, List.flatMap_append, ← Node.elementsOf_eq, ← Node.elementsOf_eq]
    exact List.forall_mem_append.2 ⟨ha.unfooted, hb.unfooted⟩

/-- Neighbours side by side are written side by side, if no marker that the first leave open is
closed by the second. -/
theorem written_append (ho : options.UnmarkedBody) (ha : Composable a) (hb : Composable b)
    (hopen : ∀ name, LeavesOpen options a name → NeverCloses options b name) {x y z : List Char}
    (hx : (written options a).result = .ok x) (hy : (written options b).result = .ok y)
    (hz : (written options (a ++ b)).result = .ok z) : z = x ++ y := by
  obtain ⟨_, below, folded, text, hall, -, -, -, rfl⟩ :=
    exists_stages_of_written (ha.append hb) hz
  rw [filledVault_append hb.unmarked, shielded_append hb.unmarked] at hall
  rw [filledVault_append hb.unmarked]
  have htokens := (HoldsTokens.empty.filledVault a).filledVault b
  obtain ⟨below₁, folded₁, text₁, hfirst⟩ := exists_part ho ha hx (filledVault_extends _ b) htokens
  obtain ⟨below₂, folded₂, text₂, hsecond⟩ := exists_part ho hb hy (.refl _) htokens
  obtain ⟨_, _, rfl, hprepared₁, hprepared₂⟩ := hall.prepared.of_append
  obtain rfl := hfirst.prepared.unique hprepared₁
  obtain rfl := hsecond.prepared.unique hprepared₂
  -- a marker that is left open meets no close token in the second part
  have hfolded : folded = folded₁ ++ folded₂ := by
    refine hall.folds.unique (hfirst.folds.append hsecond.folds fun n hn head name hmarker => ?_)
    obtain ⟨hname, hleft⟩ := hfirst.leavesOpen n hn head name hmarker
    exact Region.span?_eq_none.2 (hsecond.closesNone name hname (hopen name hleft))
  have htext : text = text₁ ++ text₂ := by
    have hwritten := hall.writing
    rw [hfolded, Node.printAll_append, hfirst.writing, hsecond.writing] at hwritten
    exact (Except.ok.inj hwritten).symm
  rw [htext, (hfirst.resolves.append hsecond.resolves).expand_eq]

/-! ## A directive in a paragraph -/

/-- The paragraph that a reader makes of a line of markdown. -/
def paragraph (s : List Char) : Node := .element ['p'] [] [.text s]

variable {d s : List Char} {n : Node} {limit : Limit}

/-- A directive whose lines are markers is on one line: the first of several would end without
closing braces. -/
theorem contentLines_of_markers (hd : Directive.IsToken d) (hfree : startMark ∉ d)
    (hall : (contentLines d).all (isMarkerLine (some v)) = true) : contentLines d = [d] := by
  by_cases hline : '\n' ∈ d
  · exfalso
    obtain ⟨inner, rfl, hinner⟩ := hd
    have hfeed : '\n' ∈ inner := by simpa using hline
    obtain ⟨first, rest, rfl, hfirst⟩ := List.eq_append_cons_of_mem hfeed
    have hcut : '{' :: '{' :: (first ++ '\n' :: rest ++ ['}', '}']) =
        ('{' :: '{' :: first) ++ '\n' :: (rest ++ ['}', '}']) := by simp
    rw [hcut] at hall hfree
    have hmark : startMark ∉ '{' :: '{' :: first := fun hm => hfree (List.mem_append_left _ hm)
    have hone : '\n' ∉ '{' :: '{' :: first := by simpa using hfirst
    have hmem : strip ('{' :: '{' :: first) ∈
        contentLines (('{' :: '{' :: first) ++ '\n' :: (rest ++ ['}', '}'])) := by
      rw [contentLines, lines_append_feed, lines_of_not_mem hone]
      exact List.mem_cons_self
    obtain ⟨inside, hinside⟩ := Directive.exists_inside?_of_isMarkerLine
      (fun hm => hmark (mem_of_mem_strip hm)) (fun hm => hone (mem_of_mem_strip hm))
      (List.all_eq_true.1 hall _ hmem)
    rw [strip_strip] at hinside
    have hbrace : '}' ∈ '{' :: '{' :: first := by
      refine mem_of_mem_strip ?_
      rw [(Directive.inside?_eq_some.1 hinside).1]
      simp
    have hbrace : '}' ∈ first := by simpa using hbrace
    exact absurd (hinner _ (List.mem_append_left _ hbrace)) (by decide)
  · exact contentLines_of_strip hd.capped hline hd.capped.strip

/-- The paragraph of a directive is lifted or stays. -/
theorem lifted_paragraph (hd : Directive.IsToken d) (hfree : startMark ∉ d) (v : Vault) :
    lifted v [paragraph d] = [.text d] ∨ lifted v [paragraph d] = [paragraph d] := by
  have hlifted : lifted v [paragraph d] = (paragraph d).liftMarkers (some v) := List.append_nil _
  rw [hlifted, paragraph, Node.liftMarkers]
  cases hm : markersOf? (some v) ['p'] [.text d] with
  | none => exact .inr rfl
  | some ls =>
    unfold markersOf? at hm
    simp only at hm
    split at hm
    · next hall =>
      cases hm
      rw [Bool.and_eq_true] at hall
      rw [contentLines_of_markers hd hfree hall.2]
      exact .inl rfl
    · cases hm

theorem shield_of_token (hd : Directive.IsToken d) (v : Vault) : v.shield d = v.deposit d := by
  have := shield_token hd v []
  rwa [List.append_nil, shield_nil, List.append_nil] at this

/-- Once the directive is set aside, a placeholder stands in its place. -/
theorem exists_shielded_paragraph (hd : Directive.IsToken d) (hfree : startMark ∉ d) (v : Vault) :
    ∃ m, filledVault v [paragraph d] = (v.deposit d).1 ∧ shielded v [paragraph d] = [m] ∧
      (m = .text (placeholder v.size) ∨ m = paragraph (placeholder v.size)) := by
  have htext : v.shieldNodes [.text d] = ((v.deposit d).1, [.text (placeholder v.size)]) := by
    rw [shieldNodes_cons, shieldNode, shield_of_token hd]
    rfl
  have hparagraph : v.shieldNodes [paragraph d] =
      ((v.shieldNodes [.text d]).1, [.element ['p'] [] (v.shieldNodes [.text d]).2]) := rfl
  rw [filledVault, shielded]
  rcases lifted_paragraph hd hfree v with hl | hl
  · rw [hl, htext]
    exact ⟨_, rfl, rfl, .inl rfl⟩
  · rw [hl, hparagraph, htext]
    exact ⟨_, rfl, rfl, .inr rfl⟩

/-- Up to the folding of its neighbours, a text or a paragraph around one stays as it is. -/
theorem Prepared.of_paragraph {m : Node} (hm : m = .text s ∨ m = paragraph s) {below : List Node}
    (h : Prepared options v [m] below) : below = [m] := by
  obtain ⟨depth, mapped, hmapped, hbelow⟩ := h
  rcases hm with rfl | rfl
  · cases hmapped
    cases hbelow
    rfl
  · rw [Mapping.nodes, paragraph, Mapping.node] at hmapped
    obtain ⟨_, hnode, hmapped⟩ := Traced.bind_eq_ok.1 hmapped
    obtain ⟨_, -, hnode⟩ := Traced.bind_eq_ok.1 hnode
    cases hnode
    cases hmapped
    replace hbelow : (Region.foldBelowAll options.limit (some v) 0
        [.element ['p'] [] [.text s]]).result = .ok below := hbelow
    rw [Region.foldBelowAll, Region.foldBelow] at hbelow
    obtain ⟨_, hnode, hbelow⟩ := Traced.bind_eq_ok.1 hbelow
    obtain ⟨_, -, hnode⟩ := Traced.bind_eq_ok.1 hnode
    obtain ⟨_, hinner, hnode⟩ := Traced.bind_eq_ok.1 hnode
    cases hinner
    obtain ⟨folded, hfolded, hnode⟩ := Traced.bind_eq_ok.1 hnode
    rw [Region.foldAmong_single] at hfolded
    cases hfolded
    cases hnode
    cases hbelow
    rfl

/-! ## In a region -/

theorem composable_paragraph (hfree : startMark ∉ d) : Composable [paragraph d] where
  unmarked := List.forall_mem_singleton.2 (.element (by decide)
    (fun _ ha => absurd ha List.not_mem_nil) (List.forall_mem_singleton.2 (.text hfree)))
  sized := List.forall_mem_singleton.2 (sizedImage_of_ne (show ['p'] ≠ "img".toList by decide))
  unfooted := List.forall_mem_singleton.2 rfl

theorem Resolves.region {head name t : List Char} (hhead : startMark ∉ head)
    (hname : startMark ∉ name) (h : Resolves v s t) :
    Resolves v (Directive.region head s name) (Directive.region head t name) := by
  have hclosing : startMark ∉ '\n' :: Directive.closing name := by
    rw [List.mem_cons, not_or]
    exact ⟨by decide, Directive.startMark_not_mem_closing hname⟩
  have hfeed : startMark ∉ ['\n'] := by decide
  exact ((Resolves.of_free hhead).append ((Resolves.of_free hfeed).append h)).append
    (.of_free hclosing)

theorem says_of_paragraph (h : n = .text s ∨ n = paragraph s) : Region.Says s n := by
  rcases h with rfl | rfl
  · exact .text
  · exact .paragraph rfl

/-- A region whose content closes nothing of its name is folded around what the content comes to. -/
theorem Region.Folds.enclosed {first last : Node} {below folded : List Node}
    {head name text : List Char} (hfirst : first.openingMarker? (some w) = some (head, name))
    (hlast : last.takeClosing (some w) name = some none)
    (hnone : ∀ n ∈ below, n.takeClosing (some w) name = none)
    (hfolds : Region.Folds limit (some w) below folded)
    (htext : Node.printAll limit folded = .ok text) :
    Region.Folds limit (some w) (first :: (below ++ [last]))
      [.raw (Directive.region head (strip text) name)] := by
  have hspan : Region.span? (some w) name (below ++ [last]) = some (below ++ [], []) :=
    Region.span?_append hnone hlast
  rw [List.append_nil] at hspan
  exact .region hfirst hspan hfolds htext .nil

theorem convert_region (ho : options.UnmarkedBody) (h : Composable nodes) {head name : List Char}
    (hname : Directive.openName? head = some name) (hstrip : strip head = head)
    (hfree : startMark ∉ head) (hnever : NeverCloses options nodes name)
    (hu : (written options nodes).result = .ok u)
    (hout : (convert options
      (paragraph head :: (nodes ++ [paragraph (Directive.closing name)]))).result = .ok out) :
    out = capNewlineRuns (Directive.region head (strip u) name) := by
  have hisName := Directive.isName_of_openName? hname
  have hnameFree : startMark ∉ name := fun hm => hfree (Directive.mem_of_openName? hname hm)
  have hclosingFree := Directive.startMark_not_mem_closing hnameFree
  have htoken : Directive.IsToken head := hstrip ▸ Directive.isToken_of_openName? hname
  have hclosing := Directive.isToken_closing hisName
  have hfirst := composable_paragraph hfree
  have hlast := composable_paragraph hclosingFree
  have hrest := h.append hlast
  obtain ⟨-, z, hz, rfl⟩ := convert_eq_ok.1 hout
  obtain ⟨_, below, folded, text, hall, -, -, -, rfl⟩ :=
    exists_stages_of_written (hfirst.append hrest) hz
  -- the vault of the whole, part by part
  obtain ⟨m, hvm, hsm, hm⟩ := exists_shielded_paragraph htoken hfree .empty
  generalize hv₁ : (Vault.empty.deposit head).1 = v₁ at hvm
  obtain ⟨m', hvm', hsm', hm'⟩ :=
    exists_shielded_paragraph hclosing hclosingFree (filledVault v₁ nodes)
  rw [filledVault_append hrest.unmarked, shielded_append hrest.unmarked, hvm, hsm,
    filledVault_append hlast.unmarked, shielded_append hlast.unmarked, hvm', hsm'] at hall
  rw [filledVault_append hrest.unmarked, hvm, filledVault_append hlast.unmarked, hvm']
  have htokens : v₁.HoldsTokens := hv₁ ▸ HoldsTokens.empty.deposit htoken
  have hgrow := deposit_extends (filledVault v₁ nodes) (Directive.closing name)
  obtain ⟨below', folded', text', hpart⟩ :=
    exists_part ho h hu hgrow ((htokens.filledVault nodes).deposit hclosing)
  -- the first and the last node are the two tokens
  obtain ⟨x, _, rfl, hx, hrestPrepared⟩ := hall.prepared.of_append
  obtain ⟨y, z, rfl, hy, hz⟩ := hrestPrepared.of_append
  obtain rfl := hx.of_paragraph hm
  obtain rfl := hz.of_paragraph hm'
  obtain rfl := hpart.prepared.unique hy
  have hopens : m.openingMarker? (some ((filledVault v₁ nodes).deposit
      (Directive.closing name)).1) = some (head, name) := by
    have hkept : v₁.originals[Vault.empty.size]? = some head := hv₁ ▸ deposit_original .empty head
    have hmarker := Region.openingMarker?_of_setAside (says_of_paragraph hm)
      (hgrow.original ((filledVault_extends v₁ nodes).original hkept)) hfree hname
      (capped_placeholder _).strip
    rwa [hstrip] at hmarker
  have hcloses : m'.takeClosing (some ((filledVault v₁ nodes).deposit
      (Directive.closing name)).1) name = some none :=
    Region.takeClosing_of_closes (says_of_paragraph hm') (.setAside _ _ _ rfl
      (deposit_original _ _) (Directive.closeName?_closing hisName) (capped_placeholder _).strip)
  have hfolds := Region.Folds.enclosed hopens hcloses
    (hpart.closesNone name hnameFree hnever) hpart.folds hpart.writing
  have hwriting := hall.writing
  rw [hall.folds.unique hfolds] at hwriting
  cases hwriting
  rw [List.append_nil, (hpart.resolves.strip.region hfree hnameFree).expand_eq]

/-! ## In a folding section -/

/-- A folding section with a summary of text alone. -/
def foldingSection (title : List Char) (nodes : List Node) : Node :=
  .element "details".toList [] (.element "summary".toList [] [.text title] :: nodes)

variable {title : List Char}

theorem composable_foldingSection (hfree : startMark ∉ title) (h : Composable nodes) :
    Composable [foldingSection title nodes] := by
  have hnone : Attributes.All (startMark ∉ ·) [] := fun _ ha => absurd ha List.not_mem_nil
  have helements : Node.elementsOf [foldingSection title nodes] =
      ⟨"details".toList, [], .element "summary".toList [] [.text title] :: nodes⟩ ::
        ⟨"summary".toList, [], [.text title]⟩ :: (Node.elementsOf nodes ++ []) := rfl
  rw [List.append_nil] at helements
  refine ⟨⟨?_, ?_⟩, ?_⟩
  · refine List.forall_mem_singleton.2
      (.element (by decide) hnone (List.forall_mem_cons.2 ⟨?_, ?_⟩))
    · exact .element (by decide) hnone (List.forall_mem_singleton.2 (.text hfree))
    · exact h.unmarked
  · rw [helements]
    refine List.forall_mem_cons.2 ⟨?_, List.forall_mem_cons.2 ⟨?_, h.sized⟩⟩
    · exact sizedImage_of_ne (show "details".toList ≠ "img".toList by decide)
    · exact sizedImage_of_ne (show "summary".toList ≠ "img".toList by decide)
  · rw [helements]
    exact List.forall_mem_cons.2 ⟨rfl, List.forall_mem_cons.2 ⟨rfl, h.unfooted⟩⟩

theorem shieldNodes_foldingSection (htitle : ∀ c ∈ title, Directive.isBrace c = false) (v : Vault)
    (nodes : List Node) : v.shieldNodes (lifted v [foldingSection title nodes]) =
      (filledVault v nodes, [foldingSection title (shielded v nodes)]) := by
  have hlifted : lifted v [foldingSection title nodes] = [foldingSection title (lifted v nodes)] :=
    rfl
  have hsection : v.shieldNodes [foldingSection title (lifted v nodes)] =
      (((v.shield title).1.shieldNodes (lifted v nodes)).1,
        [foldingSection (v.shield title).2 ((v.shield title).1.shieldNodes (lifted v nodes)).2]) :=
    rfl
  rw [hlifted, hsection, shield_eq_self htitle]
  rfl

/-- Mapping a folding section folds and writes what is in it, but for the summary. -/
theorem stages_of_foldingSection (htitle : isBlank title = false) {ns mapped : List Node}
    {depth : Nat} (hmapped : (Mapping.nodes (.unfooted options (some v)) depth
      [foldingSection title ns]).result = .ok mapped) :
    ∃ below folded text, Stages options v ns below folded text ∧
      mapped = [.raw (Directive.expand (.text (strip title)) (strip text))] := by
  rw [Mapping.nodes, foldingSection, Mapping.node] at hmapped
  obtain ⟨out, hnode, hmapped⟩ := Traced.bind_eq_ok.1 hmapped
  cases hmapped
  obtain ⟨_, -, hnode⟩ := Traced.bind_eq_ok.1 hnode
  obtain ⟨_, hcontent, hnode⟩ := Traced.bind_eq_ok.1 hnode
  rw [Mapping.nodes, Mapping.node] at hcontent
  obtain ⟨_, hsummary, hcontent⟩ := Traced.bind_eq_ok.1 hcontent
  obtain ⟨content, hns, hcontent⟩ := Traced.bind_eq_ok.1 hcontent
  cases hcontent
  obtain ⟨_, -, hsummary⟩ := Traced.bind_eq_ok.1 hsummary
  cases hsummary
  replace hnode : (Mapping.foldingSection (.unfooted options (some v)) ⟨"details".toList, [],
    .element "summary".toList [] [.text title] :: content⟩).result = .ok out := hnode
  have hempty : (strip (title ++ [])).isEmpty = false := by
    rw [List.append_nil, Bool.eq_false_iff]
    exact fun he => strip_ne_nil htitle (List.isEmpty_iff.1 he)
  obtain ⟨folded, hfolded, hnode⟩ := Traced.bind_eq_ok.1 hnode
  obtain ⟨text, htext, hnode⟩ := Traced.bind_eq_ok.1 hnode
  obtain ⟨below, hbelow, hfolding⟩ := Region.foldAll_eq_ok hfolded
  refine ⟨below, folded, text, ⟨⟨_, content, hns, hbelow⟩, ⟨0, hfolding⟩, htext⟩, ?_⟩
  replace hnode : Except.ok [Node.raw (Directive.expand
      (if (strip (title ++ [])).isEmpty then options.expandTitle else .text (strip (title ++ [])))
      (strip text))] = Except.ok out := hnode
  rw [hempty, List.append_nil] at hnode
  cases hnode
  rfl

theorem Resolves.expandDirective {t : List Char} (hfree : startMark ∉ title) (h : Resolves v s t) :
    Resolves v (Directive.expand (.text title) s) (Directive.expand (.text title) t) := by
  have hparams : Directive.IntactParams (fun _ => False) [("title".toList, .text title)] :=
    List.forall_mem_singleton.2
      ⟨show startMark ∉ "title".toList by decide, .text (.of_free hfree)⟩
  exact h.region (Directive.intact_opening (by decide) hparams).free (by decide)

theorem convert_section (ho : options.UnmarkedBody) (h : Composable nodes)
    (htitle : isBlank title = false) (hbraces : ∀ c ∈ title, Directive.isBrace c = false)
    (hfree : startMark ∉ title) (hu : (written options nodes).result = .ok u)
    (hout : (convert options [foldingSection title nodes]).result = .ok out) :
    out = capNewlineRuns (Directive.expand (.text (strip title)) (strip u)) := by
  obtain ⟨-, z, hz, rfl⟩ := convert_eq_ok.1 hout
  obtain ⟨_, below, folded, text, hall, -, -, -, rfl⟩ :=
    exists_stages_of_written (composable_foldingSection hfree h) hz
  rw [filledVault, shielded, shieldNodes_foldingSection hbraces] at hall
  rw [filledVault, shieldNodes_foldingSection hbraces]
  obtain ⟨below', folded', text', hpart⟩ :=
    exists_part ho h hu (.refl _) (HoldsTokens.empty.filledVault nodes)
  obtain ⟨depth, _, hmapped, hbelow⟩ := hall.prepared
  obtain ⟨_, _, text₁, hinner, rfl⟩ := stages_of_foldingSection htitle hmapped
  obtain rfl := hinner.unique hpart.toStages
  cases hbelow
  have hwriting := hall.writing
  rw [hall.folds.unique (.content rfl .nil)] at hwriting
  cases hwriting
  have hstripped : startMark ∉ strip title := fun hm => hfree (mem_of_mem_strip hm)
  rw [List.append_nil, (hpart.resolves.strip.expandDirective hstripped).expand_eq]

/-! ## Conversion -/

/-- Conversion composes, if what the options say about code and sections holds no start marks.
Documents side by side are written side by side, if no marker that the first leaves open is closed
by the second. A document between an open token and its close token, which it does not close
itself, becomes a region around what it is written as, and one in a folding section becomes a
section around that; blank lines are normalised at the end. -/
theorem conversion_composes (options : Options) (ho : options.UnmarkedBody) :
    (∀ a b x y z, Composable a → Composable b →
      (∀ name, LeavesOpen options a name → NeverCloses options b name) →
      (written options a).result = .ok x → (written options b).result = .ok y →
      (written options (a ++ b)).result = .ok z → z = x ++ y) ∧
    (∀ nodes head name u out, Composable nodes →
      Directive.openName? head = some name → strip head = head → startMark ∉ head →
      NeverCloses options nodes name → (written options nodes).result = .ok u →
      (convert options (paragraph head ::
        (nodes ++ [paragraph (Directive.closing name)]))).result = .ok out →
      out = capNewlineRuns (Directive.region head (strip u) name)) ∧
    ∀ nodes title u out, Composable nodes →
      isBlank title = false → (∀ c ∈ title, Directive.isBrace c = false) → startMark ∉ title →
      (written options nodes).result = .ok u →
      (convert options [foldingSection title nodes]).result = .ok out →
      out = capNewlineRuns (Directive.expand (.text (strip title)) (strip u)) := by
  refine ⟨?_, ?_, ?_⟩
  · intro a b x y z ha hb hopen hx hy hz
    exact written_append ho ha hb hopen hx hy hz
  · intro nodes head name u out h hname hstrip hfree hnever hu hout
    exact convert_region ho h hname hstrip hfree hnever hu hout
  · intro nodes title u out h htitle hbraces hfree hu hout
    exact convert_section ho h htitle hbraces hfree hu hout

theorem standard_unmarkedBody : Options.standard.UnmarkedBody :=
  ⟨standard_unmarked.codeLanguage, standard_unmarked.codeLineNumbers, standard_unmarked.expandTitle⟩

/-- A paragraph with a directive: beside an open marker, in a region, and in a folding section. -/
theorem conversion_composes_paragraph :
    let head := "\x7b\x7b#x\x7d\x7d".toList
    let title := " t ".toList
    let nodes : List Node := [paragraph "\x7b\x7by\x7d\x7d & z".toList]
    let region := paragraph head :: (nodes ++ [paragraph (Directive.closing ['x'])])
    let u := "<p>\x7b\x7by\x7d\x7d &amp; z</p>".toList
    let beside := "\x7b\x7b#x\x7d\x7d<p>\x7b\x7by\x7d\x7d &amp; z</p>".toList
    let inRegion := head ++ '\n' :: u ++ "\n\x7b\x7b/x\x7d\x7d".toList
    let inSection := "\x7b\x7b#confluence-expand title=\"t\"\x7d\x7d\n".toList ++ u ++
      "\n\x7b\x7b/confluence-expand\x7d\x7d".toList
    (written .standard nodes).result = .ok u ∧
    (written .standard ([paragraph head] ++ nodes)).result = .ok beside ∧ beside = head ++ u ∧
    (convert .standard region).result = .ok inRegion ∧
      inRegion = capNewlineRuns (Directive.region head (strip u) ['x']) ∧
    (convert .standard [foldingSection title nodes]).result = .ok inSection ∧
      inSection = capNewlineRuns (Directive.expand (.text (strip title)) (strip u)) := by
  intro head title nodes region u beside inRegion inSection
  have hhead : Composable [paragraph head] := composable_paragraph (by decide)
  have hnodes : Composable nodes := composable_paragraph (by decide)
  have hopen : ∀ name, LeavesOpen .standard [paragraph head] name →
      NeverCloses .standard nodes name :=
    forall_leavesOpen (by decide +kernel)
  have hnever : NeverCloses .standard nodes ['x'] := by decide +kernel
  have hu : (written .standard nodes).result = .ok u := by decide +kernel
  have hbeside : (written .standard ([paragraph head] ++ nodes)).result = .ok beside := by
    decide +kernel
  have hregion : (convert .standard region).result = .ok inRegion := by decide +kernel
  have hsection : (convert .standard [foldingSection title nodes]).result = .ok inSection := by
    decide +kernel
  obtain ⟨besides, regions, sections⟩ := conversion_composes .standard standard_unmarkedBody
  refine ⟨hu, hbeside, ?_, hregion, ?_, hsection, ?_⟩
  · exact besides _ _ head u beside hhead hnodes hopen (by decide +kernel) hu hbeside
  · exact regions nodes head ['x'] u inRegion hnodes (by decide) (by decide) (by decide) hnever hu
      hregion
  · exact sections nodes title u inSection hnodes (by decide) (by decide) (by decide) hu hsection

/-- Start marks show: a title, an open token or a language of the options that holds a placeholder
says what the vault happens to keep under it. -/
theorem composition_shows_marks :
    let directive := "\x7b\x7by\x7d\x7d".toList
    let nodes : List Node := [.text directive]
    let title := placeholder 0
    let inSection := Directive.expand (.text directive) directive
    let head := "\x7b\x7b#x ".toList ++ placeholder 1 ++ "\x7d\x7d".toList
    let inRegion := "\x7b\x7b#x \x7b\x7by\x7d\x7d\x7d\x7d\x7b\x7by\x7d\x7d\x7b\x7b/x\x7d\x7d".toList
    let options : Options := { Options.standard with codeLanguage := .text (placeholder 0) }
    let listing : List Node := [.element "pre".toList [] [.element "code".toList [] []]]
    let code (language : List Char) := Directive.code [] (.text language) (.flag true)
    Composable nodes ∧ Composable listing ∧ (written .standard nodes).result = .ok directive ∧
    (isBlank title = false ∧ (∀ c ∈ title, Directive.isBrace c = false) ∧
      (convert .standard [foldingSection title nodes]).result = .ok inSection ∧
      inSection ≠ capNewlineRuns (Directive.expand (.text (strip title)) (strip directive))) ∧
    (Directive.openName? head = some ['x'] ∧ strip head = head ∧
      NeverCloses .standard nodes ['x'] ∧
      (convert .standard (paragraph head ::
        (nodes ++ [paragraph (Directive.closing ['x'])]))).result = .ok inRegion ∧
      inRegion ≠ capNewlineRuns (Directive.region head (strip directive) ['x'])) ∧
    (∀ name, LeavesOpen options nodes name → NeverCloses options listing name) ∧
    (written options nodes).result = .ok directive ∧
    (written options listing).result = .ok (code (placeholder 0)) ∧
    (written options (nodes ++ listing)).result = .ok (directive ++ code directive) ∧
    directive ++ code directive ≠ directive ++ code (placeholder 0) := by
  intro directive nodes title inSection head inRegion options listing code
  have hnone : Attributes.All (startMark ∉ ·) [] := fun _ ha => absurd ha List.not_mem_nil
  have hnodes : Composable nodes :=
    ⟨presentable_text (by decide), fun _ he => absurd he List.not_mem_nil⟩
  have hlisting : Composable listing := by
    refine ⟨⟨List.forall_mem_singleton.2 (.element (by decide) hnone
      (List.forall_mem_singleton.2 (.element (by decide) hnone ?_))), ?_⟩, by decide⟩
    · exact fun _ hc => absurd hc List.not_mem_nil
    · exact List.forall_mem_cons.2 ⟨sizedImage_of_ne (by decide),
        List.forall_mem_singleton.2 (sizedImage_of_ne (by decide))⟩
  refine ⟨hnodes, hlisting, by decide +kernel, ?_, ?_, ?_⟩
  · exact ⟨by decide, by decide, by decide +kernel, by decide +kernel⟩
  · exact ⟨by decide, by decide, by decide +kernel, by decide +kernel, by decide +kernel⟩
  · exact ⟨forall_leavesOpen (by decide +kernel), by decide +kernel, by decide +kernel,
      by decide +kernel, by decide +kernel⟩

end StorageMarkup
