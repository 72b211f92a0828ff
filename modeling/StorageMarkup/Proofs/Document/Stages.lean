import StorageMarkup.Document
import StorageMarkup.Proofs.Outcome

/-!
# The stages of a conversion

Results:
1. `convertWith_eq`: a conversion as a chain of stages.
2. `convertWith_eq_ok`: what each stage has made when a conversion succeeds.
3. `render_eq_ok`: the same for a source that is rendered.
4. `readTree_of_tokens`: a tree from the tokens of its markup.
-/

namespace StorageMarkup

variable {options : Options} {v : Vault} {nodes : List Node} {out : List Char}

/-- The tree before directives are set aside: the body, its markers lifted. -/
def lifted (v : Vault) (nodes : List Node) : List Node :=
  Node.liftMarkersAmong (some v) (Node.bodyOf nodes)

/-- The vault that holds the directives of a tree. -/
def filledVault (v : Vault) (nodes : List Node) : Vault := (v.shieldNodes (lifted v nodes)).1

/-- The tree whose directives are set aside. -/
def shielded (v : Vault) (nodes : List Node) : List Node := (v.shieldNodes (lifted v nodes)).2

/-- A pass, then the others on what it left. -/
theorem runEach_cons (ctx : Context) (nodes : List Node) (pass : TreePass) (rest : List TreePass) :
    (TreePass.runEach ctx nodes (pass :: rest)).2 = (pass.run ctx nodes).2 >>= fun next =>
      (TreePass.runEach (pass.run ctx nodes).1 next rest).2 := by
  rw [TreePass.runEach]
  generalize pass.run ctx nodes = r
  obtain ⟨ctx', events, result⟩ := r
  cases result with
  | error e => rfl
  | ok next => rfl

/-- Only setting directives aside changes the vault. -/
theorem vault_runEach {ctx : Context} {passes : List TreePass} (h : .directives ∉ passes) :
    (TreePass.runEach ctx nodes passes).1.vault = ctx.vault := by
  induction passes generalizing ctx nodes with
  | nil => rfl
  | cons pass rest ih =>
    rw [List.mem_cons, not_or] at h
    have hpass : (pass.run ctx nodes).1.vault = ctx.vault := by
      cases pass with
      | directives => exact absurd rfl h.1
      | body | markers | mapping | regions | footnotes => rfl
    rw [TreePass.runEach]
    generalize pass.run ctx nodes = r at hpass ⊢
    obtain ⟨ctx', events, result⟩ := r
    cases result with
    | error e => exact hpass
    | ok next => exact (ih h.2).trans hpass

/-- The first three passes cannot fail. -/
theorem runAll_eq (options : Options) (v : Vault) (nodes : List Node) :
    TreePass.runAll ⟨options, some v, none⟩ nodes =
      TreePass.runEach ⟨options, some (filledVault v nodes), none⟩ (shielded v nodes)
        [.mapping, .regions, .footnotes] := rfl

theorem vault_runAll (options : Options) (v : Vault) (nodes : List Node) :
    (TreePass.runAll ⟨options, some v, none⟩ nodes).1.vault = some (filledVault v nodes) := by
  rw [runAll_eq]
  exact vault_runEach (by decide)

/-- What the passes make of a tree: the index is taken once, before the mapping. -/
theorem passed_eq (options : Options) (v : Vault) (nodes : List Node) :
    (TreePass.runAll ⟨options, some v, none⟩ nodes).2 = (do
      let mapped ← Mapping.nodes
        ⟨options, some (filledVault v nodes), .ofNodes (shielded v nodes)⟩ 0 (shielded v nodes)
      let folded ← Region.foldAll options.limit (some (filledVault v nodes)) mapped
      Traced.lift (Node.settleFootnotesAmong (.ofNodes (shielded v nodes))
        options.footnotesHeading options.limit folded)) := by
  rw [runAll_eq, runEach_cons]
  refine congrArg (_ >>= ·) (funext fun mapped => ?_)
  rw [runEach_cons]
  refine congrArg (_ >>= ·) (funext fun folded => ?_)
  rw [runEach_cons]
  exact bind_pure _

/-- A conversion, one stage after the other. -/
theorem convertWith_eq (options : Options) (v : Vault) (nodes : List Node) :
    (convertWith options v nodes).2 = (do
      Traced.lift (withinLimit (Node.depthOf nodes) options.limit)
      let mapped ← Mapping.nodes
        ⟨options, some (filledVault v nodes), .ofNodes (shielded v nodes)⟩ 0 (shielded v nodes)
      let folded ← Region.foldAll options.limit (some (filledVault v nodes)) mapped
      let settled ← Traced.lift (Node.settleFootnotesAmong (.ofNodes (shielded v nodes))
        options.footnotesHeading options.limit folded)
      let text ← Traced.lift (Node.printAll options.limit settled)
      pure (capNewlineRuns ((filledVault v nodes).expand text))) := by
  unfold convertWith
  cases withinLimit (Node.depthOf nodes) options.limit with
  | error e => rfl
  | ok _ =>
    show ((TreePass.runAll ⟨options, some v, none⟩ nodes).2 >>= fun nodes =>
      Traced.lift (Node.printAll options.limit nodes)) >>= (fun text =>
        pure (OutputPass.runAll (TreePass.runAll ⟨options, some v, none⟩ nodes).1.vault text)) = _
    rw [Traced.lift_ok_bind, vault_runAll, passed_eq]
    simp only [Traced.bind_assoc]
    rfl

/-- A conversion that succeeds has mapped, folded, settled and written the tree. -/
theorem convertWith_eq_ok (h : (convertWith options v nodes).2.result = .ok out) :
    ∃ mapped folded settled text,
      (Mapping.nodes ⟨options, some (filledVault v nodes), .ofNodes (shielded v nodes)⟩ 0
        (shielded v nodes)).result = .ok mapped ∧
      (Region.foldAll options.limit (some (filledVault v nodes)) mapped).result = .ok folded ∧
      Node.settleFootnotesAmong (.ofNodes (shielded v nodes)) options.footnotesHeading
        options.limit folded = .ok settled ∧
      Node.printAll options.limit settled = .ok text ∧
      out = capNewlineRuns ((filledVault v nodes).expand text) := by
  rw [convertWith_eq] at h
  obtain ⟨_, _, h⟩ := Traced.bind_eq_ok.1 h
  obtain ⟨mapped, hmapped, h⟩ := Traced.bind_eq_ok.1 h
  obtain ⟨folded, hfolded, h⟩ := Traced.bind_eq_ok.1 h
  obtain ⟨settled, hsettled, h⟩ := Traced.bind_eq_ok.1 h
  obtain ⟨text, htext, h⟩ := Traced.bind_eq_ok.1 h
  cases h
  exact ⟨mapped, folded, settled, text, hmapped, hfolded, hsettled, htext, rfl⟩

theorem render_eq_ok {reader : Reader} {text : List Char} :
    render reader options text = .ok out ↔ ∃ v source nodes,
      prepareSource options text = .ok (v, source) ∧ readTree reader options source = .ok nodes ∧
      (convertWith options v nodes).2.result = .ok out := by
  unfold render
  constructor
  · intro h
    obtain ⟨⟨v, source⟩, hsource, h⟩ := bind_eq_ok.1 h
    obtain ⟨nodes, hnodes, h⟩ := bind_eq_ok.1 h
    exact ⟨v, source, nodes, hsource, hnodes, h⟩
  · rintro ⟨v, source, nodes, hsource, hnodes, h⟩
    exact bind_eq_ok.2 ⟨_, hsource, bind_eq_ok.2 ⟨nodes, hnodes, h⟩⟩

theorem readTree_of_tokens {reader : Reader} {source markup : List Char} {ts : List Html.Token}
    (hmarkup : reader source = .ok markup) (hts : Html.tokens markup = ts)
    (hlimit : withinLimit 1 options.limit = .ok ())
    (hdepth : Html.checkNodes options.limit 0 (ts.foldl Html.Builder.step .empty).finish = .ok ()) :
    readTree reader options source = .ok (ts.foldl Html.Builder.step .empty).finish := by
  have hread : Html.read options.limit markup = .ok (ts.foldl Html.Builder.step .empty).finish := by
    rw [Html.read, Html.parse, hts, hlimit, hdepth]
    rfl
  rw [readTree, readMarkup, hmarkup]
  exact hread

end StorageMarkup
