import StorageMarkup.Proofs.Document.Stages
import StorageMarkup.Proofs.Mapping.Nesting
import StorageMarkup.Proofs.Tree.Each
import StorageMarkup.Proofs.Vault.Resolved

/-!
# The depth check

A conversion measures the height of the tree before it does anything else. A tree that
passes this check is never refused for its elements afterwards, however often its parts
are mapped, folded, settled and written. What the check does not see are directive
regions, which nest once they are paired.

Results:
1. `settleFootnotesAmong_eq_error`: footnotes are not refused for nesting.
2. `startsNoRegion_shielded`: a tree without start marks and open tokens has no region.
3. `depth_check_adequate`: what the check says about the whole conversion.
-/

namespace StorageMarkup

open Node Vault

variable {options : Options} {v : Vault} {nodes out : List Node} {limit : Limit} {m : Int}

/-! ## Footnotes -/

section Footnotes

variable {index : Footnote.Index} {heading : Value}

theorem definitionTexts_ok (hm : limit.levels? = some m) {items : List Element}
    (h : ∀ item ∈ items, (heightOf item.children : Int) ≤ m) :
    ∃ s, Footnote.definitionTexts index limit items = .ok s := by
  induction items with
  | nil => exact ⟨[], rfl⟩
  | cons item items ih =>
    rw [List.forall_mem_cons] at h
    obtain ⟨others, hothers⟩ := ih h.2
    rw [Footnote.definitionTexts]
    split
    · exact ⟨others, hothers⟩
    · obtain ⟨body, hbody⟩ := printAll_ok hm h.1
      rw [hbody, ok_bind, hothers]
      exact ⟨_, rfl⟩

/-- A container within the limit is refused for its heading only. -/
theorem sectionText_eq_error (hm : limit.levels? = some m) {e : Element}
    (h : (e.toNode.height : Int) ≤ m) {f : Failure}
    (hout : Footnote.sectionText index heading limit e = .error f) : f = .notText := by
  have hlow : ∀ item ∈ e.toNode.elements, (heightOf item.children : Int) ≤ m := fun item hi => by
    have := heightOf_elements e.toNode item hi
    omega
  obtain ⟨s, hs⟩ : ∃ s, Footnote.definitionTexts index limit e.toNode.elements = .ok s :=
    definitionTexts_ok hm hlow
  rw [Footnote.sectionText, hs] at hout
  rcases bind_eq_error.1 hout with htitle | ⟨title, -, hout⟩
  · cases hheading : heading.text? with
    | none =>
      rw [hheading] at htitle
      cases htitle
      rfl
    | some title =>
      rw [hheading] at htitle
      cases htitle
  · cases hout

theorem exists_settling_of_error {f : Failure}
    (hout : settleFootnotesAmong index heading limit nodes = .error f) :
    ∃ n ∈ nodes, n.settleFootnotes index heading limit = .error f := by
  induction nodes with
  | nil => cases hout
  | cons n nodes ih =>
    rw [settleFootnotesAmong] at hout
    rcases bind_eq_error.1 hout with hfirst | ⟨first, -, hout⟩
    · exact ⟨n, List.mem_cons_self, hfirst⟩
    · rcases bind_eq_error.1 hout with hothers | ⟨others, -, hout⟩
      · obtain ⟨k, hk, hnode⟩ := ih hothers
        exact ⟨k, List.mem_cons_of_mem n hk, hnode⟩
      · cases hout

theorem settleFootnotes_eq_error (hm : limit.levels? = some m) (n : Node) :
    (n.height : Int) ≤ m →
      ∀ f, n.settleFootnotes index heading limit = .error f → f = .notText := by
  induction n using Node.induct with
  | text | raw | root => exact fun _ _ h => nomatch h
  | element tag attrs children ih =>
    intro hheight f hout
    rw [settleFootnotes] at hout
    split at hout
    · rcases bind_eq_error.1 hout with hsection | ⟨_, -, hout⟩
      · exact sectionText_eq_error (e := ⟨tag, attrs, children⟩) hm hheight hsection
      · cases hout
    · rcases bind_eq_error.1 hout with hinner | ⟨_, -, hout⟩
      · obtain ⟨c, hc, hchild⟩ := exists_settling_of_error hinner
        have := height_le_heightOf hc
        rw [height] at hheight
        exact ih c hc (by omega) f hchild
      · cases hout

theorem settleFootnotesAmong_eq_error (hm : limit.levels? = some m)
    (hheight : (heightOf nodes : Int) ≤ m) {f : Failure}
    (hout : settleFootnotesAmong index heading limit nodes = .error f) : f = .notText := by
  obtain ⟨n, hn, hnode⟩ := exists_settling_of_error hout
  have := height_le_heightOf hn
  exact settleFootnotes_eq_error hm n (by omega) f hnode

end Footnotes

/-! ## Trees without open tokens -/

/-- A text without start marks and without the beginning of an open token. -/
def Unopened (s : List Char) : Prop := startMark ∉ s ∧ ¬ "\x7b\x7b#".toList <:+: s

theorem Unopened.of_infix {s t : List Char} (h : Unopened s) (hts : t <:+: s) : Unopened t :=
  ⟨fun hm => h.1 (hts.subset hm), fun ho => h.2 (ho.trans hts)⟩

theorem Unopened.startsNoRegion {s t : List Char} (h : Unopened s) (ht : Resolves v t s) :
    Region.StartsNoRegion (some v) t := by
  rw [Region.StartsNoRegion, reveal, ht.strip.expand_eq]
  cases hname : Directive.openName? (strip s) with
  | none => rfl
  | some name =>
    have hin := Directive.opening_infix_of_openName? hname
    exact absurd (hin.trans (strip_infix_self s)) h.2

/-- After directives are set aside, each text still says what it said. -/
theorem startsNoRegion_shielded
    (h : ∀ n ∈ nodes, n.Each Unopened fun _ _ => True) (v : Vault) :
    ∀ n ∈ shielded v nodes, n.Each (Region.StartsNoRegion (some (filledVault v nodes)))
      fun _ _ => True := by
  have hbody := each_bodyOf (fun _ _ h => h) h
  have hlifted : ∀ n ∈ lifted v nodes, n.Each Unopened fun _ _ => True :=
    each_liftMarkersAmong ⟨by decide, by decide⟩ (fun _ _ hs ht => hs.of_infix ht) hbody
  refine each_shieldNodes ?_ (fun _ _ h => h) ?_ (fun _ _ _ h => h) hlifted v (.refl _)
  · exact fun s hs => hs.startsNoRegion (.of_free hs.1)
  · exact fun u s hw hs => hs.startsNoRegion (resolves_shield s hs.1 hw)

/-! ## The conversion -/

/-- What mapping goes by in a conversion. -/
def mappingEnv (options : Options) (v : Vault) (nodes : List Node) : Mapping.Env :=
  ⟨options, some (filledVault v nodes), .ofNodes (shielded v nodes)⟩

/-- A conversion comes upon a region on this level: mapping is refused for one in a folding section,
or it is met when the regions of the mapped tree are folded. -/
inductive MeetsRegion (options : Options) (v : Vault) (nodes : List Node) (level : Int) : Prop
  | inSection
      (hrefused : (Mapping.nodes (mappingEnv options v nodes) 0 (shielded v nodes)).result =
        .error (.tooDeep level options.limit))
      (h : Mapping.RegionInSection (mappingEnv options v nodes) 0 (shielded v nodes) level)
  | inTree {mapped : List Node}
      (hmapped : (Mapping.nodes (mappingEnv options v nodes) 0 (shielded v nodes)).result =
        .ok mapped)
      (h : Region.RegionIn options.limit (some (filledVault v nodes)) 0 mapped level)

theorem heightOf_shielded (v : Vault) (nodes : List Node) :
    heightOf (shielded v nodes) ≤ heightOf nodes := by
  rw [shielded, heightOf_shieldNodes]
  exact Nat.le_trans (heightOf_liftMarkersAmong _) (heightOf_bodyOf nodes)

/-- A tree that passes the check is refused for nesting just in case a region is met one level
deeper than allowed. -/
theorem convertWith_tooDeep_iff (hm : options.limit.levels? = some m)
    (hheight : (heightOf nodes : Int) ≤ m) {d : Int} {l : Limit} :
    (convertWith options v nodes).2.result = .error (.tooDeep d l) ↔
      l = options.limit ∧ d = m + 1 ∧ MeetsRegion options v nodes d := by
  have hlow := heightOf_shielded v nodes
  have hlimit : withinLimit (depthOf nodes) options.limit = .ok () := by
    rw [depthOf_eq]
    exact withinLimit_ok hm hheight
  rw [convertWith_eq, hlimit, Traced.lift_ok_bind, Traced.bind_eq_error]
  constructor
  · rintro (hrefused | ⟨mapped, hmapped, h⟩)
    · have hlevels : (mappingEnv options v nodes).options.limit.levels? = some m := hm
      obtain ⟨rfl, rfl, hr⟩ := Mapping.mapping_tooDeep hlevels (by omega) hrefused
      exact ⟨rfl, rfl, .inSection hrefused hr⟩
    have hmap := heightOf_mapping hmapped
    rcases Traced.bind_eq_error.1 h with hfold | ⟨folded, hfolded, h⟩
    · obtain ⟨rfl, rfl, hr⟩ := (Region.foldAll_tooDeep_iff hm (by omega)).1 hfold
      exact ⟨rfl, rfl, .inTree hmapped hr⟩
    -- from here on nothing is refused for nesting
    have hfold := Region.heightOf_foldAll hfolded
    rcases Traced.bind_eq_error.1 h with hsettle | ⟨settled, hsettled, h⟩
    · cases settleFootnotesAmong_eq_error hm (by omega) hsettle
    have hsettle := heightOf_settled hsettled
    have hwritten : (heightOf settled : Int) ≤ m := by omega
    obtain ⟨text, htext⟩ := printAll_ok hm hwritten
    rw [htext, Traced.lift_ok_bind] at h
    cases h
  · rintro ⟨rfl, rfl, ⟨hrefused, -⟩ | ⟨hmapped, hr⟩⟩
    · exact .inl hrefused
    · have hmap := heightOf_mapping hmapped
      refine .inr ⟨_, hmapped, Traced.bind_of_error ?_ _⟩
      exact (Region.foldAll_tooDeep_iff hm (by omega)).2 ⟨rfl, rfl, hr⟩

/-- The measured depth is the height of the tree. A tree higher than allowed is refused with its
height. Any other tree is refused for nesting just in case a region is met that is too deep, and
never in an empty vault if it holds no start mark and no text has the beginning of an open
token. -/
theorem depth_check_adequate (options : Options) (nodes : List Node) :
    depthOf nodes = heightOf nodes ∧ ∀ m, options.limit.levels? = some m →
      (m < heightOf nodes → ∀ v, (convertWith options v nodes).2.result =
        .error (.tooDeep (heightOf nodes) options.limit)) ∧
      (heightOf nodes ≤ m →
        (∀ v d l, (convertWith options v nodes).2.result = .error (.tooDeep d l) ↔
          l = options.limit ∧ d = m + 1 ∧ MeetsRegion options v nodes d) ∧
        ((∀ n ∈ nodes, n.All (startMark ∉ ·)) →
          (∀ s ∈ textsOf nodes, ¬ "\x7b\x7b#".toList <:+: s) →
          ∀ d l, (convert options nodes).result ≠ .error (.tooDeep d l))) := by
  refine ⟨depthOf_eq nodes, fun m hm => ⟨fun hheight v => ?_, fun hheight => ⟨?_, ?_⟩⟩⟩
  · rw [convertWith_eq, depthOf_eq, withinLimit_error hm hheight]
    rfl
  · exact fun v d l => convertWith_tooDeep_iff hm hheight
  · intro hfree hnone d l hdeep
    obtain ⟨-, -, hmeets⟩ := (convertWith_tooDeep_iff hm hheight).1 hdeep
    rw [textsOf_eq, List.forall_mem_flatMap] at hnone
    have hunopened : ∀ n ∈ nodes, n.Each Unopened fun _ _ => True := fun n hn =>
      each_of_texts n fun s hs => ⟨(hfree n hn).texts s hs, hnone n hn s hs⟩
    have hstarts := startsNoRegion_shielded hunopened empty
    cases hmeets with
    | inSection _ h => exact Mapping.not_regionInSection (fun _ _ _ h => h) hstarts h
    | inTree hmapped h =>
      exact Region.not_regionIn (Mapping.each_mapping (fun _ _ _ h => h) hstarts hmapped) h

/-- With one level allowed: two elements in each other are refused by the check, a region in a
region is refused when it is met, and an inline directive in a paragraph is neither. -/
theorem depth_check_adequate_one_level :
    let options : Options := { Options.standard with maxDepth := .number 1 }
    let p (children : List Node) : Node := .element ['p'] [] children
    let high : List Node := [.element "div".toList [] [p []]]
    let regions : List Node := [p [.text (Directive.opening ['a'] [])],
      p [.text (Directive.opening ['b'] [])], p [.text (Directive.closing ['b'])],
      p [.text (Directive.closing ['a'])]]
    let inline : List Node := [p [.text (Directive.inline ['x'] [])]]
    (heightOf high = 2 ∧ (convert options high).result = .error (.tooDeep 2 options.limit)) ∧
    (heightOf regions = 1 ∧ MeetsRegion options empty regions 2) ∧
    (heightOf inline = 1 ∧ ∀ d l, (convert options inline).result ≠ .error (.tooDeep d l)) := by
  intro options p high regions inline
  have hm : options.limit.levels? = some 1 := rfl
  obtain ⟨-, hhigh⟩ := depth_check_adequate options high
  obtain ⟨-, hregions⟩ := depth_check_adequate options regions
  obtain ⟨-, hinline⟩ := depth_check_adequate options inline
  refine ⟨⟨rfl, (hhigh 1 hm).1 (by decide) empty⟩, ⟨rfl, ?_⟩, ⟨rfl, ?_⟩⟩
  · have hdeep : (convert options regions).result = .error (.tooDeep 2 options.limit) := by
      decide +kernel
    exact ((((hregions 1 hm).2 (by decide)).1 empty 2 options.limit).1 hdeep).2.2
  · refine ((hinline 1 hm).2 (by decide)).2 ?_ (by decide)
    have htext : startMark ∉ Directive.inline ['x'] [] := by decide
    exact List.forall_mem_singleton.2 (.element (by decide) (fun _ ha => absurd ha List.not_mem_nil)
      (List.forall_mem_singleton.2 (.text htext)))

end StorageMarkup
