import StorageMarkup.Proofs.Node.Depth
import StorageMarkup.Proofs.Region.Closing
import StorageMarkup.Proofs.Region.Folding

/-!
# Well-bracketed regions

Folding is a search with restarts: each open marker looks for its own close token
and reads over every other one. On well-bracketed neighbours it finds the regions
that the brackets say, as long as no region lies inside one of the same name.

Results:
1. `takeClosing_items`: the search for one name passes regions of other names whole.
2. `foldAmong_items`, `foldAmong_items_tooDeep`: regions within the limit are folded,
   the innermost first, and a region beyond it is refused.
3. `foldAll_items`: what folding makes of well-bracketed neighbours.
-/

namespace StorageMarkup.Region

/-! ## The grammar -/

/-- Neighbours in bracketed form: content, and regions with the two markers around them. The open
marker of a region says `head` and opens `name`. -/
inductive Items where
  | nil
  | content (n : Node) (rest : Items)
  | region (opening : Node) (head name : List Char) (body : Items) (closing : Node) (rest : Items)

namespace Items

/-- The neighbours without their brackets. -/
def nodes : Items → List Node
  | nil => []
  | content n rest => n :: rest.nodes
  | region opening _ _ body closing rest => opening :: (body.nodes ++ closing :: rest.nodes)

/-- The names of all regions, those inside others too. -/
def names : Items → List (List Char)
  | nil => []
  | content _ rest => rest.names
  | region _ _ name body _ rest => name :: (body.names ++ rest.names)

/-- How many regions are nested in each other at the deepest place. -/
def nesting : Items → Nat
  | nil => 0
  | content _ rest => rest.nesting
  | region _ _ _ body _ rest => max (body.nesting + 1) rest.nesting

/-- Each region folded into final output, those inside it before it. -/
def folded (limit : Limit) : Items → Except Failure (List Node)
  | nil => return []
  | content n rest => do
    let others ← rest.folded limit
    return n :: others
  | region _ head name body _ rest => do
    let inner ← body.folded limit
    let text ← Node.printAll limit inner
    let others ← rest.folded limit
    return .raw (Directive.region head (strip text) name) :: others

/-- The names of the regions in the order in which the regions end. -/
def closingOrder : Items → List (List Char)
  | nil => []
  | content _ rest => rest.closingOrder
  | region _ _ name body _ rest => body.closingOrder ++ name :: rest.closingOrder

end Items

/-- Content: neither the node nor one below it is an open marker, and no text holds a close token
for one of the names. -/
inductive Inert (v : Option Vault) (names : List (List Char)) : Node → Prop
  | root (children : List Node) : Inert v names (.root children)
  | raw (s : List Char) : Inert v names (.raw s)
  | text {s : List Char} (hopen : (Node.text s).openingMarker? v = none)
      (hclose : ∀ name ∈ names, ¬ HoldsClosing v name s) : Inert v names (.text s)
  | element {tag : List Char} {attrs : Attributes} {children : List Node}
      (hopen : (Node.element tag attrs children).openingMarker? v = none)
      (hbelow : ∀ c ∈ children, Inert v names c) : Inert v names (.element tag attrs children)

/-- Well-bracketed neighbours: content within `m` levels, and regions between an open and a close
marker of their name with no region of that name inside. -/
inductive WellBracketed (v : Option Vault) (m : Int) (names : List (List Char)) : Items → Prop
  | nil : WellBracketed v m names .nil
  | content {n : Node} {rest : Items} (hn : Inert v names n) (hdepth : (n.depth : Int) ≤ m)
      (hrest : WellBracketed v m names rest) : WellBracketed v m names (.content n rest)
  | region {opening closing : Node} {head name s : List Char} {body rest : Items}
      (hopen : opening.openingMarker? v = some (head, name)) (hmark : Says s closing)
      (hclose : Closes v name s) (hfresh : name ∉ body.names)
      (hbody : WellBracketed v m names body) (hrest : WellBracketed v m names rest) :
      WellBracketed v m names (.region opening head name body closing rest)

variable {limit : Limit} {v : Option Vault} {m : Int} {names : List (List Char)} {items : Items}

/-! ## Content -/

theorem Inert.openingMarker?_eq_none {n : Node} (h : Inert v names n) :
    n.openingMarker? v = none := by
  cases h with
  | root | raw => rfl
  | text hopen | element hopen => exact hopen

theorem Inert.takeClosing_eq_none {n : Node} (h : Inert v names n) {name : List Char}
    (hname : name ∈ names) : n.takeClosing v name = none := by
  induction h with
  | root | raw => rfl
  | text _ hclose =>
    rw [Node.takeClosing, cutFirstClosing_eq_none.2 (hclose name hname)]
    rfl
  | element _ _ ih =>
    rw [Node.takeClosing, takeClosingAmong_eq_none ih]
    rfl

/-- Below content there is nothing to fold; only its depth is checked. -/
theorem Inert.foldBelow (hm : limit.levels? = some m) {n : Node} (h : Inert v names n)
    {depth : Nat} (hdepth : ((depth + n.height : Nat) : Int) ≤ m) :
    foldBelow limit v depth n = pure n := by
  induction h generalizing depth with
  | root | raw | text => rfl
  | @element tag attrs children hopen hbelow ih =>
    have hall : ∀ nodes : List Node, (∀ c ∈ nodes, c ∈ children) →
        foldBelowAll limit v (depth + 1) nodes = pure nodes := by
      intro nodes
      induction nodes with
      | nil => intro _; rfl
      | cons c nodes ihn =>
        intro hc
        rw [List.forall_mem_cons] at hc
        have hlevel := Node.height_le_heightOf hc.1
        rw [Node.height] at hdepth
        rw [foldBelowAll, ih c hc.1 (by omega), pure_bind, ihn hc.2]
        rfl
    rw [Node.height] at hdepth
    have hlimit : withinLimit ((depth : Int) + 1) limit = .ok () := withinLimit_ok hm (by omega)
    rw [Region.foldBelow, hlimit, Traced.lift_ok_bind, hall children fun _ => id, pure_bind,
      foldAmong_of_content fun c hc => (hbelow c hc).openingMarker?_eq_none]
    rfl

/-! ## Markers -/

/-- The search for a close token passes content and regions of other names. -/
theorem takeClosing_items {name : List Char} (h : WellBracketed v m names items)
    (hname : name ∈ names) (hvalid : Directive.IsName name) (hfresh : name ∉ items.names) :
    ∀ n ∈ items.nodes, n.takeClosing v name = none := by
  induction h with
  | nil => exact fun n hn => absurd hn List.not_mem_nil
  | content hn _ _ ih =>
    rw [Items.nodes, List.forall_mem_cons]
    exact ⟨hn.takeClosing_eq_none hname, ih hfresh⟩
  | region hopen hmark hclose _ _ _ ihbody ihrest =>
    rw [Items.names, List.mem_cons, List.mem_append, not_or, not_or] at hfresh
    rw [Items.nodes, List.forall_mem_cons, List.forall_mem_append, List.forall_mem_cons]
    exact ⟨takeClosing_of_opening hopen name, ihbody hfresh.2.1,
      takeClosing_of_closes_other hmark hclose hvalid hfresh.1, ihrest hfresh.2.2⟩

/-- The span of a region is its body. -/
theorem span?_region {head name s : List Char} {opening closing : Node} {body : Items}
    (rest : Items) (hopen : opening.openingMarker? v = some (head, name)) (hmark : Says s closing)
    (hclose : Closes v name s) (hbody : WellBracketed v m names body) (hname : name ∈ names)
    (hfresh : name ∉ body.names) :
    span? v name (body.nodes ++ closing :: rest.nodes) = some (body.nodes, rest.nodes) := by
  obtain ⟨_, _, _, hn⟩ := openingMarker?_eq_some.1 hopen
  have hpass := takeClosing_items hbody hname (Directive.isName_of_openName? hn) hfresh
  rw [span?_append hpass (takeClosing_of_closes hmark hclose), Option.toList_none, List.append_nil]

/-! ## Folding neighbours -/

/-- Nesting is refused, at whatever depth. -/
def TooDeep {α : Type} (limit : Limit) (r : Except Failure α) : Prop :=
  ∃ depth, r = .error (.tooDeep depth limit)

/-- Regions within the limit are folded as the brackets say, the innermost first. -/
theorem foldAmong_items (hm : limit.levels? = some m) (h0 : 0 ≤ m)
    (h : WellBracketed v m names items) (hnames : ∀ name ∈ items.names, name ∈ names)
    (depth : Nat) (hdepth : ((depth + items.nesting : Nat) : Int) ≤ m) :
    ∃ nodes, items.folded limit = .ok nodes ∧ (Node.heightOf nodes : Int) ≤ m ∧
      (foldAmong limit v depth items.nodes).result = .ok nodes ∧
      (foldAmong limit v depth items.nodes).events = items.closingOrder.map .folded := by
  -- along the items, with the depth free: a body lies one level deeper than its region
  induction h generalizing depth with
  | nil =>
    rw [Items.nodes, foldAmong_nil]
    exact ⟨[], rfl, by simpa [Node.heightOf] using h0, rfl, rfl⟩
  | @content n rest hn hlevel _ ih =>
    obtain ⟨others, hfolded, hheight, hresult, hevents⟩ := ih hnames depth hdepth
    rw [Node.depth_eq] at hlevel
    refine ⟨n :: others, ?_, ?_, ?_, ?_⟩
    · rw [Items.folded, hfolded]
      rfl
    · rw [Node.heightOf]
      omega
    · rw [Items.nodes, foldAmong_content hn.openingMarker?_eq_none, Traced.result_bind, hresult]
      rfl
    · rw [Items.nodes, foldAmong_content hn.openingMarker?_eq_none, Traced.events_bind hresult,
        hevents, Items.closingOrder]
      exact List.append_nil _
  | @region opening closing head name s body rest hopen hmark hclose hfresh hbody _ ihbody ihrest =>
    rw [Items.names, List.forall_mem_cons, List.forall_mem_append] at hnames
    rw [Items.nesting] at hdepth
    obtain ⟨inner, hinner, hheight, hresult, hevents⟩ := ihbody hnames.2.1 (depth + 1)
      (by omega)
    obtain ⟨others, hothers, hheight', hresult', hevents'⟩ := ihrest hnames.2.2 depth
      (by omega)
    obtain ⟨text, htext⟩ := Node.printAll_ok hm hheight
    have hlimit : withinLimit ((depth : Int) + 1) limit = .ok () := withinLimit_ok hm (by omega)
    have hspan := span?_region rest hopen hmark hclose hbody hnames.1 hfresh
    refine ⟨.raw (Directive.region head (strip text) name) :: others, ?_, ?_, ?_, ?_⟩
    · rw [Items.folded, hinner, ok_bind, htext, ok_bind, hothers]
      rfl
    · rw [Node.heightOf, Node.height]
      omega
    · rw [Items.nodes, foldAmong_region hopen hspan, hlimit, Traced.lift_ok_bind,
        Traced.result_bind, hresult, ok_bind, htext, Traced.lift_ok_bind, Traced.result_bind,
        Traced.result_emit, ok_bind, Traced.result_bind, hresult', ok_bind]
      rfl
    · rw [Items.nodes, foldAmong_region hopen hspan, hlimit, Traced.lift_ok_bind,
        Traced.events_bind hresult, htext, Traced.lift_ok_bind,
        Traced.events_bind (Traced.result_emit _), Traced.events_bind hresult', hevents, hevents',
        Items.closingOrder, List.map_append, List.map_cons]
      exact congrArg (_ ++ Event.folded name :: ·) (List.append_nil _)

/-- Regions beyond the limit are refused. -/
theorem foldAmong_items_tooDeep (hm : limit.levels? = some m) (h0 : 0 ≤ m)
    (h : WellBracketed v m names items) (hnames : ∀ name ∈ items.names, name ∈ names)
    (depth : Nat) (hlevel : (depth : Int) ≤ m)
    (hdepth : m < ((depth + items.nesting : Nat) : Int)) :
    TooDeep limit (foldAmong limit v depth items.nodes).result := by
  induction h generalizing depth with
  | nil =>
    rw [Items.nesting] at hdepth
    omega
  | @content n rest hn _ _ ih =>
    obtain ⟨d, hd⟩ := ih hnames depth hlevel hdepth
    refine ⟨d, ?_⟩
    rw [Items.nodes, foldAmong_content hn.openingMarker?_eq_none]
    exact Traced.bind_of_error hd _
  | @region opening closing head name s body rest hopen hmark hclose hfresh hbody _ ihbody ihrest =>
    rw [Items.names, List.forall_mem_cons, List.forall_mem_append] at hnames
    rw [Items.nesting] at hdepth
    have hspan := span?_region rest hopen hmark hclose hbody hnames.1 hfresh
    rw [Items.nodes, foldAmong_region hopen hspan]
    by_cases hnext : ((depth : Int) + 1) ≤ m
    · have hlimit : withinLimit ((depth : Int) + 1) limit = .ok () := withinLimit_ok hm hnext
      rw [hlimit, Traced.lift_ok_bind]
      by_cases hbodyDepth : m < ((depth + 1 + body.nesting : Nat) : Int)
      · obtain ⟨d, hd⟩ := ihbody hnames.2.1 (depth + 1) (by omega) hbodyDepth
        exact ⟨d, Traced.bind_of_error hd _⟩
      · -- the body is folded, so a region after it nests too deep
        obtain ⟨inner, _, hheight, hresult, _⟩ := foldAmong_items hm h0 hbody
          hnames.2.1 (depth + 1) (by omega)
        obtain ⟨text, htext⟩ := Node.printAll_ok hm hheight
        obtain ⟨d, hd⟩ := ihrest hnames.2.2 depth hlevel (by omega)
        refine ⟨d, ?_⟩
        rw [Traced.result_bind, hresult, ok_bind, htext, Traced.lift_ok_bind, Traced.result_bind,
          Traced.result_emit, ok_bind]
        exact Traced.bind_of_error hd _
    · -- the region itself is refused
      refine ⟨depth + 1, Traced.bind_of_error ?_ _⟩
      exact withinLimit_error hm (by omega)

/-! ## Folding below neighbours -/

/-- The names of the regions that were folded, in the order of the reports. -/
def foldedNames (events : List Event) : List (List Char) :=
  events.filterMap fun
    | .folded name => some name
    | .unclosed _ => none

theorem foldedNames_append (a b : List Event) :
    foldedNames (a ++ b) = foldedNames a ++ foldedNames b :=
  List.filterMap_append

theorem foldedNames_folded (names : List (List Char)) :
    foldedNames (names.map .folded) = names := by
  induction names with
  | nil => rfl
  | cons name names ih => exact congrArg (name :: ·) ih

/-- Nothing is folded below a marker; a paragraph takes up one level. -/
theorem foldBelow_marker (hm : limit.levels? = some m) (h1 : 1 ≤ m) {s : List Char} {n : Node}
    (hn : Says s n) :
    (foldBelow limit v 0 n).result = .ok n ∧ foldedNames (foldBelow limit v 0 n).events = [] := by
  cases hn with
  | text => exact ⟨rfl, rfl⟩
  | paragraph =>
    have hlimit : withinLimit (((0 : Nat) : Int) + 1) limit = .ok () := withinLimit_ok hm (by omega)
    have hsingle : (foldAmong limit v (0 + 1) [.text s]).result = .ok [.text s] :=
      foldAmong_single _
    have hquiet : foldedNames (foldAmong limit v (0 + 1) [.text s]).events = [] := by
      cases h : (Node.text s).openingMarker? v with
      | none => rw [foldAmong_content h, foldAmong_nil]; rfl
      | some marker => rw [foldAmong_unclosed h rfl, foldAmong_nil]; rfl
    rw [foldBelow, hlimit, Traced.lift_ok_bind]
    show (foldAmong limit v (0 + 1) [.text s] >>= _).result = _ ∧
      foldedNames (foldAmong limit v (0 + 1) [.text s] >>= _).events = _
    rw [Traced.result_bind, hsingle, Traced.events_bind hsingle, foldedNames_append, hquiet]
    exact ⟨rfl, rfl⟩

theorem foldBelow_marker_tooDeep (hm : limit.levels? = some m) (h1 : m < 1) {s : List Char}
    {n : Node}
    (hn : Says s n) :
    (foldBelow limit v 0 n).result = .ok n ∨ TooDeep limit (foldBelow limit v 0 n).result := by
  cases hn with
  | text => exact .inl rfl
  | paragraph =>
    refine .inr ⟨1, ?_⟩
    rw [foldBelow]
    exact Traced.bind_of_error (withinLimit_error hm (by omega)) _

theorem foldBelowAll_quiet {nodes : List Node}
    (h : ∀ n ∈ nodes, (foldBelow limit v 0 n).result = .ok n ∧
      foldedNames (foldBelow limit v 0 n).events = []) :
    (foldBelowAll limit v 0 nodes).result = .ok nodes ∧
      foldedNames (foldBelowAll limit v 0 nodes).events = [] := by
  induction nodes with
  | nil => exact ⟨rfl, rfl⟩
  | cons n nodes ih =>
    rw [List.forall_mem_cons] at h
    obtain ⟨hresult, hevents⟩ := h.1
    obtain ⟨hresult', hevents'⟩ := ih h.2
    rw [foldBelowAll]
    constructor
    · rw [Traced.result_bind, hresult, ok_bind, Traced.result_bind, hresult']
      rfl
    · rw [Traced.events_bind hresult, Traced.events_bind hresult', foldedNames_append, hevents,
        foldedNames_append, hevents']
      rfl

theorem foldBelowAll_tooDeep {nodes : List Node}
    (h : ∀ n ∈ nodes, (foldBelow limit v 0 n).result = .ok n ∨
      TooDeep limit (foldBelow limit v 0 n).result) :
    (foldBelowAll limit v 0 nodes).result = .ok nodes ∨
      TooDeep limit (foldBelowAll limit v 0 nodes).result := by
  induction nodes with
  | nil => exact .inl rfl
  | cons n nodes ih =>
    rw [List.forall_mem_cons] at h
    rw [foldBelowAll]
    rcases h.1 with hresult | ⟨depth, herror⟩
    · rcases ih h.2 with hresult' | ⟨depth, herror⟩
      · left
        rw [Traced.result_bind, hresult, ok_bind, Traced.result_bind, hresult']
        rfl
      · right
        refine ⟨depth, ?_⟩
        rw [Traced.result_bind, hresult, ok_bind]
        exact Traced.bind_of_error herror _
    · exact .inr ⟨depth, Traced.bind_of_error herror _⟩

/-- A neighbour is content or a marker, and there are no markers without a region. -/
theorem WellBracketed.content_or_marker (h : WellBracketed v m names items) :
    ∀ n ∈ items.nodes, Inert v names n ∧ (n.height : Int) ≤ m ∨
      1 ≤ items.nesting ∧ ∃ s, Says s n := by
  induction h with
  | nil => exact fun n hn => absurd hn List.not_mem_nil
  | content hn hdepth _ ih =>
    rw [Node.depth_eq] at hdepth
    rw [Items.nodes, List.forall_mem_cons]
    exact ⟨.inl ⟨hn, hdepth⟩, ih⟩
  | @region opening closing head name s body rest hopen hmark _ _ _ _ ihbody ihrest =>
    obtain ⟨s', hmark', _⟩ := openingMarker?_eq_some.1 hopen
    have hpos : 1 ≤ (Items.region opening head name body closing rest).nesting :=
      Nat.le_trans (Nat.le_add_left 1 _) (Nat.le_max_left _ _)
    rw [Items.nodes, List.forall_mem_cons, List.forall_mem_append, List.forall_mem_cons]
    exact ⟨.inr ⟨hpos, s', hmark'⟩, fun n hn => (ihbody n hn).imp_right fun h => ⟨hpos, h.2⟩,
      .inr ⟨hpos, s, hmark⟩, fun n hn => (ihrest n hn).imp_right fun h => ⟨hpos, h.2⟩⟩

/-! ## The whole pass -/

/-- Folding well-bracketed neighbours fails just in case regions nest deeper than the limit, and
makes of each region what its brackets say, the innermost first. -/
theorem foldAll_items (hm : limit.levels? = some m) (h0 : 0 ≤ m)
    (h : WellBracketed v m items.names items) :
    (TooDeep limit (foldAll limit v items.nodes).result ↔ m < items.nesting) ∧
      ((items.nesting : Int) ≤ m → ∃ nodes, items.folded limit = .ok nodes ∧
        (foldAll limit v items.nodes).result = .ok nodes ∧
        foldedNames (foldAll limit v items.nodes).events = items.closingOrder) := by
  have hlimit : withinLimit 0 limit = .ok () := withinLimit_ok hm h0
  rw [foldAll, hlimit, Traced.lift_ok_bind]
  have hbeyond : m < items.nesting → TooDeep limit
      (foldBelowAll limit v 0 items.nodes >>= foldAmong limit v 0).result := by
    intro hdeep
    have hbelow : ∀ n ∈ items.nodes, (foldBelow limit v 0 n).result = .ok n ∨
        TooDeep limit (foldBelow limit v 0 n).result := by
      intro n hn
      rcases h.content_or_marker n hn with ⟨hinert, hheight⟩ | ⟨_, s, hmark⟩
      · rw [hinert.foldBelow hm (by omega)]
        exact .inl rfl
      · by_cases h1 : 1 ≤ m
        · exact .inl (foldBelow_marker hm h1 hmark).1
        · exact foldBelow_marker_tooDeep hm (by omega) hmark
    rcases foldBelowAll_tooDeep hbelow with hresult | ⟨depth, herror⟩
    · rw [Traced.result_bind, hresult]
      exact foldAmong_items_tooDeep hm h0 h (fun _ => id) 0 h0 (by omega)
    · exact ⟨depth, Traced.bind_of_error herror _⟩
  have hwithin : (items.nesting : Int) ≤ m → ∃ nodes, items.folded limit = .ok nodes ∧
      (foldBelowAll limit v 0 items.nodes >>= foldAmong limit v 0).result = .ok nodes ∧
      foldedNames (foldBelowAll limit v 0 items.nodes >>= foldAmong limit v 0).events =
        items.closingOrder := by
    intro hnesting
    have hbelow : ∀ n ∈ items.nodes, (foldBelow limit v 0 n).result = .ok n ∧
        foldedNames (foldBelow limit v 0 n).events = [] := by
      intro n hn
      rcases h.content_or_marker n hn with ⟨hinert, hheight⟩ | ⟨hpos, s, hmark⟩
      · rw [hinert.foldBelow hm (by omega)]
        exact ⟨rfl, rfl⟩
      · exact foldBelow_marker hm (by omega) hmark
    obtain ⟨hresult, hevents⟩ := foldBelowAll_quiet hbelow
    obtain ⟨nodes, hfolded, _, hresult', hevents'⟩ :=
      foldAmong_items hm h0 h (fun _ => id) 0 (by omega)
    refine ⟨nodes, hfolded, ?_, ?_⟩
    · rw [Traced.result_bind, hresult]
      exact hresult'
    · rw [Traced.events_bind hresult, foldedNames_append, hevents, hevents', foldedNames_folded]
      rfl
  refine ⟨⟨?_, hbeyond⟩, hwithin⟩
  -- a conversion within the limit succeeds, so one that is refused is beyond it
  rintro ⟨depth, herror⟩
  refine Int.not_le.1 fun hwide => ?_
  obtain ⟨nodes, _, hresult, _⟩ := hwithin hwide
  rw [hresult] at herror
  cases herror

/-- A region inside another, its markers set aside and in paragraphs, within a limit of two. The
outer one is written with the inner one in it, and the inner one is done first. -/
theorem foldAll_items_nested :
    let known : Vault := ⟨["\x7b\x7b#inner\x7d\x7d".toList, "\x7b\x7b/inner\x7d\x7d".toList]⟩
    let inner : Items := .region (.element ['p'] [] [.text (Vault.placeholder 0)])
      "\x7b\x7b#inner\x7d\x7d".toList "inner".toList (.content (.text ['y']) .nil)
      (.element ['p'] [] [.text (' ' :: Vault.placeholder 1)]) .nil
    let items : Items := .region (.text "\x7b\x7b#outer\x7d\x7d".toList)
      "\x7b\x7b#outer\x7d\x7d".toList "outer".toList
      (.content (.element "b".toList [] [.text ['x']]) inner)
      (.text "\x7b\x7b/outer\x7d\x7d ".toList) .nil
    let text := ("\x7b\x7b#outer\x7d\x7d\n<b>x</b>\x7b\x7b#inner\x7d\x7d\ny\n" ++
      "\x7b\x7b/inner\x7d\x7d\n\x7b\x7b/outer\x7d\x7d").toList
    let run := foldAll (.levels 2) (some known) items.nodes
    WellBracketed (some known) 2 items.names items ∧ run.result = .ok [.raw text] ∧
      foldedNames run.events = ["inner".toList, "outer".toList] := by
  intro known inner items text run
  have hinert : ∀ c ∈ ['x', 'y'], Inert (some known) items.names (.text [c]) := by
    intro c hc
    have hnone : ∀ c ∈ ['x', 'y'], (Node.text [c]).openingMarker? (some known) = none ∧
        ∀ name ∈ items.names, cutFirstClosing (some known) name [c] = none := by decide
    exact .text (hnone c hc).1 fun name h => cutFirstClosing_eq_none.1 ((hnone c hc).2 name h)
  have hw : WellBracketed (some known) 2 items.names items := by
    refine .region (openingMarker?_of_spelled .text (by decide) (by decide)) .text
      (.of_unmarked (by decide) (by decide)) (by decide)
      (.content (.element (by decide) ?_) (by rw [Node.depth_eq]; decide) ?_) .nil
    · exact List.forall_mem_singleton.2 (hinert 'x' (by decide))
    · have hopen : known.originals[0]? = some "\x7b\x7b#inner\x7d\x7d".toList := rfl
      have hclose : known.originals[1]? = some "\x7b\x7b/inner\x7d\x7d".toList := rfl
      refine .region (openingMarker?_of_setAside (.paragraph (by decide)) hopen (by decide)
          (by decide) (by decide)) (.paragraph (by decide))
        (.setAside known 1 _ rfl hclose (by decide) (by decide)) (by decide)
        (.content (hinert 'y' (by decide)) (by rw [Node.depth_eq]; decide) .nil) .nil
  have hm : (Limit.levels 2).levels? = some 2 := rfl
  have hfolded : items.folded (.levels 2) = .ok [.raw text] := by with_unfolding_all rfl
  obtain ⟨nodes, hnodes, hresult, hevents⟩ := (foldAll_items hm (by decide) hw).2 (by decide)
  cases hfolded.symm.trans hnodes
  exact ⟨hw, hresult, hevents⟩

end StorageMarkup.Region
