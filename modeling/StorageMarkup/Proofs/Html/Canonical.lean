import StorageMarkup.Proofs.Html.Tags
import StorageMarkup.Proofs.Tree.Success

/-!
# Trees read back from their markup

A canonical tree has a written form of its own, and reading that form gives the tree
back. It does without all that would change on the way: empty texts, which vanish, texts
side by side, which become one, white space that is folded or reduced, names in capitals,
content of elements that have none.

Reading written nodes does to the reader's state just what adding these nodes would do,
whatever is open around them. Texts are the only nodes whose end depends on what follows,
so nothing may follow that reads as text.

Results:
1. `Canonical`: trees that have a written form of their own.
2. `readAll_print`: what reading written nodes does to the reader's state.
3. `read_eq_ok`: the depth check of the reader.
4. `parse_of_printAll`, `read_printAll`: reading undoes writing.
-/

namespace StorageMarkup.Html

open Node

variable {kept preformatted : Bool} {s rest : List Char} {nodes : List Node} {b : Builder}
  {limit : Limit} {m : Int}

/-! ## Canonical trees -/

/-- Elements whose text keeps its white space when read. -/
def keepsWhiteSpace (tag : List Char) : Bool := tag = "pre".toList || tag = "textarea".toList

/-- A text that comes back: not empty, and without the white space that is reduced where it is not
`kept` by the reader, or folded where it is not `preformatted` for the writer. -/
structure LegalText (kept preformatted : Bool) (s : List Char) : Prop where
  nonempty : s ≠ []
  layout : kept = false → (∀ c ∈ s, isLayout c = true) → s = ['\n'] ∨ s = [' ']
  runs : preformatted = false → HasNoBlankRun s

/-- Legal texts and elements only, no two texts side by side and void elements without content. -/
inductive Canonical : Bool → Bool → List Node → Prop
  | nil (kept preformatted : Bool) : Canonical kept preformatted []
  | text {kept preformatted : Bool} {s : List Char} {rest : List Node}
      (hs : LegalText kept preformatted s) (hnext : ∀ t others, rest ≠ .text t :: others)
      (h : Canonical kept preformatted rest) : Canonical kept preformatted (.text s :: rest)
  | element {kept preformatted : Bool} {tag : List Char} {attrs : Attributes}
      {children rest : List Node} (htag : LegalTag tag) (hattrs : LegalAttributes tag attrs)
      (hvoid : isVoid tag = true → children = [])
      (hc : Canonical (kept || keepsWhiteSpace tag) (preformatted || isPreformatted tag) children)
      (h : Canonical kept preformatted rest) :
      Canonical kept preformatted (.element tag attrs children :: rest)

/-! ## Texts -/

/-- A text of one line with a character that is no white space comes back wherever it stands. -/
theorem LegalText.of_line (hline : '\n' ∉ s) (h : s.all isLayout = false) :
    LegalText kept preformatted s where
  nonempty := by
    rintro rfl
    cases h
  layout := fun _ hall => by
    rw [List.all_eq_true.2 hall] at h
    cases h
  runs := fun _ _ _ hin => hline (hin.subset List.mem_cons_self)

theorem LegalText.layoutText (h : LegalText kept preformatted s) : layoutText kept s = s := by
  rw [Html.layoutText]
  split
  · rfl
  · next hreduced =>
    rw [Bool.or_eq_true, not_or, Bool.not_eq_true, Bool.not_eq_true, Bool.not_eq_false',
      List.all_eq_true] at hreduced
    rcases h.layout hreduced.1 hreduced.2 with rfl | rfl <;> rfl

theorem LegalText.printText (h : LegalText kept preformatted s) :
    printText preformatted s = escapeText s := by
  cases preformatted with
  | true => rfl
  | false => exact foldBlankRuns_escapeText (h.runs rfl)

theorem escapeText_ne_nil (h : s ≠ []) : escapeText s ≠ [] := by
  obtain ⟨c, s, rfl⟩ := List.exists_cons_of_ne_nil h
  rw [escapeText, List.flatMap_cons]
  exact List.append_ne_nil_of_left_ne_nil (escapeTextChar_ne_nil c) _

/-! ## The reader's state -/

namespace Builder

/-- Nodes added one after the other where the innermost open element is. -/
def addAll (b : Builder) (nodes : List Node) : Builder := nodes.foldl add b

theorem keepsLayout_add (b : Builder) (n : Node) : (b.add n).keepsLayout = b.keepsLayout := by
  obtain ⟨top, stack⟩ := b
  cases stack <;> rfl

theorem keepsLayout_open (b : Builder) (f : Frame) :
    keepsLayout { b with stack := f :: b.stack } = (b.keepsLayout || keepsWhiteSpace f.tag) :=
  Bool.or_comm _ _

theorem addAll_open (top : List Node) (f : Frame) (stack : List Frame) (nodes : List Node) :
    addAll ⟨top, f :: stack⟩ nodes =
      ⟨top, { f with content := nodes.reverse ++ f.content } :: stack⟩ := by
  induction nodes generalizing f with
  | nil => rfl
  | cons n nodes ih =>
    have hstep := ih { f with content := n :: f.content }
    rw [List.reverse_cons, List.append_assoc, List.singleton_append]
    exact hstep

/-- The end tag of the innermost element closes it and nothing else. -/
theorem step_endTag (top : List Node) (f : Frame) (stack : List Frame) :
    step ⟨top, f :: stack⟩ (.endTag f.tag) = add ⟨top, stack⟩ f.close := by
  have hopened : opened? f.tag (f :: stack) = some 1 := if_pos rfl
  rw [step, hopened]
  rfl

/-- An element that is opened, filled and closed is added. -/
theorem step_endTag_addAll (b : Builder) (tag : List Char) (attrs : Attributes)
    (children : List Node) :
    (addAll { b with stack := ⟨tag, attrs, []⟩ :: b.stack } children).step (.endTag tag) =
      b.add (.element tag attrs children) := by
  rw [addAll_open]
  refine (step_endTag b.top _ b.stack).trans ?_
  show b.add (.element tag attrs (children.reverse ++ []).reverse) = _
  rw [List.append_nil, List.reverse_reverse]

theorem finish_addAll (nodes : List Node) : (addAll empty nodes).finish = nodes := by
  have htop : ∀ top, addAll ⟨top, []⟩ nodes = ⟨nodes.reverse ++ top, []⟩ := by
    induction nodes with
    | nil => exact fun top => rfl
    | cons n nodes ih =>
      intro top
      rw [List.reverse_cons, List.append_assoc, List.singleton_append]
      exact ih (n :: top)
  rw [empty, htop]
  show (nodes.reverse ++ []).reverse = nodes
  rw [List.append_nil, List.reverse_reverse]

/-- The state after a whole text. -/
def readAll (b : Builder) (s : List Char) : Builder := (tokens s).foldl step b

theorem readAll_nil (b : Builder) : b.readAll [] = b := by
  rw [readAll, tokens_nil]
  rfl

theorem readAll_of_readToken {token : Token} (h : readToken s = some (token, rest)) :
    b.readAll s = (b.step token).readAll rest := by
  rw [readAll, tokens_of_readToken h]
  rfl

end Builder

open Builder

/-! ## Written nodes, one by one -/

/-- A text is added if what follows it ends it. -/
theorem readAll_text (ht : LegalText b.keepsLayout preformatted s) (hrest : textRun rest = []) :
    b.readAll (printText preformatted s ++ rest) = (b.add (.text s)).readAll rest := by
  have hread := readToken_text (escapeText_ne_nil ht.nonempty) (lt_not_mem_escapeText s) hrest
  rw [ht.printText, readAll_of_readToken hread, decode_escapeText, step, ht.layoutText]

section

variable {tag : List Char} {attrs : Attributes} (htag : LegalTag tag)
  (hattrs : LegalAttributes tag attrs)

include htag hattrs

/-- A void element closes itself. -/
theorem readAll_void (s : List Char) (b : Builder) :
    b.readAll ('<' :: (tag ++ (attrs.print ++ ' ' :: '/' :: '>' :: s))) =
      (b.add (.element tag attrs [])).readAll s := by
  obtain ⟨written, hwritten, hread⟩ :=
    readToken_startTag htag hattrs (by decide) (readAttributes_selfClosing s)
  rw [readAll_of_readToken hread, step, hwritten]
  rfl

theorem readAll_open (hv : isVoid tag = false) (s : List Char) (b : Builder) :
    b.readAll ('<' :: (tag ++ (attrs.print ++ '>' :: s))) =
      readAll { b with stack := ⟨tag, attrs, []⟩ :: b.stack } s := by
  obtain ⟨written, hwritten, hread⟩ :=
    readToken_startTag htag hattrs (by decide) (readAttributes_bracket s)
  rw [readAll_of_readToken hread, step, hwritten, hv]
  rfl

end

/-! ## Written nodes in a row -/

/-- An element and the nodes after it as they are written. -/
theorem printAllAt_element {depth : Nat} {tag : List Char} {attrs : Attributes}
    {children others : List Node}
    (hs : printAllAt limit preformatted depth (.element tag attrs children :: others) = .ok s) :
    ∃ after, printAllAt limit preformatted depth others = .ok after ∧
      (isVoid tag = true ∧ s = '<' :: (tag ++ (attrs.print ++ ' ' :: '/' :: '>' :: after)) ∨
        isVoid tag = false ∧ ∃ inner,
          printAllAt limit (preformatted || isPreformatted tag) (depth + 1) children = .ok inner ∧
          s = '<' :: (tag ++ (attrs.print ++
            '>' :: (inner ++ '<' :: '/' :: (tag ++ '>' :: after))))) := by
  rw [printAllAt] at hs
  obtain ⟨first, hfirst, hs⟩ := bind_eq_ok.1 hs
  obtain ⟨after, hafter, hs⟩ := bind_eq_ok.1 hs
  cases hs
  refine ⟨after, hafter, ?_⟩
  cases hv : isVoid tag with
  | true =>
    rw [printAt] at hfirst
    obtain ⟨_, -, hfirst⟩ := bind_eq_ok.1 hfirst
    rw [if_pos hv] at hfirst
    cases hfirst
    exact .inl ⟨rfl, by simp⟩
  | false =>
    obtain ⟨inner, hinner, rfl⟩ := printAt_element hv hfirst
    exact .inr ⟨rfl, inner, hinner, by simp⟩

/-- An element starts with markup, so a text before it ends there. -/
theorem textRun_print {depth : Nat} (h : Canonical kept preformatted nodes)
    (hnext : ∀ t others, nodes ≠ .text t :: others)
    (hs : printAllAt limit preformatted depth nodes = .ok s) (hrest : textRun rest = []) :
    textRun (s ++ rest) = [] := by
  cases h with
  | nil =>
    cases hs
    exact hrest
  | text => exact absurd rfl (hnext _ _)
  | @element _ _ tag _ _ _ htag =>
    have htext : ∀ t, textRun ('<' :: (tag ++ t) ++ rest) = [] := fun t => by
      rw [List.cons_append, List.append_assoc, textRun, htag.startsMarkup]
      rfl
    obtain ⟨after, -, ⟨-, rfl⟩ | ⟨-, inner, -, rfl⟩⟩ := printAllAt_element hs
    · exact htext _
    · exact htext _

/-- Reading written nodes adds these nodes to the reader's state, whatever is open around them. -/
theorem readAll_print (h : Canonical kept preformatted nodes) :
    ∀ {depth : Nat} {s rest : List Char} {b : Builder},
      printAllAt limit preformatted depth nodes = .ok s → b.keepsLayout = kept →
      textRun rest = [] → b.readAll (s ++ rest) = (b.addAll nodes).readAll rest := by
  induction h with
  | nil =>
    intro depth s rest b hs _ _
    cases hs
    rfl
  | @text kept preformatted t others ht hnext h ih =>
    rintro depth s rest b hs rfl hrest
    rw [printAllAt, printAt, ok_bind] at hs
    obtain ⟨after, hafter, hs⟩ := bind_eq_ok.1 hs
    cases hs
    rw [List.append_assoc, readAll_text ht (textRun_print h hnext hafter hrest)]
    exact ih hafter (keepsLayout_add b _) hrest
  | @element kept preformatted tag attrs children others htag hattrs hvoid hc h ihc ih =>
    rintro depth s rest b hs rfl hrest
    obtain ⟨after, hafter, hs⟩ := printAllAt_element hs
    have hothers : (b.add (.element tag attrs children)).readAll (after ++ rest) =
        (b.addAll (.element tag attrs children :: others)).readAll rest :=
      ih hafter (keepsLayout_add b _) hrest
    rcases hs with ⟨hv, rfl⟩ | ⟨hv, inner, hinner, rfl⟩
    · have hsplit : '<' :: (tag ++ (attrs.print ++ ' ' :: '/' :: '>' :: after)) ++ rest =
          '<' :: (tag ++ (attrs.print ++ ' ' :: '/' :: '>' :: (after ++ rest))) := by simp
      rw [hsplit, readAll_void htag hattrs, ← hvoid hv, hothers]
    · let tail := '<' :: '/' :: (tag ++ '>' :: (after ++ rest))
      have hsplit : '<' :: (tag ++ (attrs.print ++
          '>' :: (inner ++ '<' :: '/' :: (tag ++ '>' :: after)))) ++ rest =
          '<' :: (tag ++ (attrs.print ++ '>' :: (inner ++ tail))) := by simp [tail]
      -- the end tag is markup, so the children end there
      have hfilled := ihc hinner (keepsLayout_open b ⟨tag, attrs, []⟩)
        (show textRun tail = [] from rfl)
      have hend := readToken_endTag htag.toLegalName (after ++ rest)
      rw [hsplit, readAll_open htag hattrs hv, hfilled, readAll_of_readToken hend,
        step_endTag_addAll, hothers]

/-! ## Reading -/

theorem checkNodes_ok_of_each {depth : Nat} (h : ∀ n ∈ nodes, checkNode limit depth n = .ok ()) :
    checkNodes limit depth nodes = .ok () := by
  induction nodes with
  | nil => rfl
  | cons n nodes ih =>
    rw [List.forall_mem_cons] at h
    rw [checkNodes, h.1, ok_bind, ih h.2]

/-- Each element has a list of children, which is one level deeper than the element. -/
theorem checkNode_ok (hm : limit.levels? = some m) (n : Node) : ∀ {depth : Nat},
    ((depth + n.height + 1 : Nat) : Int) ≤ m → checkNode limit depth n = .ok () := by
  induction n using Node.induct with
  | text | raw | root => exact fun _ => rfl
  | element tag attrs children ih =>
    intro depth hheight
    rw [height] at hheight
    rw [checkNode, withinLimit_ok hm (by omega), ok_bind]
    refine checkNodes_ok_of_each fun c hc => ih c hc ?_
    have := height_le_heightOf hc
    omega

/-- What canonical nodes are written as denotes these nodes, whatever the limit was. -/
theorem parse_of_printAll (h : Canonical false false nodes) (hs : printAll limit nodes = .ok s) :
    parse s = nodes := by
  have hread := readAll_print h hs (show keepsLayout .empty = false from rfl)
    (show textRun [] = [] from rfl)
  rw [List.append_nil, readAll_nil] at hread
  rw [parse, ← readAll, hread]
  exact finish_addAll nodes

/-- Nodes less deep than the limit pass the check of the reader. -/
theorem read_eq_ok (hm : limit.levels? = some m) (hdepth : (heightOf (parse s) : Int) < m) :
    Html.read limit s = .ok (parse s) := by
  have hcheck : checkNodes limit 0 (parse s) = .ok () := by
    refine checkNodes_ok_of_each fun n hn => checkNode_ok hm n ?_
    have := height_le_heightOf hn
    omega
  rw [Html.read, withinLimit_ok hm (by omega), ok_bind, hcheck]
  rfl

/-- Reading undoes writing: a canonical tree less deep than the limit can be written, and what is
written reads back as the tree, so no other tree is written like it. -/
theorem read_printAll (hm : limit.levels? = some m) (hdepth : (depthOf nodes : Int) < m)
    (h : Canonical false false nodes) :
    ∃ markup, printAll limit nodes = .ok markup ∧ Html.read limit markup = .ok nodes ∧
      ∀ others, Canonical false false others → printAll limit others = .ok markup →
        others = nodes := by
  rw [depthOf_eq] at hdepth
  obtain ⟨markup, hmarkup⟩ := printAll_ok hm (Int.le_of_lt hdepth)
  have hparse := parse_of_printAll h hmarkup
  have hread := read_eq_ok hm (hparse ▸ hdepth)
  rw [hparse] at hread
  refine ⟨markup, hmarkup, hread, fun others hothers hsame => ?_⟩
  rw [← hparse, parse_of_printAll hothers hsame]

/-- Quotes in a value, a list of words, an angle bracket in a text, a void element, and white space
that is kept. -/
theorem read_printAll_paragraph :
    let link : Node := .element "a".toList [("title".toList, .text "\"&'".toList),
      ("class".toList, .list [.text "x".toList, .text "y".toList])] [.text "a < b".toList]
    let nodes : List Node := [.element "p".toList [] [link, .element "br".toList [] []],
      .text ['\n'], .element "pre".toList [] [.text "\n \n".toList]]
    let markup := ("<p><a title=\"&quot;&amp;&#x27;\" class=\"x y\">a &lt; b</a><br /></p>\n" ++
      "<pre>\n \n</pre>").toList
    (depthOf nodes : Int) < 100 ∧ Canonical false false nodes ∧
      printAll .standard nodes = .ok markup ∧ Html.read .standard markup = .ok nodes := by
  intro link nodes markup
  have hattrs : LegalAttributes "a".toList [("title".toList, .text "\"&'".toList),
      ("class".toList, .list [.text "x".toList, .text "y".toList])] := by
    have hwords : ∀ w ∈ ["x".toList, "y".toList], w ≠ [] ∧ ∀ c ∈ w, isSpace c = false := by
      decide
    refine ⟨by decide, ?_, by decide⟩
    rw [List.forall_mem_cons, List.forall_mem_singleton]
    exact ⟨.text (by decide) _, .words (by decide) hwords⟩
  have hnone : ∀ tag, LegalAttributes tag [] := fun _ => ⟨nofun, nofun, List.nodup_nil⟩
  have hlink : Canonical false false [link, .element "br".toList [] []] :=
    .element (by decide) hattrs (by decide)
      (.text (.of_line (by decide) (by decide)) nofun (.nil _ _))
      (.element (by decide) (hnone _) (fun _ => rfl) (.nil _ _) (.nil _ _))
  have hfeed : LegalText false false ['\n'] :=
    ⟨by decide, fun _ _ => .inl rfl, fun _ _ _ hin => absurd hin.length_le (by simp)⟩
  have hpre : LegalText true true "\n \n".toList := ⟨by decide, nofun, nofun⟩
  have hnodes : Canonical false false nodes :=
    .element (by decide) (hnone _) (by decide) hlink
      (.text hfeed nofun (.element (by decide) (hnone _) (by decide)
        (.text hpre nofun (.nil _ _)) (.nil _ _)))
  have hdepth : (depthOf nodes : Int) < 100 := by
    rw [depthOf_eq]
    decide
  have hlevels : Limit.standard.levels? = some 100 := rfl
  have hwritten : printAll .standard nodes = .ok markup := by decide +kernel
  obtain ⟨_, hsame, hread, -⟩ := read_printAll hlevels hdepth hnodes
  rw [hwritten] at hsame
  cases hsame
  exact ⟨hdepth, hnodes, hwritten, hread⟩

end StorageMarkup.Html
