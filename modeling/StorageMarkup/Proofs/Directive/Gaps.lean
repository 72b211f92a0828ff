import StorageMarkup.Proofs.Vault.Ordered

/-!
# The text between directives

Directives are set aside before a text is escaped and its blank runs are folded, and
put back afterwards. What is written in the end is each directive as it stood, and
between them each stretch of text escaped and folded by itself.

Results:
1. `written_gaps`, `find_eq_located`: a text is its directives and the gaps between them.
2. `shield_eq_numbered`: setting aside leaves the gaps alone.
3. `PassesPlaceholders.written_numbered`: writing goes gap by gap.
4. `expand_printed_gaps`: exactly the text between directives is escaped.
-/

namespace StorageMarkup

open Vault

variable {s : List Char}

/-! ## Gaps -/

/-- A text with units in it: what stands before the first, then each unit with what follows it up
to the next. -/
structure Gapped where
  first : List Char
  rest : List (List Char × List Char)
  deriving Repr, DecidableEq

namespace Gapped

def char (c : Char) (g : Gapped) : Gapped := ⟨c :: g.first, g.rest⟩

def unit (u : List Char) (g : Gapped) : Gapped := ⟨[], (u, g.first) :: g.rest⟩

/-- The units as they are, each gap as `write` writes it. -/
def written (write : List Char → List Char) (g : Gapped) : List Char :=
  write g.first ++ g.rest.flatMap fun (u, gap) => u ++ write gap

/-- The units with the positions at which they start, the first of them at `start`. -/
def locatedFrom (start : Nat) : List (List Char × List Char) → List (Nat × List Char)
  | [] => []
  | (u, gap) :: rest => (start, u) :: locatedFrom (start + u.length + gap.length) rest

/-- The units and where they start, left to right. -/
def located (g : Gapped) : List (Nat × List Char) := locatedFrom g.first.length g.rest

/-- Placeholders in place of the units, numbered from `n` on. -/
def numberedFrom (n : Nat) : List (List Char × List Char) → List (List Char × List Char)
  | [] => []
  | (_, gap) :: rest => (placeholder n, gap) :: numberedFrom (n + 1) rest

def numbered (n : Nat) (g : Gapped) : Gapped := ⟨g.first, numberedFrom n g.rest⟩

def units (g : Gapped) : List (List Char) := g.rest.map Prod.fst

variable {write : List Char → List Char}

theorem written_cons (first u gap : List Char) (rest : List (List Char × List Char)) :
    (⟨first, (u, gap) :: rest⟩ : Gapped).written write =
      write first ++ (u ++ (⟨gap, rest⟩ : Gapped).written write) := by
  rw [written, List.flatMap_cons, List.append_assoc, written]

theorem written_numbered_cons (n : Nat) (first u gap : List Char)
    (rest : List (List Char × List Char)) :
    ((⟨first, (u, gap) :: rest⟩ : Gapped).numbered n).written write =
      write first ++ (placeholder n ++ ((⟨gap, rest⟩ : Gapped).numbered (n + 1)).written write) :=
  written_cons first (placeholder n) gap _

theorem written_unit (hwrite : write [] = []) (u : List Char) (g : Gapped) :
    (g.unit u).written write = u ++ g.written write := by
  rw [unit, written_cons, hwrite, List.nil_append]

theorem written_char (c : Char) (g : Gapped) :
    (g.char c).written id = c :: g.written id := rfl

end Gapped

namespace Directive

/-- The gaps of a text that is cut into directives and characters. -/
def gapsOf : List (Piece (List Char)) → Gapped
  | [] => ⟨[], []⟩
  | .char c :: rest => (gapsOf rest).char c
  | .hit d :: rest => (gapsOf rest).unit d

/-- A text as its directives and the gaps between them. -/
def gaps (s : List Char) : Gapped := gapsOf (split s)

theorem gaps_char {c : Char} (h : read (c :: s) = none) : gaps (c :: s) = (gaps s).char c := by
  rw [gaps, split, scan_char h, gapsOf, gaps, split]

theorem gaps_token {d : List Char} (h : IsToken d) (s : List Char) :
    gaps (d ++ s) = (gaps s).unit d := by
  rw [gaps, split_token h, gapsOf, gaps]

/-- Directives and gaps spell the text. -/
theorem written_gaps (s : List Char) : (gaps s).written id = s := by
  induction s using read_exact.induct with
  | nil => rfl
  | char c s hr ih => rw [gaps_char hr, Gapped.written_char, ih]
  | hit d s hd _ ih => rw [gaps_token hd, Gapped.written_unit rfl, ih]

theorem hitsFrom_eq_locatedFrom (ps : List (Piece (List Char))) (start : Nat) :
    hitsFrom List.length start ps =
      Gapped.locatedFrom (start + (gapsOf ps).first.length) (gapsOf ps).rest := by
  induction ps generalizing start with
  | nil => rfl
  | cons p ps ih =>
    cases p with
    | char c =>
      rw [hitsFrom, ih, gapsOf, Gapped.char, List.length_cons, Nat.add_assoc, Nat.add_comm 1]
    | hit d =>
      rw [hitsFrom, ih, gapsOf, Gapped.unit, Gapped.locatedFrom, List.length_nil, Nat.add_zero]

/-- The directives are those that are found, where they are found. -/
theorem find_eq_located (s : List Char) : find s = (gaps s).located := by
  rw [find, hitsFrom_eq_locatedFrom, Nat.zero_add, Gapped.located, gaps]

theorem subset_of_mem_gaps {d gap : List Char} (h : (d, gap) ∈ (gaps s).rest) :
    d ⊆ s ∧ gap ⊆ s := by
  have hs := written_gaps s
  obtain ⟨a, b, hr⟩ := List.append_of_mem h
  rw [Gapped.written, hr, List.flatMap_append, List.flatMap_cons] at hs
  rw [← hs]
  constructor <;>
  · intro c hc
    simp [hc]

theorem subset_first_gap (s : List Char) : (gaps s).first ⊆ s := by
  intro c hc
  rw [← written_gaps s]
  exact List.mem_append_left _ hc

end Directive

/-! ## Setting aside -/

namespace Vault

/-- The directives of a text are set aside in order, and numbered placeholders stand between the
gaps. -/
theorem shield_eq_numbered (v : Vault) (s : List Char) :
    v.shield s = (⟨v.originals ++ (Directive.gaps s).units⟩,
      ((Directive.gaps s).numbered v.size).written id) := by
  induction s using Directive.read_exact.induct generalizing v with
  | nil =>
    rw [shield_nil]
    exact congrArg (fun originals => ((⟨originals⟩ : Vault), [])) (List.append_nil _).symm
  | char c s hr ih =>
    rw [shield_char hr, ih, Directive.gaps_char hr]
    rfl
  | hit d s hd _ ih =>
    rw [shield_token hd, ih, size_deposit, Directive.gaps_token hd]
    refine Prod.ext (congrArg Vault.mk (List.append_assoc _ [d] _)) ?_
    exact (Gapped.written_unit (g := (Directive.gaps s).numbered (v.size + 1)) rfl _).symm

end Vault

/-! ## Writing -/

theorem escapeText_placeholder (n : Nat) : escapeText (placeholder n) = placeholder n :=
  Woven.flatMap_eq_self fun _ hc => Woven.escapeTextChar_eq_self (inPlaceholder_of_mem hc)

theorem escapeQuoted_placeholder (n : Nat) : escapeQuoted (placeholder n) = placeholder n :=
  Woven.flatMap_eq_self fun _ hc => Woven.escapeQuotedChar_eq_self (inPlaceholder_of_mem hc)

theorem foldBlankRuns_placeholder (n : Nat) (s t : List Char) :
    foldBlankRuns (s ++ (placeholder n ++ t)) =
      foldBlankRuns s ++ (placeholder n ++ foldBlankRuns t) := by
  obtain ⟨w, hw⟩ := placeholder_eq_cons n
  have hn : '\n' ∉ placeholder n := not_mem_placeholder (by decide)
  rw [← foldBlankRuns_append_of_not_mem hn, hw]
  exact foldBlankRuns_append_cons (by decide) s (w ++ t)

/-- What is written around a placeholder is written apart from it. -/
def PassesPlaceholders (write : List Char → List Char) : Prop :=
  ∀ n s t, write (s ++ (placeholder n ++ t)) = write s ++ (placeholder n ++ write t)

theorem passes_escapeText : PassesPlaceholders escapeText := by
  intro n s t
  rw [escapeText, List.flatMap_append, List.flatMap_append]
  exact congrArg (fun u => _ ++ (u ++ _)) (escapeText_placeholder n)

theorem passes_escapeQuoted : PassesPlaceholders escapeQuoted := by
  intro n s t
  rw [escapeQuoted, List.flatMap_append, List.flatMap_append]
  exact congrArg (fun u => _ ++ (u ++ _)) (escapeQuoted_placeholder n)

theorem passes_printText (pre : Bool) : PassesPlaceholders (Node.printText pre) := by
  intro n s t
  cases pre with
  | true => exact passes_escapeText n s t
  | false =>
    show foldBlankRuns (escapeText _) = _
    rw [passes_escapeText, foldBlankRuns_placeholder]
    rfl

theorem PassesPlaceholders.written_numbered {write : List Char → List Char}
    (h : PassesPlaceholders write) (n : Nat) (g : Gapped) :
    write ((g.numbered n).written id) = (g.numbered n).written write := by
  obtain ⟨first, rest⟩ := g
  induction rest generalizing first n with
  | nil =>
    show write (first ++ []) = write first ++ []
    rw [List.append_nil, List.append_nil]
  | cons unit rest ih =>
    obtain ⟨u, gap⟩ := unit
    rw [Gapped.written_numbered_cons, id, h, ih, Gapped.written_numbered_cons]

/-! ## Putting back -/

theorem expandOnce_written_numbered {write : List Char → List Char} (before : List (List Char))
    (g : Gapped) (hfirst : startMark ∉ write g.first)
    (hrest : ∀ u ∈ g.rest, startMark ∉ write u.2) :
    (⟨before ++ g.units⟩ : Vault).expandOnce ((g.numbered before.length).written write) =
      g.written write := by
  obtain ⟨first, rest⟩ := g
  induction rest generalizing first before with
  | nil =>
    show Vault.expandOnce _ (write first ++ []) = write first ++ []
    rw [List.append_nil, expandOnce_eq_self _ hfirst]
  | cons unit rest ih =>
    obtain ⟨u, gap⟩ := unit
    rw [List.forall_mem_cons] at hrest
    have ho : (before ++ (⟨first, (u, gap) :: rest⟩ : Gapped).units)[before.length]? = some u := by
      rw [List.getElem?_append_right (Nat.le_refl _), Nat.sub_self]
      rfl
    have hmore := ih (before ++ [u]) gap hrest.1 hrest.2
    rw [List.length_append, List.append_assoc] at hmore
    rw [Gapped.written_numbered_cons, expandOnce_free_append _ hfirst, expandOnce_placeholder _ ho,
      Gapped.written_cons]
    exact congrArg (fun t => write first ++ (u ++ t)) hmore

theorem startMark_not_mem_written {write : List Char → List Char}
    (hwrite : ∀ s, startMark ∉ s → startMark ∉ write s) (hs : startMark ∉ s) :
    startMark ∉ (Directive.gaps s).written write := by
  rw [Gapped.written, List.mem_append, List.mem_flatMap]
  rintro (h | ⟨⟨d, gap⟩, hm, h⟩)
  · exact hwrite _ (fun h => hs (Directive.subset_first_gap s h)) h
  · obtain ⟨hd, hgap⟩ := Directive.subset_of_mem_gaps hm
    rcases List.mem_append.1 h with h | h
    · exact hs (hd h)
    · exact hwrite _ (fun h => hs (hgap h)) h

/-- The directives come back between the gaps as they are written. -/
theorem expandOnce_write_shield {write : List Char → List Char} (hpass : PassesPlaceholders write)
    (hwrite : ∀ s, startMark ∉ s → startMark ∉ write s) (hs : startMark ∉ s) (v : Vault) :
    (v.shield s).1.expandOnce (write (v.shield s).2) = (Directive.gaps s).written write := by
  rw [shield_eq_numbered]
  show Vault.expandOnce _ (write _) = _
  rw [hpass.written_numbered]
  refine expandOnce_written_numbered _ _ (hwrite _ fun h => hs (Directive.subset_first_gap s h)) ?_
  rintro ⟨d, gap⟩ hm
  exact hwrite _ fun h => hs ((Directive.subset_of_mem_gaps hm).2 h)

theorem unmarked_of_written {write : List Char → List Char}
    (hwrite : ∀ (known : Nat → Prop) s, Intact known s → Intact known (write s))
    (hs : startMark ∉ s) : startMark ∉ write s :=
  (hwrite (fun _ => False) s (.of_free hs)).free

/-- Exactly the text between directives is escaped: character data gap by gap, with blank runs
folded outside preformatted elements, and attribute values with quotes escaped too. -/
theorem expand_printed_gaps (v : Vault) (hs : startMark ∉ s) :
    let g := Directive.gaps s
    let w := (v.shield s).1
    let t := (v.shield s).2
    (g.written id = s ∧ Directive.find s = g.located) ∧
      (∀ limit preformatted depth, ∃ written,
        (Node.text t).printAt limit preformatted depth = .ok written ∧
        w.expand written = g.written fun gap =>
          if preformatted then escapeText gap else (runs (escapeText gap)).flatMap foldRun) ∧
      ∀ name, startMark ∉ name → w.expand (Attributes.print [(name, .text t)]) =
        ' ' :: name ++ "=\"".toList ++ g.written escapeQuoted ++ ['"'] := by
  intro g w t
  refine ⟨⟨Directive.written_gaps s, Directive.find_eq_located s⟩, fun limit pre depth => ?_,
    fun name hname => ?_⟩
  · have hwrite : ∀ u, startMark ∉ u → startMark ∉ Node.printText pre u := fun u =>
      unmarked_of_written fun _ _ h => h.printText pre
    have honce := expandOnce_write_shield (passes_printText pre) hwrite hs v
    refine ⟨Node.printText pre t, by rw [Node.printAt], ?_⟩
    rw [expand_eq_expandOnce (honce ▸ startMark_not_mem_written hwrite hs), honce]
    congr 1
    funext gap
    rw [Node.printText, foldBlankRuns_eq]
  · have hwrite : ∀ u, startMark ∉ u → startMark ∉ escapeQuoted u := fun u =>
      unmarked_of_written fun _ _ h => h.escapeQuoted
    have honce := expandOnce_write_shield passes_escapeQuoted hwrite hs v
    have hname' : startMark ∉ ' ' :: name ++ "=\"".toList := by
      rw [List.mem_append, List.mem_cons]
      rintro ((h | h) | h)
      · exact absurd h (by decide)
      · exact hname h
      · exact absurd h (by decide)
    have hprint : w.expandOnce (Attributes.print [(name, .text t)]) =
        ' ' :: name ++ "=\"".toList ++ g.written escapeQuoted ++ ['"'] := by
      rw [Attributes.print, List.flatMap_singleton, attributeText,
        expandOnce_append w (fun _ => not_mem_placeholder_tail (by decide)),
        expandOnce_free_append w hname', honce, expandOnce_eq_self w (by decide)]
    rw [expand_eq_expandOnce, hprint]
    rw [hprint, List.mem_append, List.mem_append]
    rintro ((h | h) | h)
    · exact hname' h
    · exact startMark_not_mem_written hwrite hs h
    · exact absurd h (by decide)

/-- Quotes and ampersands of a directive stay, those around it do not, and blank runs are folded on
both sides of it but not inside. -/
theorem expand_printed_gaps_quoted :
    let s := "<\n \n\x7b\x7ba b=\"&\"\n\n\x7d\x7d\x7b \n\t\n\x7d\x7d\"".toList
    let d := "\x7b\x7ba b=\"&\"\n\n\x7d\x7d".toList
    let w := ((⟨["x".toList]⟩ : Vault).shield s).1
    let t := ((⟨["x".toList]⟩ : Vault).shield s).2
    startMark ∉ s ∧
      (∀ limit depth, ∃ written, (Node.text t).printAt limit false depth = .ok written ∧
        w.expand written = "&lt;\n".toList ++ d ++ "\x7b \n\x7d\x7d\"".toList) ∧
      w.expand (Attributes.print [("k".toList, .text t)]) =
        " k=\"&lt;\n \n".toList ++ d ++ "\x7b \n\t\n\x7d\x7d&quot;\"".toList := by
  intro s d w t
  have hs : startMark ∉ s := by decide
  obtain ⟨-, htext, hattribute⟩ := expand_printed_gaps ⟨["x".toList]⟩ hs
  refine ⟨hs, fun limit depth => ?_, (hattribute "k".toList (by decide)).trans (by decide +kernel)⟩
  obtain ⟨written, hprint, hexpand⟩ := htext limit false depth
  exact ⟨written, hprint, hexpand.trans (by decide +kernel)⟩

end StorageMarkup
