import StorageMarkup.Proofs.Document.Composition
import StorageMarkup.Proofs.Text.NewlineRuns

/-!
# Blank lines of documents

What is converted holds no long runs of line feeds. Since parts may be normalised before
they are put together, the finished markup of a part is all that is needed of it:
documents side by side, in a region and in a folding section come from what their parts
are converted to. `written_append`, `convert_region` and `convert_section` ask for more,
the markup of the parts with its blank lines not yet normalised.

Results:
1. `not_infix_of_convertWith`, `not_infix_of_render`: no three line feeds follow each other.
2. `convert_append`: documents side by side.
3. `convert_region_of_convert`, `convert_section_of_convert`: documents in a region and a section.
-/

namespace StorageMarkup

open Vault

variable {options : Options} {v : Vault} {nodes a b : List Node} {out inner : List Char}

/-! ## What is converted -/

theorem not_infix_of_convertWith (h : (convertWith options v nodes).2.result = .ok out) :
    ¬ "\n\n\n".toList <:+: out := by
  obtain ⟨_, _, _, text, -, -, -, -, rfl⟩ := convertWith_eq_ok h
  exact not_infix_capNewlineRuns _

theorem not_infix_of_render {reader : Reader} {text : List Char}
    (h : render reader options text = .ok out) : ¬ "\n\n\n".toList <:+: out := by
  obtain ⟨v, _, nodes, -, -, hout⟩ := render_eq_ok.1 h
  exact not_infix_of_convertWith hout

/-! ## Parts -/

/-- Documents side by side come from what each of them is converted to: only the run of line feeds
in which the two meet is capped once more. -/
theorem convert_append (ho : options.UnmarkedBody) (ha : Composable a) (hb : Composable b)
    (hopen : ∀ name, LeavesOpen options a name → NeverCloses options b name) {x y z : List Char}
    (hx : (convert options a).result = .ok x) (hy : (convert options b).result = .ok y)
    (hz : (convert options (a ++ b)).result = .ok z) : z = capNewlineRuns (x ++ y) := by
  obtain ⟨-, u, hu, rfl⟩ := convert_eq_ok.1 hx
  obtain ⟨-, u', hu', rfl⟩ := convert_eq_ok.1 hy
  obtain ⟨-, both, hboth, rfl⟩ := convert_eq_ok.1 hz
  rw [written_append ho ha hb hopen hu hu' hboth, capNewlineRuns_append_left,
    capNewlineRuns_append_right]

/-- The body of a region may be normalised beforehand. -/
theorem capNewlineRuns_region (head body name : List Char) :
    capNewlineRuns (Directive.region head (capNewlineRuns body) name) =
      capNewlineRuns (Directive.region head body name) := by
  rw [Directive.region, Directive.region, List.append_assoc, List.append_assoc]
  refine capNewlineRuns_append_congr head (capNewlineRuns_cons_congr '\n' ?_)
  exact capNewlineRuns_append_left body _

theorem convert_region_of_convert (ho : options.UnmarkedBody) (h : Composable nodes)
    {head name : List Char} (hname : Directive.openName? head = some name)
    (hstrip : strip head = head) (hfree : startMark ∉ head)
    (hnever : NeverCloses options nodes name)
    (hinner : (convert options nodes).result = .ok inner)
    (hout : (convert options
      (paragraph head :: (nodes ++ [paragraph (Directive.closing name)]))).result = .ok out) :
    out = capNewlineRuns (Directive.region head (strip inner) name) := by
  obtain ⟨-, u, hu, rfl⟩ := convert_eq_ok.1 hinner
  rw [convert_region ho h hname hstrip hfree hnever hu hout, strip_capNewlineRuns,
    capNewlineRuns_region]

theorem convert_section_of_convert (ho : options.UnmarkedBody) (h : Composable nodes)
    {title : List Char} (htitle : isBlank title = false)
    (hbraces : ∀ c ∈ title, Directive.isBrace c = false) (hfree : startMark ∉ title)
    (hinner : (convert options nodes).result = .ok inner)
    (hout : (convert options [foldingSection title nodes]).result = .ok out) :
    out = capNewlineRuns (Directive.expand (.text (strip title)) (strip inner)) := by
  obtain ⟨-, u, hu, rfl⟩ := convert_eq_ok.1 hinner
  rw [convert_section ho h htitle hbraces hfree hu hout, strip_capNewlineRuns]
  exact (capNewlineRuns_region _ _ _).symm

end StorageMarkup
