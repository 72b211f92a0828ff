import StorageMarkup.Node.Printer

/-
  The options of a conversion, and the layers that set them: what a layer names
  replaces what was there, what it does not name stays.
-/

namespace StorageMarkup

/-- The options in force, each as the last layer set it; one that makes no sense is refused when
    it is needed. `extra` holds what layers named beside them; nothing reads it. -/
structure Options where
  footnotesHeading : Value
  codeLanguage : Value
  codeLineNumbers : Value
  expandTitle : Value
  maxDepth : Value
  /-- The block directives whose bodies are not read as markdown. -/
  verbatim : Value
  extra : List (List Char × Value)
  deriving Repr, BEq

/-- The options that one layer sets. -/
structure OptionLayer where
  footnotesHeading : Option Value
  codeLanguage : Option Value
  codeLineNumbers : Option Value
  expandTitle : Option Value
  maxDepth : Option Value
  verbatim : Option Value
  extra : List (List Char × Value)
  deriving Repr, BEq

namespace Options

def standard : Options where
  footnotesHeading := .text "Footnotes".toList
  codeLanguage := .text "text".toList
  codeLineNumbers := .flag true
  expandTitle := .text "Details".toList
  maxDepth := Limit.standard.toValue
  verbatim := .list [.text "confluence-code".toList]
  extra := []

def override (base : Options) (layer : OptionLayer) : Options where
  footnotesHeading := layer.footnotesHeading.getD base.footnotesHeading
  codeLanguage := layer.codeLanguage.getD base.codeLanguage
  codeLineNumbers := layer.codeLineNumbers.getD base.codeLineNumbers
  expandTitle := layer.expandTitle.getD base.expandTitle
  maxDepth := layer.maxDepth.getD base.maxDepth
  verbatim := layer.verbatim.getD base.verbatim
  extra := layer.extra.foldl (fun kept (key, value) => Attributes.set kept key value) base.extra

/-- The standard options under the layers given, later layers above earlier ones. -/
def layered (layers : List OptionLayer) : Options := layers.foldl override standard

/-- The limit on nesting. -/
def limit (o : Options) : Limit := .ofValue o.maxDepth

end Options

/-- The identifiers that the markdown reader makes up start with this. -/
def idStem : List Char := "user-content-".toList

/-- What the markdown reader is asked for beside the text. -/
structure ReaderRequest where
  source : List Char
  target : List Char
  arguments : List (List Char)
  filters : List (List Char)

/-- Markdown with footnotes is read, line breaks of the source stay, and identifiers get their stem. -/
def ReaderRequest.standard : ReaderRequest where
  source := "gfm+footnotes".toList
  target := "html5".toList
  arguments := ["--wrap=preserve".toList, "--id-prefix=".toList ++ idStem]
  filters := []

end StorageMarkup
