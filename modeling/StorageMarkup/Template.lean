import StorageMarkup.Document

/-
  Storage markup inside page templates: a filter for a value, and a tag that also
  takes the options the page sets.
-/

namespace StorageMarkup.Template

/-- Markup that a template writes as it stands, without escaping it again. -/
structure SafeMarkup where
  text : List Char
  deriving Repr, DecidableEq

/-- A value that is missing counts as empty. -/
def source (value : Option (List Char)) : List Char := value.getD []

/-- The value under the site's options. -/
def filter (reader : Reader) (site : List OptionLayer) (value : Option (List Char)) :
    Except Failure SafeMarkup :=
  (render reader (.layered site) (source value)).map SafeMarkup.mk

/-- The value under the site's options and those of the page. -/
def tag (reader : Reader) (site : List OptionLayer) (page : Option OptionLayer)
    (value : Option (List Char)) : Except Failure SafeMarkup :=
  filter reader (site ++ page.toList) value

end StorageMarkup.Template
