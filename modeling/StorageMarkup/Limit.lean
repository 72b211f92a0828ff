import StorageMarkup.Value

/-
  The limit on nesting, which a site or a page may set to anything.
-/

namespace StorageMarkup

/-- How deep elements and regions may nest. A truth value counts as 0 or 1 and keeps its name;
    `unset` is a missing value, `unusable` any other that is no number. -/
inductive Limit where
  | levels (n : Int)
  | flag (on : Bool)
  | unset
  | unusable
  deriving Repr, DecidableEq

namespace Limit

/-- The nesting allowed where no limit is set. -/
def standard : Limit := .levels 100

def ofValue : Value → Limit
  | .number n => .levels n
  | .flag on => .flag on
  | .absent => .unset
  | _ => .unusable

/-- The number of levels, if the limit is one. -/
def levels? : Limit → Option Int
  | .levels n => some n
  | .flag on => some (if on then 1 else 0)
  | _ => none

/-- Markup is written with the standard limit where none is set. -/
def orStandard : Limit → Limit
  | .unset => standard
  | limit => limit

def toValue : Limit → Value
  | .levels n => .number n
  | .flag on => .flag on
  | _ => .absent

end Limit

end StorageMarkup
