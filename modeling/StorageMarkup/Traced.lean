import StorageMarkup.Failure

/-
  Computations that report what they do as they go. The reports made before a
  failure are kept.
-/

namespace StorageMarkup

/-- What pairing regions reports: a region folded, or an open token that nothing closes. -/
inductive Event where
  | folded (name : List Char)
  | unclosed (name : List Char)
  deriving Repr, DecidableEq

def Event.message : Event → List Char
  | .folded name => "Collapsed directive region '".toList ++ name ++ "'".toList
  | .unclosed name =>
    "No closing directive for '".toList ++ name ++ "', leaving the open token as text".toList

/-- A result with the events that led to it, the earliest first. -/
structure Traced (α : Type) where
  events : List Event
  result : Except Failure α

namespace Traced

def pure {α : Type} (a : α) : Traced α := ⟨[], .ok a⟩

def bind {α β : Type} (x : Traced α) (f : α → Traced β) : Traced β :=
  match x.result with
  | .ok a =>
    let y := f a
    ⟨x.events ++ y.events, y.result⟩
  | .error e => ⟨x.events, .error e⟩

instance : Monad Traced where
  pure := Traced.pure
  bind := Traced.bind

def emit (e : Event) : Traced Unit := ⟨[e], .ok ()⟩

/-- A computation that reports nothing. -/
def lift {α : Type} (result : Except Failure α) : Traced α := ⟨[], result⟩

end Traced

end StorageMarkup
