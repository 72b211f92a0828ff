import StorageMarkup.Traced

/-!
# Outcomes of computations that may fail

A chain of steps succeeds just in case each step does. What a traced computation
reports plays no part in its result.

Results:
1. `bind_eq_ok`, `Traced.bind_eq_ok`, `bind_eq_error`, `Traced.bind_eq_error`: a chain succeeds
   step by step and fails at one step.
2. `Traced.result_bind`, `Traced.events_bind`: result and reports of a chain.
3. `Agree.bind`, `Agree.map₂` and the same for `Traced.Agree`: two chains that agree step
   by step.
-/

namespace StorageMarkup

variable {α β : Type}

theorem bind_eq_ok {ε : Type} {x : Except ε α} {f : α → Except ε β} {b : β} :
    x >>= f = .ok b ↔ ∃ a, x = .ok a ∧ f a = .ok b := by
  cases x with
  | error e => exact ⟨fun h => (nomatch h), fun ⟨_, h, _⟩ => (nomatch h)⟩
  | ok a => exact ⟨fun h => ⟨a, rfl, h⟩, fun ⟨_, h, hf⟩ => by cases h; exact hf⟩

/-- A chain fails where one of its steps does. -/
theorem bind_eq_error {x : Except Failure α} {f : α → Except Failure β} {e : Failure} :
    x >>= f = .error e ↔ x = .error e ∨ ∃ a, x = .ok a ∧ f a = .error e := by
  cases x with
  | error e' =>
    constructor
    · exact fun h => .inl (by cases h; rfl)
    · rintro (h | ⟨_, h, _⟩) <;> cases h
      rfl
  | ok a =>
    constructor
    · exact fun h => .inr ⟨a, rfl, h⟩
    · rintro (h | ⟨_, h, hf⟩) <;> cases h
      exact hf

theorem ok_bind (a : α) (f : α → Except Failure β) : Except.ok a >>= f = f a := rfl

theorem error_bind (e : Failure) (f : α → Except Failure β) :
    (Except.error e : Except Failure α) >>= f = .error e := rfl

theorem pure_eq_ok {a b : α} : (pure a : Except Failure α) = .ok b ↔ a = b :=
  ⟨fun h => by cases h; rfl, fun h => h ▸ rfl⟩

instance [DecidableEq α] : DecidableEq (Except Failure α)
  | .ok a, .ok b => decidable_of_iff (a = b) ⟨fun h => h ▸ rfl, fun h => by cases h; rfl⟩
  | .error a, .error b => decidable_of_iff (a = b) ⟨fun h => h ▸ rfl, fun h => by cases h; rfl⟩
  | .ok _, .error _ => isFalse fun h => nomatch h
  | .error _, .ok _ => isFalse fun h => nomatch h

namespace Traced

theorem id_map (x : Traced α) : id <$> x = x := by
  obtain ⟨events, r⟩ := x
  cases r with
  | error e => rfl
  | ok a => exact congrArg (Traced.mk · (.ok a)) (List.append_nil events)

theorem bind_assoc {γ : Type} (x : Traced α) (f : α → Traced β) (g : β → Traced γ) :
    x >>= f >>= g = x >>= fun a => f a >>= g := by
  obtain ⟨events, r⟩ := x
  cases r with
  | error e => rfl
  | ok a =>
    show Traced.bind (Traced.bind ⟨events, .ok a⟩ f) g =
      Traced.bind ⟨events, .ok a⟩ fun a => Traced.bind (f a) g
    simp only [Traced.bind]
    cases (f a).result with
    | error e => rfl
    | ok b => exact congrArg (Traced.mk · (g b).result) (List.append_assoc _ _ _)

instance : LawfulMonad Traced := LawfulMonad.mk' Traced id_map (fun _ _ => rfl) bind_assoc

theorem result_emit (e : Event) : (emit e).result = .ok () := rfl

theorem result_bind (x : Traced α) (f : α → Traced β) :
    (x >>= f).result = x.result >>= fun a => (f a).result := by
  obtain ⟨events, r⟩ := x
  cases r <;> rfl

/-- A chain succeeds step by step, whatever is reported. -/
theorem bind_eq_ok {x : Traced α} {f : α → Traced β} {b : β} :
    (x >>= f).result = .ok b ↔ ∃ a, x.result = .ok a ∧ (f a).result = .ok b := by
  rw [result_bind, StorageMarkup.bind_eq_ok]

theorem bind_eq_error {x : Traced α} {f : α → Traced β} {e : Failure} :
    (x >>= f).result = .error e ↔
      x.result = .error e ∨ ∃ a, x.result = .ok a ∧ (f a).result = .error e := by
  rw [result_bind, StorageMarkup.bind_eq_error]

theorem lift_ok_bind (a : α) (f : α → Traced β) : lift (.ok a) >>= f = f a := rfl

/-- Reports of a step that succeeds come before those of the next. -/
theorem events_bind {x : Traced α} {a : α} (h : x.result = .ok a) (f : α → Traced β) :
    (x >>= f).events = x.events ++ (f a).events := by
  obtain ⟨events, r⟩ := x
  cases h
  rfl

/-- A step that fails has the last word. -/
theorem bind_of_error {x : Traced α} {e : Failure} (h : x.result = .error e) (f : α → Traced β) :
    (x >>= f).result = .error e := by
  rw [result_bind, h, error_bind]

end Traced

/-! ## Two computations -/

variable {γ δ : Type} {R : α → β → Prop} {S : γ → δ → Prop}

theorem rel_cases {x : Option α} {y : Option β} (h : Option.Rel R x y) :
    (x = none ∧ y = none) ∨ ∃ a b, x = some a ∧ y = some b ∧ R a b := by
  cases h with
  | none => exact .inl ⟨rfl, rfl⟩
  | some h => exact .inr ⟨_, _, rfl, rfl, h⟩

theorem rel_bind {x : Option α} {y : Option β} {f : α → Option γ} {g : β → Option δ}
    (h : Option.Rel R x y) (hfg : ∀ a b, R a b → Option.Rel S (f a) (g b)) :
    Option.Rel S (x.bind f) (y.bind g) := by
  cases h with
  | none => exact .none
  | some h => exact hfg _ _ h

theorem rel_map {x : Option α} {y : Option β} {f : α → γ} {g : β → δ} (h : Option.Rel R x y)
    (hfg : ∀ a b, R a b → S (f a) (g b)) : Option.Rel S (x.map f) (y.map g) := by
  cases h with
  | none => exact .none
  | some h => exact .some (hfg _ _ h)

/-- Both succeed with related values, or both fail in the same way. -/
inductive Agree (R : α → β → Prop) : Except Failure α → Except Failure β → Prop
  | ok {a : α} {b : β} (h : R a b) : Agree R (.ok a) (.ok b)
  | error (e : Failure) : Agree R (.error e) (.error e)

namespace Agree

theorem refl (x : Except Failure α) : Agree (· = ·) x x := by
  cases x with
  | ok a => exact .ok rfl
  | error e => exact .error e

theorem eq {x y : Except Failure α} (h : Agree (· = ·) x y) : x = y := by
  cases h with
  | ok h => rw [h]
  | error e => rfl

/-- Where one succeeds so does the other. -/
theorem of_ok {x : Except Failure α} {y : Except Failure β} (h : Agree R x y) {a : α}
    (hx : x = .ok a) : ∃ b, y = .ok b ∧ R a b := by
  cases h with
  | ok h =>
    cases hx
    exact ⟨_, rfl, h⟩
  | error => cases hx

theorem bind {x : Except Failure α} {y : Except Failure β} {f : α → Except Failure γ}
    {g : β → Except Failure δ} (h : Agree R x y) (hfg : ∀ a b, R a b → Agree S (f a) (g b)) :
    Agree S (x >>= f) (y >>= g) := by
  cases h with
  | ok h => exact hfg _ _ h
  | error e => exact .error e

/-- Two steps whose results are put together. -/
theorem map₂ {ε ζ : Type} {T : ε → ζ → Prop} {x : Except Failure α} {y : Except Failure β}
    {x' : Except Failure γ} {y' : Except Failure δ} {f : α → γ → ε} {g : β → δ → ζ}
    (h : Agree R x y) (h' : Agree S x' y') (hfg : ∀ a b c d, R a b → S c d → T (f a c) (g b d)) :
    Agree T (x >>= fun a => x' >>= fun c => pure (f a c))
      (y >>= fun b => y' >>= fun d => pure (g b d)) :=
  h.bind fun a b hab => h'.bind fun c d hcd => .ok (hfg a b c d hab hcd)

end Agree

/-- The same reports, and results that agree. -/
structure Traced.Agree (R : α → β → Prop) (x : Traced α) (y : Traced β) : Prop where
  events : x.events = y.events
  result : StorageMarkup.Agree R x.result y.result

namespace Traced.Agree

theorem pure {a : α} {b : β} (h : R a b) : Agree R (Pure.pure a : Traced α) (Pure.pure b) :=
  ⟨rfl, .ok h⟩

theorem lift {x : Except Failure α} {y : Except Failure β} (h : StorageMarkup.Agree R x y) :
    Agree R (Traced.lift x) (Traced.lift y) :=
  ⟨rfl, h⟩

theorem refl (x : Traced α) : Agree (· = ·) x x := ⟨rfl, .refl _⟩

theorem eq {x y : Traced α} (h : Agree (· = ·) x y) : x = y := by
  obtain ⟨events, result⟩ := x
  obtain ⟨events', result'⟩ := y
  obtain ⟨rfl, hr⟩ := h
  rw [show result = result' from hr.eq]

theorem bind {x : Traced α} {y : Traced β} {f : α → Traced γ} {g : β → Traced δ}
    (h : Agree R x y) (hfg : ∀ a b, R a b → Agree S (f a) (g b)) : Agree S (x >>= f) (y >>= g) := by
  obtain ⟨events, result⟩ := x
  obtain ⟨events', result'⟩ := y
  obtain ⟨rfl, hr⟩ := h
  cases hr with
  | error e => exact ⟨rfl, .error e⟩
  | ok hab =>
    obtain ⟨hevents, hresult⟩ := hfg _ _ hab
    exact ⟨congrArg (events ++ ·) hevents, hresult⟩

/-- Two steps whose results are put together. -/
theorem map₂ {ε ζ : Type} {T : ε → ζ → Prop} {x : Traced α} {y : Traced β} {x' : Traced γ}
    {y' : Traced δ} {f : α → γ → ε} {g : β → δ → ζ} (h : Agree R x y) (h' : Agree S x' y')
    (hfg : ∀ a b c d, R a b → S c d → T (f a c) (g b d)) :
    Agree T (x >>= fun a => x' >>= fun c => Pure.pure (f a c))
      (y >>= fun b => y' >>= fun d => Pure.pure (g b d)) :=
  h.bind fun a b hab => h'.bind fun c d hcd => .pure (hfg a b c d hab hcd)

end Traced.Agree

end StorageMarkup
