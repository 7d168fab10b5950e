import Mathlib

/-! # Computations that return an error code or panic

A call that threads a state, may return `Err(errno)` and may panic is a
function to `Option (τ × Except ε α)`: `none` is the panic, and an error keeps
the state reached so far.  `andThen` is Rust's `?`: it runs the rest on `Ok`
and passes an `Err` through with its state.
-/

namespace Fallible

variable {τ ε α β : Type _}

/-- Run `f` on the value of `x`, or pass its error or panic on. -/
def andThen (x : Option (τ × Except ε α)) (f : τ → α → Option (τ × Except ε β)) :
    Option (τ × Except ε β) :=
  x.bind fun (t, r) =>
    match r with
    | .ok a => f t a
    | .error e => some (t, .error e)

@[simp] theorem andThen_none (f : τ → α → Option (τ × Except ε β)) : andThen none f = none := rfl

@[simp] theorem andThen_ok (t : τ) (a : α) (f : τ → α → Option (τ × Except ε β)) :
    andThen (some (t, .ok a)) f = f t a := rfl

@[simp] theorem andThen_error (t : τ) (e : ε) (f : τ → α → Option (τ × Except ε β)) :
    andThen (some (t, .error e)) f = some (t, .error e) := rfl

theorem andThen_eq_ok {x : Option (τ × Except ε α)} {f : τ → α → Option (τ × Except ε β)}
    {t' : τ} {b : β} :
    andThen x f = some (t', .ok b) ↔ ∃ t a, x = some (t, .ok a) ∧ f t a = some (t', .ok b) := by
  constructor
  · intro h
    match x, h with
    | some (t, .ok a), h => exact ⟨t, a, rfl, h⟩
    | some (_, .error _), h => cases h
  · rintro ⟨t, a, rfl, h⟩
    exact h

theorem eq_of_pure_ok {t t' : τ} {a b : α}
    (h : (pure (t, .ok a) : Option (τ × Except ε α)) = some (t', .ok b)) : a = b := by
  cases h
  rfl

theorem exists_eq_of_map_snd {x : Option (τ × Except ε α)} {r : Except ε α}
    (h : x.map Prod.snd = some r) : ∃ t, x = some (t, r) := by
  obtain ⟨⟨t, r'⟩, hx, rfl⟩ := Option.map_eq_some_iff.mp h
  exact ⟨t, hx⟩

/-- What a result says, without its state and value: a decidable summary of a
    run on a concrete input. -/
def outcome (x : Option (τ × Except ε α)) : Option (Except ε Unit) :=
  x.map fun r => r.2.map fun _ => ()

theorem exists_eq_ok_of_outcome {x : Option (τ × Except ε α)} (h : outcome x = some (.ok ())) :
    ∃ t a, x = some (t, .ok a) := by
  match x, h with
  | some (t, .ok a), _ => exact ⟨t, a, rfl⟩

theorem exists_eq_error_of_outcome {x : Option (τ × Except ε α)} {e : ε}
    (h : outcome x = some (.error e)) : ∃ t, x = some (t, .error e) := by
  match x, h with
  | some (t, .error e'), h =>
      cases h
      exact ⟨t, rfl⟩

/-- `Result::unwrap` of a call that may itself panic: an `Err` panics too. -/
def unwrap (x : Option (Except ε α)) : Option α :=
  x.bind Except.toOption

@[simp] theorem unwrap_eq_some {x : Option (Except ε α)} {a : α} :
    unwrap x = some a ↔ x = some (.ok a) := by
  match x with
  | none => simp [unwrap]
  | some (.ok b) => simp [unwrap, Except.toOption]
  | some (.error e) => simp [unwrap, Except.toOption]

end Fallible
