import Mathlib

/-! # Runs of a partial step function

A system is a state type `σ`, an event type `α` and a step function
`σ → α → Option σ`, where `none` means that the event is not possible in that
state (or that it aborts).  `exec` runs a list of events; the rules below are
what the invariant and frame arguments over whole runs use.
-/

namespace StepRun

variable {σ α : Type*}

/-- Run `events` from `s`, stopping with `none` at the first event that fails. -/
def exec (step : σ → α → Option σ) : σ → List α → Option σ
  | s, [] => some s
  | s, event :: events => (step s event).bind fun next => exec step next events

@[simp] theorem exec_nil (step : σ → α → Option σ) (s : σ) : exec step s [] = some s := rfl

@[simp] theorem exec_cons (step : σ → α → Option σ) (s : σ) (event : α) (events : List α) :
    exec step s (event :: events) = (step s event).bind fun next => exec step next events := rfl

theorem exec_append (step : σ → α → Option σ) (s : σ) (first second : List α) :
    exec step s (first ++ second) = (exec step s first).bind fun mid => exec step mid second := by
  induction first generalizing s with
  | nil => rfl
  | cons event events ih =>
      cases h : step s event with
      | none => simp [h]
      | some next => simp [h, ih]

theorem exec_invariant (step : σ → α → Option σ) {inv : σ → Prop}
    (hstep : ∀ s event next, inv s → step s event = some next → inv next) :
    ∀ {s final : σ} (events : List α), inv s → exec step s events = some final → inv final := by
  intro s final events hs hrun
  induction events generalizing s with
  | nil =>
      simp only [exec_nil, Option.some.injEq] at hrun
      exact hrun ▸ hs
  | cons event events ih =>
      simp only [exec_cons, Option.bind_eq_some_iff] at hrun
      obtain ⟨next, hnext, hrest⟩ := hrun
      exact ih (hstep s event next hs hnext) hrest

theorem exec_invariant_of_mem (step : σ → α → Option σ) {inv : σ → Prop} {allowed : α → Prop}
    (hstep : ∀ s event next, allowed event → inv s → step s event = some next → inv next) :
    ∀ {s final : σ} (events : List α), (∀ event ∈ events, allowed event) → inv s →
      exec step s events = some final → inv final := by
  intro s final events hallowed hs hrun
  induction events generalizing s with
  | nil =>
      simp only [exec_nil, Option.some.injEq] at hrun
      exact hrun ▸ hs
  | cons event events ih =>
      simp only [exec_cons, Option.bind_eq_some_iff] at hrun
      obtain ⟨next, hnext, hrest⟩ := hrun
      exact ih (fun e he => hallowed e (List.mem_cons_of_mem event he))
        (hstep s event next (hallowed event List.mem_cons_self) hs hnext) hrest

theorem exec_isSome_of_mem (step : σ → α → Option σ) {allowed : α → Prop}
    (htotal : ∀ s event, allowed event → (step s event).isSome) :
    ∀ (s : σ) (events : List α), (∀ event ∈ events, allowed event) → (exec step s events).isSome := by
  intro s events hallowed
  induction events generalizing s with
  | nil => rfl
  | cons event events ih =>
      obtain ⟨next, hnext⟩ := Option.isSome_iff_exists.mp (htotal s event (hallowed event List.mem_cons_self))
      simp only [exec_cons, hnext, Option.bind_some]
      exact ih next (fun e he => hallowed e (List.mem_cons_of_mem event he))

/-! ## Guarded steps

A property may hold only of the runs whose events meet a condition on the state
they are taken in (a task that is added is a new one, say).  `guard` refuses
the other events, and its runs are runs of the step itself. -/

/-- The step that refuses, besides what `step` refuses, every event that
    `allowed` does not admit in the state. -/
def guard (allowed : σ → α → Bool) (step : σ → α → Option σ) (s : σ) (event : α) : Option σ :=
  if allowed s event then step s event else none

theorem guard_eq_some {allowed : σ → α → Bool} {step : σ → α → Option σ} {s next : σ} {event : α} :
    guard allowed step s event = some next ↔ allowed s event = true ∧ step s event = some next := by
  unfold guard
  cases allowed s event <;> simp

/-! ## Simulation

A relation `R` between the states of two step functions over the same events is a
forward simulation when every step from a state related to `t` is matched by a step
from `t` to a related state.  Runs then match event for event. -/

section Simulation

variable {τ : Type*} {step : σ → α → Option σ} {stepA : τ → α → Option τ} {R : σ → τ → Prop}

theorem exec_simulation
    (hstep : ∀ s t event next, R s t → step s event = some next →
      ∃ t', stepA t event = some t' ∧ R next t') :
    ∀ {s final : σ} {t : τ} (events : List α), R s t → exec step s events = some final →
      ∃ t', exec stepA t events = some t' ∧ R final t' := by
  intro s final t events hR hrun
  induction events generalizing s t with
  | nil =>
      simp only [exec_nil, Option.some.injEq] at hrun
      exact ⟨t, rfl, hrun ▸ hR⟩
  | cons event events ih =>
      simp only [exec_cons, Option.bind_eq_some_iff] at hrun
      obtain ⟨next, hnext, hrest⟩ := hrun
      obtain ⟨t', ht', hR'⟩ := hstep s t event next hR hnext
      obtain ⟨u, hu, hRu⟩ := ih hR' hrest
      exact ⟨u, by simp [ht', hu], hRu⟩

theorem exec_isSome_of_simulation
    (hstep : ∀ s t event next, R s t → step s event = some next →
      ∃ t', stepA t event = some t' ∧ R next t')
    (henabled : ∀ s t event, R s t → (stepA t event).isSome → (step s event).isSome) :
    ∀ {s : σ} {t : τ} (events : List α), R s t → (exec stepA t events).isSome →
      (exec step s events).isSome := by
  intro s t events hR hrun
  induction events generalizing s t with
  | nil => rfl
  | cons event events ih =>
      obtain ⟨u, hu⟩ := Option.isSome_iff_exists.mp hrun
      simp only [exec_cons, Option.bind_eq_some_iff] at hu
      obtain ⟨t', ht', hrest⟩ := hu
      obtain ⟨next, hnext⟩ := Option.isSome_iff_exists.mp (henabled s t event hR (by simp [ht']))
      obtain ⟨t'', ht'', hR'⟩ := hstep s t event next hR hnext
      have ht : t'' = t' := Option.some.inj (ht''.symm.trans ht')
      subst ht
      simp only [exec_cons, hnext, Option.bind_some]
      exact ih hR' (by simp [hrest])

end Simulation

theorem exec_of_exec_guard {allowed : σ → α → Bool} {step : σ → α → Option σ} {s final : σ}
    (events : List α) (hrun : exec (guard allowed step) s events = some final) :
    exec step s events = some final := by
  obtain ⟨t, ht, rfl⟩ := @exec_simulation σ α σ (guard allowed step) step Eq
    (fun _ _ _ next hst hstep => ⟨next, hst ▸ (guard_eq_some.mp hstep).2, rfl⟩) s final s events rfl hrun
  exact ht

theorem exec_of_total_simulation {τ : Type*} {step : σ → α → Option σ} {stepA : τ → α → τ}
    {R : σ → τ → Prop} {allowed : α → Prop}
    (hstep : ∀ s t event, allowed event → R s t → ∃ next, step s event = some next ∧ R next (stepA t event)) :
    ∀ (events : List α) {s : σ} {t : τ}, (∀ event ∈ events, allowed event) → R s t →
      ∃ final, exec step s events = some final ∧ R final (events.foldl stepA t) := by
  intro events
  induction events with
  | nil => exact fun _ hR => ⟨_, rfl, hR⟩
  | cons event events ih =>
      intro s t hallowed hR
      obtain ⟨next, hnext, hR'⟩ := hstep s t event (hallowed event List.mem_cons_self) hR
      obtain ⟨final, hrun, hfinal⟩ := ih (fun e he => hallowed e (List.mem_cons_of_mem event he)) hR'
      exact ⟨final, by rw [exec_cons, hnext, Option.bind_some, hrun], hfinal⟩

/-! ## Refinement of a relational specification

A specification may leave the outcome of a step open (which id an allocator hands
out, say): it is then a relation `spec : τ → α → τ → Prop`, and its runs are the
chains of such steps.  A map `abs` from the states that keep an invariant refines
it when every step the code takes is one the specification allows. -/

/-- The runs of a relational specification. -/
inductive Steps {τ : Type*} (spec : τ → α → τ → Prop) : τ → List α → τ → Prop
  | nil (t : τ) : Steps spec t [] t
  | cons {t mid u : τ} {event : α} {events : List α} :
      spec t event mid → Steps spec mid events u → Steps spec t (event :: events) u

theorem exec_refines {τ : Type*} {step : σ → α → Option σ} {spec : τ → α → τ → Prop}
    {abs : σ → τ} {inv : σ → Prop}
    (hinv : ∀ s event next, inv s → step s event = some next → inv next)
    (hstep : ∀ s event next, inv s → step s event = some next → spec (abs s) event (abs next)) :
    ∀ {s final : σ} (events : List α), inv s → exec step s events = some final →
      Steps spec (abs s) events (abs final) := by
  intro s final events hs hrun
  induction events generalizing s with
  | nil =>
      simp only [exec_nil, Option.some.injEq] at hrun
      exact hrun ▸ Steps.nil (abs s)
  | cons event events ih =>
      simp only [exec_cons, Option.bind_eq_some_iff] at hrun
      obtain ⟨next, hnext, hrest⟩ := hrun
      exact Steps.cons (hstep s event next hs hnext) (ih (hinv s event next hs hnext) hrest)

theorem Steps.invariant {spec : σ → α → σ → Prop} {inv : σ → Prop}
    (hstep : ∀ s event next, inv s → spec s event next → inv next) :
    ∀ {s final : σ} {events : List α}, Steps spec s events final → inv s → inv final := by
  intro s final events hrun hs
  induction hrun with
  | nil => exact hs
  | cons hspec _ ih => exact ih (hstep _ _ _ hs hspec)

/-- The steps of `step` taken in a state where `allowed` admits the event: a
    guard that need not be decidable. -/
def Guarded (allowed : σ → α → Prop) (step : σ → α → Option σ) (s : σ) (event : α) (next : σ) : Prop :=
  allowed s event ∧ step s event = some next

theorem exec_of_steps_guarded {allowed : σ → α → Prop} {step : σ → α → Option σ} {s final : σ}
    {events : List α} (hrun : Steps (Guarded allowed step) s events final) :
    exec step s events = some final := by
  induction hrun with
  | nil => rfl
  | cons hspec _ ih => rw [exec_cons, hspec.2, Option.bind_some, ih]

/-- The states some run from `init` ends in. -/
def Reachable (step : σ → α → Option σ) (init : σ) (s : σ) : Prop :=
  ∃ events, exec step init events = some s

theorem Reachable.init (step : σ → α → Option σ) (init : σ) : Reachable step init init :=
  ⟨[], rfl⟩

theorem Reachable.step {step : σ → α → Option σ} {init s next : σ} {event : α}
    (hs : Reachable step init s) (hstep : step s event = some next) :
    Reachable step init next := by
  obtain ⟨events, hrun⟩ := hs
  exact ⟨events ++ [event], by simp [exec_append, hrun, hstep]⟩

theorem Reachable.invariant {step : σ → α → Option σ} {init : σ} {inv : σ → Prop}
    (hinit : inv init) (hstep : ∀ s event next, inv s → step s event = some next → inv next)
    {s : σ} (hs : Reachable step init s) : inv s := by
  obtain ⟨events, hrun⟩ := hs
  exact exec_invariant step hstep events hinit hrun

end StepRun
