import Mathlib
import OsKernel.Lib.Run

/-! # Bounded FIFO queues and ring buffers

`Fifo.step cap` specifies a queue that holds at most `cap` values: a push appends
when there is room, a pop removes the head when there is one, and the popped values
are collected in `out`.  Over a whole run, the popped values followed by what is
still queued are the pushed values, in order.

A ring buffer of size `n` keeps such a queue in the cells `head, head + 1, …`
(mod `n`).  `Ring.window` reads them back; a write just past the window appends to
it, and moving the head one cell on drops its first value.
-/

namespace Fifo

variable {α : Type*}

/-- A call on a queue: push a value, or pop the head. -/
inductive Op (α : Type*) where
  | push (a : α)
  | pop
  deriving DecidableEq, Repr

/-- The queue and the values popped from it so far. -/
structure State (α : Type*) where
  queue : List α
  out : List α
  deriving DecidableEq, Repr

/-- One call on a queue of capacity `cap`.  Pushing to a full queue and popping
    from an empty one are not possible. -/
def step (cap : Nat) (s : State α) : Op α → Option (State α)
  | .push a => if s.queue.length < cap then some ⟨s.queue ++ [a], s.out⟩ else none
  | .pop =>
      match s.queue with
      | [] => none
      | a :: rest => some ⟨rest, s.out ++ [a]⟩

/-- The values a list of calls pushes, in order. -/
def pushed : List (Op α) → List α
  | [] => []
  | .push a :: ops => a :: pushed ops
  | .pop :: ops => pushed ops

theorem step_push_eq_some {cap : Nat} {s next : State α} {a : α}
    (h : step cap s (.push a) = some next) :
    s.queue.length < cap ∧ next = ⟨s.queue ++ [a], s.out⟩ := by
  by_cases hlt : s.queue.length < cap
  · simp only [step, hlt, if_true, Option.some.injEq] at h
    exact ⟨hlt, h.symm⟩
  · simp [step, hlt] at h

theorem step_pop_eq_some {cap : Nat} {s next : State α} (h : step cap s .pop = some next) :
    ∃ a rest, s.queue = a :: rest ∧ next = ⟨rest, s.out ++ [a]⟩ := by
  cases hq : s.queue with
  | nil => simp [step, hq] at h
  | cons a rest =>
      simp only [step, hq, Option.some.injEq] at h
      exact ⟨a, rest, rfl, h.symm⟩

theorem exec_out_append_queue {cap : Nat} :
    ∀ {s final : State α} (ops : List (Op α)), StepRun.exec (step cap) s ops = some final →
      final.out ++ final.queue = s.out ++ s.queue ++ pushed ops := by
  intro s final ops hrun
  induction ops generalizing s with
  | nil =>
      simp only [StepRun.exec_nil, Option.some.injEq] at hrun
      simp [hrun, pushed]
  | cons op ops ih =>
      simp only [StepRun.exec_cons, Option.bind_eq_some_iff] at hrun
      obtain ⟨next, hnext, hrest⟩ := hrun
      rw [ih hrest]
      cases op with
      | push a =>
          obtain ⟨-, rfl⟩ := step_push_eq_some hnext
          simp [pushed]
      | pop =>
          obtain ⟨a, rest, hq, rfl⟩ := step_pop_eq_some hnext
          simp [hq, pushed]

end Fifo

namespace Ring

variable {α : Type*} {n : Nat} [NeZero n]

/-- The `count` cells of a ring of size `n` from `head` on, wrapping around at `n`. -/
def window (arr : Fin n → α) (head : Fin n) (count : Nat) : List α :=
  (List.range count).map fun i => arr (Fin.ofNat n (head.val + i))

@[simp] theorem length_window (arr : Fin n → α) (head : Fin n) (count : Nat) :
    (window arr head count).length = count := by
  simp [window]

@[simp] theorem window_zero (arr : Fin n → α) (head : Fin n) : window arr head 0 = [] := rfl

theorem window_succ (arr : Fin n → α) (head : Fin n) (count : Nat) :
    window arr head (count + 1) = window arr head count ++ [arr (Fin.ofNat n (head.val + count))] := by
  simp [window, List.range_succ]

theorem ofNat_add_ne {head i count : Nat} (hi : i < count) (hcount : count < n) :
    Fin.ofNat n (head + i) ≠ Fin.ofNat n (head + count) := by
  intro h
  have hmod : (head + i) % n = (head + count) % n := by
    simpa [Fin.ext_iff, Fin.val_ofNat] using h
  have hic : i % n = count % n := Nat.ModEq.add_left_cancel' head hmod
  rw [Nat.mod_eq_of_lt (hi.trans hcount), Nat.mod_eq_of_lt hcount] at hic
  omega

theorem window_update_past (arr : Fin n → α) (head : Fin n) {count : Nat} (hcount : count < n)
    (a : α) :
    window (Function.update arr (Fin.ofNat n (head.val + count)) a) head count =
      window arr head count := by
  apply List.map_congr_left
  intro i hi
  exact Function.update_of_ne (ofNat_add_ne (List.mem_range.mp hi) hcount) a arr

theorem window_push (arr : Fin n → α) (head : Fin n) {count : Nat} (hcount : count < n) (a : α) :
    window (Function.update arr (Fin.ofNat n (head.val + count)) a) head (count + 1) =
      window arr head count ++ [a] := by
  rw [window_succ, window_update_past arr head hcount, Function.update_self]

theorem window_pop (arr : Fin n → α) (head : Fin n) (count : Nat) :
    window arr head (count + 1) = arr head :: window arr (Fin.ofNat n (head.val + 1)) count := by
  have hhead : Fin.ofNat n (head.val + 0) = head := by
    ext
    simp
  have hrest : ∀ i, Fin.ofNat n (head.val + (i + 1)) = Fin.ofNat n ((Fin.ofNat n (head.val + 1)).val + i) := by
    intro i
    ext
    simp only [Fin.val_ofNat, Nat.mod_add_mod]
    rw [Nat.add_assoc, Nat.add_comm 1 i]
  simp only [window, List.range_succ_eq_map, List.map_cons, List.map_map, hhead]
  congr 1
  apply List.map_congr_left
  intro i _
  exact congrArg arr (hrest i)

end Ring
