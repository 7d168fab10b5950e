import Mathlib

/-! # Overwriting a range of a list

`overwrite xs a ys` is `xs` with the positions `[a, a + ys.length)` holding `ys`:
the closed form of a loop that copies `ys` into `xs` from `a` by one `set` a byte.
-/

namespace List

variable {α : Type _}

/-- `xs` with `ys` written over it from position `a`. -/
def overwrite (xs : List α) (a : Nat) (ys : List α) : List α :=
  xs.take a ++ ys ++ xs.drop (a + ys.length)

@[simp]
theorem overwrite_nil (xs : List α) (a : Nat) : xs.overwrite a [] = xs := by
  simp [overwrite]

theorem length_overwrite {xs ys : List α} {a : Nat} (h : a + ys.length ≤ xs.length) :
    (xs.overwrite a ys).length = xs.length := by
  simp only [overwrite, length_append, length_take, length_drop]
  omega

theorem overwrite_set {xs : List α} {a : Nat} (h : a < xs.length) (x : α) (ys : List α) :
    (xs.set a x).overwrite (a + 1) ys = xs.overwrite a (x :: ys) := by
  have hset : xs.set a x = xs.take a ++ x :: xs.drop (a + 1) := by
    rw [set_eq_take_append_cons_drop, if_pos h]
  have htake : (xs.take a).length = a := by
    rw [length_take]
    omega
  have hfront : (xs.set a x).take (a + 1) = xs.take a ++ [x] := by
    rw [hset, take_append, take_of_length_le (by omega), htake]
    simp
  have hback : (xs.set a x).drop (a + 1 + ys.length) = xs.drop (a + (ys.length + 1)) := by
    rw [hset, drop_append, drop_eq_nil_of_le (by omega), htake]
    rw [nil_append]
    simp only [show a + 1 + ys.length - a = ys.length + 1 by omega, drop_succ_cons, drop_drop]
    congr 1
    omega
  simp [overwrite, hfront, hback]

theorem take_succ_drop_eq_cons {xs : List α} {i : Nat} (h : i < xs.length) (k : Nat) :
    (xs.drop i).take (k + 1) = xs[i] :: (xs.drop (i + 1)).take k := by
  rw [drop_eq_getElem_cons h, take_succ_cons]

theorem overwrite_append_left {xs : List α} {a : Nat} {ys : List α} (zs : List α)
    (h : a + ys.length ≤ xs.length) :
    (xs ++ zs).overwrite a ys = xs.overwrite a ys ++ zs := by
  simp only [overwrite]
  rw [take_append_of_le_length (by omega), drop_append_of_le_length h]
  simp

theorem overwrite_append {xs ys zs ws : List α} {a : Nat} (h : a + ys.length = xs.length) :
    (xs ++ zs).overwrite a (ys ++ ws) = xs.overwrite a ys ++ zs.overwrite 0 ws := by
  simp only [overwrite, length_append, take_zero, nil_append, zero_add]
  have hback : (xs ++ zs).drop (a + (ys.length + ws.length)) = zs.drop ws.length := by
    rw [drop_append, drop_eq_nil_of_le (by omega), nil_append]
    congr 1
    omega
  have hrest : xs.drop (a + ys.length) = [] := drop_eq_nil_of_le (by omega)
  rw [take_append_of_le_length (by omega), hback, hrest]
  simp

theorem overwrite_zero_of_length_eq {xs ys : List α} (h : ys.length = xs.length) :
    xs.overwrite 0 ys = ys := by
  simp [overwrite, h]

end List
