import Mathlib

/-! # Machine words

Unsigned `w`-bit arithmetic as a release build does it: every operation wraps
modulo `2 ^ w`, and an `as` cast between the signed and the unsigned type of
one width keeps the bits.  A word is a natural number below `2 ^ w`.
-/

namespace Word

/-- Wrapping addition. -/
def add (w a b : Nat) : Nat :=
  (a + b) % 2 ^ w

/-- Wrapping subtraction. -/
def sub (w a b : Nat) : Nat :=
  (a + (2 ^ w - b % 2 ^ w)) % 2 ^ w

/-- Wrapping multiplication. -/
def mul (w a b : Nat) : Nat :=
  a * b % 2 ^ w

/-- The signed value of the low `w` bits of `a`. -/
def signed (w a : Nat) : Int :=
  if a % 2 ^ w < 2 ^ (w - 1) then (a % 2 ^ w : Nat) else ((a % 2 ^ w : Nat) : Int) - (2 ^ w : Nat)

/-- The low `w` bits of an integer, as an unsigned word. -/
def ofInt (w : Nat) (i : Int) : Nat :=
  (i % ((2 ^ w : Nat) : Int)).toNat

theorem add_of_lt {w a b : Nat} (h : a + b < 2 ^ w) : add w a b = a + b :=
  Nat.mod_eq_of_lt h

theorem sub_of_le {w a b : Nat} (hb : b ≤ a) (ha : a < 2 ^ w) : sub w a b = a - b := by
  unfold sub
  rw [Nat.mod_eq_of_lt (lt_of_le_of_lt hb ha)]
  have hsplit : a + (2 ^ w - b) = (a - b) + 2 ^ w := by omega
  rw [hsplit, Nat.add_mod_right, Nat.mod_eq_of_lt (by omega)]

theorem signed_of_lt {w a : Nat} (h : a < 2 ^ (w - 1)) (hw : 0 < w) : signed w a = a := by
  have hlt : a < 2 ^ w := lt_of_lt_of_le h (Nat.pow_le_pow_right (by decide) (by omega))
  simp [signed, Nat.mod_eq_of_lt hlt, h]

theorem signed_sub {w a b : Nat} (hw : 0 < w) (ha : a < 2 ^ (w - 1)) (hb : b < 2 ^ (w - 1)) :
    signed w (sub w a b) = (a : Int) - b := by
  have hpow : 2 ^ w = 2 * 2 ^ (w - 1) := by
    rw [← Nat.pow_succ']
    congr 1
    omega
  by_cases hab : b ≤ a
  · rw [sub_of_le hab (by omega), signed_of_lt (by omega) hw]
    omega
  · have hsub : sub w a b = a + (2 ^ w - b) := by
      unfold sub
      rw [Nat.mod_eq_of_lt (lt_of_lt_of_le hb (by omega)), Nat.mod_eq_of_lt (by omega)]
    have hge : ¬ sub w a b % 2 ^ w < 2 ^ (w - 1) := by
      rw [hsub, Nat.mod_eq_of_lt (by omega)]
      omega
    unfold signed
    rw [if_neg hge, hsub, Nat.mod_eq_of_lt (by omega)]
    omega

theorem ofInt_of_lt {w : Nat} {i : Int} (h0 : 0 ≤ i) (h : i < (2 ^ w : Nat)) :
    ofInt w i = i.toNat := by
  unfold ofInt
  rw [Int.emod_eq_of_lt h0 h]

theorem or_mul_two_pow_eq_add {b : Nat} (a : Nat) {k : Nat} (hb : b < 2 ^ k) :
    b ||| a * 2 ^ k = b + a * 2 ^ k := by
  rw [Nat.lor_comm, ← Nat.shiftLeft_eq, ← Nat.shiftLeft_add_eq_or_of_lt hb, Nat.shiftLeft_eq, Nat.add_comm]

end Word
