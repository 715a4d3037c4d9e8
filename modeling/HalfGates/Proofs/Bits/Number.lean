import HalfGates.Bits.Number
import Mathlib.Algebra.Ring.Nat
import Mathlib.Tactic.Linarith

/-!
# Bits and the number that they stand for

The bits of a number stand for its remainder, and the bits of a sum are found by carrying.

## Main definitions

- `Bits.foldl_toNat`: reading on behind a number
- `Bits.toNat_ofNat`: the lowest bits of a number stand for its remainder
- `Bits.ofNat_toNat`: bits are those of the number that they stand for
- `Bits.carry`, `Bits.full_adder`: the carry into a bit of a sum, and what one bit of a sum is made of
-/

namespace HalfGates.Bits

/-- Reading on behind a number shifts it by as many bits as are read. -/
theorem foldl_toNat (bits : List Bool) (n : Nat) :
    bits.foldl (fun n bit => 2 * n + bit.toNat) n = n * 2 ^ bits.length + toNat bits := by
  induction bits generalizing n with
  | nil => simp [toNat]
  | cons bit rest ih =>
    simp only [toNat, List.foldl_cons, List.length_cons]
    rw [ih, ih, Nat.pow_succ, Nat.add_mul, Nat.mul_zero, Nat.zero_add, Nat.add_assoc]
    congr 1
    rw [Nat.mul_comm 2 n, Nat.mul_assoc, Nat.mul_comm 2]

theorem toNat_cons (bit : Bool) (bits : List Bool) :
    toNat (bit :: bits) = bit.toNat * 2 ^ bits.length + toNat bits := by
  rw [toNat, List.foldl_cons, foldl_toNat, Nat.mul_zero, Nat.zero_add]

/-- The lowest bits of a number stand for its remainder. -/
theorem toNat_ofNat (width n : Nat) : toNat (ofNat width n) = n % 2 ^ width := by
  induction width with
  | zero => simp [ofNat, toNat, Nat.mod_one]
  | succ width ih =>
    rw [ofNat_succ, toNat_cons, length_ofNat, ih, Nat.mod_pow_succ, Nat.toNat_testBit,
      Nat.mul_comm, Nat.add_comm]

theorem getElem?_ofNat {width k : Nat} (hk : k < width) (n : Nat) :
    (ofNat width n)[width - 1 - k]? = some (n.testBit k) := by
  have hlt : width - 1 - k < (List.range width).length := by
    rw [List.length_range]
    omega
  rw [ofNat, List.getElem?_map, List.getElem?_reverse hlt, List.length_range, List.getElem?_range (by omega)]
  have hback : width - 1 - (width - 1 - k) = k := by omega
  rw [hback]
  rfl

/-- Where the bits of a number stand in a list that the number is part of. -/
theorem getD_of_ofNat {width k n i : Nat} {bits front rest : List Bool}
    (hbits : bits = front ++ (ofNat width n ++ rest)) (hk : k < width)
    (hi : i = front.length + (width - 1 - k)) : bits.getD i false = n.testBit k := by
  have hlt : width - 1 - k < (ofNat width n).length := by
    rw [length_ofNat]
    omega
  rw [hbits, hi, List.getD_eq_getElem?_getD, List.getElem?_append_right (Nat.le_add_right _ _),
    Nat.add_sub_cancel_left, List.getElem?_append_left hlt, getElem?_ofNat hk]
  rfl

/-- A number has the bits that its lowest bits have. -/
theorem ofNat_mod (width n : Nat) : ofNat width (n % 2 ^ width) = ofNat width n := by
  refine List.map_congr_left fun k hk => ?_
  have hlt : k < width := by simpa using hk
  rw [Nat.testBit_mod_two_pow, decide_eq_true hlt, Bool.true_and]

theorem toNat_lt (bits : List Bool) : toNat bits < 2 ^ bits.length := by
  induction bits with
  | nil => decide
  | cons bit bits ih =>
    have hbit := Bool.toNat_le bit
    have hhigh : bit.toNat * 2 ^ bits.length ≤ 1 * 2 ^ bits.length := Nat.mul_le_mul_right _ hbit
    rw [toNat_cons, List.length_cons, Nat.pow_succ]
    omega

/-- Bits are the bits of the number that they stand for. -/
theorem ofNat_toNat (bits : List Bool) : ofNat bits.length (toNat bits) = bits := by
  induction bits with
  | nil => rfl
  | cons bit bits ih =>
    have hlt := toNat_lt bits
    have hhigh : (bit.toNat * 2 ^ bits.length + toNat bits).testBit bits.length = bit := by
      rw [Nat.mul_comm, Nat.testBit_two_pow_mul_add _ hlt, if_neg (Nat.lt_irrefl _), Nat.sub_self]
      cases bit <;> rfl
    have hlow : ofNat bits.length (bit.toNat * 2 ^ bits.length + toNat bits) =
        ofNat bits.length (toNat bits) := by
      rw [← ofNat_mod, Nat.mul_add_mod_self_right, Nat.mod_eq_of_lt hlt]
    rw [List.length_cons, ofNat_succ, toNat_cons, hhigh, hlow, ih]

/-- The numbers with a single bit, made from zero. -/
theorem set_ofNat_zero {width k : Nat} (hk : k < width) :
    (ofNat width 0).set (width - 1 - k) true = ofNat width (2 ^ k) := by
  refine List.ext_getElem? fun i => ?_
  by_cases hi : i < width
  · obtain ⟨j, hj, rfl⟩ : ∃ j, j < width ∧ i = width - 1 - j := ⟨width - 1 - i, by omega, by omega⟩
    rw [getElem?_ofNat hj, Nat.testBit_two_pow]
    by_cases hkj : k = j
    · subst hkj
      rw [List.getElem?_set_self (by rwa [length_ofNat]), decide_eq_true rfl]
    · rw [List.getElem?_set_ne (by omega), getElem?_ofNat hj, Nat.zero_testBit, decide_eq_false hkj]
  · rw [List.getElem?_eq_none (by rw [List.length_set, length_ofNat]; omega),
      List.getElem?_eq_none (by rw [length_ofNat]; omega)]

theorem getElem?_two_pow_ne {width k : Nat} (hk : k < width) :
    (ofNat width (2 ^ k))[width - 1 - k]? ≠ (ofNat width 0)[width - 1 - k]? := by
  rw [getElem?_ofNat hk, getElem?_ofNat hk, Nat.testBit_two_pow_self, Nat.zero_testBit]
  decide

/-! ### Sums -/

/-- The carry into bit `k` of a sum. -/
def carry (a b k : Nat) : Bool :=
  decide (2 ^ k ≤ a % 2 ^ k + b % 2 ^ k)

@[simp] theorem carry_zero (a b : Nat) : carry a b 0 = false := by
  simp [carry, Nat.mod_one]

/-- The lowest bits of a sum, with the carry out of them. -/
theorem mod_add_carry (a b k : Nat) :
    (a + b) % 2 ^ k + (carry a b k).toNat * 2 ^ k = a % 2 ^ k + b % 2 ^ k := by
  have ha : a % 2 ^ k < 2 ^ k := Nat.mod_lt a (Nat.two_pow_pos k)
  have hb : b % 2 ^ k < 2 ^ k := Nat.mod_lt b (Nat.two_pow_pos k)
  rw [Nat.add_mod, carry]
  by_cases h : 2 ^ k ≤ a % 2 ^ k + b % 2 ^ k
  · have hlt : a % 2 ^ k + b % 2 ^ k - 2 ^ k < 2 ^ k := by omega
    rw [Nat.mod_eq_sub_mod h, Nat.mod_eq_of_lt hlt, decide_eq_true h, Bool.toNat_true]
    omega
  · rw [Nat.mod_eq_of_lt (Nat.not_le.mp h), decide_eq_false h, Bool.toNat_false, Nat.zero_mul, Nat.add_zero]

/-- One bit of a sum and the carry out of it count the bits of the numbers and the carry into it. -/
theorem full_adder (a b k : Nat) :
    ((a + b).testBit k).toNat + 2 * (carry a b (k + 1)).toNat =
      (a.testBit k).toNat + (b.testBit k).toNat + (carry a b k).toNat := by
  have hlow := mod_add_carry a b k
  have hhigh := mod_add_carry a b (k + 1)
  have hbit : ∀ n : Nat, n % 2 ^ (k + 1) = n % 2 ^ k + 2 ^ k * (n.testBit k).toNat := by
    intro n
    rw [Nat.mod_pow_succ, Nat.toNat_testBit]
  rw [hbit, hbit, hbit, Nat.pow_succ] at hhigh
  have hscaled : 2 ^ k * (((a + b).testBit k).toNat + 2 * (carry a b (k + 1)).toNat) =
      2 ^ k * ((a.testBit k).toNat + (b.testBit k).toNat + (carry a b k).toNat) := by
    linarith
  exact Nat.eq_of_mul_eq_mul_left (Nat.two_pow_pos k) hscaled

theorem bits_of_count : ∀ x y c s c' : Bool, s.toNat + 2 * c'.toNat = x.toNat + y.toNat + c.toNat →
    s = (x ^^ y ^^ c) ∧ c' = (x && y ^^ (c && (x ^^ y))) := by
  decide

theorem testBit_add (a b k : Nat) : (a + b).testBit k = (a.testBit k ^^ b.testBit k ^^ carry a b k) :=
  (bits_of_count _ _ _ _ _ (full_adder a b k)).1

theorem carry_succ (a b k : Nat) :
    carry a b (k + 1) = (a.testBit k && b.testBit k ^^ (carry a b k && (a.testBit k ^^ b.testBit k))) :=
  (bits_of_count _ _ _ _ _ (full_adder a b k)).2

end HalfGates.Bits
