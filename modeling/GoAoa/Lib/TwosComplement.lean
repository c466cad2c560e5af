import Mathlib.Data.Int.Bitwise
import Mathlib.Data.Nat.Digits.Lemmas

/-!
# Two's complement on integers

Masks of low bits on unbounded integers, and the bytes of a number read from its digits of 64 bits.
-/

namespace GoAoa.TwosComplement

/-! ## Masks -/

theorem ldiff_mask (n b : Nat) : Nat.ldiff (2 ^ b - 1) n = 2 ^ b - 1 - n % 2 ^ b := by
  have hlt : n % 2 ^ b < 2 ^ b := Nat.mod_lt _ (Nat.two_pow_pos b)
  refine Nat.eq_of_testBit_eq fun i => ?_
  rw [Nat.testBit_ldiff, Nat.testBit_two_pow_sub_one, Nat.sub_sub, Nat.add_comm 1,
    Nat.testBit_two_pow_sub_succ hlt, Nat.testBit_mod_two_pow]
  cases decide (i < b) <;> rfl

theorem land_mask (n b : Nat) : Int.land n (2 ^ b - 1) = (n % 2 ^ b : Nat) := by
  have hpos := Nat.two_pow_pos b
  have hmask : (2 ^ b - 1 : Int) = ((2 ^ b - 1 : Nat) : Int) := by push_cast [hpos]; rfl
  rw [hmask, ← Nat.and_two_pow_sub_one_eq_mod]
  rfl

/-- `x | ^mask` keeps the low bits, and has ones above. -/
theorem lor_lnot_mask (n b : Nat) :
    Int.lor n (Int.lnot (2 ^ b - 1)) = (n % 2 ^ b : Nat) - 2 ^ b := by
  have hpos := Nat.two_pow_pos b
  have hmask : (2 ^ b - 1 : Int) = ((2 ^ b - 1 : Nat) : Int) := by push_cast [hpos]; rfl
  have hor : Int.lor n (Int.lnot (2 ^ b - 1)) = Int.negSucc (Nat.ldiff (2 ^ b - 1) n) := by
    rw [hmask]
    rfl
  rw [hor, ldiff_mask, Int.negSucc_eq]
  omega

/-! ## Digits -/

theorem byte_of_digits (n k : Nat) :
    (Nat.digits (2 ^ 64) n).getD (k / 8) 0 / 2 ^ (8 * (k % 8)) % 256 = n / 256 ^ k % 256 := by
  have hsplit : (2 : Nat) ^ 64 = 2 ^ (8 * (k % 8)) * 2 ^ (64 - 8 * (k % 8)) := by
    rw [← Nat.pow_add]
    congr 1
    omega
  have hdvd : 256 ∣ 2 ^ (64 - 8 * (k % 8)) := by
    rw [show 256 = 2 ^ 8 from rfl]
    exact Nat.pow_dvd_pow 2 (by omega)
  have hpow : (2 ^ 64) ^ (k / 8) * 2 ^ (8 * (k % 8)) = 256 ^ k := by
    rw [← Nat.pow_mul, ← Nat.pow_add, show 256 = 2 ^ 8 from rfl, ← Nat.pow_mul]
    congr 1
    omega
  rw [Nat.getD_digits n (k / 8) (by decide)]
  calc n / (2 ^ 64) ^ (k / 8) % 2 ^ 64 / 2 ^ (8 * (k % 8)) % 256
      = n / (2 ^ 64) ^ (k / 8) / 2 ^ (8 * (k % 8)) % 2 ^ (64 - 8 * (k % 8)) % 256 := by
        conv_lhs => rw [hsplit, Nat.mod_mul_right_div_self]
        rw [← hsplit]
    _ = n / (2 ^ 64) ^ (k / 8) / 2 ^ (8 * (k % 8)) % 256 := Nat.mod_mod_of_dvd _ hdvd
    _ = n / 256 ^ k % 256 := by rw [Nat.div_div_eq_div_mul, hpow]

end GoAoa.TwosComplement
