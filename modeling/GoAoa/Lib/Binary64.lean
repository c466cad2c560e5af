import Mathlib.Data.Nat.Log
import Mathlib.Tactic.Ring

/-!
# Integers as binary64 floats

What an integer becomes as a binary64 float, as the integer that the float stands for: 53
significant bits, and half way the even side. Integers of 64 bits are far below the largest float,
so no conversion overflows.
-/

namespace GoAoa.Binary64

/-- The multiple of `u` closest to `n`; half way, the even one. -/
def closest (u n : Nat) : Nat :=
  if 2 * (n % u) < u ∨ (2 * (n % u) = u ∧ n / u % 2 = 0) then n / u * u else (n / u + 1) * u

def ulp (n : Nat) : Nat := 2 ^ (n.log2 - 52)

def ofNat (n : Nat) : Nat := closest (ulp n) n

def ofInt (x : Int) : Int := if x < 0 then -ofNat x.natAbs else ofNat x.natAbs

theorem closest_of_dvd {u n : Nat} (hu : 0 < u) (h : u ∣ n) : closest u n = n := by
  unfold closest
  rw [Nat.mod_eq_zero_of_dvd h, if_pos (.inl (by omega)), Nat.div_mul_cancel h]

/-- Up to `2 ^ 53` every integer is a float. -/
theorem ofNat_of_le {n : Nat} (h : n ≤ 2 ^ 53) : ofNat n = n := by
  refine closest_of_dvd (Nat.two_pow_pos _) ?_
  rcases Nat.lt_or_eq_of_le h with hlt | rfl
  · have hlog : n.log2 ≤ 52 := by
      rcases Nat.eq_zero_or_pos n with rfl | hn
      · decide
      · have := (Nat.log2_lt (Nat.ne_of_gt hn)).2 hlt
        omega
    rw [ulp, Nat.sub_eq_zero_of_le hlog]
    exact Nat.one_dvd n
  · decide

theorem ofNat_pos {n : Nat} (h : 0 < n) : 0 < ofNat n := by
  have hle : ulp n ≤ n :=
    Nat.le_trans (Nat.pow_le_pow_right (by decide) (by omega)) (Nat.log2_self_le (Nat.ne_of_gt h))
  have hu : 0 < ulp n := Nat.two_pow_pos _
  have hq := Nat.div_pos hle hu
  unfold ofNat closest
  split
  · exact Nat.mul_pos hq hu
  · exact Nat.mul_pos (Nat.succ_pos _) hu

theorem ofInt_of_le {x : Int} (h : x.natAbs ≤ 2 ^ 53) : ofInt x = x := by
  unfold ofInt
  rw [ofNat_of_le h]
  omega

theorem ofInt_nonneg {x : Int} (h : 0 ≤ x) : 0 ≤ ofInt x := by
  rw [ofInt, if_neg (by omega)]
  omega

theorem ofInt_neg {x : Int} (h : x < 0) : ofInt x < 0 := by
  have := ofNat_pos (n := x.natAbs) (by omega)
  rw [ofInt, if_pos h]
  omega

end GoAoa.Binary64
