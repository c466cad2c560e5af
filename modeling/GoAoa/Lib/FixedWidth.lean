import Mathlib.Tactic.Ring

/-!
# Fixed-width byte strings

Little-endian encoding of naturals in a fixed number of bytes, and its inverse.
-/

namespace GoAoa.FixedWidth

def encode : Nat → Nat → List UInt8
  | 0, _ => []
  | k + 1, n => UInt8.ofNat n :: encode k (n / 256)

def decode : List UInt8 → Nat
  | [] => 0
  | b :: bs => b.toNat + 256 * decode bs

@[simp] theorem length_encode (k n : Nat) : (encode k n).length = k := by
  induction k generalizing n with
  | zero => rfl
  | succ k ih => simp [encode, ih]

theorem decode_encode (k n : Nat) : decode (encode k n) = n % 256 ^ k := by
  induction k generalizing n with
  | zero => simp [encode, decode, Nat.mod_one]
  | succ k ih =>
    simp only [encode, decode, ih, UInt8.toNat_ofNat']
    rw [Nat.pow_succ 256, Nat.mul_comm (256 ^ k) 256, Nat.mod_mul]

theorem ofNat_decode_encode {k w : Nat} (hw : 2 ^ w ≤ 256 ^ k) (x : BitVec w) :
    BitVec.ofNat w (decode (encode k x.toNat)) = x := by
  have hx := Nat.lt_of_lt_of_le x.isLt hw
  rw [decode_encode, Nat.mod_eq_of_lt hx, BitVec.ofNat_toNat, BitVec.setWidth_eq]

end GoAoa.FixedWidth
