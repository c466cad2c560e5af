import GoAoa.VM.Interpreter
import GoAoa.Lib.TwosComplement

/-!
# Word arithmetic

The instructions that compute on signed words, powers, remainders, bytes and shifts work on big
integers: `S256` and `U256` go to the signed number and back. `WordOp.result` is the usual
definition of each on 256 bits, by the number it stands for. On words the instructions push that
word (`arithmetic_exact_iff`), with one exception: a shift of zero by `SAR` that saturates.
-/

namespace GoAoa.VM

open Word TwosComplement BitVec

/-- An instruction with its operands, words of 256 bits, in the order in which they are popped. -/
inductive WordOp where
  | sdiv (x y : BitVec 256)
  | smod (x y : BitVec 256)
  | signExtend (back num : BitVec 256)
  | exp (base exponent : BitVec 256)
  | addmod (x y z : BitVec 256)
  | mulmod (x y z : BitVec 256)
  | byte (th val : BitVec 256)
  | shl (shift value : BitVec 256)
  | shr (shift value : BitVec 256)
  | sar (shift value : BitVec 256)
  deriving DecidableEq, Repr

namespace WordOp

def execute : WordOp → ExecutionFunc
  | .sdiv .. => opSdiv
  | .smod .. => opSmod
  | .signExtend .. => opSignExtend
  | .exp .. => opExp
  | .addmod .. => opAddmod
  | .mulmod .. => opMulmod
  | .byte .. => opByte
  | .shl .. => opSHL
  | .shr .. => opSHR
  | .sar .. => opSAR

def operands : WordOp → List (BitVec 256)
  | .sdiv x y | .smod x y | .signExtend x y | .exp x y | .byte x y | .shl x y | .shr x y
  | .sar x y => [x, y]
  | .addmod x y z | .mulmod x y z => [x, y, z]

/-- The usual definitions: division truncates and gives zero for zero, arithmetic is modulo 2^256,
and a shift by any number of bits is a product or a quotient, rounded down. -/
def result : WordOp → BitVec 256
  | .sdiv x y => if y = 0 then 0 else BitVec.ofInt 256 (x.toInt.tdiv y.toInt)
  | .smod x y => if y = 0 then 0 else BitVec.ofInt 256 (x.toInt.tmod y.toInt)
  | .signExtend back num =>
    if back.toNat < 31 then (num.setWidth (8 * back.toNat + 8)).signExtend 256 else num
  | .exp base exponent => BitVec.ofNat 256 (base.toNat ^ exponent.toNat)
  | .addmod x y z => if z = 0 then 0 else BitVec.ofNat 256 ((x.toNat + y.toNat) % z.toNat)
  | .mulmod x y z => if z = 0 then 0 else BitVec.ofNat 256 (x.toNat * y.toNat % z.toNat)
  | .byte th val =>
    if th.toNat < 32 then BitVec.ofNat 256 (val.toNat / 256 ^ (31 - th.toNat) % 256) else 0
  | .shl shift value => BitVec.ofNat 256 (value.toNat * 2 ^ shift.toNat)
  | .shr shift value => BitVec.ofNat 256 (value.toNat / 2 ^ shift.toNat)
  | .sar shift value => BitVec.ofInt 256 (value.toInt / 2 ^ shift.toNat)

/-- A shift of zero by 256 bits or more that keeps the sign. -/
def saturatesZero : WordOp → Bool
  | .sar shift value => decide (256 ≤ shift.toNat) && value == 0
  | _ => false

/-- The instruction pushes its result in place of its operands, a number of 256 bits. -/
def Exact (op : WordOp) (c : Context) (f : Frame) (m : Machine) (rest : List Int) : Prop :=
  ∃ r : Int, op.execute c f (m.withStack (op.operands.map (fun w => (w.toNat : Int)) ++ rest)) =
      done (m.withStack (r :: rest)) ∧
    0 ≤ r ∧ r < 2 ^ 256 ∧ r = op.result.toNat

end WordOp

/-! ## Conversions -/

section Conversions

variable (x : BitVec 256)

theorem u256_word : u256 x.toNat = x.toNat := by
  unfold u256
  omega

theorem s256_word : s256 x.toNat = x.toInt := by
  rw [toInt_eq_toNat_cond]
  unfold s256
  split <;> split <;> omega

theorem toNat_ofInt (i : Int) : ((BitVec.ofInt 256 i).toNat : Int) = u256 i := by
  rw [BitVec.toNat_ofInt]
  unfold u256
  omega

theorem toNat_ofNat (n : Nat) : ((BitVec.ofNat 256 n).toNat : Int) = u256 n := by
  rw [BitVec.toNat_ofNat]
  unfold u256
  omega

theorem toInt_eq_zero_iff : x.toInt = 0 ↔ x = 0 := by
  rw [← toInt_inj]
  exact Iff.rfl

end Conversions

/-! ## Division -/

theorem sdiv_eq (x y : Int) (hy : y ≠ 0) : sdiv x y = u256 (x.tdiv y) := by
  rcases x with (_ | _) | _ <;> rcases y with (_ | _) | _
  all_goals first | rfl | exact absurd rfl hy | exact (congrArg u256 (Int.zero_tdiv _)).symm

theorem smod_eq (x y : Int) (hy : y ≠ 0) : smod x y = u256 (x.tmod y) := by
  rcases x with (_ | _) | _ <;> rcases y with (_ | _) | _
  all_goals first | rfl | exact absurd rfl hy

theorem sdiv_word (x y : BitVec 256) :
    sdiv (s256 x.toNat) (s256 y.toNat) = (WordOp.sdiv x y).result.toNat := by
  rw [s256_word, s256_word]
  simp only [WordOp.result]
  by_cases hy : y = 0
  · rw [if_pos hy, hy]
    rfl
  · rw [if_neg hy, toNat_ofInt]
    exact sdiv_eq _ _ fun h => hy ((toInt_eq_zero_iff y).1 h)

theorem smod_word (x y : BitVec 256) :
    smod (s256 x.toNat) (s256 y.toNat) = (WordOp.smod x y).result.toNat := by
  rw [s256_word, s256_word]
  simp only [WordOp.result]
  by_cases hy : y = 0
  · rw [if_pos hy, hy]
    rfl
  · rw [if_neg hy, toNat_ofInt]
    exact smod_eq _ _ fun h => hy ((toInt_eq_zero_iff y).1 h)

/-! ## Powers -/

theorem u256_modEq (x : Int) : u256 x ≡ x [ZMOD 2 ^ 256] := Int.mod_modEq x _

/-- The rounds for a word of `n` bits: the power of the word is in the result, and the base is
squared `n` times. -/
theorem expWord_modEq (n word : Nat) (r b : Int) (h : word < 2 ^ n) :
    (expWord n word (r, b)).1 ≡ r * b ^ word [ZMOD 2 ^ 256] ∧
      (expWord n word (r, b)).2 ≡ b ^ 2 ^ n [ZMOD 2 ^ 256] := by
  induction n generalizing word r b with
  | zero =>
    obtain rfl : word = 0 := by omega
    exact ⟨by rw [pow_zero, mul_one]; rfl, by rw [pow_zero, pow_one]; rfl⟩
  | succ n ih =>
    have hword : word / 2 < 2 ^ n := by rw [Nat.pow_succ] at h; omega
    obtain ⟨hr, hb⟩ := ih (word / 2) (if word % 2 = 1 then u256 (r * b) else r) (u256 (b * b)) hword
    have hsquare : ∀ k, u256 (b * b) ^ k ≡ b ^ (2 * k) [ZMOD 2 ^ 256] := fun k => by
      rw [pow_mul, pow_two]
      exact (u256_modEq _).pow k
    have hfirst : (if word % 2 = 1 then u256 (r * b) else r) ≡ r * b ^ (word % 2) [ZMOD 2 ^ 256] := by
      split
      · rename_i hone
        rw [hone, pow_one]
        exact u256_modEq _
      · rename_i hone
        rw [show word % 2 = 0 by omega, pow_zero, mul_one]
    refine ⟨(hr.trans (hfirst.mul (hsquare _))).trans ?_, (hb.trans (hsquare _)).trans ?_⟩
    · rw [mul_assoc, ← pow_add, Nat.mod_add_div]
    · rw [Nat.pow_succ, Nat.mul_comm]

theorem foldl_expWord_modEq (words : List Nat) (hwords : ∀ w ∈ words, w < 2 ^ 64) (r b : Int) :
    (words.foldl (fun r word => expWord 64 word r) (r, b)).1 ≡
      r * b ^ Nat.ofDigits (2 ^ 64) words [ZMOD 2 ^ 256] := by
  induction words generalizing r b with
  | nil =>
    rw [Nat.ofDigits_nil, pow_zero, mul_one]
    rfl
  | cons w words ih =>
    obtain ⟨hw, hwords⟩ := List.forall_mem_cons.1 hwords
    obtain ⟨hr, hb⟩ := expWord_modEq 64 w r b hw
    refine (ih hwords _ _).trans ((hr.mul (hb.pow _)).trans ?_)
    rw [Nat.ofDigits_cons, ← pow_mul, mul_assoc, ← pow_add]

def InRange (r : Int) : Prop := 0 ≤ r ∧ r < 2 ^ 256

theorem inRange_u256 (x : Int) : InRange (u256 x) := by
  unfold InRange u256
  omega

theorem expWord_inRange (n word : Nat) (r b : Int) (h : InRange r) :
    InRange (expWord n word (r, b)).1 := by
  induction n generalizing word r b with
  | zero => exact h
  | succ n ih =>
    refine ih _ _ _ ?_
    split
    · exact inRange_u256 _
    · exact h

theorem foldl_expWord_inRange (words : List Nat) (r b : Int) (h : InRange r) :
    InRange (words.foldl (fun r word => expWord 64 word r) (r, b)).1 := by
  induction words generalizing r b with
  | nil => exact h
  | cons w words ih => exact ih _ _ (expWord_inRange 64 w r b h)

theorem exp_word (base exponent : BitVec 256) :
    exp base.toNat exponent.toNat = (WordOp.exp base exponent).result.toNat := by
  have hmod : exp base.toNat exponent.toNat ≡ (base.toNat ^ exponent.toNat : Nat) [ZMOD 2 ^ 256] := by
    have h := foldl_expWord_modEq (bits exponent.toNat)
      (fun w hw => Nat.digits_lt_base (by decide) hw) 1 base.toNat
    rw [one_mul, show Nat.ofDigits (2 ^ 64) (bits exponent.toNat) = exponent.toNat from
      Nat.ofDigits_digits _ _] at h
    push_cast
    exact h
  have hrange : InRange (exp base.toNat exponent.toNat) :=
    foldl_expWord_inRange _ _ _ ⟨by decide, by decide⟩
  simp only [WordOp.result]
  rw [toNat_ofNat]
  unfold u256
  rw [← hmod.eq]
  exact (Int.emod_eq_of_lt hrange.1 hrange.2).symm

/-! ## Remainders of sums and products -/

theorem mod_word (n : Nat) (z : BitVec 256) :
    (if (0 : Int) < z.toNat then u256 (n % z.toNat) else 0) =
      (if z = 0 then 0 else BitVec.ofNat 256 (n % z.toNat)).toNat := by
  by_cases hz : z = 0
  · rw [if_pos hz, hz]
    rfl
  · have hpos := Nat.pos_of_ne_zero fun h => hz (eq_of_toNat_eq h)
    rw [if_neg hz, if_pos (by omega), toNat_ofNat]
    push_cast
    rfl

/-! ## Bits and bytes -/

theorem toInt_setWidth (num : BitVec 256) (b : Nat) : (num.setWidth (b + 1)).toInt =
      if num.toNat.testBit b then ((num.toNat % 2 ^ b : Nat) : Int) - 2 ^ b
      else (num.toNat % 2 ^ b : Nat) := by
  have hmod := Nat.mod_pow_succ (x := num.toNat) (b := 2) (k := b)
  rw [toInt_eq_toNat_cond, toNat_setWidth, hmod, Nat.testBit_eq_decide_div_mod_eq]
  rcases Nat.mod_two_eq_zero_or_one (num.toNat / 2 ^ b) with h | h
  · rw [h, Nat.mul_zero, Nat.add_zero, if_pos (by rw [Nat.pow_succ]; omega), if_neg (by decide)]
  · rw [h, Nat.mul_one, if_neg (by rw [Nat.pow_succ]; omega), if_pos (by decide), Nat.pow_succ]
    push_cast
    omega

theorem signExtend_word (back num : BitVec 256) (h : back.toNat < 31) :
    u256 (if Int.testBit num.toNat (back.toNat * 8 + 7) then
        Int.lor num.toNat (Int.lnot (2 ^ (back.toNat * 8 + 7) - 1))
      else Int.land num.toNat (2 ^ (back.toNat * 8 + 7) - 1)) =
      (WordOp.signExtend back num).result.toNat := by
  simp only [WordOp.result]
  rw [if_pos h, BitVec.signExtend, toNat_ofInt, lor_lnot_mask, land_mask, Nat.mul_comm 8,
    toInt_setWidth num (back.toNat * 8 + 7)]
  rfl

theorem byte_word (th val : BitVec 256) (h : th.toNat < 32) :
    byte val.toNat th.toNat = some (WordOp.byte th val).result.toNat := by
  have hint : i64 (31 - th.toNat) = (31 - th.toNat : Nat) := by
    rw [show (31 - th.toNat : Int) = (31 - th.toNat : Nat) by omega]
    exact i64_of_lt (by omega)
  unfold byte
  simp only [WordOp.result]
  rw [if_neg (by omega), hint, if_neg (by omega), if_pos h]
  congr 1
  rw [BitVec.toNat_ofNat, Nat.mod_eq_of_lt (by omega)]
  exact byte_of_digits _ _

/-! ## Shifts -/

theorem uint64_of_lt {n : Nat} (h : n < 256) : uint64 n = n := by
  unfold uint64
  omega

theorem shl_word (shift value : BitVec 256) :
    shl shift.toNat value.toNat = (WordOp.shl shift value).result.toNat := by
  unfold shl
  simp only [WordOp.result]
  rw [toNat_ofNat]
  split
  · rename_i hge
    have hdvd : (2 : Int) ^ 256 ∣ ((value.toNat * 2 ^ shift.toNat : Nat) : Int) := by
      push_cast
      exact Dvd.dvd.mul_left (pow_dvd_pow 2 (show 256 ≤ shift.toNat by omega)) _
    exact (Int.emod_eq_zero_of_dvd hdvd).symm
  · rename_i hlt
    rw [uint64_of_lt (by omega)]
    push_cast
    rfl

theorem shr_word (shift value : BitVec 256) :
    shr shift.toNat value.toNat = (WordOp.shr shift value).result.toNat := by
  unfold shr
  simp only [WordOp.result]
  rw [toNat_ofNat]
  split
  · rename_i hge
    have hlt : value.toNat < 2 ^ shift.toNat :=
      Nat.lt_of_lt_of_le value.isLt (Nat.pow_le_pow_right (by decide) (by omega))
    rw [Nat.div_eq_of_lt hlt]
    rfl
  · rename_i hlt
    rw [uint64_of_lt (by omega)]
    push_cast
    rfl

theorem ediv_saturates {v : Int} {n : Nat} (hn : 256 ≤ n) (hlow : -2 ^ 255 ≤ v) (hhigh : v < 2 ^ 255) :
    v / 2 ^ n = if v < 0 then -1 else 0 := by
  have hpow : (2 : Int) ^ 256 ≤ 2 ^ n := pow_le_pow_right₀ (by decide) hn
  split
  · exact ((Int.ediv_emod_unique (r := v + 2 ^ n) (by omega)).2 (by omega)).1
  · exact Int.ediv_eq_zero_of_lt (by omega) (by omega)

theorem sar_word_iff (shift value : BitVec 256) :
    sar shift.toNat value.toInt = (WordOp.sar shift value).result.toNat ↔
      (WordOp.sar shift value).saturatesZero = false := by
  have hlow := le_two_mul_toInt (x := value)
  have hhigh := two_mul_toInt_lt (x := value)
  unfold sar
  simp only [WordOp.result, WordOp.saturatesZero, Bool.and_eq_false_iff, decide_eq_false_iff_not,
    beq_eq_false_iff_ne]
  rw [toNat_ofInt]
  split
  · rename_i hge
    have hzero := toInt_eq_zero_iff value
    rw [ediv_saturates (by omega) (by omega) (by omega)]
    rcases Int.lt_trichotomy value.toInt 0 with h | h | h
    · rw [if_pos h, if_neg (by rw [Int.sign_eq_neg_one_of_neg h]; decide)]
      exact ⟨fun _ => .inr fun hv => by rw [hzero.2 hv] at h; omega, fun _ => rfl⟩
    · rw [h, if_neg (by decide), if_neg (by decide)]
      exact ⟨fun heq => absurd heq (by decide), fun hor => absurd (hzero.1 h) (hor.resolve_left
        fun hlt => hlt (by omega))⟩
    · rw [if_pos (by rw [Int.sign_eq_one_of_pos h]; decide), if_neg (by omega)]
      exact ⟨fun _ => .inr fun hv => by rw [hzero.2 hv] at h; omega, fun _ => rfl⟩
  · rename_i hlt
    rw [uint64_of_lt (by omega)]
    exact ⟨fun _ => .inl (by omega), fun _ => rfl⟩

/-! ## The instructions -/

section

variable {c : Context} {f : Frame} {m : Machine} {rest : List Int}

theorem WordOp.exact_iff {op : WordOp} {r : Int}
    (h : op.execute c f (m.withStack (op.operands.map (fun w => (w.toNat : Int)) ++ rest)) =
      done (m.withStack (r :: rest))) : op.Exact c f m rest ↔ r = op.result.toNat := by
  constructor
  · rintro ⟨r', hr', -, -, heq⟩
    have hdone := hr'.symm.trans h
    cases hdone
    exact heq
  · rintro rfl
    exact ⟨_, h, by omega, by omega, rfl⟩

theorem WordOp.exact_of {op : WordOp}
    (h : op.execute c f (m.withStack (op.operands.map (fun w => (w.toNat : Int)) ++ rest)) =
      done (m.withStack ((op.result.toNat : Int) :: rest))) (hop : op.saturatesZero = false) :
    op.Exact c f m rest ↔ op.saturatesZero = false :=
  ⟨fun _ => hop, fun _ => (WordOp.exact_iff h).2 rfl⟩

theorem execute_signExtend (back num : BitVec 256) :
    opSignExtend c f (m.withStack ((back.toNat : Int) :: (num.toNat : Int) :: rest)) =
      done (m.withStack (((WordOp.signExtend back num).result.toNat : Int) :: rest)) := by
  show (if (back.toNat : Int) < 31 then _ else _) = _
  by_cases h : back.toNat < 31
  · have hbit : u64 (uint64 (back.toNat : Int) * 8 + 7) = back.toNat * 8 + 7 := by
      rw [uint64_of_lt (by omega)]
      exact u64_of_lt (n := back.toNat * 8 + 7) (by omega)
    rw [if_pos (by omega)]
    show (if 2 ^ 63 ≤ u64 (uint64 (back.toNat : Int) * 8 + 7) then _ else _) = _
    rw [hbit, if_neg (by omega), ← signExtend_word back num h]
    rfl
  · rw [if_neg (by omega)]
    simp only [WordOp.result]
    rw [if_neg h]
    rfl

theorem execute_byte (th val : BitVec 256) :
    opByte c f (m.withStack ((th.toNat : Int) :: (val.toNat : Int) :: rest)) =
      done (m.withStack (((WordOp.byte th val).result.toNat : Int) :: rest)) := by
  show (if (th.toNat : Int) < 32 then _ else _) = _
  by_cases h : th.toNat < 32
  · have hint : int64 (th.toNat : Int) = th.toNat := i64_of_lt (by omega)
    rw [if_pos (by omega), hint, byte_word th val h]
    rfl
  · rw [if_neg (by omega)]
    simp only [WordOp.result]
    rw [if_neg h]
    rfl

/-- **Word arithmetic is exact**, except that `SAR` makes minus one of zero when it saturates. -/
theorem arithmetic_exact_iff (op : WordOp) (c : Context) (f : Frame) (m : Machine)
    (rest : List Int) : op.Exact c f m rest ↔ op.saturatesZero = false := by
  cases op with
  | sdiv => exact WordOp.exact_of (by rw [← sdiv_word]; rfl) rfl
  | smod => exact WordOp.exact_of (by rw [← smod_word]; rfl) rfl
  | signExtend back num => exact WordOp.exact_of (execute_signExtend (c := c) (f := f) back num) rfl
  | exp => exact WordOp.exact_of (by rw [← exp_word]; rfl) rfl
  | addmod | mulmod =>
    refine WordOp.exact_of ?_ rfl
    simp only [WordOp.result]
    rw [← mod_word]
    rfl
  | byte th val => exact WordOp.exact_of (execute_byte (c := c) (f := f) th val) rfl
  | shl shift value =>
    refine WordOp.exact_of ?_ rfl
    rw [← shl_word, ← u256_word shift, ← u256_word value]
    rfl
  | shr shift value =>
    refine WordOp.exact_of ?_ rfl
    rw [← shr_word, ← u256_word shift, ← u256_word value]
    rfl
  | sar shift value =>
    refine (WordOp.exact_iff ?_).trans (sar_word_iff shift value)
    rw [← s256_word value, ← u256_word shift]
    rfl

end

/-- **The slip.** `SAR` of zero by 256 bits gives 2^256 - 1. -/
theorem not_arithmetic_exact_sar : (WordOp.sar 256 0).execute bytecodeContext (smallFrame [])
        ((Machine.start (smallFrame [])).withStack [256, 0]) =
        done ((Machine.start (smallFrame [])).withStack [2 ^ 256 - 1]) ∧
      (WordOp.sar 256 0).result = 0 :=
  ⟨rfl, by decide +kernel⟩

end GoAoa.VM
