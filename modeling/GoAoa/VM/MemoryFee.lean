import GoAoa.VM.GasCost

/-!
# The fee for memory

`memoryGasCost` charges what the fee of the new size is more than the fee that was paid last. The
fee is quadratic in the number of words, computed in 64 bits, and the sizes it accepts have up to
2^35 - 1 words. The square of a number of words fits in 64 bits below 2^32 words. Up to there all
charges are exact, and the first request above is charged less than it should be, modulo 2^64.
-/

namespace GoAoa.VM

open List

def memoryFee (words : Nat) : Nat := words * memoryGas + words ^ 2 / quadCoeffDiv

def wrappedFee (words : Nat) : Nat :=
  u64 ((u64 (words * memoryGas) : Int) + (u64 (words * words) / quadCoeffDiv : Nat))

/-- The requests of a frame and what they are charged. The machines are any that have the length of
the memory and the last fee that the request before has left: other instructions come between. -/
inductive Requests : Nat → Nat → List Nat → List Nat → Prop where
  | nil (length last : Nat) : Requests length last [] []
  | cons {m m' : Machine} {size fee : Nat} {sizes fees : List Nat}
    (hcost : memoryGasCost m size = some (fee, m'))
    (htail : Requests (m'.memory.resize size).store.length m'.memory.lastGasCost sizes fees) :
    Requests m.memory.store.length m.memory.lastGasCost (size :: sizes) (fee :: fees)

def exactCharges : Nat → List Nat → List Nat
  | _, [] => []
  | words, size :: sizes =>
    (memoryFee (max words (toWordSize size)) - memoryFee words) ::
      exactCharges (max words (toWordSize size)) sizes

def largest (words : Nat) (sizes : List Nat) : Nat :=
  sizes.foldl (fun w size => max w (toWordSize size)) words

/-- The largest size whose fee is computed without a wrap: 2^32 - 1 words. -/
def exactBound : Nat := 0x1fffffffe0

/-! ## The fee -/

theorem memoryFee_mono {w w' : Nat} (h : w ≤ w') : memoryFee w ≤ memoryFee w' :=
  Nat.add_le_add (Nat.mul_le_mul_right _ h) (Nat.div_le_div_right (Nat.pow_le_pow_left h 2))

theorem toWordSize_of_le {size : Nat} (h : size ≤ 0xffffffffe0) :
    toWordSize size = (size + 31) / 32 := by
  unfold toWordSize
  rw [if_neg (by omega)]

theorem toWordSize_lt {size : Nat} (h : size ≤ 0xffffffffe0) : toWordSize size < 2 ^ 35 := by
  rw [toWordSize_of_le h]
  omega

theorem le_exactBound_iff {size : Nat} (h : size ≤ 0xffffffffe0) :
    size ≤ exactBound ↔ toWordSize size < 2 ^ 32 := by
  rw [toWordSize_of_le h]
  unfold exactBound
  omega

theorem toWordSize_mul {size : Nat} (h : size ≤ 0xffffffffe0) :
    size ≤ toWordSize size * 32 ∧ toWordSize size * 32 < size + 32 := by
  rw [toWordSize_of_le h]
  omega

/-- What the square loses in 64 bits comes off the fee, in units of 2^54. -/
theorem wrappedFee_add {w : Nat} (h : w < 2 ^ 35) :
    wrappedFee w + w ^ 2 / 2 ^ 64 * 2 ^ 54 = memoryFee w := by
  have hlin : u64 ((w : Int) * memoryGas) = w := by
    unfold memoryGas u64
    omega
  have hsquare : u64 ((w : Int) * w) = w ^ 2 % 2 ^ 64 := by
    rw [show (w : Int) * w = (w ^ 2 : Nat) by push_cast; exact (pow_two _).symm]
    unfold u64
    omega
  have hsum : u64 ((w : Int) + (w ^ 2 % 2 ^ 64 / 1024 : Nat)) = w + w ^ 2 % 2 ^ 64 / 1024 := by
    unfold u64
    omega
  unfold wrappedFee memoryFee quadCoeffDiv
  rw [hlin, hsquare, hsum]
  unfold memoryGas
  omega

theorem wrappedFee_of_lt {w : Nat} (h : w < 2 ^ 32) : wrappedFee w = memoryFee w := by
  have hsquare := Nat.div_eq_of_lt (by simpa using Nat.pow_lt_pow_left h (by decide : 2 ≠ 0))
  have hadd := wrappedFee_add (w := w) (by omega)
  omega

theorem memoryFee_lt {w : Nat} (h : w < 2 ^ 35) : memoryFee w < 2 ^ 61 := by
  have hsquare : w ^ 2 < 2 ^ 70 := by simpa using Nat.pow_lt_pow_left h (by decide : 2 ≠ 0)
  unfold memoryFee memoryGas quadCoeffDiv
  omega

/-! ## Requests -/

/-- From 2^32 words on the charge is another number than the difference: a multiple of 2^54 that
is less than 2^64 is missing. -/
theorem charge_ne {w w' : Nat} (hw : w ≤ w') (hlow : 2 ^ 32 ≤ w') (hhigh : w' < 2 ^ 35) :
    u64 ((wrappedFee w' : Int) - memoryFee w) ≠ memoryFee w' - memoryFee w := by
  have hadd := wrappedFee_add hhigh
  have hmono := memoryFee_mono hw
  have hsquare : 2 ^ 64 ≤ w' ^ 2 := by simpa using Nat.pow_le_pow_left hlow 2
  have hbound : w' ^ 2 < 2 ^ 70 := by simpa using Nat.pow_lt_pow_left hhigh (by decide : 2 ≠ 0)
  unfold u64
  omega

variable {m m' : Machine} {size fee words length last : Nat} {sizes fees : List Nat}

theorem memoryGasCost_cases (h : memoryGasCost m size = some (fee, m')) :
    size ≤ 0xffffffffe0 ∧
      ((toWordSize size * 32 ≤ m.memory.store.length ∧ fee = 0 ∧ m' = m) ∨
        (m.memory.store.length < toWordSize size * 32 ∧
          fee = u64 ((wrappedFee (toWordSize size) : Int) - m.memory.lastGasCost) ∧
          m'.memory = { m.memory with lastGasCost := wrappedFee (toWordSize size) })) := by
  unfold memoryGasCost at h
  split at h
  · rename_i hzero
    cases h
    rw [hzero]
    exact ⟨by decide, .inl ⟨Nat.zero_le _, rfl, rfl⟩⟩
  split at h
  · cases h
  rename_i hbound
  refine ⟨Nat.le_of_not_lt hbound, ?_⟩
  dsimp only at h
  split at h
  · rename_i hgrows
    cases h
    exact .inr ⟨hgrows, rfl, rfl⟩
  · rename_i hfits
    cases h
    exact .inl ⟨Nat.le_of_not_lt hfits, rfl, rfl⟩

theorem length_resize (memory : Memory) (size : Nat) :
    (memory.resize size).store.length = max memory.store.length size := by
  unfold Memory.resize
  rw [length_append, length_replicate]
  omega

/-- A memory of `words` words whose exact fee is paid. -/
structure PaidUp (length last words : Nat) : Prop where
  size : words = (length + 31) / 32
  last : last = memoryFee words
  lt : words < 2 ^ 32

/-- One request: it is charged exactly if the square of the words fits. -/
theorem request_spec (hpaid : PaidUp m.memory.store.length m.memory.lastGasCost words)
    (h : memoryGasCost m size = some (fee, m')) :
    if size ≤ exactBound then
      fee = memoryFee (max words (toWordSize size)) - memoryFee words ∧
        PaidUp (m'.memory.resize size).store.length m'.memory.lastGasCost
          (max words (toWordSize size))
    else fee ≠ memoryFee (max words (toWordSize size)) - memoryFee words := by
  obtain ⟨hbound, hcases⟩ := memoryGasCost_cases h
  obtain ⟨hwords, hlast, hlt⟩ := hpaid
  have hmul := toWordSize_mul hbound
  have hexact := le_exactBound_iff hbound
  rw [length_resize]
  rcases hcases with ⟨hfits, rfl, rfl⟩ | ⟨hgrows, rfl, hm'⟩
  · have hmax : max words (toWordSize size) = words := by omega
    rw [if_pos (hexact.2 (by omega)), hmax]
    exact ⟨(Nat.sub_self _).symm, by omega, hlast, hlt⟩
  · have hmax : max words (toWordSize size) = toWordSize size := by omega
    rw [hmax, hlast, hm']
    split
    · rename_i hsize
      have hsmall := hexact.1 hsize
      have hmono : memoryFee words ≤ memoryFee (toWordSize size) := memoryFee_mono (by omega)
      have hfee := memoryFee_lt (w := toWordSize size) (by omega)
      rw [wrappedFee_of_lt hsmall]
      exact ⟨by unfold u64; omega, by dsimp only; omega, rfl, hsmall⟩
    · rename_i hsize
      exact charge_ne (by omega) (by omega) (toWordSize_lt hbound)

theorem sum_exactCharges (words : Nat) (sizes : List Nat) :
    memoryFee words + (exactCharges words sizes).sum = memoryFee (largest words sizes) := by
  induction sizes generalizing words with
  | nil => rfl
  | cons size sizes ih =>
    have hmono : memoryFee words ≤ memoryFee (max words (toWordSize size)) :=
      memoryFee_mono (Nat.le_max_left _ _)
    have ih := ih (max words (toWordSize size))
    unfold exactCharges
    rw [sum_cons]
    show _ = memoryFee (largest (max words (toWordSize size)) sizes)
    omega

theorem charges_exact_iff (hpaid : PaidUp length last words) (h : Requests length last sizes fees) :
    fees = exactCharges words sizes ↔ ∀ size ∈ sizes, size ≤ exactBound := by
  induction h generalizing words with
  | nil => exact ⟨fun _ _ hmem => (nomatch hmem), fun _ => rfl⟩
  | cons hcost htail ih =>
    have hspec := request_spec hpaid hcost
    unfold exactCharges
    rw [cons.injEq, forall_mem_cons]
    split at hspec
    · rename_i hsize
      obtain ⟨hfee, hnext⟩ := hspec
      exact and_congr ⟨fun _ => hsize, fun _ => hfee⟩ (ih hnext)
    · rename_i hsize
      exact ⟨fun h => absurd h.1 hspec, fun h => absurd h.1 hsize⟩

/-- **Memory is paid for exactly** as long as no request has 2^32 words or more: each charge is the
difference of the fees, and they add up to the fee of the largest size. -/
theorem memory_paid_exactly_iff (h : Requests 0 0 sizes fees) :
    (fees = exactCharges 0 sizes ∧ fees.sum = memoryFee (largest 0 sizes)) ↔
      ∀ size ∈ sizes, size ≤ exactBound := by
  have hiff := charges_exact_iff ⟨rfl, rfl, by decide⟩ h
  refine ⟨fun hp => hiff.1 hp.1, fun hs => ?_⟩
  have hfees := hiff.2 hs
  refine ⟨hfees, ?_⟩
  have hsum := sum_exactCharges 0 sizes
  rw [← hfees, show memoryFee 0 = 0 from rfl] at hsum
  omega

def freshMachine : Machine := ⟨0, [], .new, 0, [], 0⟩

theorem requests_one (p : Machine) (h : memoryGasCost freshMachine size = some (fee, p)) :
    Requests 0 0 [size] [fee] :=
  .cons h (.nil _ _)

/-- A machine that has been charged one word of memory. -/
def grownMachine (length : Nat) : Machine :=
  { freshMachine with memory := ⟨List.replicate length 0, 1⟩ }

theorem memory_paid_exactly_three :
    [1, 0, 4] = exactCharges 0 [32, 20, 160] ∧
      [1, 0, 4].sum = memoryFee (largest 0 [32, 20, 160]) := by
  have hrequests : Requests 0 0 [32, 20, 160] [1, 0, 4] :=
    .cons (show memoryGasCost freshMachine 32 = some (1, grownMachine 0) by decide +kernel)
      (.cons (show memoryGasCost (grownMachine 32) 20 = some (0, grownMachine 32) by decide +kernel)
        (.cons (show memoryGasCost (grownMachine 32) 160 =
          some (4, { grownMachine 32 with memory := ⟨List.replicate 32 0, 5⟩ }) by decide +kernel)
          (.nil _ _)))
  exact (memory_paid_exactly_iff hrequests).2 (by decide)

/-- 2^32 words are charged 2^32 units: the square, 2^64, is lost. -/
theorem not_memory_paid_exactly :
    Requests 0 0 [2 ^ 37] [2 ^ 32] ∧ memoryFee (largest 0 [2 ^ 37]) = 2 ^ 32 + 2 ^ 54 ∧
      [2 ^ 32] ≠ exactCharges 0 [2 ^ 37] :=
  ⟨requests_one { freshMachine with memory := ⟨[], 2 ^ 32⟩ } (by decide +kernel),
    by decide +kernel, by decide +kernel⟩

end GoAoa.VM
