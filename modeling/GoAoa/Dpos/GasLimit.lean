import GoAoa.Dpos.Verify

/-!
# The gas limit of the next block

`CalcGasLimit` of `core/block_validator.go` with the cap of the producer, against the bounds of
`verifyHeader`. The target `params.TargetGasLimit` is a setting of the producer's node. The
validator lets the limit of a block move by less than a 512th of the limit before it, and knows no
cap. The producer's own formula keeps to these bounds, so its limit is refused only if the cap, or
the minimum, is too far away.
-/

namespace GoAoa.Dpos

open List

/-- `params.MaxGasLimit`, the producer's cap. -/
def producerCap : Nat := 300000000

/-- `CalcGasLimit`, in `uint64` arithmetic. -/
def calcGasLimit (targetGasLimit : Nat) (parent : Header) : Nat :=
  let contrib := u64 (parent.gasUsed + parent.gasUsed / 2 : Nat) / gasLimitBoundDivisor
  let decay := u64 ((parent.gasLimit / gasLimitBoundDivisor : Nat) - 1)
  let limit := u64 (u64 (parent.gasLimit - decay) + contrib)
  let limit := if limit < minGasLimit then minGasLimit else limit
  if limit < targetGasLimit then
    let limit := u64 (parent.gasLimit + decay)
    if targetGasLimit < limit then targetGasLimit else limit
  else limit

/-- The limit that `produceBlockCallback` sets. -/
def producerGasLimit (targetGasLimit : Nat) (parent : Header) : Nat :=
  if producerCap < calcGasLimit targetGasLimit parent then producerCap
  else calcGasLimit targetGasLimit parent

/-- The error is about the gas limit of the header. -/
def VerifyErr.isGasLimit : VerifyErr → Bool
  | .gasLimitTooHigh _ => true
  | .invalidGasLimit _ _ _ => true
  | _ => false

/-- Whatever else is in the header, no node refuses the producer's limit for the next block. -/
def GasLimitPasses (targetGasLimit : Nat) (parent : Header) : Prop :=
  ∀ now header e, header.gasLimit = producerGasLimit targetGasLimit parent →
    verifyHeader now header parent = .error e → e.isGasLimit = false

/-- Headers that follow one another, each accepted at some time. -/
def Accepted (headers : List Header) : Prop :=
  headers.IsChain fun parent header => ∃ now, verifyHeader now header parent = .ok ()

section

variable {parent header genesis : Header} {now : Int} {target : Nat}

/-! ## What the validator asks for -/

theorem bounds_iff (hparent : parent.gasLimit ≤ maxGasLimit) (hheader : header.gasLimit ≤ maxGasLimit) :
    (let diff := i64 (i64 parent.gasLimit - i64 header.gasLimit)
     let diff := if diff < 0 then i64 (-diff) else diff
     parent.gasLimit / gasLimitBoundDivisor ≤ u64 diff ∨ header.gasLimit < minGasLimit) ↔
    ¬ (parent.gasLimit < header.gasLimit + parent.gasLimit / 512 ∧
      header.gasLimit < parent.gasLimit + parent.gasLimit / 512 ∧
      minGasLimit ≤ header.gasLimit) := by
  unfold maxGasLimit at hparent hheader
  dsimp only
  rw [i64_of_range (x := parent.gasLimit) (by omega) (by omega),
    i64_of_range (x := header.gasLimit) (by omega) (by omega),
    i64_of_range (by omega) (by omega)]
  unfold gasLimitBoundDivisor
  split
  · rw [i64_of_range (by omega) (by omega)]
    unfold u64
    omega
  · unfold u64
    omega

theorem verifyHeader_ok (h : verifyHeader now header parent = .ok ()) :
    header.gasUsed ≤ header.gasLimit ∧ header.gasLimit ≤ maxGasLimit ∧
      minGasLimit ≤ header.gasLimit := by
  unfold verifyHeader at h
  split at h
  · cases h
  split at h
  · cases h
  split at h
  · cases h
  split at h
  · cases h
  split at h
  · cases h
  dsimp only at h
  generalize u64 _ = diff at h
  split at h
  · cases h
  · omega

theorem Accepted.last {headers : List Header} (h : Accepted (genesis :: headers))
    (hused : genesis.gasUsed ≤ genesis.gasLimit) (hlimit : genesis.gasLimit ≤ maxGasLimit) :
    ∀ x ∈ genesis :: headers, x.gasUsed ≤ x.gasLimit ∧ x.gasLimit ≤ maxGasLimit := by
  induction headers generalizing genesis with
  | nil =>
    intro x hx
    obtain rfl := mem_singleton.1 hx
    exact ⟨hused, hlimit⟩
  | cons header headers ih =>
    obtain ⟨⟨now, hok⟩, hrest⟩ := isChain_cons_cons.1 h
    obtain ⟨hused', hlimit', -⟩ := verifyHeader_ok hok
    intro x hx
    rcases mem_cons.1 hx with rfl | hx
    · exact ⟨hused, hlimit⟩
    · exact ih hrest hused' hlimit' x hx

/-! ## What the producer computes -/

section

variable (hused : parent.gasUsed ≤ parent.gasLimit)
include hused

/-- The limits that the producer can come to: below the target it rises, otherwise it follows the gas
used. -/
theorem calcGasLimit_cases (target : Nat) (hlimit : parent.gasLimit ≤ maxGasLimit)
    (hpos : 512 ≤ parent.gasLimit) :
    let follow := max minGasLimit (parent.gasLimit - (parent.gasLimit / 512 - 1) +
      (parent.gasUsed + parent.gasUsed / 2) / 512)
    (target ≤ follow ∧ calcGasLimit target parent = follow) ∨
    (follow < target ∧
      calcGasLimit target parent = min target (parent.gasLimit + (parent.gasLimit / 512 - 1))) := by
  unfold maxGasLimit at hlimit
  have hcontrib : u64 (parent.gasUsed + parent.gasUsed / 2 : Nat) =
      parent.gasUsed + parent.gasUsed / 2 := u64_of_lt (by omega)
  have hdecay : u64 ((parent.gasLimit / 512 : Nat) - 1) = parent.gasLimit / 512 - 1 := by
    unfold u64
    omega
  have hlow : u64 ((parent.gasLimit : Int) - (parent.gasLimit / 512 - 1 : Nat)) =
      parent.gasLimit - (parent.gasLimit / 512 - 1) := by
    unfold u64
    omega
  have hfollow : u64 ((parent.gasLimit - (parent.gasLimit / 512 - 1) : Nat) +
      ((parent.gasUsed + parent.gasUsed / 2) / 512 : Nat)) =
      parent.gasLimit - (parent.gasLimit / 512 - 1) +
        (parent.gasUsed + parent.gasUsed / 2) / 512 := by
    unfold u64
    omega
  have hrise : u64 ((parent.gasLimit : Int) + (parent.gasLimit / 512 - 1 : Nat)) =
      parent.gasLimit + (parent.gasLimit / 512 - 1) := by
    unfold u64
    omega
  unfold calcGasLimit gasLimitBoundDivisor
  dsimp only
  rw [hcontrib, hdecay, hlow, hfollow, hrise]
  generalize parent.gasLimit - (parent.gasLimit / 512 - 1) +
    (parent.gasUsed + parent.gasUsed / 2) / 512 = follow
  generalize parent.gasLimit + (parent.gasLimit / 512 - 1) = rise
  rw [show (if follow < minGasLimit then minGasLimit else follow) = max minGasLimit follow by
    split <;> omega]
  generalize max minGasLimit follow = floor
  by_cases htarget : target ≤ floor
  · rw [if_neg (Nat.not_lt.2 htarget)]
    exact .inl ⟨htarget, rfl⟩
  · rw [if_pos (Nat.lt_of_not_le htarget)]
    refine .inr ⟨Nat.lt_of_not_le htarget, ?_⟩
    split <;> omega

/-- Below the divisor the decay wraps around, and the limit is far from where it has to be. -/
theorem calcGasLimit_small (target : Nat) (hpos : parent.gasLimit < 512) :
    calcGasLimit target parent ≤ minGasLimit ∨ parent.gasLimit = 0 := by
  have hcontrib : u64 (parent.gasUsed + parent.gasUsed / 2 : Nat) =
      parent.gasUsed + parent.gasUsed / 2 := u64_of_lt (by omega)
  have hdecay : u64 ((parent.gasLimit / 512 : Nat) - 1) = 2 ^ 64 - 1 := by
    unfold u64
    omega
  have hlow : u64 ((parent.gasLimit : Int) - (2 ^ 64 - 1 : Nat)) = parent.gasLimit + 1 := by
    unfold u64
    omega
  have hfollow : u64 ((parent.gasLimit + 1 : Nat) +
      ((parent.gasUsed + parent.gasUsed / 2) / 512 : Nat)) < minGasLimit := by
    have hle : (parent.gasUsed + parent.gasUsed / 2) / 512 ≤ 2 := by omega
    generalize (parent.gasUsed + parent.gasUsed / 2) / 512 = contrib at hle
    unfold u64 minGasLimit
    omega
  by_cases hzero : parent.gasLimit = 0
  · exact .inr hzero
  · have hrise : u64 ((parent.gasLimit : Int) + (2 ^ 64 - 1 : Nat)) = parent.gasLimit - 1 := by
      unfold u64
      omega
    left
    unfold calcGasLimit gasLimitBoundDivisor
    dsimp only
    rw [hcontrib, hdecay, hlow, hrise, if_pos hfollow]
    split
    · unfold minGasLimit
      split <;> omega
    · exact Nat.le_refl _

end

/-- **The producer's limit is within the bounds** unless the cap or the minimum is out of reach. -/
theorem producerGasLimit_bounds (hused : parent.gasUsed ≤ parent.gasLimit)
    (hlimit : parent.gasLimit ≤ maxGasLimit) :
    (parent.gasLimit < producerGasLimit target parent + parent.gasLimit / 512 ∧
      producerGasLimit target parent < parent.gasLimit + parent.gasLimit / 512 ∧
      minGasLimit ≤ producerGasLimit target parent) ↔
    minGasLimit < parent.gasLimit + parent.gasLimit / 512 ∧
      parent.gasLimit < producerCap + parent.gasLimit / 512 := by
  unfold producerGasLimit
  by_cases hpos : 512 ≤ parent.gasLimit
  · have hcases := calcGasLimit_cases hused target hlimit hpos
    unfold minGasLimit at hcases ⊢
    unfold producerCap
    rcases hcases with ⟨htarget, hcalc⟩ | ⟨htarget, hcalc⟩ <;> rw [hcalc] <;> split <;> omega
  · have hsmall := calcGasLimit_small hused target (by omega)
    unfold minGasLimit producerCap at *
    split <;> omega

/-! ## The producer's limit and the validator -/

theorem producerGasLimit_le : producerGasLimit target parent ≤ maxGasLimit := by
  unfold producerGasLimit producerCap maxGasLimit
  split <;> omega

theorem gasLimitPasses_iff (hlimit : parent.gasLimit ≤ maxGasLimit) :
    GasLimitPasses target parent ↔
      parent.gasLimit < producerGasLimit target parent + parent.gasLimit / 512 ∧
      producerGasLimit target parent < parent.gasLimit + parent.gasLimit / 512 ∧
      minGasLimit ≤ producerGasLimit target parent := by
  constructor
  · -- a header with nothing else to object to
    intro h
    let next : Header :=
      { parent with
        extra := [], time := parent.time + 1, gasUsed := 0, number := parent.number + 1
        gasLimit := producerGasLimit target parent }
    by_contra hnot
    have hnext : next.gasLimit ≤ maxGasLimit := producerGasLimit_le
    have hbounds := (bounds_iff hlimit hnext).2 hnot
    have herr : verifyHeader (parent.time + 1) next parent =
        .error (.invalidGasLimit (producerGasLimit target parent) parent.gasLimit
          (parent.gasLimit / gasLimitBoundDivisor)) := by
      unfold verifyHeader
      have hextra : ¬ maximumExtraDataSize < next.extra.length := by simp [next]
      have hfuture : ¬ ((parent.time + 1 : Int) + allowedFutureBlockTime < next.time) := by
        unfold allowedFutureBlockTime
        simp only [next]
        omega
      have htime : ¬ next.time ≤ parent.time := by
        simp only [next]
        omega
      have hmax : ¬ maxGasLimit < next.gasLimit := Nat.not_lt.2 producerGasLimit_le
      have hgas : ¬ next.gasLimit < next.gasUsed := by simp [next]
      rw [if_neg hextra, if_neg hfuture, if_neg htime, if_neg hmax, if_neg hgas]
      rw [if_pos hbounds]
    have := h _ next _ rfl herr
    cases this
  · intro hbounds now header e hgas herr
    rw [← hgas] at hbounds
    have hmax := hgas ▸ producerGasLimit_le
    unfold verifyHeader at herr
    split at herr
    · cases herr
      rfl
    split at herr
    · cases herr
      rfl
    split at herr
    · cases herr
      rfl
    rw [if_neg (by omega)] at herr
    split at herr
    · cases herr
      rfl
    have hgood := mt (bounds_iff hlimit hmax).1 (not_not.2 hbounds)
    rw [if_neg hgood] at herr
    split at herr
    · cases herr
      rfl
    · cases herr

/-- **On every chain of accepted headers, and whatever the target of the producer, its limit for the
next block is accepted exactly if the cap and the minimum are within reach of the limit of the last
block.** -/
theorem producer_gasLimit_iff {headers : List Header} (target : Nat)
    (h : Accepted (genesis :: headers)) (hused : genesis.gasUsed ≤ genesis.gasLimit)
    (hlimit : genesis.gasLimit ≤ maxGasLimit)
    (hlast : parent ∈ (genesis :: headers).getLast?) :
    GasLimitPasses target parent ↔ minGasLimit < parent.gasLimit + parent.gasLimit / 512 ∧
        parent.gasLimit < producerCap + parent.gasLimit / 512 := by
  obtain ⟨hused', hlimit'⟩ := h.last hused hlimit parent (mem_of_getLast? hlast)
  rw [gasLimitPasses_iff hlimit', producerGasLimit_bounds hused' hlimit']

end

/-! ## A chain that rises above the cap -/

def genesisHeader : Header :=
  ⟨0, 0, 0, 0, 0, 0, 0, 250000000, 0, 0, [], [], 0, 0, 0⟩

def rise (parent : Header) : Header :=
  { parent with
    number := parent.number + 1, time := parent.time + 1
    gasLimit := parent.gasLimit + (parent.gasLimit / 512 - 1) }

def rising (n : Nat) : List Header := iterate rise (rise genesisHeader) n

theorem accepted_rising {n : Nat} (h : (genesisHeader :: rising n).IsChain fun parent header =>
    verifyHeader header.time header parent = .ok ()) : Accepted (genesisHeader :: rising n) :=
  h.imp fun _ _ h => ⟨_, h⟩

/-- After ten blocks the limit is still within reach, also for a producer with a higher target. -/
theorem producer_gasLimit_ten : ∃ parent, Accepted (genesisHeader :: rising 10) ∧
    (genesisHeader :: rising 10).getLast? = some parent ∧ GasLimitPasses 280000000 parent := by
  have haccepted := accepted_rising (n := 10) (by decide +kernel)
  have hlast : ((genesisHeader :: rising 10).getLast?).map (fun parent =>
      (minGasLimit < parent.gasLimit + parent.gasLimit / 512 ∧
        parent.gasLimit < producerCap + parent.gasLimit / 512 : Bool)) = some true := by
    decide +kernel
  obtain ⟨parent, hparent, hreach⟩ := Option.map_eq_some_iff.1 hlast
  exact ⟨parent, haccepted, hparent, (producer_gasLimit_iff 280000000 haccepted (by decide)
    (by decide) hparent).2 (of_decide_eq_true hreach)⟩

/-- **After 95 blocks the cap is out of reach**, and the producer's limit is refused. -/
theorem not_gasLimitPasses_rising : ∃ parent, Accepted (genesisHeader :: rising 95) ∧
    (genesisHeader :: rising 95).getLast? = some parent ∧ ¬ GasLimitPasses 250000000 parent := by
  have hlast : ((genesisHeader :: rising 95).getLast?).map (fun parent =>
      (decide (parent.gasLimit ≤ maxGasLimit), parent.gasLimit,
        producerGasLimit 250000000 parent)) = some (true, 300914544, 300000000) := by decide +kernel
  obtain ⟨parent, hparent, hle, heq⟩ := map_mk_eq_some.1 hlast
  obtain ⟨hgas, hprod⟩ := Prod.mk.inj heq
  refine ⟨parent, accepted_rising (by decide +kernel), hparent, fun hpass => ?_⟩
  have hbounds := (gasLimitPasses_iff (of_decide_eq_true hle)).1 hpass
  rw [hgas, hprod] at hbounds
  exact absurd hbounds.1 (by decide)

end GoAoa.Dpos
