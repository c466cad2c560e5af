import GoAoa.Dpos.Crypto
import GoAoa.Lib.Outcome
import Mathlib.Data.Finset.Card

/-!
# Header and certificate checks

`consensus/dpos/dpos_consensus.go`: the header rules, the check of the producer's slot and
signature, and the check of the delegates' signatures that commit a block. Each check reads
the clock once (`now`, in seconds). The key recovery in the last two ignores its error and
dereferences the missing key, so an unrecoverable signature panics.
-/

namespace GoAoa.Dpos

open List Option

/-- What the checks read from the chain: `Config().MaxElectDelegate` and `GetHeader`. -/
structure ChainReader where
  maxElectDelegate : Nat
  getHeader : Hash → Nat → Option Header

/-- The errors of the checks, with the data their messages carry. -/
inductive VerifyErr where
  | extraDataTooLong (have_ : Nat)
  | errFutureBlock
  | errZeroBlockTime
  | gasLimitTooHigh (have_ : Nat)
  | invalidGasUsed (have_ gasLimit : Nat)
  | invalidGasLimit (have_ want limit : Nat)
  | errInvalidNumber
  | blockTimeExpire (number blockTime : Nat) (currentTime : Int)
  | unknownAncestor (number : Nat) (parentHash : Hash)
  | missSignature (number : Nat)
  | coinbaseNotInList (coinbase : Address)
  | timeStampNotSame (number : Nat) (coinbase : Address) (blockTime shuffleTime : Nat)
  | signAddressError (number : Nat) (coinbase signAddress : Address)
  | decodeSigns
  | delegateSignNotEnough (number need actual : Nat)
  deriving DecidableEq, Repr

def maximumExtraDataSize : Nat := 16
def gasLimitBoundDivisor : Nat := 512
def minGasLimit : Nat := 200000000
def maxGasLimit : Nat := 0x7fffffffffffffff
/-- Seconds a block may lie in the future. -/
def allowedFutureBlockTime : Int := 15

def verifyHeader (now : Int) (header parent : Header) : Except VerifyErr Unit :=
  if maximumExtraDataSize < header.extra.length then .error (.extraDataTooLong header.extra.length)
  else if now + allowedFutureBlockTime < header.time then .error .errFutureBlock
  else if header.time ≤ parent.time then .error .errZeroBlockTime
  else if maxGasLimit < header.gasLimit then .error (.gasLimitTooHigh header.gasLimit)
  else if header.gasLimit < header.gasUsed then
    .error (.invalidGasUsed header.gasUsed header.gasLimit)
  else
    let diff := i64 (i64 parent.gasLimit - i64 header.gasLimit)
    let diff := if diff < 0 then i64 (-diff) else diff
    let limit := parent.gasLimit / gasLimitBoundDivisor
    if limit ≤ u64 diff ∨ header.gasLimit < minGasLimit then
      .error (.invalidGasLimit header.gasLimit parent.gasLimit limit)
    else if header.number ≠ parent.number + 1 then .error .errInvalidNumber
    else .ok ()

/-- The producer's slot and signature, the last part of `VerifyHeaderAndSign`. -/
def verifyProducer (C : Crypto) (b : Block) (list : ShuffleList) : Outcome VerifyErr Unit :=
  let number := b.numberU64
  let coinbase := b.header.coinbase
  let blockTime := u64 b.header.time
  if b.signature = [] then .err (.missSignature number)
  else
    match list.shuffleDels.find? (·.address == coinbase) with
    | none => .err (.coinbaseNotInList coinbase)
    | some delegate =>
      if blockTime ≠ delegate.workTime then
        .err (.timeStampNotSame number coinbase blockTime delegate.workTime)
      else
        match C.recover (b.hash C) b.signature with
        | none => .panic
        | some a => if a ≠ coinbase then .err (.signAddressError number coinbase a) else .ok ()

def verifyHeaderAndSign (C : Crypto) (chain : ChainReader) (now : Int) (b : Block)
    (list : ShuffleList) (blockInterval : Int) : Outcome VerifyErr Unit :=
  let number := b.numberU64
  let blockTime := u64 b.header.time
  if now < i64 blockTime ∨ i64 (i64 blockTime + blockInterval) ≤ now then
    .err (.blockTimeExpire number blockTime now)
  else
    match chain.getHeader b.header.parentHash (u64 (number - 1)) with
    | none => .err (.unknownAncestor number b.header.parentHash)
    | some parent =>
      (Outcome.ofExcept (verifyHeader now b.header parent)).bind fun _ => verifyProducer C b list

/-- More than this many signatures commit a block: `(maxElectDelegate / 3) * 2`. -/
def delegateAmount (maxElectDelegate : Nat) : Nat := maxElectDelegate / 3 * 2

/-- The loop over the signatures. `m` holds the keys of `checkSignAddressMap`; the vote a
signature is labelled with is not looked at. -/
def checkSigns (C : Crypto) (h : Hash) (list : ShuffleList) :
    List VoteSign → List Address → Option (List Address)
  | [], m => some m
  | s :: ss, m =>
    match C.recover h s.sign with
    | none => none
    | some a => checkSigns C h list ss (if list.contains a then m.insert a else m)

def verifyBlockGenerate (C : Crypto) (chain : ChainReader) (now : Int) (b : Block)
    (list : ShuffleList) (blockInterval : Int) : Outcome VerifyErr Unit :=
  let amount := delegateAmount chain.maxElectDelegate
  (verifyHeaderAndSign C chain now b list blockInterval).bind fun _ =>
    match b.rlpEncodeSigns with
    | none => .err .decodeSigns
    | some signs =>
      match checkSigns C (b.hash C) list signs [] with
      | none => .panic
      | some m =>
        if amount < m.length then .ok ()
        else .err (.delegateSignNotEnough (b.numberU64) amount m.length)

/-! ## What acceptance means -/

def signers (C : Crypto) (h : Hash) (list : ShuffleList) (signs : List VoteSign) : Finset Address :=
  list.addresses.toFinset.filter fun a => ∃ s ∈ signs, C.recover h s.sign = some a

variable {C : Crypto} {h : Hash} {list : ShuffleList}

theorem mem_signers {signs : List VoteSign} {a : Address} :
    a ∈ signers C h list signs ↔ a ∈ list.addresses ∧ ∃ s ∈ signs, C.recover h s.sign = some a := by
  simp [signers]

variable {ss : List VoteSign}

theorem checkSigns_spec
    {m m' : List Address} (hc : checkSigns C h list ss m = some m') (hm : m.Nodup) :
    m'.Nodup ∧ ∀ a, a ∈ m' ↔ a ∈ m ∨ a ∈ signers C h list ss := by
  induction ss generalizing m with
  | nil =>
    simp only [checkSigns, some.injEq] at hc
    subst hc
    exact ⟨hm, fun a => by simp [mem_signers]⟩
  | cons s ss ih =>
    simp only [checkSigns] at hc
    cases hr : C.recover h s.sign with
    | none => rw [hr] at hc; cases hc
    | some b =>
      rw [hr] at hc
      by_cases hb : list.contains b
      · simp only [hb, if_true] at hc
        obtain ⟨h1, h2⟩ := ih hc (hm.insert)
        refine ⟨h1, fun a => ?_⟩
        rw [ShuffleList.contains_iff] at hb
        simp only [h2, mem_insert_iff, mem_signers, exists_mem_cons_iff, hr, some.injEq]
        grind
      · simp only [hb] at hc
        obtain ⟨h1, h2⟩ := ih hc hm
        refine ⟨h1, fun a => ?_⟩
        rw [ShuffleList.contains_iff] at hb
        simp only [h2, mem_signers, exists_mem_cons_iff, hr, some.injEq]
        grind

theorem checkSigns_length {m : List Address} (hc : checkSigns C h list ss [] = some m) :
    m.length = (signers C h list ss).card := by
  obtain ⟨hn, hm⟩ := checkSigns_spec hc nodup_nil
  rw [← toFinset_card_of_nodup hn]
  congr 1
  ext a
  simp [hm]

theorem checkSigns_isSome (list : ShuffleList)
    (m : List Address) (hs : ∀ s ∈ ss, (C.recover h s.sign).isSome) :
    ∃ m', checkSigns C h list ss m = some m' := by
  induction ss generalizing m with
  | nil => exact ⟨m, rfl⟩
  | cons s ss ih =>
    obtain ⟨a, ha⟩ := isSome_iff_exists.1 (hs s mem_cons_self)
    simp only [checkSigns, ha]
    exact ih _ fun s' hs' => hs s' (mem_cons_of_mem _ hs')

variable {chain : ChainReader} {now : Int} {b : Block} {blockInterval : Int}

/-- **Acceptance of a certificate**: the producer check passes and more than
`(maxElectDelegate / 3) * 2` delegates of the list have signed the hash. -/
theorem verifyBlockGenerate_ok
    (h : verifyBlockGenerate C chain now b list blockInterval = .ok ()) :
    verifyHeaderAndSign C chain now b list blockInterval = .ok () ∧
      ∃ signs, b.rlpEncodeSigns = some signs ∧
        delegateAmount chain.maxElectDelegate < (signers C (b.hash C) list signs).card := by
  simp only [verifyBlockGenerate, Outcome.bind_eq_ok] at h
  obtain ⟨⟨⟩, h1, h2⟩ := h
  refine ⟨h1, ?_⟩
  cases hs : b.rlpEncodeSigns with
  | none => simp [hs] at h2
  | some signs =>
    cases hc : checkSigns C (b.hash C) list signs [] with
    | none => simp [hs, hc] at h2
    | some =>
      refine ⟨signs, rfl, ?_⟩
      simp only [hs, hc, checkSigns_length hc] at h2
      split at h2
      · assumption
      · cases h2

theorem verifyBlockGenerate_of_signers {signs : List VoteSign}
    (hv : verifyHeaderAndSign C chain now b list blockInterval = .ok ())
    (hb : b.rlpEncodeSigns = some signs) (hr : ∀ s ∈ signs, (C.recover (b.hash C) s.sign).isSome)
    (hn : delegateAmount chain.maxElectDelegate < (signers C (b.hash C) list signs).card) :
    verifyBlockGenerate C chain now b list blockInterval = .ok () := by
  obtain ⟨m, hm⟩ := checkSigns_isSome list [] hr
  rw [← checkSigns_length hm] at hn
  simp only [verifyBlockGenerate, Outcome.bind_eq_ok]
  exact ⟨(), hv, by simp [hb, hm, hn]⟩

/-- The producer check reads neither the transactions nor the commit signatures. -/
theorem verifyHeaderAndSign_congr {b' : Block} (hh : b.header = b'.header)
    (hs : b.signature = b'.signature) :
    verifyHeaderAndSign C chain now b list blockInterval =
      verifyHeaderAndSign C chain now b' list blockInterval := by
  unfold verifyHeaderAndSign verifyProducer Block.hash Block.numberU64
  rw [hh, hs]

/-- A block without a producer signature, such as one assembled from a header and a body, never
passes. -/
theorem verifyHeaderAndSign_unsigned (hs : b.signature = []) :
    verifyHeaderAndSign C chain now b list blockInterval ≠ .ok () := by
  unfold verifyHeaderAndSign
  dsimp only
  split
  · simp
  · split
    · simp
    · simp [verifyProducer, hs]

/-! ## Future blocks -/

theorem errFutureBlock_of_verifyHeader {header parent : Header}
    (h : verifyHeader now header parent = .error .errFutureBlock) :
    now + allowedFutureBlockTime < header.time := by
  unfold verifyHeader at h
  dsimp only at h
  split at h
  · cases h
  · split at h
    · assumption
    · repeat' split at h
      all_goals cases h

theorem verifyProducer_ne_errFutureBlock (C : Crypto) (b : Block) (list : ShuffleList) :
    verifyProducer C b list ≠ .err .errFutureBlock := by
  unfold verifyProducer
  dsimp only
  split
  · simp
  · split
    · simp
    · split
      · simp
      · split
        · simp
        · split <;> simp

/-- The full check calls a block a future one only if the header rules do, for the parent it
found and with the clock inside the slot. -/
theorem verifyHeaderAndSign_errFutureBlock
    (h : verifyHeaderAndSign C chain now b list blockInterval = .err .errFutureBlock) :
    ¬ (now < i64 (u64 b.header.time) ∨ i64 (i64 (u64 b.header.time) + blockInterval) ≤ now) ∧
      ∃ parent, chain.getHeader b.header.parentHash (u64 (b.numberU64 - 1)) = some parent ∧
        verifyHeader now b.header parent = .error .errFutureBlock := by
  unfold verifyHeaderAndSign at h
  dsimp only at h
  split at h
  · cases h
  · rename_i hslot
    refine ⟨hslot, ?_⟩
    split at h
    · cases h
    · rename_i parent hp
      refine ⟨parent, hp, ?_⟩
      cases hv : verifyHeader now b.header parent with
      | error =>
        rw [hv] at h
        simp only [Outcome.ofExcept, Outcome.bind, Outcome.err.injEq] at h
        rw [h]
      | ok =>
        rw [hv] at h
        exact absurd h (verifyProducer_ne_errFutureBlock C b list)

/-- A block in its slot is ahead of the clock only when its time does not fit 64 bits, and then
it is far ahead. -/
theorem far_future {t : Nat} (hd : 0 < blockInterval ∧ blockInterval < 2 ^ 32)
    (h1 : ¬ (now < i64 (u64 t) ∨ i64 (i64 (u64 t) + blockInterval) ≤ now))
    (h2 : now + allowedFutureBlockTime < t) : now + 30 < t := by
  unfold i64 u64 allowedFutureBlockTime at *
  simp only [Int.bmod_def] at h1
  omega

end GoAoa.Dpos
