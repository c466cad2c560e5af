import GoAoa.Dpos.Certificate

/-!
# Checks of hostile blocks

`crypto/crypto.go` and the two checks of `consensus/dpos/dpos_consensus.go` on arbitrary blocks. A
signature goes through `RecoverPubkey`, `ToECDSAPub` and `PubkeyToAddress`; the checks drop the
error of the first, and the other two then meet a missing key. `verify_total_iff` says for which
blocks the checks return.
-/

namespace GoAoa.Dpos

open List Option FixedWidth

/-- A point with coordinates, or the one with none that `elliptic.Unmarshal` returns for bytes that
are no point. -/
abbrev PublicKey := Option (Nat × Nat)

/-- What the address of a signer is computed with. -/
structure KeyRecovery where
  /-- `Header.Hash`. -/
  headerHash : Header → Hash
  /-- `secp256k1.RecoverPubkey`: a key of 65 bytes or an error. -/
  recoverPubkey : Hash → Bytes → Option Bytes
  recoverPubkey_length : ∀ h s key, recoverPubkey h s = some key → key.length = 65
  /-- `elliptic.Unmarshal` and `elliptic.Marshal` of the curve. -/
  unmarshal : Bytes → PublicKey
  marshal : Nat × Nat → Bytes
  marshal_length : ∀ p, (marshal p).length = 65
  /-- The last 20 bytes of the Keccak hash. -/
  keccakAddress : Bytes → Address
  sign : Address → Hash → Bytes
  sign_ne_nil : ∀ a h, sign a h ≠ []
  recover_sign : ∀ a h, ∃ key p, recoverPubkey h (sign a h) = some key ∧ unmarshal key = some p ∧
    keccakAddress ((marshal p).drop 1) = a

namespace KeyRecovery

variable (K : KeyRecovery)

/-- `ToECDSAPub`; `none` is the nil pointer. -/
def toECDSAPub (pub : Bytes) : Option PublicKey :=
  if pub.length = 0 then none else some (K.unmarshal pub)

def fromECDSAPub : PublicKey → Bytes
  | none => []
  | some p => K.marshal p

/-- `PubkeyToAddress`, which cuts the first byte off; `none` if there is none. -/
def pubkeyToAddress (p : PublicKey) : Option Address :=
  let pubBytes := K.fromECDSAPub p
  if pubBytes.length < 1 then none else some (K.keccakAddress (pubBytes.drop 1))

/-- The address behind a signature as the checks compute it: the error of the recovery is dropped,
and the pointer is dereferenced. `none` is a panic. -/
def signAddress (h : Hash) (sign : Bytes) : Option Address :=
  (K.toECDSAPub ((K.recoverPubkey h sign).getD [])).bind K.pubkeyToAddress

/-- The signature has a key, and the key is a point. -/
def Recovers (h : Hash) (sign : Bytes) : Prop :=
  ∃ key p, K.recoverPubkey h sign = some key ∧ K.unmarshal key = some p

theorem signAddress_eq {h : Hash} {sign key : Bytes} (hkey : K.recoverPubkey h sign = some key) :
    K.signAddress h sign = (K.unmarshal key).map fun p => K.keccakAddress ((K.marshal p).drop 1) := by
  have hlength := K.recoverPubkey_length h sign key hkey
  unfold signAddress toECDSAPub
  rw [hkey, getD_some, if_neg (by omega), bind_some, pubkeyToAddress]
  cases K.unmarshal key with
  | none => rfl
  | some p =>
    have hmarshal : (K.fromECDSAPub (some p)).length = 65 := K.marshal_length p
    rw [if_neg (by omega)]
    rfl

/-- **When the address of a signer is computed.** -/
theorem signAddress_isSome_iff {h : Hash} {sign : Bytes} :
    (K.signAddress h sign).isSome ↔ K.Recovers h sign := by
  unfold Recovers
  cases hkey : K.recoverPubkey h sign with
  | none => simp [signAddress, hkey, toECDSAPub]
  | some => simp [K.signAddress_eq hkey, isSome_iff_exists]

/-- The cryptography of the consensus code, from the parts of `crypto.go`. -/
def crypto : Crypto where
  headerHash := K.headerHash
  recover := K.signAddress
  sign := K.sign
  sign_ne_nil := K.sign_ne_nil
  recover_sign a h := by
    obtain ⟨key, p, hkey, hp, ha⟩ := K.recover_sign a h
    rw [K.signAddress_eq hkey, hp, map_some, ha]

end KeyRecovery

/-! ## Where the checks stop -/

section

variable {C : Crypto} {chain : ChainReader} {now : Int} {b : Block} {list : ShuffleList}
  {blockInterval : Int}

/-- The block comes as far as its signature: it is in its slot, its parent is known and its header
passes, and its coinbase has the slot. -/
def AtSignature (chain : ChainReader) (now : Int) (b : Block) (list : ShuffleList)
    (blockInterval : Int) : Prop :=
  ¬ (now < i64 (u64 b.header.time) ∨ i64 (i64 (u64 b.header.time) + blockInterval) ≤ now) ∧
    (∃ parent, chain.getHeader b.header.parentHash (u64 (b.numberU64 - 1)) = some parent ∧
      verifyHeader now b.header parent = .ok ()) ∧
    b.signature ≠ [] ∧
    ∃ d, list.shuffleDels.find? (·.address == b.header.coinbase) = some d ∧
      u64 b.header.time = d.workTime

/-- **How `VerifyHeaderAndSign` ends.** A block that comes as far as its signature panics, passes
or is refused by what the signature recovers to; any other is refused. -/
theorem verifyHeaderAndSign_cases : (AtSignature chain now b list blockInterval ∧
      verifyHeaderAndSign C chain now b list blockInterval =
        match C.recover (b.hash C) b.signature with
        | none => .panic
        | some a =>
          if a ≠ b.header.coinbase then .err (.signAddressError b.numberU64 b.header.coinbase a)
          else .ok ()) ∨
    (¬ AtSignature chain now b list blockInterval ∧
      ∃ e, verifyHeaderAndSign C chain now b list blockInterval = .err e) := by
  unfold verifyHeaderAndSign
  by_cases hslot : now < i64 (u64 b.header.time) ∨
      i64 (i64 (u64 b.header.time) + blockInterval) ≤ now
  · rw [if_pos hslot]
    exact .inr ⟨fun h => h.1 hslot, _, rfl⟩
  rw [if_neg hslot]
  cases hparent : chain.getHeader b.header.parentHash (u64 (b.numberU64 - 1)) with
  | none => exact .inr ⟨fun ⟨_, ⟨_, hp, _⟩, _⟩ => (nomatch hparent.symm.trans hp), _, rfl⟩
  | some parent =>
    dsimp only
    cases hheader : verifyHeader now b.header parent with
    | error e =>
      refine .inr ⟨fun ⟨_, ⟨p, hp, hv⟩, _⟩ => ?_, e, rfl⟩
      cases hparent.symm.trans hp
      exact nomatch hheader.symm.trans hv
    | ok =>
      unfold verifyProducer
      by_cases hsign : b.signature = []
      · rw [if_pos hsign]
        exact .inr ⟨fun h => h.2.2.1 hsign, _, rfl⟩
      rw [if_neg hsign]
      cases hfind : list.shuffleDels.find? (·.address == b.header.coinbase) with
      | none => exact .inr ⟨fun ⟨_, _, _, d, hd, _⟩ => (nomatch hfind.symm.trans hd), _, rfl⟩
      | some d =>
        dsimp only
        by_cases htime : u64 b.header.time = d.workTime
        · rw [if_neg (not_not_intro htime)]
          exact .inl ⟨⟨hslot, ⟨parent, hparent, hheader⟩, hsign, d, hfind, htime⟩, rfl⟩
        · rw [if_pos htime]
          refine .inr ⟨fun ⟨_, _, _, d', hd', ht'⟩ => htime ?_, _, rfl⟩
          cases hfind.symm.trans hd'
          exact ht'

theorem checkSigns_eq_none_iff {h : Hash} {ss : List VoteSign} {m : List Address} :
    checkSigns C h list ss m = none ↔ ∃ s ∈ ss, C.recover h s.sign = none := by
  induction ss generalizing m with
  | nil => simp [checkSigns]
  | cons s ss ih =>
    unfold checkSigns
    cases hs : C.recover h s.sign with
    | none => simp [hs]
    | some => simp [hs, ih]

theorem verifyHeaderAndSign_panic_iff :
    verifyHeaderAndSign C chain now b list blockInterval = .panic ↔
      AtSignature chain now b list blockInterval ∧ C.recover (b.hash C) b.signature = none := by
  rcases @verifyHeaderAndSign_cases C chain now b list blockInterval with ⟨hat, heq⟩ | ⟨hnot, e, heq⟩
  · rw [heq]
    cases hrec : C.recover (b.hash C) b.signature with
    | none => simp [hat]
    | some =>
      dsimp only
      split <;> simp
  · simp [heq, hnot]

theorem verifyHeaderAndSign_ok_iff : verifyHeaderAndSign C chain now b list blockInterval = .ok () ↔
      AtSignature chain now b list blockInterval ∧
        C.recover (b.hash C) b.signature = some b.header.coinbase := by
  rcases @verifyHeaderAndSign_cases C chain now b list blockInterval with ⟨hat, heq⟩ | ⟨hnot, e, heq⟩
  · rw [heq]
    cases hrec : C.recover (b.hash C) b.signature with
    | none => simp
    | some =>
      split <;> simp_all
  · simp [heq, hnot]

theorem verifyBlockGenerate_panic_iff :
    verifyBlockGenerate C chain now b list blockInterval = .panic ↔
      verifyHeaderAndSign C chain now b list blockInterval = .panic ∨
        verifyHeaderAndSign C chain now b list blockInterval = .ok () ∧
          ∃ signs, b.rlpEncodeSigns = some signs ∧
            ∃ s ∈ signs, C.recover (b.hash C) s.sign = none := by
  unfold verifyBlockGenerate
  cases verifyHeaderAndSign C chain now b list blockInterval with
  | panic | err => simp [Outcome.bind]
  | ok =>
    cases hsigns : b.rlpEncodeSigns with
    | none => simp [Outcome.bind]
    | some signs =>
      simp only [Outcome.bind]
      cases hcheck : checkSigns C (b.hash C) list signs [] with
      | none =>
        have := checkSigns_eq_none_iff.1 hcheck
        simpa using this
      | some =>
        have hall : ¬ ∃ s ∈ signs, C.recover (b.hash C) s.sign = none := fun h => by
          cases hcheck.symm.trans (checkSigns_eq_none_iff.2 h)
        simp only [reduceCtorEq, true_and, false_or, some.injEq, exists_eq_left', hall]
        split <;> simp

end

/-- **When the checks of a block return.** They do if and only if the block does not come as far as
its signature, or that has a key, and then, if the key is the one of the coinbase, every signature
of the certificate has one. -/
theorem verify_total_iff (K : KeyRecovery) (chain : ChainReader) (now : Int) (b : Block)
    (list : ShuffleList) (blockInterval : Int) :
    (verifyHeaderAndSign K.crypto chain now b list blockInterval ≠ .panic ∧
      verifyBlockGenerate K.crypto chain now b list blockInterval ≠ .panic) ↔
    (AtSignature chain now b list blockInterval → K.Recovers (K.headerHash b.header) b.signature ∧
        (K.signAddress (K.headerHash b.header) b.signature = some b.header.coinbase →
          ∀ signs, b.rlpEncodeSigns = some signs →
            ∀ s ∈ signs, K.Recovers (K.headerHash b.header) s.sign)) := by
  have hrec : ∀ s, K.Recovers (K.headerHash b.header) s ↔
      K.crypto.recover (b.hash K.crypto) s ≠ none := fun s => by
    rw [← K.signAddress_isSome_iff, isSome_iff_ne_none]
    rfl
  have haddr : K.signAddress (K.headerHash b.header) b.signature =
      K.crypto.recover (b.hash K.crypto) b.signature := rfl
  simp only [hrec, haddr, ne_eq, verifyBlockGenerate_panic_iff, verifyHeaderAndSign_panic_iff,
    verifyHeaderAndSign_ok_iff]
  by_cases hat : AtSignature chain now b list blockInterval
  · simp only [hat, true_and, true_imp_iff, not_or, not_and, not_exists]
    exact ⟨fun h => ⟨h.1, h.2.2⟩, fun h => ⟨h.1, h.1, h.2⟩⟩
  · simp [hat]

/-! ## Blocks that stop a node -/

def plainKey (a : Address) : Bytes := 4 :: (replicate 44 0 ++ encode 20 a.toNat)

def plainKeys (headerHash : Header → Hash) : KeyRecovery where
  headerHash := headerHash
  recoverPubkey h s := (Crypto.plainRecover h s).map plainKey
  recoverPubkey_length h s key hkey := by
    obtain ⟨a, -, rfl⟩ := map_eq_some_iff.1 hkey
    simp [plainKey]
  unmarshal key := if key.length = 65 then some (0, decode (key.drop 45)) else none
  marshal p := 4 :: (replicate 44 0 ++ encode 20 p.2)
  marshal_length p := by simp
  keccakAddress key := BitVec.ofNat 160 (decode (key.drop 44))
  sign := Crypto.plainSign
  sign_ne_nil := (Crypto.plain headerHash).sign_ne_nil
  recover_sign a h := by
    refine ⟨plainKey a, (0, decode (encode 20 a.toNat)), ?_, ?_, ?_⟩
    · rw [Crypto.plainRecover_sign]
      rfl
    · rw [if_pos (by simp [plainKey])]
      simp [plainKey]
    · have ha : decode (encode 20 a.toNat) = a.toNat := by
        rw [decode_encode, Nat.mod_eq_of_lt (Nat.lt_of_lt_of_le a.isLt (by decide))]
      rw [ha, drop_one, tail_cons, drop_left' (by simp), ofNat_decode_encode (by decide)]

def extraKeys : KeyRecovery := plainKeys fun h => BitVec.ofNat 256 h.extra.length

def oneByteBlock : Block := { slotBlock extraCrypto 1 [] [] with signature := [0] }

/-- **One byte in place of a signature stops the node**, as the signature of the producer and as one
of the certificate. -/
theorem not_verify_total_one_byte :
    verifyHeaderAndSign extraKeys.crypto (slotChain 4) 10 oneByteBlock (slotList [1, 2, 3, 4]) 10 =
      .panic ∧
    verifyHeaderAndSign extraKeys.crypto (slotChain 4) 10
        (slotBlock extraCrypto 1 [] [⟨[0], approveVote⟩]) (slotList [1, 2, 3, 4]) 10 = .ok () ∧
    verifyBlockGenerate extraKeys.crypto (slotChain 4) 10
        (slotBlock extraCrypto 1 [] [⟨[0], approveVote⟩]) (slotList [1, 2, 3, 4]) 10 = .panic := by
  decide +kernel

end GoAoa.Dpos
