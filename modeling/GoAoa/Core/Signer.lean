import GoAoa.Types
import GoAoa.Lib.Rlp

/-!
# Signed transactions

`core/types/transaction_signing.go` over ideal signatures and a hash without collisions. A
transaction is signed by its fields and the chain id, and `V` tells the chain id and the parity of
the signature. `Sender` checks the chain id first, and refuses a signature whose `S` is in the upper
half.
-/

namespace GoAoa.Signer

open List Bool

/-- `txdata` with its byte fields as they are signed; nil and empty are the same. -/
structure TxData where
  accountNonce : Nat
  price : Nat
  gasLimit : Nat
  recipient : Option Address
  amount : Nat
  payload : Bytes
  action : Nat
  vote : Bytes
  nickname : Bytes
  asset : Option Address
  assetInfo : Bytes
  subAddress : Bytes
  abi : Bytes
  v : Nat
  r : Nat
  s : Nat
  deriving DecidableEq, Repr

/-- The transaction without its signature. -/
def TxData.unsigned (tx : TxData) : TxData := { tx with v := 0, r := 0, s := 0 }

def secp256k1N : Nat := 0xfffffffffffffffffffffffffffffffebaaedce6af48a03bbfd25e8cd0364141

def secp256k1HalfN : Nat := secp256k1N / 2

/-- `SetBytes`: big-endian. -/
def setBytes (b : Bytes) : Nat := FixedWidth.decode b.reverse

/-- Ideal signatures, and a hash with values in `H`. A signature is `[R || S || V]`, and what is
recovered from it is the key that made it. -/
structure Ecdsa (H Key : Type) where
  keccak256 : Bytes → H
  keccak256_injective : Function.Injective keccak256
  /-- The last 20 bytes. -/
  low : H → Address
  sign : Key → H → Bytes
  pubkey : Key → Bytes
  ecrecover : H → Bytes → Option Bytes
  length_sign : ∀ k h, (sign k h).length = 65
  r_range : ∀ k h, 1 ≤ setBytes ((sign k h).take 32) ∧ setBytes ((sign k h).take 32) < secp256k1N
  s_range : ∀ k h, 1 ≤ setBytes (((sign k h).drop 32).take 32) ∧
    setBytes (((sign k h).drop 32).take 32) ≤ secp256k1HalfN
  parity : ∀ k h, (sign k h).getD 64 0 = 0 ∨ (sign k h).getD 64 0 = 1
  pubkey_head : ∀ k, (pubkey k).head? = some 4
  ecrecover_sign : ∀ k h, ecrecover h (sign k h) = some (pubkey k)

inductive SignErr where
  | invalidChainId
  | invalidSig
  | recoverFailed
  | invalidPublicKey
  deriving DecidableEq, Repr

variable {H Key : Type} (X : Ecdsa H Key)

/-- `PubkeyToAddress`. -/
def Ecdsa.address (key : Key) : Address := X.low (X.keccak256 ((X.pubkey key).drop 1))

def addressBytes : Option Address → Bytes
  | none => []
  | some a => (FixedWidth.encode 20 a.toNat).reverse

section

variable (chainId : Nat)

variable (tx : TxData)

/-- The fields that are signed for a chain. -/
def fields : List Bytes :=
  [Rlp.putint tx.accountNonce, Rlp.putint tx.price, Rlp.putint tx.gasLimit,
    addressBytes tx.recipient, Rlp.putint tx.amount, tx.payload, Rlp.putint tx.action, tx.vote,
    tx.nickname, addressBytes tx.asset, tx.assetInfo, tx.subAddress, tx.abi, Rlp.putint chainId,
    Rlp.putint 0, Rlp.putint 0]

def hash : H := X.keccak256 (Rlp.encodeList (fields chainId tx))

/-- The encoder counts its bytes in 64 bits. -/
def Fits : Prop :=
  ((fields chainId tx).flatMap Rlp.encodeString).length < 2 ^ 64

/-- `WithSignature` and `SignatureValues`; a signature that has not 65 bytes panics. -/
def withSignature (sig : Bytes) : Option TxData :=
  if sig.length ≠ 65 then none
  else
    some { tx with
      r := setBytes (sig.take 32)
      s := setBytes ((sig.drop 32).take 32)
      v := if chainId ≠ 0 then (sig.getD 64 0 + 27 + 8).toNat + chainId * 2
        else (sig.getD 64 0 + 27).toNat }

def signTx (key : Key) : Option TxData :=
  withSignature chainId tx (X.sign key (hash X chainId tx))

end

def deriveChainId (v : Nat) : Nat :=
  if v < 2 ^ 64 then u64 ((v : Int) - 35) / 2 else (v - 35) / 2

/-- `ValidateSignatureValues`, with the check of the upper half. -/
def validateSignatureValues (v r s : Nat) : Bool :=
  !(r < 1 || s < 1) && !(secp256k1HalfN < s) && (r < secp256k1N && s < secp256k1N && (v = 0 || v = 1))

def leftPad (n : Nat) : Bytes := List.replicate (32 - (Rlp.putint n).length) 0 ++ Rlp.putint n

def recoverPlain (sighash : H) (r s : Nat) (vb : Int) : Except SignErr Address :=
  if 256 ≤ vb.natAbs then .error .invalidSig
  else
    let v := u64 ((vb.natAbs : Int) - 27) % 256
    if !validateSignatureValues v r s then .error .invalidSig
    else
      match X.ecrecover sighash (leftPad r ++ leftPad s ++ [UInt8.ofNat v]) with
      | none => .error .recoverFailed
      | some pub =>
        if pub.head? ≠ some 4 then .error .invalidPublicKey
        else .ok (X.low (X.keccak256 (pub.drop 1)))

/-- `AuroraSigner.Sender`. -/
def sender (chainId : Nat) (tx : TxData) : Except SignErr Address :=
  if deriveChainId tx.v ≠ chainId then .error .invalidChainId
  else recoverPlain X (hash X chainId tx) tx.r tx.s ((tx.v : Int) - chainId * 2 - 8)

/-- The same `R` with the negated `S` and the other parity. -/
def mirrored (tx : TxData) : TxData :=
  { tx with s := secp256k1N - tx.s, v := if tx.v % 2 = 1 then tx.v + 1 else tx.v - 1 }

/-! ## Signing and recovering -/

variable {X} {c c' : Nat} {tx tx' : TxData}

theorem leftPad_setBytes {b : Bytes} (h : b.length = 32) : leftPad (setBytes b) = b := by
  have hdigits := congrArg reverse (FixedWidth.digits_decode b.reverse)
  simpa [leftPad, setBytes, Rlp.putint, h] using hdigits

theorem deriveChainId_add {p : Nat} (hp : p ≤ 1) : deriveChainId (p + 35 + c * 2) = c := by
  unfold deriveChainId
  split
  · rw [show ((p + 35 + c * 2 : Nat) : Int) - 35 = ((p + c * 2 : Nat) : Int) by omega,
      u64_of_lt (by omega)]
    omega
  · omega

/-- What is signed: the parity is in `V`, and the signature can be put together again. -/
theorem signTx_eq (hc : 1 ≤ c) (tx : TxData) (key : Key) :
    ∃ p signed, p ≤ 1 ∧ signTx X c tx key = some signed ∧ hash X c signed = hash X c tx ∧
      signed.v = p + 35 + c * 2 ∧ validateSignatureValues p signed.r signed.s = true ∧
      leftPad signed.r ++ leftPad signed.s ++ [UInt8.ofNat p] = X.sign key (hash X c tx) := by
  have hlen := X.length_sign key (hash X c tx)
  have hr := X.r_range key (hash X c tx)
  have hs := X.s_range key (hash X c tx)
  have hparity := X.parity key (hash X c tx)
  generalize hsig : X.sign key (hash X c tx) = sig at hlen hr hs hparity
  obtain ⟨x, hx⟩ : ∃ x, sig.drop 64 = [x] := length_eq_one_iff.1 (by simp [hlen])
  have hget : sig.getD 64 0 = x := by
    rw [getD_eq_getElem?_getD, ← head?_drop, hx]
    rfl
  rw [hget] at hparity
  have hp : x.toNat ≤ 1 := by rcases hparity with rfl | rfl <;> decide
  have hsign : signTx X c tx key = some { tx with
      r := setBytes (sig.take 32), s := setBytes ((sig.drop 32).take 32)
      v := x.toNat + 35 + c * 2 } := by
    rw [signTx, hsig, withSignature, if_neg (not_not.2 hlen), if_pos (by omega), hget]
    rcases hparity with rfl | rfl <;> rfl
  refine ⟨x.toNat, _, hp, hsign, rfl, rfl, ?_, ?_⟩
  · have hhalf : secp256k1HalfN < secp256k1N := by decide
    simp only [validateSignatureValues, and_eq_true, not_eq_true', or_eq_false_iff,
      or_eq_true, decide_eq_true_eq, decide_eq_false_iff_not]
    omega
  · dsimp only
    rw [leftPad_setBytes (by simp [hlen]), leftPad_setBytes (by simp [hlen]),
      show UInt8.ofNat x.toNat = x by simp, ← hx, append_assoc,
      show sig.drop 64 = (sig.drop 32).drop 32 by rw [drop_drop], take_append_drop,
      take_append_drop]

/-- **The sender of a signed transaction is the key that signed it, for its chain alone.** -/
theorem sender_signTx (hc : 1 ≤ c) (tx : TxData) (key : Key) :
    ∃ signed, signTx X c tx key = some signed ∧ sender X c signed = .ok (X.address key) ∧
      ∀ c', c' ≠ c → sender X c' signed = .error .invalidChainId := by
  obtain ⟨p, signed, hp, hsign, hhash, hv, hvalid, hsig⟩ := signTx_eq hc tx key
  have hchain : deriveChainId signed.v = c := by rw [hv, deriveChainId_add hp]
  refine ⟨signed, hsign, ?_, fun c' hne => ?_⟩
  · have hvb : (signed.v : Int) - c * 2 - 8 = ((p + 27 : Nat) : Int) := by omega
    have hbyte : u64 (((p + 27 : Nat) : Int).natAbs - 27) % 256 = p := by
      rw [show (((p + 27 : Nat) : Int).natAbs : Int) - 27 = (p : Nat) by omega,
        u64_of_lt (by omega)]
      omega
    rw [sender, if_neg (not_not.2 hchain), hvb, recoverPlain, if_neg (by omega), hbyte, hhash]
    simp [hvalid, hsig, X.ecrecover_sign, X.pubkey_head, Ecdsa.address]
  · rw [sender, if_pos (by rw [hchain]; exact hne.symm)]

/-! ## The hash that is signed -/

theorem addressBytes_inj {a b : Option Address} (h : addressBytes a = addressBytes b) : a = b := by
  have hlen := congrArg length h
  cases a with
  | none =>
    cases b with
    | none => rfl
    | some => simp [addressBytes] at hlen
  | some a =>
    cases b with
    | none => simp [addressBytes] at hlen
    | some b =>
      rw [← FixedWidth.ofNat_decode_encode (k := 20) (by decide) a, reverse_inj.1 h,
        FixedWidth.ofNat_decode_encode (by decide) b]

/-- **What is signed is the whole transaction, for one chain.** -/
theorem unsigned_of_hash (hfits : Fits c tx) (hfits' : Fits c' tx')
    (h : hash X c tx = hash X c' tx') : tx.unsigned = tx'.unsigned ∧ c = c' := by
  have hlist := Rlp.encodeList_inj hfits hfits' (X.keccak256_injective h)
  simp only [fields, cons.injEq] at hlist
  obtain ⟨h1, h2, h3, h4, h5, h6, h7, h8, h9, h10, h11, h12, h13, hc, -⟩ := hlist
  refine ⟨?_, Rlp.putint_inj hc⟩
  simp [TxData.unsigned, Rlp.putint_inj h1, Rlp.putint_inj h2, Rlp.putint_inj h3,
    addressBytes_inj h4, Rlp.putint_inj h5, h6, Rlp.putint_inj h7, h8, h9, addressBytes_inj h10,
    h11, h12, h13]

/-! ## Mirrored signatures -/

theorem le_of_sender {a : Address} (h : sender X c tx = .ok a) :
    1 ≤ tx.s ∧ tx.s ≤ secp256k1HalfN := by
  unfold sender recoverPlain at h
  split at h
  · cases h
  · split at h
    · cases h
    · dsimp only at h
      split at h
      · cases h
      · rename_i hvalid
        simp [validateSignatureValues] at hvalid
        omega

/-- **No accepted transaction stays accepted with the mirrored signature.** -/
theorem sender_mirrored {a b : Address} (h : sender X c tx = .ok a) :
    sender X c' (mirrored tx) ≠ .ok b := by
  intro h'
  have hlow := le_of_sender h
  have hhigh : secp256k1N - tx.s ≤ secp256k1HalfN := (le_of_sender h').2
  unfold secp256k1HalfN secp256k1N at *
  omega

/-- **Transactions are authentic.** The sender of a signed transaction is the key that signed it,
and only for its chain; no other fields have its hash; and it is not accepted with the mirrored
signature. -/
theorem transaction_authentic (X : Ecdsa H Key) {c : Nat} (hc : 1 ≤ c) (tx : TxData) (key : Key) :
    (∃ signed, signTx X c tx key = some signed ∧ sender X c signed = .ok (X.address key) ∧
      ∀ c', c' ≠ c → sender X c' signed = .error .invalidChainId) ∧
    (∀ c' tx', Fits c tx → Fits c' tx' → hash X c tx = hash X c' tx' →
      tx.unsigned = tx'.unsigned ∧ c = c') ∧
    ∀ c' a b, sender X c tx = .ok a → sender X c' (mirrored tx) ≠ .ok b :=
  ⟨sender_signTx hc tx key, fun _ _ hfits hfits' h => unsigned_of_hash hfits hfits' h,
    fun _ _ _ h => sender_mirrored h⟩

/-- Two keys whose signatures tell them apart, over bytes that are their own hash. -/
def twoKeys : Ecdsa Bytes Bool where
  keccak256 := id
  keccak256_injective := Function.injective_id
  low h := BitVec.ofNat 160 (FixedWidth.decode h)
  sign k _ := List.replicate 31 0 ++ [if k then 2 else 1] ++ List.replicate 31 0 ++ [1, 0]
  pubkey k := [4, if k then 2 else 1]
  ecrecover _ sig := some [4, sig.getD 31 0]
  length_sign k _ := rfl
  r_range k _ := by cases k <;> decide
  s_range k _ := by cases k <;> decide
  parity k _ := by cases k <;> exact .inl rfl
  pubkey_head _ := rfl
  ecrecover_sign k _ := rfl

theorem transaction_authentic_twoKeys :
    ∃ signed, signTx twoKeys 1 ⟨0, 1, 21000, some 2, 5, [], 0, [], [], none, [], [], [], 0, 0, 0⟩
        true = some signed ∧ sender twoKeys 1 signed = .ok (twoKeys.address true) :=
  have ⟨signed, hsign, hsender, _⟩ := (transaction_authentic twoKeys (Nat.le_refl 1) _ true).1
  ⟨signed, hsign, hsender⟩

end GoAoa.Signer
