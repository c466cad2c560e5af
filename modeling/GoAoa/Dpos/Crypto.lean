import GoAoa.Types

/-!
# Hashes and signatures

What the consensus code needs from its cryptography. `recover` is `secp256k1.RecoverPubkey`
followed by `PubkeyToAddress`; `sign` is a signature made with the private key of an address.
Signatures are made over a block hash and nothing else.
-/

namespace GoAoa

open FixedWidth

structure Crypto where
  /-- `Header.Hash`. -/
  headerHash : Header → Hash
  recover : Hash → Bytes → Option Address
  sign : Address → Hash → Bytes
  sign_ne_nil : ∀ a h, sign a h ≠ []
  recover_sign : ∀ a h, recover h (sign a h) = some a

/-- `Block.Hash`: the signatures of a block are not part of its hash. -/
def Block.hash (C : Crypto) (b : Block) : Hash := C.headerHash b.header

namespace Crypto

/-- Signatures that spell out the signer and the hash signed, 52 bytes in all. -/
def plainSign (a : Address) (h : Hash) : Bytes :=
  encode 20 a.toNat ++ encode 32 h.toNat

/-- The signer of a well-formed plain signature on `h`. -/
def plainRecover (h : Hash) (s : Bytes) : Option Address :=
  if s.drop 20 = encode 32 h.toNat then
    some (BitVec.ofNat 160 (decode (s.take 20)))
  else none

theorem plainRecover_sign (a : Address) (h : Hash) : plainRecover h (plainSign a h) = some a := by
  unfold plainRecover plainSign
  rw [if_pos (by simp)]
  rw [List.take_left' (by simp), ofNat_decode_encode (by decide)]

/-- Cryptography with readable signatures over a given header hash: the laws are consistent. -/
def plain (headerHash : Header → Hash) : Crypto where
  headerHash := headerHash
  recover := plainRecover
  sign := plainSign
  sign_ne_nil a h := by simp [plainSign, encode]
  recover_sign := plainRecover_sign

end Crypto

end GoAoa
