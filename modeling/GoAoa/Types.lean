import GoAoa.Lib.FixedWidth
import Mathlib.Data.List.Basic

/-!
# Blocks, transactions and delegate lists

The data of `core/types`. Hashes and addresses are bit vectors of their real width, `big.Int`
fields that RLP keeps non-negative are `Nat`, and the `[]byte` fields that a consumer decodes
before use (the vote list, the asset description, the commit signatures) are kept decoded:
`none` stands for bytes the decoder refuses.
-/

namespace GoAoa

open FixedWidth

theorem map_mk_eq_some {α β γ : Type} {o : Option α} {f : α → β} {g : α → γ} {b : β} {c : γ} :
    o.map (fun x => (f x, g x)) = some (b, c) ↔ ∃ x, o = some x ∧ f x = b ∧ g x = c := by
  simp only [Option.map_eq_some_iff, Prod.mk.injEq]

section

variable {α β : Type} (Q : α → Prop) [DecidablePred Q] (R : α → β → Prop)
  [∀ a b, Decidable (R a b)]

theorem of_check {o : Option α} {a : α} (h : o.any (fun a => Q a) = true) (ho : o = some a) :
    Q a := by
  subst ho
  exact of_decide_eq_true h

theorem exists_of_check {o : Option α} {P : α → Prop} (h : o.any (fun a => Q a) = true)
    (hP : ∀ a, o = some a → Q a → P a) : ∃ a, o = some a ∧ P a := by
  cases o with
  | none => cases h
  | some a => exact ⟨a, rfl, hP a rfl (of_decide_eq_true h)⟩

theorem exists₂_of_check {o : Option (α × β)} {P : α → β → Prop}
    (h : o.any (fun x => R x.1 x.2) = true) (hP : ∀ a b, o = some (a, b) → R a b → P a b) :
    ∃ a b, o = some (a, b) ∧ P a b := by
  cases o with
  | none => cases h
  | some x => exact ⟨x.1, x.2, rfl, hP x.1 x.2 rfl (of_decide_eq_true h)⟩

end

abbrev Bytes := List UInt8
abbrev Address := BitVec 160
abbrev Hash := BitVec 256

instance : LawfulBEq Address := inferInstance

instance : LawfulBEq Hash := inferInstance

/-- `Address.Hex`: the text form of addresses, which keeps them apart. -/
structure HexForm where
  hex : Address → String
  injective : ∀ a b, hex a = hex b → a = b

/-- A text form with one character for each byte. -/
def HexForm.bytes : HexForm where
  hex a := String.ofList ((encode 20 a.toNat).map Char.ofUInt8)
  injective a b h := by
    have hchar : Function.Injective Char.ofUInt8 := by
      intro x y hxy
      exact UInt8.toNat_inj.1 (congrArg (fun c : Char => c.val.toNat) hxy)
    have hbytes := List.map_injective_iff.2 hchar (String.ofList_injective h)
    rw [← ofNat_decode_encode (k := 20) (by decide) a, hbytes,
      ofNat_decode_encode (k := 20) (by decide) b]

/-! ## Machine integers -/

/-- `uint64(x)`: the low 64 bits. -/
@[irreducible] def u64 (x : Int) : Nat := (x % 2 ^ 64).toNat

/-- `int64(x)`: the low 64 bits in two's complement. -/
@[irreducible] def i64 (x : Int) : Int := x.bmod (2 ^ 64)

theorem u64_of_lt {n : Nat} (h : n < 2 ^ 64) : u64 n = n := by
  unfold u64; omega

theorem u64_lt (x : Int) : u64 x < 2 ^ 64 := by
  unfold u64; omega

theorem i64_of_range {x : Int} (hlow : -2 ^ 63 ≤ x) (hhigh : x < 2 ^ 63) : i64 x = x := by
  unfold i64; rw [Int.bmod_def]; split <;> omega

theorem i64_of_lt {n : Nat} (h : n < 2 ^ 63) : i64 n = n := i64_of_range (by omega) (by omega)

/-! ## Transactions -/

/-- `Vote`: `operation` 0 votes for the candidate, 1 withdraws the vote. -/
structure Vote where
  candidate : Option Address
  operation : Nat
  deriving DecidableEq, Repr

structure AssetInfo where
  name : String
  symbol : String
  supply : Option Int
  desc : String
  deriving DecidableEq, Repr

/-- The description of an asset that is stored under its address. -/
abbrev InfoEncoder :=
  Address → AssetInfo → Bytes

/-- The actions of a transaction, `ActionTrans` to `ActionCallContract`. -/
inductive Action where
  | trans
  | register
  | addVote
  | subVote
  | publishAsset
  | createContract
  | callContract
  deriving DecidableEq, Repr

/-- The action a transaction's `uint64` field names, if it is a legal one. -/
def Action.ofCode : Nat → Option Action
  | 0 => some .trans
  | 1 => some .register
  | 2 => some .addVote
  | 3 => some .subVote
  | 4 => some .publishAsset
  | 5 => some .createContract
  | 6 => some .callContract
  | _ => none

/-- `txdata`. -/
structure Transaction where
  accountNonce : Nat
  price : Nat
  gasLimit : Nat
  recipient : Option Address
  amount : Nat
  payload : Bytes
  action : Nat
  vote : Option (List Vote)
  nickname : Bytes
  asset : Option Address
  /-- `none` when the field is empty, `some none` when its bytes are not an asset description. -/
  assetInfo : Option (Option AssetInfo)
  subAddress : String
  abi : Bytes
  v : Nat
  r : Nat
  s : Nat
  deriving DecidableEq, Repr

/-! ## Logs -/

/-- `types.Log`. -/
structure Log where
  address : Address
  topics : List Hash
  data : Bytes
  blockNumber : Nat
  txHash : Hash
  txIndex : Nat
  blockHash : Hash
  index : Nat
  deriving DecidableEq, Repr

/-! ## Blocks -/

structure Header where
  parentHash : Hash
  coinbase : Address
  root : Hash
  txHash : Hash
  receiptHash : Hash
  bloom : BitVec 2048
  number : Nat
  gasLimit : Nat
  gasUsed : Nat
  time : Nat
  extra : Bytes
  agentName : Bytes
  delegateRoot : Hash
  shuffleHash : Hash
  shuffleBlockNumber : Nat
  deriving DecidableEq, Repr

/-- A delegate's signature on a block hash and the vote it is labelled with. -/
structure VoteSign where
  sign : Bytes
  voteAction : Nat
  deriving DecidableEq, Repr

def approveVote : Nat := 0
def opposeVote : Nat := 1

/-- `signature` is the producer's, `rlpEncodeSigns` the delegates' that commit the block. -/
structure Block where
  header : Header
  transactions : List Transaction
  signature : Bytes
  rlpEncodeSigns : Option (List VoteSign)
  deriving DecidableEq, Repr

/-- `NumberU64`. -/
def Block.numberU64 (b : Block) : Nat := u64 b.header.number

/-- `NewBlockWithHeader(header).WithBody(txs)`: neither field of signatures is set, and empty
bytes do not decode. -/
def Block.withBody (header : Header) (txs : List Transaction) : Block :=
  { header := header, transactions := txs, signature := [], rlpEncodeSigns := none }

/-! ## Delegates of a round -/

/-- A delegate and its slot. The source compares the hexadecimal form of addresses ignoring
case, which is equality of addresses. -/
structure ShuffleDel where
  workTime : Nat
  address : Address
  deriving DecidableEq, Repr

structure ShuffleList where
  shuffleDels : List ShuffleDel
  deriving DecidableEq, Repr

namespace ShuffleList

def addresses (l : ShuffleList) : List Address := l.shuffleDels.map ShuffleDel.address

/-- `checkInShuffleList`. -/
def contains (l : ShuffleList) (a : Address) : Bool := l.shuffleDels.any (·.address == a)

theorem contains_iff {l : ShuffleList} {a : Address} : l.contains a ↔ a ∈ l.addresses := by
  simp [contains, addresses]

end ShuffleList

end GoAoa
