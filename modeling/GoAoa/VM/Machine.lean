import GoAoa.VM.Evm
import Mathlib.Data.List.AList
import Mathlib.Data.Nat.Digits.Defs
import Mathlib.Data.Int.Bitwise

/-!
# The machine that runs bytecode

The stack, the memory and the registers of a frame, `core/vm/stack.go`, `memory.go`, `common.go`
and `analysis.go`, with the functions of `common/math/big.go`. The stack holds big integers. Most
instructions reduce them to 256 bits, but a balance is pushed as it is, and a balance can be
negative. Slicing out of range panics, which is `none`. The pool of integers is left out.
-/

namespace GoAoa.VM

open State

/-! ## Integers of the stack -/

namespace Word

/-- `BigToAddress`: the low bits of the absolute value. -/
def toAddress (x : Int) : Address := BitVec.ofNat 160 x.natAbs

/-- `BigToHash`. -/
def toHash (x : Int) : Hash := BitVec.ofNat 256 x.natAbs

def ofAddress (a : Address) : Int := a.toNat

def ofHash (h : Hash) : Int := h.toNat

def ofBool (b : Bool) : Int := if b then 1 else 0

/-- `SetBytes`: big-endian. -/
def setBytes (b : Bytes) : Int := FixedWidth.decode b.reverse

section

variable (x : Int)

def bitLen : Nat := if x = 0 then 0 else x.natAbs.log2 + 1

/-- `Uint64`: the low bits of the absolute value. -/
def uint64 : Nat := x.natAbs % 2 ^ 64

/-- `Int64`. -/
def int64 : Int := i64 x

/-- `Uint64` of a position in a slice. A slice has less than 2^63 bytes, so that a position in it
is kept. -/
def position : Nat := if 0 ≤ x then x.toNat else uint64 x

/-- `Bits`: the words of the absolute value. -/
def bits : List Nat := Nat.digits (2 ^ 64) x.natAbs

/-- `Bytes`: big-endian, without leading zeros. -/
def bytes : Bytes := ((Nat.digits 256 x.natAbs).map UInt8.ofNat).reverse

/-- `PaddedBigBytes` with 32 bytes. -/
def paddedBytes : Bytes :=
  if 32 ≤ bitLen x / 8 then bytes x else (FixedWidth.encode 32 x.natAbs).reverse

/-- `U256`. -/
def u256 : Int := x % 2 ^ 256

/-- `S256`. -/
def s256 : Int := if x < 2 ^ 255 then x else x - 2 ^ 256

end

/-- The rounds of `Exp` for the bits of one word. -/
def expWord : Nat → Nat → Int × Int → Int × Int
  | 0, _, r => r
  | n + 1, word, (result, base) =>
    expWord n (word / 2) (if word % 2 = 1 then u256 (result * base) else result, u256 (base * base))

/-- `Exp`: by squaring. -/
def exp (base exponent : Int) : Int :=
  ((bits exponent).foldl (fun r word => expWord 64 word r) (1, base)).1

/-- `bigEndianByteAt`, for a position that is not negative. -/
def bigEndianByteAt (x : Int) (n : Nat) : Nat := (bits x).getD (n / 8) 0 / 2 ^ (8 * (n % 8)) % 256

/-- `Byte` with 32 bytes. -/
def byte (x : Int) (n : Int) : Option Nat :=
  if 32 ≤ n then some 0
  else if i64 (31 - n) < 0 then none
  else some (bigEndianByteAt x (i64 (31 - n)).toNat)

end Word

open Word

/-! ## Byte slices -/

def rightPadBytes (b : Bytes) (l : Nat) : Bytes := b ++ List.replicate (l - b.length) 0

def getDataBig (data : Bytes) (start size : Int) : Option Bytes :=
  let s : Int := min start data.length
  let e : Int := min (s + size) data.length
  if position s ≤ position e ∧ position e ≤ data.length then
    some (rightPadBytes ((data.take (position e)).drop (position s)) (i64 (uint64 size)).toNat)
  else none

def toWordSize (size : Nat) : Nat :=
  if 2 ^ 64 - 1 - 31 < size then (2 ^ 64 - 1) / 32 + 1 else (size + 31) / 32

def calcMemSize (off l : Int) : Int := if l = 0 then 0 else off + l

/-! ## Memory -/

structure Memory where
  store : Bytes
  lastGasCost : Nat
  deriving DecidableEq, Repr

namespace Memory

def new : Memory := ⟨[], 0⟩

variable (m : Memory)

def resize (size : Nat) : Memory :=
  { m with store := m.store ++ List.replicate (size - m.store.length) 0 }

/-- `Get` and `GetPtr`. -/
def get (offset size : Int) : Option Bytes :=
  if size = 0 then some []
  else if m.store.length ≤ offset then some []
  else if offset < 0 ∨ size < 0 ∨ m.store.length < offset + size then none
  else some ((m.store.drop offset.toNat).take size.toNat)

/-- `Set`: as much of `value` as there is and as fits. -/
def set (offset size : Nat) (value : Bytes) : Option Memory :=
  if m.store.length < size then none
  else if size = 0 then some m
  else if m.store.length < offset + size then none
  else
    let v := value.take size
    some { m with store := m.store.take offset ++ v ++ m.store.drop (offset + v.length) }

/-- The store of one byte by `opMstore8`. -/
def set8 (offset : Int) (b : UInt8) : Option Memory :=
  if 0 ≤ offset ∧ offset < m.store.length then
    some { m with store := m.store.set offset.toNat b }
  else none

end Memory

/-! ## Jump destinations -/

/-- The number of bytes that follow a push instruction as its data. -/
def pushSize (op : UInt8) : Nat := if 0x60 ≤ op ∧ op ≤ 0x7f then op.toNat - 0x60 + 1 else 0

/-- The linear decoding of code: `true` for bytes that start an instruction, with the number of
bytes of data that come first. -/
def decoding : Nat → Bytes → List Bool
  | _, [] => []
  | n + 1, _ :: code => false :: decoding n code
  | 0, op :: code => true :: decoding (pushSize op) code

/-- What `destinations.has` finds. -/
def isJumpdest (code : Bytes) (dest : Int) : Bool :=
  if 63 ≤ bitLen dest ∨ code.length ≤ uint64 dest then false
  else code.getD (uint64 dest) 0 == 0x5b && (decoding 0 code).getD (uint64 dest) false

/-! ## Frames -/

/-- The registers of `Run`, and the gas that a call instruction has set aside. The top of the
stack comes first. -/
structure Machine where
  pc : Nat
  stack : List Int
  memory : Memory
  gas : Nat
  returnData : Bytes
  callGasTemp : Nat
  deriving DecidableEq, Repr

def Machine.back (m : Machine) (n : Nat) : Int := m.stack.getD n 0

def Machine.start (f : Frame) : Machine := ⟨0, [], .new, f.gas, [], 0⟩

/-- `GetOp`: behind the code there are only zeros. -/
def Frame.getOp (f : Frame) (n : Nat) : UInt8 := f.code.getD n 0

/-! ## The context -/

structure GasTable where
  extcodeSize : Nat
  extcodeCopy : Nat
  balance : Nat
  sLoad : Nat
  calls : Nat
  expByte : Nat
  createBySuicide : Nat
  deriving DecidableEq, Repr

namespace GasTable

def zero : GasTable := ⟨0, 0, 0, 0, 0, 0, 0⟩

/-- `GasTableEpiphron`. -/
def epiphron : GasTable := ⟨45, 45, 25, 20, 45, 4, 2500⟩

end GasTable

/-- `Context` and the rules of the chain, as far as instructions see them. -/
structure Context where
  origin : Address
  gasPrice : Nat
  coinbase : Address
  gasLimit : Nat
  blockNumber : Nat
  time : Nat
  difficulty : Nat
  getHash : Nat → Hash
  /-- The delegates with their votes; nil for actions that do not need them. -/
  delegateList : Option (AList fun _ : Address => Nat)
  isByzantium : Bool
  gasTable : GasTable
  keccak256 : Bytes → Hash

end GoAoa.VM
