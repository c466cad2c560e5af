import GoAoa.VM.GasCost

/-!
# Instructions

`core/vm/instructions.go`. An instruction returns the machine it leaves with the bytes it returns,
or an error. It fails where the source panics; that the stack holds what an instruction takes is
checked before.
-/

namespace GoAoa.VM

open State Word

abbrev Result := Except VMErr (Machine × Bytes)

abbrev ExecutionFunc := Context → Frame → Machine → Code Result

def done (m : Machine) : Code Result := pure (.ok (m, []))

def orFail {α : Type} (x : Option α) (k : α → Code Result) : Code Result :=
  match x with
  | none => .fail
  | some a => k a

namespace Machine

def withStack (m : Machine) (s : List Int) : Machine := { m with stack := s }

def withMemory (m : Machine) (memory : Memory) : Machine := { m with memory := memory }

def push (m : Machine) (x : Int) : Machine := m.withStack (x :: m.stack)

/-- `pop`, and go on with the word. -/
def pop (m : Machine) (k : Machine → Int → Code Result) : Code Result :=
  match m.stack with
  | [] => .fail
  | x :: s => k (m.withStack s) x

end Machine

/-! ## Families -/

def opPushWord (w : Context → Frame → Machine → Int) : ExecutionFunc := fun c f m =>
  done (m.push (w c f m))

def opUnary (w : Int → Int) : ExecutionFunc := fun _ _ m => m.pop fun m x => done (m.push (w x))

def opBinary (w : Int → Int → Int) : ExecutionFunc := fun _ _ m =>
  m.pop fun m x => m.pop fun m y => done (m.push (w x y))

def opTernary (w : Int → Int → Int → Int) : ExecutionFunc := fun _ _ m =>
  m.pop fun m x => m.pop fun m y => m.pop fun m z => done (m.push (w x y z))

def opRead (w : View → Frame → Int → Int) : ExecutionFunc := fun _ f m =>
  m.pop fun m x => do
    let v ← effect .read
    done (m.push (w v f x))

/-! ## Arithmetic -/

def opAdd : ExecutionFunc := opBinary fun x y => u256 (x + y)
def opSub : ExecutionFunc := opBinary fun x y => u256 (x - y)
def opMul : ExecutionFunc := opBinary fun x y => u256 (x * y)
def opDiv : ExecutionFunc := opBinary fun x y => if y ≠ 0 then u256 (x / y) else 0

/-- `opSdiv`, on the signed operands. -/
def sdiv (x y : Int) : Int :=
  if y.sign = 0 ∨ x.sign = 0 then 0
  else if x.sign ≠ y.sign then u256 (-(x.natAbs / y.natAbs : Nat))
  else u256 (x.natAbs / y.natAbs : Nat)

def opSdiv : ExecutionFunc := opBinary fun x y => sdiv (s256 x) (s256 y)

def opMod : ExecutionFunc := opBinary fun x y => if y = 0 then 0 else u256 (x % y)

/-- `opSmod`, on the signed operands. -/
def smod (x y : Int) : Int :=
  if y.sign = 0 then 0
  else if x.sign < 0 then u256 (-(x.natAbs % y.natAbs : Nat))
  else u256 (x.natAbs % y.natAbs : Nat)

def opSmod : ExecutionFunc := opBinary fun x y => smod (s256 x) (s256 y)

def opExp : ExecutionFunc := opBinary exp

/-- `opSignExtend`: from 31 on only the first operand is taken. A bit that is not in the range of
`int` panics. -/
def opSignExtend : ExecutionFunc := fun _ _ m =>
  m.pop fun m back =>
    if back < 31 then
      let bit := u64 (uint64 back * 8 + 7)
      m.pop fun m num =>
        if 2 ^ 63 ≤ bit then .fail
        else
          let mask : Int := 2 ^ bit - 1
          done (m.push (u256 (if num.testBit bit then num.lor mask.lnot else num.land mask)))
    else done m

def opAddmod : ExecutionFunc := opTernary fun x y z => if 0 < z then u256 ((x + y) % z) else 0
def opMulmod : ExecutionFunc := opTernary fun x y z => if 0 < z then u256 (x * y % z) else 0

/-! ## Comparison and bits -/

def opNot : ExecutionFunc := opUnary fun x => u256 x.lnot
def opLt : ExecutionFunc := opBinary fun x y => ofBool (x < y)
def opGt : ExecutionFunc := opBinary fun x y => ofBool (x > y)

/-- `opSlt` and `opSgt`, by the signs and then by `cmp`. -/
def signedCompare (negative : Bool) (cmp : Int → Int → Bool) (x y : Int) : Int :=
  if x ≥ 2 ^ 255 ∧ y < 2 ^ 255 then ofBool negative
  else if x < 2 ^ 255 ∧ y ≥ 2 ^ 255 then ofBool (!negative)
  else ofBool (cmp x y)

def opSlt : ExecutionFunc := opBinary (signedCompare true fun x y => x < y)
def opSgt : ExecutionFunc := opBinary (signedCompare false fun x y => x > y)
def opEq : ExecutionFunc := opBinary fun x y => ofBool (x = y)
def opIszero : ExecutionFunc := opUnary fun x => ofBool (!decide (x > 0))
def opAnd : ExecutionFunc := opBinary fun x y => x.land y
def opOr : ExecutionFunc := opBinary fun x y => x.lor y
def opXor : ExecutionFunc := opBinary fun x y => x.xor y

def opByte : ExecutionFunc := fun _ _ m =>
  m.pop fun m th => m.pop fun m val =>
    if th < 32 then orFail (byte val (int64 th)) fun b => done (m.push b) else done (m.push 0)

section

variable (shift value : Int)

def shl : Int := if shift ≥ 256 then 0 else u256 (value * 2 ^ uint64 shift)
def shr : Int := if shift ≥ 256 then 0 else u256 (value / 2 ^ uint64 shift)

/-- `opSAR`, on the signed value: a large shift of zero gives minus one. -/
def sar : Int :=
  if shift ≥ 256 then u256 (if value.sign > 0 then 0 else -1)
  else u256 (value / 2 ^ uint64 shift)

end

def opSHL : ExecutionFunc := opBinary fun shift value => shl (u256 shift) (u256 value)
def opSHR : ExecutionFunc := opBinary fun shift value => shr (u256 shift) (u256 value)
def opSAR : ExecutionFunc := opBinary fun shift value => sar (u256 shift) (s256 value)

def opSha3 : ExecutionFunc := fun c _ m =>
  m.pop fun m offset => m.pop fun m size =>
    orFail (m.memory.get (int64 offset) (int64 size)) fun data =>
      done (m.push (ofHash (c.keccak256 data)))

/-! ## The environment -/

def isAOA (f : Frame) : Bool := f.asset.isNone

/-- What `CALLVALUE`, `ASSET` and `ASSETVALUE` report of a frame. -/
def Frame.callValue (f : Frame) : Nat := if isAOA f then f.value else 0

def Frame.assetId (f : Frame) : Address := f.asset.getD 0

def Frame.assetValue (f : Frame) : Nat := if isAOA f then 0 else f.value

def opAddress : ExecutionFunc := opPushWord fun _ f _ => ofAddress f.self
def opBalance : ExecutionFunc := opRead fun v _ x => v.getBalance (toAddress x)
def opOrigin : ExecutionFunc := opPushWord fun c _ _ => ofAddress c.origin
def opCaller : ExecutionFunc := opPushWord fun _ f _ => ofAddress f.caller
def opCallValue : ExecutionFunc := opPushWord fun _ f _ => f.callValue
def opAsset : ExecutionFunc := opPushWord fun _ f _ => ofAddress f.assetId
def opAssetValue : ExecutionFunc := opPushWord fun _ f _ => f.assetValue

def opCallDataLoad : ExecutionFunc := fun _ f m =>
  m.pop fun m x => orFail (getDataBig f.input x 32) fun b => done (m.push (setBytes b))

def opCallDataSize : ExecutionFunc := opPushWord fun _ f _ => f.input.length
def opReturnDataSize : ExecutionFunc := opPushWord fun _ _ m => m.returnData.length
def opCodeSize : ExecutionFunc := opPushWord fun _ f _ => f.code.length
def opGasprice : ExecutionFunc := opPushWord fun c _ _ => c.gasPrice
def opCoinbase : ExecutionFunc := opPushWord fun c _ _ => ofAddress c.coinbase
def opTimestamp : ExecutionFunc := opPushWord fun c _ _ => u256 c.time
def opNumber : ExecutionFunc := opPushWord fun c _ _ => u256 c.blockNumber
def opDifficulty : ExecutionFunc := opPushWord fun c _ _ => u256 c.difficulty
def opGasLimit : ExecutionFunc := opPushWord fun c _ _ => u256 c.gasLimit

def opExtCodeSize : ExecutionFunc :=
  opRead fun v _ x => (v.getCode (toAddress x)).length

/-- Copy a slice of `data` to the memory. -/
def copyData (m : Machine) (data : Bytes) (memOffset dataOffset length : Int) : Code Result :=
  orFail (getDataBig data dataOffset length) fun b =>
    orFail (m.memory.set (uint64 memOffset) (uint64 length) b) fun memory => done (m.withMemory memory)

def opCopy (data : Frame → Bytes) : ExecutionFunc := fun _ f m =>
  m.pop fun m memOffset => m.pop fun m dataOffset => m.pop fun m length =>
    copyData m (data f) memOffset dataOffset length

def opCallDataCopy : ExecutionFunc := opCopy Frame.input
def opCodeCopy : ExecutionFunc := opCopy Frame.code

def opExtCodeCopy : ExecutionFunc := fun _ _ m =>
  m.pop fun m addr => m.pop fun m memOffset => m.pop fun m codeOffset => m.pop fun m length => do
    let v ← effect .read
    copyData m (v.getCode (toAddress addr)) memOffset codeOffset length

def opReturnDataCopy : ExecutionFunc := fun _ _ m =>
  m.pop fun m memOffset => m.pop fun m dataOffset => m.pop fun m length =>
    let e : Int := dataOffset + length
    if 64 < bitLen e ∨ m.returnData.length < uint64 e then pure (.error .returnDataOutOfBounds)
    else if uint64 e < uint64 dataOffset then .fail
    else
      orFail (m.memory.set (uint64 memOffset) (uint64 length)
        ((m.returnData.take (uint64 e)).drop (uint64 dataOffset)))
        fun memory => done (m.withMemory memory)

def opBlockhash : ExecutionFunc := fun c f =>
  opUnary (fun num =>
    if num > c.blockNumber - 257 ∧ num < c.blockNumber then ofHash (c.getHash (uint64 num))
    else 0) c f

/-! ## The machine itself -/

def opPop : ExecutionFunc := fun _ _ m => m.pop fun m _ => done m

def opMload : ExecutionFunc := fun _ _ m =>
  m.pop fun m offset => orFail (m.memory.get (int64 offset) 32) fun b => done (m.push (setBytes b))

def opMstore : ExecutionFunc := fun _ _ m =>
  m.pop fun m mStart => m.pop fun m val =>
    orFail (m.memory.set (uint64 mStart) 32 (paddedBytes val)) fun memory => done (m.withMemory memory)

def opMstore8 : ExecutionFunc := fun _ _ m =>
  m.pop fun m off => m.pop fun m val =>
    orFail (m.memory.set8 (int64 off) (UInt8.ofNat (int64 val % 256).toNat)) fun memory =>
      done (m.withMemory memory)

def opSload : ExecutionFunc := opRead fun v f x => ofHash (v.getState f.self (toHash x))

def opSstore : ExecutionFunc := fun _ _ m =>
  m.pop fun m loc => m.pop fun m val => do
    effect (.sstore (toHash loc) (toHash val))
    done m

def jumpTo (f : Frame) (m : Machine) (pos : Int) : Code Result :=
  if isJumpdest f.code pos then done { m with pc := uint64 pos } else pure (.error .invalidJump)

def opJump : ExecutionFunc := fun _ f m => m.pop fun m pos => jumpTo f m pos

def opJumpi : ExecutionFunc := fun _ f m =>
  m.pop fun m pos => m.pop fun m cond =>
    if cond = 0 then done { m with pc := m.pc + 1 } else jumpTo f m pos

def opJumpdest : ExecutionFunc := fun _ _ m => done m
def opPc : ExecutionFunc := opPushWord fun _ _ m => m.pc
def opMsize : ExecutionFunc := opPushWord fun _ _ m => m.memory.store.length
def opGas : ExecutionFunc := opPushWord fun _ _ m => m.gas
def opStop : ExecutionFunc := fun _ _ m => done m

/-- `opReturn` and `opRevert`. -/
def opReturn : ExecutionFunc := fun _ _ m =>
  m.pop fun m offset => m.pop fun m size =>
    orFail (m.memory.get (int64 offset) (int64 size)) fun ret => pure (.ok (m, ret))

/-- `makePush`: what the code lacks is filled up with zeros. -/
def makePush (size : Nat) : ExecutionFunc := fun _ f m =>
  let arg := rightPadBytes ((f.code.drop (m.pc + 1)).take size) size
  done { m.push (setBytes arg) with pc := m.pc + size }

def makeDup (n : Nat) : ExecutionFunc := fun _ _ m =>
  orFail m.stack[n - 1]? fun x => done (m.push x)

/-- `makeSwap`: the top with the element `n` below it. -/
def makeSwap (n : Nat) : ExecutionFunc := fun _ _ m =>
  orFail m.stack[n]? fun x => m.pop fun m y => done (m.withStack (x :: m.stack.set (n - 1) y))

/-! ## Calls and other effects -/

def makeLog (n : Nat) : ExecutionFunc := fun c _ m =>
  m.pop fun m mStart => m.pop fun m mSize =>
    if m.stack.length < n then .fail
    else
      orFail (m.memory.get (int64 mStart) (int64 mSize)) fun d => do
        effect (.log ((m.stack.take n).map toHash) d c.blockNumber)
        done (m.withStack (m.stack.drop n))

def opSuicide : ExecutionFunc := fun _ _ m =>
  m.pop fun m x => do
    effect (.suicide (toAddress x))
    done m

/-- `opCreate`: all the gas goes with it. A negative value is not followed: it counts as none. -/
def opCreate : ExecutionFunc := fun _ _ m =>
  m.pop fun m value => m.pop fun m offset => m.pop fun m size =>
    orFail (m.memory.get (int64 offset) (int64 size)) fun input => do
      let (addr, r) ← effect (.create input m.gas value.toNat)
      if r.err = some .unfinished then pure (.error .unfinished)
      else
        pure (.ok ({ m.push (if r.err.isSome then 0 else ofAddress addr) with gas := r.gas },
            if r.err = some .executionReverted then r.ret else []))

/-- The gas of a call: with a value there is a stipend that is not paid for. -/
def Machine.passed (m : Machine) (value : Int) : Nat :=
  if value = 0 then m.callGasTemp else u64 ((m.callGasTemp : Int) + callStipend)

/-- What the call instructions have in common, after the address and the value. -/
def opCalls (kind : CallKind) (addr value : Int) (m : Machine) : Code Result :=
  m.pop fun m inOffset => m.pop fun m inSize => m.pop fun m retOffset => m.pop fun m retSize =>
    orFail (m.memory.get (int64 inOffset) (int64 inSize)) fun args => do
      let r ← effect (.call kind (toAddress addr) args (m.passed value) value.toNat)
      if r.err = some .unfinished then pure (.error .unfinished)
      else
        let memory :=
          if r.err = none ∨ r.err = some .executionReverted then
            m.memory.set (uint64 retOffset) (uint64 retSize) r.ret
          else some m.memory
        orFail memory fun memory =>
          pure (.ok ({ (m.push (ofBool r.err.isNone)).withMemory memory with
                gas := u64 ((m.gas : Int) + r.gas) }, r.ret))

def opCall : ExecutionFunc := fun _ _ m =>
  m.pop fun m _ => m.pop fun m addr => m.pop fun m value => opCalls .call addr (u256 value) m

def opCallCode : ExecutionFunc := fun _ _ m =>
  m.pop fun m _ => m.pop fun m addr => m.pop fun m value => opCalls .callCode addr (u256 value) m

def opDelegateCall : ExecutionFunc := fun _ _ m =>
  m.pop fun m _ => m.pop fun m addr => opCalls .delegateCall addr 0 m

def opStaticCall : ExecutionFunc := fun _ _ m =>
  m.pop fun m _ => m.pop fun m addr => opCalls .staticCall addr 0 m

/-! ## Assets and delegates -/

def opBalanceOf : ExecutionFunc := fun _ _ m =>
  m.pop fun m asset => m.pop fun m addr => do
    let v ← effect .read
    done (m.push (v.getAssetBalance (toAddress addr) (toAddress asset)))

/-- `opTransferAsset`: it is an error if there is not enough of the asset. -/
def opTransferAsset : ExecutionFunc := fun _ _ m =>
  m.pop fun m value => m.pop fun m aid => m.pop fun m recipient => do
    let ok ← effect (.transferAsset (toAddress recipient) (toAddress aid) (u256 value).toNat)
    if ok then done (m.push 1) else pure (.error .insufficientBalance)

/-- An instruction that reads the list of delegates, and panics if it is nil. -/
def opDelegates (w : (AList fun _ : Address => Nat) → Frame → Int → Int) : ExecutionFunc :=
  fun c f m => m.pop fun m addr => orFail c.delegateList fun d => done (m.push (w d f addr))

def totalVote (votes : List Nat) : Int := u64 votes.sum

def opIsDelegate : ExecutionFunc := opDelegates fun d _ addr =>
  ofBool (d.lookup (toAddress addr)).isSome

def opGetCandidateVoteInfo : ExecutionFunc := opDelegates fun d _ addr =>
  ((d.lookup (toAddress addr)).getD 0 : Nat)

/-- `opGetCandidateTotalVote`: the operand is not looked at, only the caller. -/
def opGetCandidateTotalVote : ExecutionFunc := opDelegates fun d f _ =>
  if (d.lookup f.caller).isSome then totalVote (d.entries.map Sigma.snd) else 0

def opGetCandidateVoteInfoFors : ExecutionFunc := fun c _ m =>
  m.pop fun m x₁ => m.pop fun m x₂ => m.pop fun m x₃ => m.pop fun m x₄ => m.pop fun m x₅ =>
    orFail c.delegateList fun d =>
      done (m.push (totalVote ([x₁, x₂, x₃, x₄, x₅].map fun x => (d.lookup (toAddress x)).getD 0)))

end GoAoa.VM
