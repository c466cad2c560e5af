import GoAoa.VM.Interface

/-!
# The virtual machine

`core/vm/evm.go` as programs over the state. What a contract does is left open: `interp` gives
what a piece of code does as a program over the effects the instruction set has on the state. The
program is arbitrary, so what is proved holds for every instruction semantics; the interpreter of
bytecode is one. The values of calls are taken modulo 2^256, so they are not negative. Precompiled
contracts are functions of their input. The ABI a contract stores beside its code, inner
transactions and tracing are left out, and `NoRecursion` is off.
-/

namespace GoAoa.VM

open State

inductive VMErr where
  | outOfGas
  | codeStoreOutOfGas
  | depth
  | insufficientBalance
  | contractAddressCollision
  | vote
  | executionReverted
  | maxCodeSizeExceeded
  | emptyVoteList
  | alreadyRegistered
  | invalidOpcode (op : UInt8)
  | stackUnderflow
  | stackLimit
  | writeProtection
  | gasUintOverflow
  | invalidJump
  | returnDataOutOfBounds
  /-- The input of a precompiled contract is not valid. -/
  | precompile
  /-- Not an error of the machine: the number of instructions a run is followed for is used up. -/
  | unfinished
  deriving DecidableEq, Repr

/-- What a call returns: data, the gas left, and an error. -/
structure Reply where
  ret : Bytes
  gas : Nat
  err : Option VMErr
  deriving DecidableEq, Repr

/-- `Contract`: the environment code runs in. -/
structure Frame where
  caller : Address
  self : Address
  codeAddr : Address
  code : Bytes
  input : Bytes
  gas : Nat
  asset : Option Address
  value : Nat
  readOnly : Bool
  deriving DecidableEq, Repr

inductive CallKind where
  | call
  | callCode
  | delegateCall
  | staticCall
  deriving DecidableEq, Repr

/-- The effects of instructions on the state. -/
inductive Effect where
  | read
  | sstore (key value : Hash)
  | refund (gas : Nat)
  | log (topics : List Hash) (data : Bytes) (blockNumber : Nat)
  | suicide (beneficiary : Address)
  /-- The answer is whether there was enough of the asset. -/
  | transferAsset (recipient asset : Address) (value : Nat)
  | call (kind : CallKind) (addr : Address) (input : Bytes) (gas value : Nat)
  | create (code : Bytes) (gas value : Nat)

@[reducible] def Effect.Ans : Effect → Type
  | .read => View
  | .transferAsset .. => Bool
  | .call .. => Reply
  | .create .. => Address × Reply
  | _ => Unit

/-- What a piece of code does. It fails where the machine panics. -/
abbrev Code := Prog Effect Effect.Ans

abbrev effect (e : Effect) : Code (Effect.Ans e) := Prog.call e

/-- Only the errors of its own input are errors of a precompiled contract. -/
structure Precompile where
  requiredGas : Bytes → Nat
  run : Bytes → Option Bytes

/-- `EVM`: the context of a transaction. -/
structure EVM where
  interp : Frame → Code Reply
  precompiled : Address → Option Precompile
  /-- `CreateAddress`, the hash of an account and a nonce. -/
  createAddress : Address → Nat → Address
  createAddress_ne : ∀ a n, createAddress a n ≠ a
  /-- The delegates of the chain head; nil for actions that do not need them. -/
  delegateList : Option (List Address)
  maxElectDelegate : Int
  coinbase : Address

def registerCost : Int := 5000000 * 10 ^ 18

def maxCodeSize : Nat := 24576
def createDataGas : Nat := 12
def txABIGas : Nat := 3

/-- What running code asks of the machine. -/
structure Nested where
  call : CallKind → Frame → Address → Bytes → Nat → Nat → M Reply
  create : Frame → Bytes → Nat → Nat → M (Address × Reply)

def runEffect (n : Nested) (f : Frame) : (e : Effect) → M (Effect.Ans e)
  | .read => act .view
  | .sstore key value => act (.setState f.self key value)
  | .refund gas => act (.addRefund gas)
  | .log topics data blockNumber => act (.addLog ⟨f.self, topics, data, blockNumber, 0, 0, 0, 0⟩)
  | .suicide beneficiary => do
    let v ← act .view
    act (.addBalance beneficiary (v.getBalance f.self))
    let _ ← act (.suicide f.self)
    pure ()
  | .transferAsset recipient asset value => do
    let v ← act .view
    if v.canTransfer f.self (some asset) value then
      transfer f.self recipient (some asset) value
      pure true
    else pure false
  | .call kind addr input gas value => n.call kind f addr input gas value
  | .create code gas value => n.create f code gas value

def runCode {α : Type} (n : Nested) (f : Frame) (code : Code α) : M α := code.handle (runEffect n f)

/-- `RunPrecompiledContract`. -/
def runPrecompiled (p : Precompile) (input : Bytes) (gas : Nat) : Reply :=
  if gas < p.requiredGas input then ⟨[], gas, some .outOfGas⟩
  else
    match p.run input with
    | some ret => ⟨ret, gas - p.requiredGas input, none⟩
    | none => ⟨[], gas - p.requiredGas input, some .precompile⟩

/-- `run`: precompiled contracts, and no code, change nothing. -/
def run (E : EVM) (n : Nested) (f : Frame) : M Reply :=
  match E.precompiled f.codeAddr with
  | some p => pure (runPrecompiled p f.input f.gas)
  | none => if f.code = [] then pure ⟨[], f.gas, none⟩ else runCode n f (E.interp f)

/-- The end of a call: on an error the effects are taken back, and the gas is used up unless the
code asked for the revert. -/
def finish (r : Reply) : Bool × Reply :=
  match r.err with
  | none => (false, r)
  | some e => (true, if e = .executionReverted then r else { r with gas := 0 })

/-- Run the code of `f.codeAddr` in the frame `f`. -/
def invoke (E : EVM) (n : Nested) (f : Frame) : M (Bool × Reply) := do
  let v ← act .view
  let r ← run E n { f with code := v.getCode f.codeAddr }
  pure (finish r)

/-- The arguments of `Call`. -/
structure CallArgs where
  caller : Address
  addr : Address
  input : Bytes
  gas : Nat
  action : Action
  value : Nat
  votes : List Vote
  asset : Option Address
  readOnly : Bool

def CallArgs.frame (c : CallArgs) : Frame :=
  ⟨c.caller, c.addr, c.addr, [], c.input, c.gas, c.asset, c.value, c.readOnly⟩

/-- `Call` once the recipient exists: what the action does, then the recipient's code. -/
def callBody (E : EVM) (n : Nested) (c : CallArgs) : M (Bool × Reply) :=
  match c.action with
  | .addVote | .subVote =>
    if c.votes = [] then pure (false, ⟨[], c.gas, some .emptyVoteList⟩)
    else do
      let ok ← act (.vote c.caller c.votes E.delegateList E.maxElectDelegate)
      if ok then invoke E n c.frame else pure (true, ⟨[], c.gas, some .vote⟩)
  | .register =>
    match E.delegateList with
    | none => .fail
    | some d =>
      if c.caller ∈ d then pure (false, ⟨[], c.gas, some .alreadyRegistered⟩)
      else invoke E n c.frame
  | _ => do
    transfer c.caller c.addr c.asset c.value
    invoke E n c.frame

/-- The check of `Call` that the caller can pay. -/
def canPay (v : View) (c : CallArgs) : Bool :=
  v.canTransfer c.caller c.asset (if c.action = .subVote then -(c.value : Int) else c.value) &&
    (c.action ≠ .register || v.canTransfer c.caller none registerCost)

def call (E : EVM) (n : Nested) (c : CallArgs) : M Reply := do
  let v ← act .view
  if canPay v c then
    Prog.within do
      let v ← act .view
      if v.exist c.addr then callBody E n c
      else if (E.precompiled c.addr).isNone && c.value == 0 then pure (false, ⟨[], c.gas, none⟩)
      else do
        act (.createAccount c.addr)
        callBody E n c
  else pure ⟨[], c.gas, some .insufficientBalance⟩

/-- `CallCode`: the code of `addr` on the caller's own account. -/
def callCode (E : EVM) (n : Nested) (f : Frame) (addr : Address) (input : Bytes)
    (gas value : Nat) : M Reply := do
  let v ← act .view
  if v.canTransfer f.self none value then
    Prog.within (invoke E n ⟨f.self, f.self, addr, [], input, gas, none, value, f.readOnly⟩)
  else pure ⟨[], gas, some .insufficientBalance⟩

/-- The frame of `DelegateCall`: the caller and the value are the parent's, the asset is nil. -/
def Frame.delegated (f : Frame) (addr : Address) (input : Bytes) (gas : Nat) : Frame :=
  ⟨f.caller, f.self, addr, [], input, gas, none, f.value, f.readOnly⟩

/-- `DelegateCall`: as `CallCode`, with the caller and the value of the frame. -/
def delegateCall (E : EVM) (n : Nested) (f : Frame) (addr : Address) (input : Bytes)
    (gas : Nat) : M Reply :=
  Prog.within (invoke E n (f.delegated addr input gas))

def staticCall (E : EVM) (n : Nested) (f : Frame) (addr : Address) (input : Bytes)
    (gas : Nat) : M Reply :=
  Prog.within (invoke E n ⟨f.self, addr, addr, [], input, gas, none, 0, true⟩)

/-- What `Create` does with what the code returned. -/
def deposit (contractAddr : Address) (abiLen : Nat) (r : Reply) : M (Bool × Reply) :=
  let tooLong := maxCodeSize < r.ret.length
  if r.err = none ∧ ¬ tooLong then
    let dataGas := u64 (r.ret.length * createDataGas + abiLen * txABIGas)
    if dataGas ≤ r.gas then do
      act (.setCode contractAddr r.ret)
      pure (false, { r with gas := r.gas - dataGas })
    else pure (false, { r with err := some .codeStoreOutOfGas })
  else if tooLong ∨ r.err ≠ some .codeStoreOutOfGas then
    pure (true, { r with
        gas := if r.err = some .executionReverted then r.gas else 0
        err := r.err.or (some .maxCodeSizeExceeded) })
  else pure (false, r)

/-- `Create`, with the length of the ABI. -/
def create (E : EVM) (n : Nested) (caller : Address) (code : Bytes) (gas : Nat)
    (asset : Option Address) (value abiLen : Nat) (readOnly : Bool) : M (Address × Reply) := do
  let v ← act .view
  if v.canTransfer caller asset value then
    let nonce := v.getNonce caller
    act (.setNonce caller (u64 (nonce + 1)))
    let contractAddr := E.createAddress caller nonce
    let v ← act .view
    if v.getNonce contractAddr = 0 ∧ v.getCode contractAddr = [] then
      let r ← Prog.within do
        act (.createAccount contractAddr)
        transfer caller contractAddr asset value
        let r ← run E n ⟨caller, contractAddr, contractAddr, code, [], gas, asset, value, readOnly⟩
        deposit contractAddr abiLen r
      pure (contractAddr, r)
    else pure (0, ⟨[], 0, some .contractAddressCollision⟩)
  else pure (0, ⟨[], gas, some .insufficientBalance⟩)

/-- The state of a creation once the nonce of the creator is taken. -/
def numbered (db : StateDB) (creator : Address) : StateDB :=
  db.setNonce creator (u64 ((view db).getNonce creator + 1))

/-- What code can ask for with `d` levels of calls below it. -/
def nested (E : EVM) : Nat → Nested
  | 0 =>
    { call := fun _ _ _ _ gas _ => pure ⟨[], gas, some .depth⟩
      create := fun _ _ gas _ => pure (0, ⟨[], gas, some .depth⟩) }
  | d + 1 =>
    { call := fun kind f addr input gas value =>
        match kind with
        | .call =>
          call E (nested E d) ⟨f.self, addr, input, gas, .trans, value, [], none, f.readOnly⟩
        | .callCode => callCode E (nested E d) f addr input gas value
        | .delegateCall => delegateCall E (nested E d) f addr input gas
        | .staticCall => staticCall E (nested E d) f addr input gas
      create := fun f code gas value =>
        create E (nested E d) f.self code gas none value 0 f.readOnly }

/-- `CallCreateDepth`: a transaction's own call runs at depth 0. -/
def callCreateDepth : Nat := 1024

/-! ## A small machine -/

/-- No contract does anything, address 7 is the one delegate, and address 9 takes the fees. -/
def smallEvm : EVM where
  interp _ := pure ⟨[], 0, none⟩
  precompiled _ := none
  createAddress a _ := ~~~a
  createAddress_ne a _ := by simp
  delegateList := some [7]
  maxElectDelegate := 101
  coinbase := 9

end GoAoa.VM
