import GoAoa.VM.Instructions

/-!
# The interpreter

The jump table of `core/vm/jump_table.go` and the loop of `Interpreter.Run`. One round of the loop
is `step`: `charge` finds the instruction, checks it and takes its gas, and `perform` executes it.
The loop is followed for a number of rounds; if they do not suffice the run is `unfinished`, and so
are the frames above it.
-/

namespace GoAoa.VM

open State List

structure Operation where
  execute : ExecutionFunc
  gasCost : GasFunc
  /-- `makeStackFunc`: what is popped and pushed. -/
  pops : Nat
  pushes : Nat
  memorySize : Option (Machine → Int) := none
  halts : Bool := false
  jumps : Bool := false
  writes : Bool := false
  reverts : Bool := false
  returns : Bool := false

/-! ## The jump table -/

def Operation.const (execute : ExecutionFunc) (gas pops pushes : Nat) : Operation :=
  { execute := execute, gasCost := constGasFunc gas, pops := pops, pushes := pushes }

/-- `memorySize` of the instructions that use one range of the memory. -/
def memoryRange (off l : Nat) : Option (Machine → Int) :=
  some fun m => calcMemSize (m.back off) (m.back l)

/-- `memorySize` of the instructions that use a number of bytes. -/
def memoryBytes (off : Nat) (l : Int) : Option (Machine → Int) :=
  some fun m => calcMemSize (m.back off) l

/-- `memorySize` of the calls, for the arguments and the result. -/
def memoryCalls (inOffset retOffset : Nat) : Option (Machine → Int) :=
  some fun m => max (calcMemSize (m.back retOffset) (m.back (retOffset + 1)))
    (calcMemSize (m.back inOffset) (m.back (inOffset + 1)))

/-- Instructions with a constant price that stay in the frame, but for those that push, duplicate
and swap. -/
def plainList : List (Nat × Operation) :=
  [ (0x01, .const opAdd gasFastestStep 2 1), (0x02, .const opMul gasFastStep 2 1),
    (0x03, .const opSub gasFastestStep 2 1),
    (0x04, .const opDiv gasFastStep 2 1),
    (0x05, .const opSdiv gasFastStep 2 1),
    (0x06, .const opMod gasFastStep 2 1),
    (0x07, .const opSmod gasFastStep 2 1),
    (0x08, .const opAddmod gasMidStep 3 1),
    (0x09, .const opMulmod gasMidStep 3 1),
    (0x0b, .const opSignExtend gasFastStep 2 1),
    (0x10, .const opLt gasFastestStep 2 1),
    (0x11, .const opGt gasFastestStep 2 1),
    (0x12, .const opSlt gasFastestStep 2 1),
    (0x13, .const opSgt gasFastestStep 2 1),
    (0x14, .const opEq gasFastestStep 2 1),
    (0x15, .const opIszero gasFastestStep 1 1),
    (0x16, .const opAnd gasFastestStep 2 1),
    (0x17, .const opOr gasFastestStep 2 1),
    (0x18, .const opXor gasFastestStep 2 1),
    (0x19, .const opNot gasFastestStep 1 1),
    (0x1a, .const opByte gasFastestStep 2 1),
    (0x1b, .const opSHL gasFastestStep 2 1),
    (0x1c, .const opSHR gasFastestStep 2 1),
    (0x1d, .const opSAR gasFastestStep 2 1),
    (0x30, .const opAddress gasQuickStep 0 1),
    (0x32, .const opOrigin gasQuickStep 0 1),
    (0x33, .const opCaller gasQuickStep 0 1),
    (0x34, .const opCallValue gasQuickStep 0 1),
    (0x35, .const opCallDataLoad gasFastestStep 1 1),
    (0x36, .const opCallDataSize gasQuickStep 0 1),
    (0x38, .const opCodeSize gasQuickStep 0 1),
    (0x3a, .const opGasprice gasQuickStep 0 1),
    (0x3d, .const opReturnDataSize gasQuickStep 0 1),
    (0x40, .const opBlockhash gasExtStep 1 1),
    (0x41, .const opCoinbase gasQuickStep 0 1),
    (0x42, .const opTimestamp gasQuickStep 0 1),
    (0x43, .const opNumber gasQuickStep 0 1),
    (0x44, .const opDifficulty gasQuickStep 0 1),
    (0x45, .const opGasLimit gasQuickStep 0 1),
    (0x50, .const opPop gasQuickStep 1 0),
    (0x56, { Operation.const opJump gasMidStep 1 0 with jumps := true }),
    (0x57, { Operation.const opJumpi gasSlowStep 2 0 with jumps := true }),
    (0x58, .const opPc gasQuickStep 0 1),
    (0x59, .const opMsize gasQuickStep 0 1),
    (0x5a, .const opGas gasQuickStep 0 1),
    (0x5b, .const opJumpdest jumpdestGas 0 0),
    (0xe3, .const opAsset gasQuickStep 0 1),
    (0xe4, .const opAssetValue gasQuickStep 0 1),
    (0xe5, .const opIsDelegate gasQuickStep 1 1),
    (0xe6, .const opGetCandidateVoteInfo gasQuickStep 1 1),
    (0xe7, .const opGetCandidateVoteInfoFors gasQuickStep 5 1),
    (0xe8, .const opGetCandidateTotalVote gasQuickStep 1 1) ]

/-- Instructions with a constant price that stay in the frame. -/
def plainOperations : List (Nat × Operation) :=
  plainList ++
  (range 32).map (fun i => (0x60 + i, .const (makePush (i + 1)) gasFastestStep 0 1)) ++
  (range 16).map (fun i => (0x80 + i, .const (makeDup (i + 1)) gasFastestStep (i + 1) (i + 2))) ++
  (range 16).map fun i => (0x90 + i, .const (makeSwap (i + 1)) gasFastestStep (i + 2) (i + 2))

/-- Instructions with a price that depends on the operands, the memory or the gas table. -/
def pricedOperations : List (Nat × Operation) :=
  [ (0x0a, { execute := opExp, gasCost := gasExp, pops := 2, pushes := 1 }),
    (0x20, { execute := opSha3, gasCost := gasSha3, pops := 2, pushes := 1
             memorySize := memoryRange 0 1 }),
    (0x31, { execute := opBalance, gasCost := gasBalance, pops := 1, pushes := 1 }),
    (0x37, { execute := opCallDataCopy, gasCost := gasCallDataCopy, pops := 3, pushes := 0
             memorySize := memoryRange 0 2 }),
    (0x39, { execute := opCodeCopy, gasCost := gasCodeCopy, pops := 3, pushes := 0
             memorySize := memoryRange 0 2 }),
    (0x3b, { execute := opExtCodeSize, gasCost := gasExtCodeSize, pops := 1, pushes := 1 }),
    (0x3c, { execute := opExtCodeCopy, gasCost := gasExtCodeCopy, pops := 4, pushes := 0
             memorySize := memoryRange 1 3 }),
    (0x3e, { execute := opReturnDataCopy, gasCost := gasReturnDataCopy, pops := 3, pushes := 0
             memorySize := memoryRange 0 2 }),
    (0x51, { execute := opMload, gasCost := gasMLoad, pops := 1, pushes := 1
             memorySize := memoryBytes 0 32 }),
    (0x52, { execute := opMstore, gasCost := gasMStore, pops := 2, pushes := 0
             memorySize := memoryBytes 0 32 }),
    (0x53, { execute := opMstore8, gasCost := gasMStore8, pops := 2, pushes := 0
             memorySize := memoryBytes 0 1 }),
    (0x54, { execute := opSload, gasCost := gasSLoad, pops := 1, pushes := 1 }),
    (0xe0, { execute := opBalanceOf, gasCost := gasBalanceOf, pops := 2, pushes := 1 }) ]

def haltingOperations : List (Nat × Operation) :=
  [ (0x00, { Operation.const opStop 0 0 0 with halts := true }),
    (0xf3, { execute := opReturn, gasCost := gasReturn, pops := 2, pushes := 0
             memorySize := memoryRange 0 1, halts := true }),
    (0xfd, { execute := opReturn, gasCost := gasRevert, pops := 2, pushes := 0
             memorySize := memoryRange 0 1, reverts := true, returns := true }),
    (0xff, { execute := opSuicide, gasCost := gasSuicide, pops := 1, pushes := 0
             halts := true, writes := true }) ]

/-- Instructions that change the state and go on. The asset instructions are not marked. -/
def writingOperations : List (Nat × Operation) :=
  [ (0x55, { execute := opSstore, gasCost := gasSStore, pops := 2, pushes := 0, writes := true }),
    (0xe1, { execute := opTransferAsset, gasCost := gasTransferAsset, pops := 3, pushes := 1 }),
    (0xe2, { execute := opTransferAsset, gasCost := gasTransferAsset, pops := 3, pushes := 1 }) ] ++
  (range 5).map fun i =>
    (0xa0 + i, { execute := makeLog i, gasCost := makeGasLog i, pops := i + 2, pushes := 0
                 memorySize := memoryRange 0 1, writes := true })

def callingOperations : List (Nat × Operation) :=
  [ (0xf0, { execute := opCreate, gasCost := gasCreate, pops := 3, pushes := 1
             memorySize := memoryRange 1 2, writes := true, returns := true }),
    (0xf1, { execute := opCall, gasCost := gasCall, pops := 7, pushes := 1
             memorySize := memoryCalls 3 5, returns := true }),
    (0xf2, { execute := opCallCode, gasCost := gasCallCode, pops := 7, pushes := 1
             memorySize := memoryCalls 3 5, returns := true }),
    (0xf4, { execute := opDelegateCall, gasCost := gasDelegateCall, pops := 6, pushes := 1
             memorySize := memoryCalls 2 4, returns := true }),
    (0xfa, { execute := opStaticCall, gasCost := gasStaticCall, pops := 6, pushes := 1
             memorySize := memoryCalls 2 4, returns := true }) ]

/-- `constantinopleInstructionSet`. -/
def instructionSet : List (Nat × Operation) :=
  plainOperations ++ pricedOperations ++ haltingOperations ++ writingOperations ++ callingOperations

/-- The operation of an opcode, if it is valid. -/
def operationOf (op : UInt8) : Option Operation :=
  (instructionSet.find? fun e => e.1 == op.toNat).map Prod.snd

/-! ## The loop -/

def stackLimit : Nat := 1024

/-- `enforceRestrictions`, for an instruction that has its operands. -/
def isRestricted (c : Context) (f : Frame) (op : UInt8) (o : Operation) (m : Machine) : Bool :=
  c.isByzantium && f.readOnly && (o.writes || (op == 0xf1 && m.back 2 != 0))

/-- The size of the memory an instruction needs, in whole words. -/
def Operation.newMemorySize (o : Operation) (m : Machine) : Option Nat :=
  match o.memorySize with
  | none => some 0
  | some size => (bigUint64 (size m)).bind fun memSize => safeMul (toWordSize memSize) 32

/-- Check the next instruction, and take its gas and the memory it needs. -/
def charge (c : Context) (f : Frame) (o : Operation) (m : Machine) : Code (Except VMErr Machine) :=
  if m.stack.length < o.pops then pure (.error .stackUnderflow)
  else if stackLimit < m.stack.length + o.pushes - o.pops then pure (.error .stackLimit)
  else if isRestricted c f (f.getOp m.pc) o m then pure (.error .writeProtection)
  else
    match o.newMemorySize m with
    | none => pure (.error .gasUintOverflow)
    | some size => do
      let r ← o.gasCost c f m size
      match r with
      | none => pure (.error .outOfGas)
      | some (cost, m) =>
        if m.gas < cost then pure (.error .outOfGas)
        else pure (.ok { m with gas := m.gas - cost, memory := m.memory.resize size })

/-- What a round of the loop comes to. -/
inductive Outcome where
  | next (m : Machine)
  | halt (r : Reply)
  deriving DecidableEq, Repr

/-- Execute an instruction whose gas is paid. -/
def perform (c : Context) (f : Frame) (o : Operation) (m : Machine) : Code Outcome := do
  let r ← o.execute c f m
  match r with
  | .error e => pure (.halt ⟨[], m.gas, some e⟩)
  | .ok (m, res) =>
    let m := if o.returns then { m with returnData := res } else m
    if o.reverts then pure (.halt ⟨res, m.gas, some .executionReverted⟩)
    else if o.halts then pure (.halt ⟨res, m.gas, none⟩)
    else pure (.next (if o.jumps then m else { m with pc := m.pc + 1 }))

def step (c : Context) (f : Frame) (m : Machine) : Code Outcome :=
  match operationOf (f.getOp m.pc) with
  | none => pure (.halt ⟨[], m.gas, some (.invalidOpcode (f.getOp m.pc))⟩)
  | some o => do
    let r ← charge c f o m
    match r with
    | .error e => pure (.halt ⟨[], m.gas, some e⟩)
    | .ok m => perform c f o m

def loop (round : Machine → Code Outcome) : Nat → Machine → Code Reply
  | 0, m => pure ⟨[], m.gas, some .unfinished⟩
  | fuel + 1, m => do
    let r ← round m
    match r with
    | .halt r => pure r
    | .next m => loop round fuel m

/-- `Interpreter.Run`, for a number of rounds. -/
def interpret (c : Context) (fuel : Nat) (f : Frame) : Code Reply :=
  loop (step c f) fuel (.start f)

/-! ## A small machine for bytecode -/

def bytecodeContext : Context :=
  { origin := 1, gasPrice := 1, coinbase := 9, gasLimit := 100000, blockNumber := 1, time := 10
    difficulty := 1, getHash := fun _ => 0, delegateList := none, isByzantium := true
    gasTable := .epiphron, keccak256 := fun _ => 0 }

def contractTrie (code : Bytes) : Trie :=
  fun a => if a = 5 then some { plainAccount 1 10 with code := code } else none

def smallFrame (code : Bytes) : Frame :=
  { caller := 1, self := 5, codeAddr := 5, code := code, input := [], gas := 2000, asset := none
    value := 0, readOnly := false }

end GoAoa.VM
