import GoAoa.VM.Machine

/-!
# What instructions cost

`core/vm/gas.go` and `gas_table.go` with the constants of `params`. A gas function returns the cost
and the machine with the memory fee and the gas of a call noted, or `none` if the cost overflows.
It may read the state, and two of them add to the refund counter.
-/

namespace GoAoa.VM

open State Word

def gasQuickStep : Nat := 1
def gasFastestStep : Nat := 1
def gasFastStep : Nat := 2
def gasMidStep : Nat := 3
def gasSlowStep : Nat := 4
def gasExtStep : Nat := 7
def jumpdestGas : Nat := 1
def memoryGas : Nat := 1
def quadCoeffDiv : Nat := 1024
def copyGas : Nat := 1
def sha3Gas : Nat := 2
def sha3WordGas : Nat := 1
def sstoreSetGas : Nat := 1250
def sstoreResetGas : Nat := 310
def sstoreClearGas : Nat := 310
def sstoreRefundGas : Nat := 950
def suicideRefundGas : Nat := 1500
def logGas : Nat := 24
def logTopicGas : Nat := 24
def logDataGas : Nat := 1
def createGas : Nat := 2000
def callNewAccountGas : Nat := 1600
def callValueTransferGas : Nat := 550
def callStipend : Nat := 1000
def balanceOfGas : Nat := 50
def transferAssetGas : Nat := 550

def safeAdd (x y : Nat) : Option Nat := if x + y < 2 ^ 64 then some (x + y) else none

def safeMul (x y : Nat) : Option Nat := if x * y < 2 ^ 64 then some (x * y) else none

/-- `bigUint64`. -/
def bigUint64 (x : Int) : Option Nat := if 64 < bitLen x then none else some (uint64 x)

abbrev Charge := Option (Nat × Machine)

abbrev GasFunc := Context → Frame → Machine → Nat → Code Charge

/-- `memoryGasCost`: only what the memory grows by is paid. The arithmetic is that of 64 bits. -/
def memoryGasCost (m : Machine) (newMemSize : Nat) : Charge :=
  if newMemSize = 0 then some (0, m)
  else if 0xffffffffe0 < newMemSize then none
  else
    let words := toWordSize newMemSize
    if m.memory.store.length < words * 32 then
      let square := u64 (words * words)
      let linCoef := u64 (words * memoryGas)
      let quadCoef := square / quadCoeffDiv
      let newTotalFee := u64 (linCoef + quadCoef)
      some (u64 ((newTotalFee : Int) - m.memory.lastGasCost),
        { m with memory := { m.memory with lastGasCost := newTotalFee } })
    else some (0, m)

def constGasFunc (gas : Nat) : GasFunc := fun _ _ m _ => pure (some (gas, m))

def gasMemory (base : Nat) : GasFunc := fun _ _ m size => pure do
  let (fee, m) ← memoryGasCost m size
  let gas ← safeAdd fee base
  some (gas, m)

/-- A constant price, the memory, and a price for each word of a size on the stack. -/
def gasMemoryWords (base perWord back : Nat) : GasFunc := fun _ _ m size => pure do
  let (fee, m) ← memoryGasCost m size
  let gas ← safeAdd fee base
  let words ← bigUint64 (m.back back)
  let wordGas ← safeMul (toWordSize words) perWord
  let gas ← safeAdd gas wordGas
  some (gas, m)

def gasCallDataCopy : GasFunc := gasMemoryWords gasFastestStep copyGas 2
def gasReturnDataCopy : GasFunc := gasMemoryWords gasFastestStep copyGas 2
def gasCodeCopy : GasFunc := gasMemoryWords gasFastestStep copyGas 2
def gasSha3 : GasFunc := gasMemoryWords sha3Gas sha3WordGas 1
def gasExtCodeCopy : GasFunc := fun c => gasMemoryWords c.gasTable.extcodeCopy copyGas 3 c
def gasMLoad : GasFunc := gasMemory gasFastestStep
def gasMStore : GasFunc := gasMemory gasFastestStep
def gasMStore8 : GasFunc := gasMemory gasFastestStep
def gasCreate : GasFunc := gasMemory createGas
def gasReturn : GasFunc := fun _ _ m size => pure (memoryGasCost m size)
def gasRevert : GasFunc := fun _ _ m size => pure (memoryGasCost m size)
def gasBalance : GasFunc := fun c => constGasFunc c.gasTable.balance c
def gasExtCodeSize : GasFunc := fun c => constGasFunc c.gasTable.extcodeSize c
def gasSLoad : GasFunc := fun c => constGasFunc c.gasTable.sLoad c

/-- `gasExp`: a price for each byte of the exponent. -/
def gasExp : GasFunc := fun c _ m _ => pure do
  let gas ← safeAdd ((bitLen (m.back 1) + 7) / 8 * c.gasTable.expByte) gasSlowStep
  some (gas, m)

def View.hasSuicided (v : View) (a : Address) : Bool := ((v.account a).map Visible.suicided).getD false

/-- `gasSStore`: clearing a slot earns a refund. -/
def gasSStore : GasFunc := fun _ f m _ => do
  let v ← effect .read
  let val := v.getState f.self (toHash (m.back 0))
  if val = 0 ∧ m.back 1 ≠ 0 then pure (some (sstoreSetGas, m))
  else if val ≠ 0 ∧ m.back 1 = 0 then do
    effect (.refund sstoreRefundGas)
    pure (some (sstoreClearGas, m))
  else pure (some (sstoreResetGas, m))

/-- `gasSuicide`: nothing, and a refund the first time. -/
def gasSuicide : GasFunc := fun _ f m _ => do
  let v ← effect .read
  if v.hasSuicided f.self then pure (some (0, m))
  else do
    effect (.refund suicideRefundGas)
    pure (some (0, m))

def makeGasLog (n : Nat) : GasFunc := fun _ _ m size => pure do
  let requestedSize ← bigUint64 (m.back 1)
  let (fee, m) ← memoryGasCost m size
  let gas ← safeAdd fee logGas
  let gas ← safeAdd gas (n * logTopicGas)
  let sizeGas ← safeMul requestedSize logDataGas
  let gas ← safeAdd gas sizeGas
  some (gas, m)

/-- `callGas`: all but one 64th of what is left, if more is asked for. The difference to the base
cost wraps around, in which case the call cannot be paid for. -/
def callGas (gasTable : GasTable) (availableGas base : Nat) (callCost : Int) : Option Nat :=
  let available := u64 ((availableGas : Int) - base)
  let gas := available - available / 64
  if 0 < gasTable.createBySuicide ∧ (64 < bitLen callCost ∨ gas < uint64 callCost) then some gas
  else if 64 < bitLen callCost then none
  else some (uint64 callCost)

/-- What the call instructions have in common: a base cost, the memory, and the gas passed on. -/
def gasCalls (base : Nat) (c : Context) (m : Machine) (size : Nat) : Charge := do
  let (fee, m) ← memoryGasCost m size
  let gas ← safeAdd base fee
  let callGasTemp ← callGas c.gasTable m.gas gas (m.back 0)
  let total ← safeAdd gas callGasTemp
  some (total, { m with callGasTemp := callGasTemp })

def valueGas (value : Int) : Nat := if value = 0 then 0 else callValueTransferGas

def gasCall : GasFunc := fun c _ m size => do
  let v ← effect .read
  let new := if v.exist (toAddress (m.back 1)) then 0 else callNewAccountGas
  pure (gasCalls (c.gasTable.calls + new + valueGas (m.back 2)) c m size)

def gasCallCode : GasFunc := fun c _ m size =>
  pure (gasCalls (c.gasTable.calls + valueGas (m.back 2)) c m size)

def gasDelegateCall : GasFunc := fun c _ m size => pure (gasCalls c.gasTable.calls c m size)
def gasStaticCall : GasFunc := fun c _ m size => pure (gasCalls c.gasTable.calls c m size)

def gasBalanceOf : GasFunc := constGasFunc balanceOfGas

def gasTransferAsset : GasFunc := fun c _ m _ => pure do
  let gas ← safeAdd c.gasTable.calls transferAssetGas
  some (gas, m)

end GoAoa.VM
