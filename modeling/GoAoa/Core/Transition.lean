import GoAoa.VM.Evm
import Mathlib.Data.List.Infix

/-!
# The state transition of a message

`core/state_transition.go` and `PublishAsset` of the account database. The gas pool of the block
is passed along: what a failing transition leaves of it is part of the result.
-/

namespace GoAoa.Core

open State VM

/-- `Message`. Whether the nonce is checked is not left to the caller: it always is. -/
structure Message where
  sender : Address
  recipient : Option Address
  nonce : Nat
  gasLimit : Nat
  gasPrice : Nat
  amount : Nat
  data : Bytes
  action : Nat
  vote : List Vote
  asset : Option Address
  assetInfo : AssetInfo
  abi : Bytes
  deriving DecidableEq, Repr

/-- What `PublishAsset` can object to. -/
inductive AssetErr where
  | empty
  | tooLong
  | illegalName
  | illegalSymbol
  | invalidSymbol
  | zeroSupply
  | negativeSupply
  deriving DecidableEq, Repr

inductive TxErr where
  /-- The votes, the asset description or the signature cannot be decoded. -/
  | message
  | illegalAction
  | nonceTooHigh
  | nonceTooLow
  | insufficientBalanceForGas
  | gasLimitReached
  | vm (e : VMErr)
  | dataNil
  | asset (e : AssetErr)
  | duplicateRegisterAgent
  | addVote
  | subVote
  | subVoteNotEnough
  | cancelAgent
  deriving DecidableEq, Repr

/-! ## Publishing an asset -/

def isSpace (c : Char) : Bool :=
  c.toNat ∈ [0x09, 0x0a, 0x0b, 0x0c, 0x0d, 0x20, 0x85, 0xa0, 0x1680, 0x2028, 0x2029, 0x202f, 0x205f,
    0x3000] || (0x2000 ≤ c.toNat && c.toNat ≤ 0x200a)

def illegalWords : List (List Char) := ["AOA".toList, "AURORA".toList, "极光链".toList]

/-- `illegalSymbol.MatchString(strings.ToUpper(s))`. -/
def isIllegal (s : String) : Bool :=
  illegalWords.any fun w => (s.toList.map Char.toUpper).tails.any w.isPrefixOf

/-- `validSymbol`: a letter, then one or more letters and digits. -/
def isValidSymbol (s : String) : Bool :=
  match s.toList with
  | c :: d :: cs => c.isAlpha && (d :: cs).all Char.isAlphanum
  | _ => false

def assetSymbolMaxLen : Nat := 20
def assetNameMaxLen : Nat := 50
def assetDescMaxLen : Nat := 1024

def isAssetInfoValid (ai : AssetInfo) : Except AssetErr Int :=
  if ai.symbol.toList.all isSpace || ai.name.toList.all isSpace then .error .empty
  else if assetSymbolMaxLen < ai.symbol.utf8ByteSize || assetNameMaxLen < ai.name.utf8ByteSize ||
      assetDescMaxLen < ai.desc.utf8ByteSize then .error .tooLong
  else if isIllegal ai.name then .error .illegalName
  else if isIllegal ai.symbol then .error .illegalSymbol
  else if !isValidSymbol ai.symbol then .error .invalidSymbol
  else
    match ai.supply with
    | none => .error .zeroSupply
    | some supply => if supply = 0 then .error .zeroSupply else .ok supply

/-- `PublishAsset`: the description is encoded after the account of the asset is made, and a
negative supply cannot be encoded. -/
def publishAsset (E : EVM) (encodeInfo : InfoEncoder) (addr : Address)
    (assetInfo : AssetInfo) : M (Except AssetErr Unit) :=
  match isAssetInfoValid assetInfo with
  | .error e => pure (.error e)
  | .ok supply => do
    let v ← act .view
    let nonce := v.getNonce addr
    act (.setNonce addr (u64 (nonce + 1)))
    let id := E.createAddress addr nonce
    act (.createObject id)
    if supply < 0 then pure (.error .negativeSupply)
    else do
      act (.setAssetData id (encodeInfo addr assetInfo))
      act (.addAssetBalance addr id supply)
      pure (.ok ())

/-! ## Gas -/

def txGas : Nat := 25000
def txGasAssetPublish : Nat := 100000
def txGasContractCreation : Nat := 20000
def txDataNonZeroGas : Nat := 4
def txDataZeroGas : Nat := 1

def actionGas : Action → Nat
  | .publishAsset => txGasAssetPublish
  | .createContract => txGasContractCreation
  | _ => txGas

/-- `IntrinsicGas`. Where it overflows it returns an error and zero, and `TransitionDb` goes on
with the zero. -/
def intrinsicGas (data : Bytes) (action : Action) : Nat :=
  let nz := data.countP (· ≠ 0)
  let gas := actionGas action
  if (2 ^ 64 - 1 - gas) / txDataNonZeroGas < nz then 0
  else
    let gas := gas + nz * txDataNonZeroGas
    let z := data.length - nz
    if (2 ^ 64 - 1 - gas) / txDataZeroGas < z then 0 else gas + z * txDataZeroGas

/-! ## The transition -/

/-- `from` and `to`: an account that is not there is made. -/
def ensure (a : Address) : M Unit := do
  let v ← act .view
  if v.exist a then pure () else act (.createAccount a)

/-- `to`: without a recipient the zero address is called, which is not made. -/
def callee (msg : Message) : M Address :=
  match msg.recipient with
  | none => pure 0
  | some a => do
    ensure a
    pure a

/-- `buyGas`: the gas pool that is left. -/
def buyGas (msg : Message) (gp : Nat) : M (Except TxErr Nat) := do
  ensure msg.sender
  let v ← act .view
  if v.getBalance msg.sender < msg.gasLimit * msg.gasPrice then
    pure (.error .insufficientBalanceForGas)
  else if gp < msg.gasLimit then pure (.error .gasLimitReached)
  else do
    act (.subBalance msg.sender (msg.gasLimit * msg.gasPrice))
    pure (.ok (gp - msg.gasLimit))

/-- `preCheck`: the action and the gas pool that is left. -/
def preCheck (msg : Message) (gp : Nat) : M (Except TxErr (Action × Nat)) :=
  match Action.ofCode msg.action with
  | none => pure (.error .illegalAction)
  | some action => do
    ensure msg.sender
    let v ← act .view
    if v.getNonce msg.sender < msg.nonce then pure (.error .nonceTooHigh)
    else if msg.nonce < v.getNonce msg.sender then pure (.error .nonceTooLow)
    else do
      let r ← buyGas msg gp
      pure (r.map fun gp => (action, gp))

/-- The machine under a transaction's own call. -/
def nestedCalls (E : EVM) : Nested := nested E callCreateDepth

def executeCall (E : EVM) (msg : Message) (action : Action) (gas : Nat) :
    M (Except TxErr Reply) := do
  let v ← act .view
  act (.setNonce msg.sender (u64 (v.getNonce msg.sender + 1)))
  let addr ← callee msg
  let r ← call E (nestedCalls E)
    ⟨msg.sender, addr, msg.data, gas, action, msg.amount, msg.vote, msg.asset, false⟩
  pure (.ok r)

/-- The part of `TransitionDb` that depends on the action: the gas left and the error of the
virtual machine. -/
def execute (E : EVM) (encodeInfo : InfoEncoder) (msg : Message) (action : Action)
    (gas : Nat) : M (Except TxErr Reply) :=
  match action with
  | .createContract =>
    if msg.data = [] then pure (.error .dataNil)
    else do
      let r ← create E (nestedCalls E) msg.sender msg.data gas msg.asset msg.amount msg.abi.length
        false
      pure (.ok r.2)
  | .publishAsset => do
    let r ← Prog.within do
      ensure msg.sender
      let r ← publishAsset E encodeInfo msg.sender msg.assetInfo
      pure (r.toBool.not, r)
    match r with
    | .error e => pure (.error (.asset e))
    | .ok _ => pure (.ok ⟨[], gas, none⟩)
  | action => executeCall E msg action gas

/-- The refund of `refundGas`: at most half of the gas used. -/
def refundOf (used counter : Nat) : Nat := min (used / 2) counter

/-- `refundGas` and the fee. `AddGas` panics above `MaxUint64`. -/
def settle (E : EVM) (msg : Message) (gp : Nat) (r : Reply) :
    M (Nat × Except TxErr (Nat × Bool)) := do
  let v ← act .view
  let gas := u64 (r.gas + refundOf (u64 (msg.gasLimit - r.gas)) v.refund)
  ensure msg.sender
  act (.addBalance msg.sender (gas * msg.gasPrice))
  if 2 ^ 64 - 1 < gp + gas then .fail
  else do
    let used := u64 (msg.gasLimit - gas)
    act (.addBalance E.coinbase (used * msg.gasPrice))
    pure (gp + gas, .ok (used, r.err.isSome))

/-- The virtual machine's errors that are errors of the transition. -/
def isConsensusErr : Option VMErr → Option VMErr
  | some .insufficientBalance => some .insufficientBalance
  | some .vote => some .vote
  | _ => none

/-- `TransitionDb`: the gas pool that is left, and the gas used with whether the virtual machine
failed. -/
def transitionDb (E : EVM) (encodeInfo : InfoEncoder) (msg : Message) (gp : Nat) :
    M (Nat × Except TxErr (Nat × Bool)) := do
  let r ← preCheck msg gp
  match r with
  | .error e => pure (gp, .error e)
  | .ok (action, gp) =>
    ensure msg.sender
    if msg.gasLimit < intrinsicGas msg.data action then pure (gp, .error (.vm .outOfGas))
    else do
      let r ← execute E encodeInfo msg action (msg.gasLimit - intrinsicGas msg.data action)
      match r with
      | .error e => pure (gp, .error e)
      | .ok reply =>
        match isConsensusErr reply.err with
        | some e => pure (gp, .error (.vm e))
        | none => settle E msg gp reply

end GoAoa.Core
