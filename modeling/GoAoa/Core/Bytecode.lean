import GoAoa.Core.Processor
import GoAoa.VM.Interpreter

/-!
# Transactions that run bytecode

`NewEVMContext` for the interpreter. Whether the instructions that ask for delegates find a list is
decided by the action of the transaction, and whether code runs by the recipient. A plain transfer
to a contract and a creation run code without a list, and there these instructions dereference nil
(`delegateOps_complete_iff`).
-/

namespace GoAoa.Core

open State VM Machine

/-- What a context has from the chain: the hashes of the blocks before, the hash function, and
`GetDelegatePoll`. -/
structure ChainContext where
  getHash : BlockContext → Nat → Hash
  keccak256 : Bytes → Hash
  delegatePoll : AList fun _ : Address => Nat

/-- `NewEVMContext`, with the rules of the chain. -/
def newEVMContext (config : ChainConfig) (chain : ChainContext) (ctx : BlockContext)
    (msg : Message) : Context where
  origin := msg.sender
  gasPrice := msg.gasPrice
  coinbase := ctx.coinbase
  gasLimit := ctx.gasLimit
  blockNumber := ctx.number
  time := ctx.time
  difficulty := 1
  getHash := chain.getHash ctx
  delegateList :=
    if msg.action = 1 ∨ msg.action = 2 ∨ msg.action = 3 ∨ msg.action = 6 then
      some chain.delegatePoll
    else none
  isByzantium := config.isByzantium ctx.number
  gasTable := if config.isEpiphron ctx.number then .epiphron else .zero
  keccak256 := chain.keccak256

/-- The chain whose contracts are bytecode, followed for `fuel` rounds in each frame. -/
def ProcessEnv.running (P : ProcessEnv) (chain : ChainContext) (fuel : Nat) : ProcessEnv :=
  { P with interp := fun ctx msg => interpret (newEVMContext P.config chain ctx msg) fuel }

/-! ## Instructions that ask for delegates -/

/-- `ISDELEGATE`, `GETDELEGATEINFO`, `GETDELEGATEINFOS` and `GETDELEGATETOTALVOTE`. -/
def isDelegateOp (op : UInt8) : Bool := op == 0xe5 || op == 0xe6 || op == 0xe7 || op == 0xe8

def runsCode : Action → Bool
  | .publishAsset => false
  | _ => true

/-- The next instruction ends, with whatever it makes of the loop. -/
def Completes (c : Context) (f : Frame) (m : Machine) : Prop := ∃ r, step c f m = pure r

section

variable {c : Context} {f : Frame} {m : Machine} {d : AList fun _ : Address => Nat}

theorem delegateOp_cases {op : UInt8} (h : isDelegateOp op = true) :
    ∃ x pops, operationOf op = some (.const x gasQuickStep pops 1) ∧
      ((∃ w, x = opDelegates w ∧ pops = 1) ∨ (x = opGetCandidateVoteInfoFors ∧ pops = 5)) := by
  unfold isDelegateOp at h
  simp only [Bool.or_eq_true, beq_iff_eq] at h
  rcases h with ((rfl | rfl) | rfl) | rfl
  · exact ⟨opIsDelegate, 1, rfl, .inl ⟨_, rfl, rfl⟩⟩
  · exact ⟨opGetCandidateVoteInfo, 1, rfl, .inl ⟨_, rfl, rfl⟩⟩
  · exact ⟨opGetCandidateVoteInfoFors, 5, rfl, .inr ⟨rfl, rfl⟩⟩
  · exact ⟨opGetCandidateTotalVote, 1, rfl, .inl ⟨_, rfl, rfl⟩⟩

theorem charge_const (x : ExecutionFunc) (gas pops pushes : Nat) :
    ∃ r, charge c f (.const x gas pops pushes) m = pure r ∧
      ∀ paid, r = .ok paid → pops ≤ m.stack.length ∧ paid.stack = m.stack := by
  have herror : ∀ e, ∃ r,
      (pure (.error e) : Code (Except VMErr Machine)) = pure r ∧
        ∀ paid, r = .ok paid → pops ≤ m.stack.length ∧ paid.stack = m.stack :=
    fun e => ⟨_, rfl, fun _ h => by cases h⟩
  unfold charge
  split
  · exact herror _
  rename_i hlen
  split
  · exact herror _
  split
  · exact herror _
  show ∃ r, (if m.gas < gas then pure (Except.error VMErr.outOfGas) else
    pure (Except.ok { m with gas := m.gas - gas, memory := m.memory.resize 0 }) :
      Code (Except VMErr Machine)) = pure r ∧ _
  split
  · exact herror _
  · refine ⟨_, rfl, fun paid h => ?_⟩
    cases h
    exact ⟨Nat.le_of_not_lt hlen, rfl⟩

section

variable (hd : c.delegateList = some d)
include hd

theorem pure_opDelegates
    (w : (AList fun _ : Address => Nat) → Frame → Int → Int) (hlen : 1 ≤ m.stack.length) :
    ∃ r, opDelegates w c f m = pure r := by
  unfold opDelegates pop orFail done
  rw [hd]
  cases hs : m.stack with
  | nil => rw [hs] at hlen; cases hlen
  | cons => exact ⟨_, rfl⟩

theorem pure_opGetCandidateVoteInfoFors
    (hlen : 5 ≤ m.stack.length) : ∃ r, opGetCandidateVoteInfoFors c f m = pure r := by
  unfold opGetCandidateVoteInfoFors orFail done
  rw [hd]
  match hs : m.stack, hlen with
  | x1 :: x2 :: x3 :: x4 :: x5 :: s, _ =>
    unfold pop
    rw [hs]
    exact ⟨_, rfl⟩

theorem completes_of_list (hop : isDelegateOp (f.getOp m.pc) = true) : Completes c f m := by
  obtain ⟨x, pops, ho, hx⟩ := delegateOp_cases hop
  obtain ⟨r, hr, hpaid⟩ := charge_const x gasQuickStep pops 1
  unfold Completes step
  rw [ho]
  dsimp only
  rw [hr]
  cases r with
  | error => exact ⟨_, rfl⟩
  | ok paid =>
    obtain ⟨hlen, hstack⟩ := hpaid paid rfl
    rw [← hstack] at hlen
    have hexec : ∃ r, x c f paid = pure r := by
      rcases hx with ⟨w, rfl, rfl⟩ | ⟨rfl, rfl⟩
      · exact pure_opDelegates hd w hlen
      · exact pure_opGetCandidateVoteInfoFors hd hlen
    obtain ⟨r, hr⟩ := hexec
    show ∃ r, perform c f (.const x gasQuickStep pops 1) paid = pure r
    unfold perform
    rw [show (Operation.const x gasQuickStep pops 1).execute = x from rfl, hr]
    cases r with
    | error | ok => exact ⟨_, rfl⟩

end

/-- A frame about to execute `ISDELEGATE`, and its machine. -/
def askingFrame : Frame := ⟨1, 5, 5, [0xe5], [], 10, none, 0, false⟩
def askingMachine : Machine := ⟨0, [7], .new, 10, [], 0⟩

/-- Without a list they dereference nil. -/
theorem step_nil (hd : c.delegateList = none) : step c askingFrame askingMachine = .fail := by
  have hfree : isRestricted c askingFrame 0xe5 (.const opIsDelegate gasQuickStep 1 1) askingMachine =
      false := by
    unfold isRestricted askingFrame
    rw [Bool.and_false, Bool.false_and]
  have hcharge : charge c askingFrame (.const opIsDelegate gasQuickStep 1 1) askingMachine =
      pure (.ok { askingMachine with gas := 9 }) := by
    unfold charge
    rw [if_neg (by decide), if_neg (by decide), show askingFrame.getOp askingMachine.pc = 0xe5 from rfl,
      hfree]
    rfl
  have hexec : ∀ m, opIsDelegate c askingFrame m = .fail := by
    intro m
    unfold opIsDelegate opDelegates pop orFail
    rw [hd]
    cases m.stack <;> rfl
  unfold step
  rw [show operationOf (askingFrame.getOp askingMachine.pc) =
    some (.const opIsDelegate gasQuickStep 1 1) from rfl]
  dsimp only
  rw [hcharge]
  show perform c askingFrame (.const opIsDelegate gasQuickStep 1 1) _ = .fail
  unfold perform
  rw [show (Operation.const opIsDelegate gasQuickStep 1 1).execute = opIsDelegate from rfl, hexec]
  rfl

end

def getsDelegates : Action → Bool
  | .register | .addVote | .subVote | .callContract => true
  | _ => false

theorem delegateList_newEVMContext (config : ChainConfig) (chain : ChainContext) (ctx : BlockContext)
    {msg : Message} {action : Action} (hact : Action.ofCode msg.action = some action) :
    (newEVMContext config chain ctx msg).delegateList =
      if getsDelegates action then some chain.delegatePoll else none := by
  unfold newEVMContext
  unfold Action.ofCode at hact
  split at hact <;> cases hact <;> rename_i hcode <;> rw [hcode] <;> rfl

/-- **The instructions that ask for delegates complete**, in every frame of a transaction and with
every stack, if and only if the action is neither a plain transfer nor a creation. -/
theorem delegateOps_complete_iff (config : ChainConfig) (chain : ChainContext) (ctx : BlockContext)
    {msg : Message} {action : Action} (hact : Action.ofCode msg.action = some action) :
    (runsCode action = true → ∀ f m, isDelegateOp (f.getOp m.pc) = true →
        Completes (newEVMContext config chain ctx msg) f m) ↔
      action ≠ .trans ∧ action ≠ .createContract := by
  have hlist := delegateList_newEVMContext config chain ctx hact
  cases hgets : getsDelegates action with
  | true =>
    rw [hgets] at hlist
    refine ⟨fun _ => ?_, fun _ _ f m hop => completes_of_list hlist hop⟩
    constructor <;> rintro rfl <;> cases hgets
  | false =>
    rw [hgets] at hlist
    constructor
    · intro hall
      by_contra hne
      have hruns : runsCode action = true := by
        cases action <;> first | rfl | exact absurd ⟨by decide, by decide⟩ hne
      obtain ⟨r, hr⟩ := hall hruns askingFrame askingMachine rfl
      rw [step_nil hlist] at hr
      cases hr
    · rintro ⟨htrans, hcreate⟩ hruns
      cases action
      case trans => exact absurd rfl htrans
      case createContract => exact absurd rfl hcreate
      case publishAsset => cases hruns
      all_goals cases hgets

/-! ## A transaction that panics -/

def smallChain : ChainContext :=
  { getHash := fun _ _ => 0, keccak256 := fun _ => 0
    delegatePoll := (∅ : AList fun _ : Address => Nat).insert 7 1 }

def smallMessage (action : Nat) : Message :=
  { sender := 1, recipient := some 5, nonce := 0, gasLimit := 30000, gasPrice := 1, amount := 0
    data := [], action := action, vote := [], asset := none, assetInfo := ⟨"", "", none, ""⟩
    abi := [] }

/-- Address 5 asks whether address 7 is a delegate. -/
def askingTrie : Trie :=
  fun a => if a = 1 then some (plainAccount 0 100000) else
    if a = 5 then some { plainAccount 1 0 with code := [0x60, 7, 0xe5] } else none

theorem delegateOps_complete_callContract :
    Completes (newEVMContext smallEnv.config smallChain smallContext (smallMessage 6)) askingFrame
      askingMachine := by
  have hact : Action.ofCode (smallMessage 6).action = some .callContract := rfl
  exact (delegateOps_complete_iff smallEnv.config smallChain smallContext hact).2
    ⟨by decide, by decide⟩ rfl askingFrame askingMachine rfl

/-- **A plain transfer to a contract that asks for a delegate panics**; the call of the contract
does not. -/
theorem not_delegateOps_complete_transfer : (semantics doubling true).run (transitionDb
        (newEVM (smallEnv.running smallChain 100) smallContext (smallMessage 0)) (fun _ _ => [])
        (smallMessage 0) 100000) (.new askingTrie) = none ∧
      ((semantics doubling true).run (transitionDb
        (newEVM (smallEnv.running smallChain 100) smallContext (smallMessage 6)) (fun _ _ => [])
        (smallMessage 6) 100000) (.new askingTrie)).isSome = true ∧
      ¬ Completes (newEVMContext smallEnv.config smallChain smallContext (smallMessage 0))
        askingFrame askingMachine := by
  refine ⟨?_, by decide +kernel, ?_⟩
  · have hnone : ((semantics doubling true).run (transitionDb
        (newEVM (smallEnv.running smallChain 100) smallContext (smallMessage 0)) (fun _ _ => [])
        (smallMessage 0) 100000) (.new askingTrie)).isNone = true := by decide +kernel
    exact Option.isNone_iff_eq_none.1 hnone
  · rintro ⟨r, hr⟩
    cases hr

end GoAoa.Core
