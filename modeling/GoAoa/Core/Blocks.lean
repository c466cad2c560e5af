import GoAoa.Core.Processor
import GoAoa.Lib.Run

/-!
# Chains of blocks

What happens to the databases of a chain: transactions are applied, and a block is closed, which
writes both tries and opens the databases of the next block over them. `Process` of a block is a
run of such steps (`run_process`), so what all runs keep holds on every chain. The delegates of
the chain head may be others in each step.
-/

namespace GoAoa.Core

open Option Run State VM DelegateState

inductive ChainStep where
  | transaction (delegatePoll : List Address) (ctx : BlockContext) (blockHash : Hash) (i : Nat)
    (tx : Transaction)
  | close (ctx : BlockContext) (nextGasLimit : Nat)

def ProcessEnv.withPoll (P : ProcessEnv) (delegatePoll : List Address) : ProcessEnv :=
  { P with delegatePoll := delegatePoll }

def Ledger.next (L : Ledger) (gasLimit : Nat) : Ledger :=
  ⟨.new L.state.trie, .new L.delegates.trie, gasLimit, 0⟩

def Ledger.genesis (trie : Trie) (delegates : DelegateTrie) (gasLimit : Nat) : Ledger :=
  ⟨.new trie, .new delegates, gasLimit, 0⟩

/-- A transaction that fails makes the block invalid, so it is not a step. -/
def chainStep (P : ProcessEnv) : ChainStep → Ledger → Option Ledger
  | .transaction delegatePoll ctx blockHash i tx, L =>
    (applyTransaction (P.withPoll delegatePoll) ctx tx (L.prepare (P.txHash tx) blockHash i)).bind
      fun r =>
        match r.1 with
        | .ok _ => some r.2
        | .error _ => none
  | .close ctx nextGasLimit, L => (finalize P ctx L).map fun L => L.next nextGasLimit

variable {P : ProcessEnv} {ctx : BlockContext} {blockHash : Hash}

theorem chainStep_transaction {delegatePoll : List Address}
    {i : Nat} {tx : Transaction} {L L' : Ledger}
    (h : chainStep P (.transaction delegatePoll ctx blockHash i tx) L = some L') :
    ∃ receipt, applyTransaction (P.withPoll delegatePoll) ctx tx
      (L.prepare (P.txHash tx) blockHash i) = some (.ok receipt, L') := by
  obtain ⟨⟨res, L1⟩, happ, h⟩ := bind_eq_some_iff.1 h
  cases res with
  | error => cases h
  | ok receipt =>
    cases h
    exact ⟨receipt, happ⟩

theorem chainStep_close {gasLimit : Nat} {L L' : Ledger}
    (h : chainStep P (.close ctx gasLimit) L = some L') :
    ∃ state delegates, (accumulateRewards P ctx L.state).finalise false = some state ∧
      L.delegates.finalise = some delegates ∧
      L' = ⟨.new state.trie, .new delegates.trie, gasLimit, 0⟩ := by
  obtain ⟨L1, hfin, rfl⟩ := map_eq_some_iff.1 h
  obtain ⟨state, hstate, hfin⟩ := bind_eq_some_iff.1 hfin
  obtain ⟨delegates, hdel, rfl⟩ := map_eq_some_iff.1 hfin
  exact ⟨state, delegates, hstate, hdel, rfl⟩

/-! ## Blocks are runs -/

def blockSteps (P : ProcessEnv) (ctx : BlockContext) (blockHash : Hash) :
    Nat → List Transaction → List ChainStep
  | _, [] => []
  | i, tx :: txs =>
    .transaction P.delegatePoll ctx blockHash i tx :: blockSteps P ctx blockHash (i + 1) txs

theorem run_processTxs {i : Nat} {txs : List Transaction} {L L' : Ledger} {receipts : List Receipt}
    (h : processTxs P ctx blockHash i txs L = some (.ok receipts, L')) :
    exec (chainStep P) (blockSteps P ctx blockHash i txs) L = some L' := by
  induction txs generalizing i L receipts with
  | nil =>
    cases h
    rfl
  | cons tx txs ih =>
    obtain ⟨⟨res, L1⟩, happ, h⟩ := bind_eq_some_iff.1 h
    cases res with
    | error => cases h
    | ok =>
      obtain ⟨⟨rest, L2⟩, hrest, hres, rfl⟩ := map_mk_eq_some.1 h
      cases rest with
      | error => cases hres
      | ok =>
        refine exec_cons_eq_some.2 ⟨L1, ?_, ih hrest⟩
        show (applyTransaction P ctx tx _).bind _ = _
        rw [happ]
        rfl

/-- **Processing a block is a run**, and the next block starts where the run ends. -/
theorem run_process {header : Header} {txs : List Transaction}
    {state : StateDB} {delegates : DelegateDB} {receipts : List Receipt} {L : Ledger}
    (h : process P header blockHash txs state delegates = some (.ok receipts, L)) (gasLimit : Nat) :
    exec (chainStep P) (blockSteps P (Header.context header) blockHash 0 txs ++
        [.close (Header.context header) gasLimit])
      ⟨state, delegates, header.gasLimit, 0⟩ = some (L.next gasLimit) := by
  obtain ⟨⟨res, L1⟩, htxs, h⟩ := bind_eq_some_iff.1 h
  cases res with
  | error => cases h
  | ok =>
    obtain ⟨L2, hfin, heq⟩ := map_eq_some_iff.1 h
    cases heq
    rw [exec_append, run_processTxs htxs, bind_some]
    refine exec_cons_eq_some.2 ⟨_, ?_, rfl⟩
    show (finalize P _ L1).map _ = _
    rw [hfin]
    rfl

end GoAoa.Core
