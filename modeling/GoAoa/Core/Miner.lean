import GoAoa.Core.Processor

/-!
# Assembling blocks

`commitTransaction` and `commitTransactions` of `core/dpos_miner.go`, and the block that
`Finalize` and `NewBlock` make of the work. The pending transactions are any queue that has a
next transaction and gets smaller.
-/

namespace GoAoa.Core

open State VM DelegateState Option

/-- `commitTransaction`: on an error both databases are taken back to before the transaction.
The gas pool is not. -/
def commitTransaction (P : ProcessEnv) (ctx : BlockContext) (tx : Transaction) (L : Ledger) :
    Option (Except TxErr Receipt × Ledger) :=
  let snap := L.state.snapshot
  let delegateSnap := L.delegates.snapshot
  (applyTransaction P ctx tx { L with state := snap.2, delegates := delegateSnap.2 }).bind fun r =>
    match r.1 with
    | .ok receipt => some (.ok receipt, r.2)
    | .error e =>
      (r.2.state.revertToSnapshot (P.config.isEpiphron ctx.number) snap.1).bind fun state =>
        (r.2.delegates.revertToSnapshot delegateSnap.1).map fun delegates =>
          (.error e, { r.2 with state := state, delegates := delegates })

theorem commitTransaction_error {P : ProcessEnv} {ctx : BlockContext} {tx : Transaction}
    {L L' : Ledger} {e : TxErr} (h : commitTransaction P ctx tx L = some (.error e, L')) :
    ∃ L1 state delegates, applyTransaction P ctx tx
        { L with state := L.state.snapshot.2, delegates := L.delegates.snapshot.2 } =
          some (.error e, L1) ∧
      L1.state.revertToSnapshot (P.config.isEpiphron ctx.number) L.state.snapshot.1 = some state ∧
      L1.delegates.revertToSnapshot L.delegates.snapshot.1 = some delegates ∧
      L' = { L1 with state := state, delegates := delegates } := by
  obtain ⟨⟨res, L1⟩, happ, h⟩ := bind_eq_some_iff.1 h
  cases res with
  | ok =>
    have hres := congrArg Prod.fst (some.inj h)
    cases hres
  | error =>
    obtain ⟨state, hstate, h⟩ := bind_eq_some_iff.1 h
    obtain ⟨delegates, hdel, he, rfl⟩ := map_mk_eq_some.1 h
    cases he
    exact ⟨L1, state, delegates, happ, hstate, hdel, rfl⟩

/-- `TransactionsByPriceAndNonce`, as far as block assembly relies on it. -/
structure Queue (τ : Type) where
  peek : τ → Option Transaction
  shift : τ → τ
  pop : τ → τ
  size : τ → Nat
  shift_lt : ∀ q, (peek q).isSome → size (shift q) < size q
  pop_lt : ∀ q, (peek q).isSome → size (pop q) < size q

/-- What is assembled: the ledger, and the transactions with their receipts, the newest last. -/
structure Work where
  ledger : Ledger
  txs : List Transaction
  receipts : List Receipt
  contractGasLimit : Nat

def maxContractGasLimit : Nat := 60000000

def isContractTransaction (tx : Transaction) (db : StateDB) : Bool :=
  if tx.action = 1 ∨ tx.action = 2 ∨ tx.action = 3 ∨ tx.action = 4 then false
  else if tx.action = 5 ∨ tx.action = 6 then true
  else
    match tx.recipient with
    | none => !tx.payload.isEmpty
    | some a => !((view db).getCode a).isEmpty

def contractBudget (isContract : Bool) (budget gas : Nat) : Nat :=
  if isContract then u64 ((budget : Int) - u64 (gas - 20000)) else budget

section

variable {τ : Type}

/-- One round of the loop of `commitTransactions` with the transaction at the head of the queue.
`cached` is what the pool found out about the transaction. -/
def commitNext (P : ProcessEnv) (Q : Queue τ) (cached : Transaction → Option Bool)
    (ctx : BlockContext) (tx : Transaction) (q : τ) (w : Work) : Option (τ × Work) :=
  let isContract := (cached tx).getD (isContractTransaction tx w.ledger.state)
  if isContract && w.contractGasLimit < tx.gasLimit then some (Q.pop q, w)
  else
    let L := { w.ledger with state := w.ledger.state.prepare (P.txHash tx) 0 w.txs.length }
    (commitTransaction P ctx tx L).map fun r =>
      match r.1 with
      | .ok receipt =>
        (Q.shift q,
          { ledger := r.2, txs := w.txs ++ [tx], receipts := w.receipts ++ [receipt]
            contractGasLimit := contractBudget isContract w.contractGasLimit receipt.gasUsed })
      | .error e =>
        (if e = .gasLimitReached ∨ e = .nonceTooHigh then Q.pop q else Q.shift q, { w with
            ledger := r.2
            contractGasLimit := contractBudget isContract w.contractGasLimit 0 })

/-- `commitTransactions`, for at most as many rounds as the queue is long. -/
def commitLoop (P : ProcessEnv) (Q : Queue τ) (cached : Transaction → Option Bool)
    (ctx : BlockContext) : Nat → τ → Work → Option Work
  | 0, _, w => some w
  | n + 1, q, w =>
    if w.ledger.gp < txGas then some w
    else
      match Q.peek q with
      | none => some w
      | some tx => (commitNext P Q cached ctx tx q w).bind fun r => commitLoop P Q cached ctx n r.1 r.2

def commitTransactions (P : ProcessEnv) (Q : Queue τ) (cached : Transaction → Option Bool)
    (header : Header) (state : StateDB) (delegates : DelegateDB) (q : τ) : Option Work :=
  commitLoop P Q cached (Header.context header) (Q.size q) q
    ⟨⟨state, delegates, header.gasLimit, header.gasUsed⟩, [], [], maxContractGasLimit⟩

end

end GoAoa.Core
