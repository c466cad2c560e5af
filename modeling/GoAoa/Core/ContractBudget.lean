import GoAoa.Core.Assembly
import GoAoa.Core.Bytecode
import GoAoa.Core.GasAccounting

/-!
# The budget for contracts

A block has a budget of gas for its contract transactions. A transaction is tried if its limit
fits into what is left, and the budget then goes down by the gas it used less 20000: the part of
the price that every transaction has is not counted, and a transaction that fails adds it. So the
budget never wraps around (`contract_budget`), but it bounds the gas of the contract transactions
only up to 20000 for each that was tried, and a block can have more of them than the budget and
one more transaction.
-/

namespace GoAoa.Core

open List Option Prod State State.StateDB VM Semantics
open DelegateState (DelegateDB)

def maxOneContractGasLimit : Nat := 1000000

def triedGas (cached : Transaction → Option Bool) (tx : Transaction) (w w' : Work) : Option Nat :=
  if w.isContract cached tx && decide (tx.gasLimit ≤ w.contractGasLimit) then
    some ((w'.receipts.drop w.receipts.length).map Receipt.gasUsed).sum
  else none

section

variable {τ : Type}

def tallyLoop (P : ProcessEnv) (Q : Queue τ) (cached : Transaction → Option Bool)
    (ctx : BlockContext) : Nat → τ → Work → Option (Work × List Nat)
  | 0, _, w => some (w, [])
  | n + 1, q, w =>
    if w.ledger.gp < txGas then some (w, [])
    else
      match Q.peek q with
      | none => some (w, [])
      | some tx =>
        (commitNext P Q cached ctx tx q w).bind fun r =>
          (tallyLoop P Q cached ctx n r.1 r.2).map fun s =>
            (s.1, (triedGas cached tx w r.2).toList ++ s.2)

variable {P : ProcessEnv} {Q : Queue τ} {cached : Transaction → Option Bool} {ctx : BlockContext}
  {q q' : τ} {w w' : Work} {tx : Transaction} {L L' : Ledger} {gas : List Nat} {n : Nat}

theorem tallyLoop_fst (P : ProcessEnv) (Q : Queue τ) (cached : Transaction → Option Bool)
    (ctx : BlockContext) (n : Nat) (q : τ) (w : Work) :
    (tallyLoop P Q cached ctx n q w).map fst = commitLoop P Q cached ctx n q w := by
  induction n generalizing q w with
  | zero => rfl
  | succ n ih =>
    unfold tallyLoop commitLoop
    split
    · rfl
    · cases Q.peek q with
      | none => rfl
      | some tx =>
        dsimp only
        cases commitNext P Q cached ctx tx q w with
        | none => rfl
        | some =>
          rw [bind_some, bind_some, Option.map_map, ← ih]
          rfl

/-- **A round.** The budget is too small for the transaction; or it is included; or it fails. -/
theorem commitNext_cases (h : commitNext P Q cached ctx tx q w = some (q', w')) :
    (w.isContract cached tx = true ∧ w.contractGasLimit < tx.gasLimit ∧ w' = w) ∨
    ((w.isContract cached tx = true → tx.gasLimit ≤ w.contractGasLimit) ∧ ∃ res L,
      commitTransaction P ctx tx (w.prepared P tx) = some (res, L) ∧
      ((∃ receipt, res = .ok receipt ∧ w' = ⟨L, w.txs ++ [tx], w.receipts ++ [receipt],
            contractBudget (w.isContract cached tx) w.contractGasLimit receipt.gasUsed⟩) ∨
        ∃ e, res = .error e ∧ w' = { w with
          ledger := L
          contractGasLimit := contractBudget (w.isContract cached tx) w.contractGasLimit 0 })) := by
  unfold commitNext at h
  dsimp only at h
  split at h
  · rename_i hfull
    obtain ⟨hcontract, hlt⟩ := Bool.and_eq_true_iff.1 hfull
    cases h
    exact .inl ⟨hcontract, of_decide_eq_true hlt, rfl⟩
  · rename_i hroom
    refine .inr ⟨fun hcontract => ?_, ?_⟩
    · have hcontract' : (cached tx).getD (isContractTransaction tx w.ledger.state) = true := hcontract
      rw [hcontract', Bool.true_and, decide_eq_true_eq] at hroom
      omega
    · obtain ⟨⟨res, L⟩, hcommit, h⟩ := map_eq_some_iff.1 h
      refine ⟨res, L, hcommit, ?_⟩
      cases res with
      | ok receipt =>
        cases h
        exact .inl ⟨receipt, rfl, rfl⟩
      | error e =>
        cases h
        exact .inr ⟨e, rfl, rfl⟩

/-! ## The gas of a round -/

/-- If the transaction is executed, the machine leaves no more gas than it was given. -/
def leavesGas (P : ProcessEnv) (ctx : BlockContext) (tx : Transaction) (gp : Nat) (db : StateDB) :
    Bool :=
  (asMessage P tx).all fun msg =>
    match admission msg gp db with
    | .error _ => true
    | .ok action =>
      ((P.semantics ctx).run (execute (newEVM P ctx msg)
        P.encodeInfo msg action (gasForExecution msg action)) (bought msg db)).all fun r =>
          r.1.toOption.all fun reply => reply.gas ≤ gasForExecution msg action

theorem gas_le_of_leavesGas {msg : Message} {gp : Nat} {db : StateDB}
    (h : leavesGas P ctx tx gp db = true) (hmsg : asMessage P tx = some msg) (action : Action)
    (hadm : admission msg gp db = .ok action) :
    ReturnsGas P.growth (P.config.isEpiphron ctx.number) (newEVM P ctx msg) P.encodeInfo msg action
      db := by
  intro reply executed hexec
  unfold leavesGas at h
  rw [hmsg, all_some, hadm] at h
  dsimp only at h
  rw [hexec] at h
  exact of_decide_eq_true h

/-- The executions of the next rounds leave no more gas than they were given. -/
def roundsLeaveGas (P : ProcessEnv) (Q : Queue τ) (cached : Transaction → Option Bool)
    (ctx : BlockContext) : Nat → τ → Work → Bool
  | 0, _, _ => true
  | n + 1, q, w =>
    decide (w.ledger.gp < txGas) ||
      (Q.peek q).all fun tx =>
        (w.isContract cached tx && decide (w.contractGasLimit < tx.gasLimit) ||
          leavesGas P ctx tx w.ledger.gp (w.prepared P tx).state.snapshot.2) &&
        (commitNext P Q cached ctx tx q w).all fun r =>
          roundsLeaveGas P Q cached ctx n r.1 r.2

theorem transition_gas {g : Growth} {ep : Bool} {E : EVM} {enc : InfoEncoder}
    {msg : Message} {gp gp' : Nat} {db db' : StateDB} {res : Except TxErr (Nat × Bool)}
    (hevm : ∀ action, admission msg gp db = .ok action → ReturnsGas g ep E enc msg action db)
    (hgp : gp < 2 ^ 64)
    (h : (semantics g ep).run (transitionDb E enc msg gp) db = some ((gp', res), db')) :
    gp' ≤ gp ∧ ∀ used failed, res = .ok (used, failed) → used ≤ msg.gasLimit := by
  cases res with
  | ok =>
    obtain ⟨action, reply, executed, -, -, haccounts⟩ := accounts_of_run hgp hevm h
    have hpool := haccounts.pool
    refine ⟨by omega, fun used' failed' heq => ?_⟩
    cases heq
    exact haccounts.limit
  | error =>
    refine ⟨?_, fun _ _ heq => by cases heq⟩
    rcases transition_cases h with ⟨_, -, -, rfl, -⟩ | ⟨action, -, hcase⟩
    · exact Nat.le_refl _
    rcases hcase with ⟨-, -, rfl, -⟩ | ⟨-, r, db1, -, hcase⟩
    · omega
    rcases hcase with ⟨_, -, -, rfl, -⟩ | ⟨reply, _, -, -, -, rfl, -⟩ | ⟨reply, -, -, hsettle⟩
    · omega
    · omega
    · rw [run_settle] at hsettle
      split at hsettle
      · cases hsettle
      · obtain ⟨hpair, -⟩ := mk.inj (some.inj hsettle)
        cases (mk.inj hpair).2

theorem commitTransaction_gas {res : Except TxErr Receipt}
    (hE : leavesGas P ctx tx L.gp L.state.snapshot.2 = true)
    (hgp : L.gp < 2 ^ 64) (h : commitTransaction P ctx tx L = some (res, L')) :
    L'.gp ≤ L.gp ∧ ∀ receipt, res = .ok receipt → receipt.gasUsed ≤ tx.gasLimit := by
  obtain ⟨⟨r, L1⟩, happ, h⟩ := bind_eq_some_iff.1 h
  have hL1 : L1.gp ≤ L.gp ∧ ∀ receipt, r = .ok receipt → receipt.gasUsed ≤ tx.gasLimit := by
    rcases applyTransaction_cases happ with ⟨-, rfl, rfl⟩ | ⟨msg, gp, t, db, hmsg, hrun, hcase⟩
    · exact ⟨Nat.le_refl _, fun _ heq => by cases heq⟩
    · obtain ⟨hle, hused⟩ := transition_gas (gas_le_of_leavesGas hE hmsg) hgp hrun
      obtain ⟨vote, info, sender, -, -, rfl⟩ := asMessage_eq hmsg
      rcases hcase with ⟨e, -, rfl, rfl⟩ | ⟨gas, failed, v, delegates, rfl, -, ⟨e, -, rfl, rfl⟩ |
        ⟨root, db', -, -, rfl, rfl⟩⟩
      · exact ⟨hle, fun _ heq => by cases heq⟩
      · exact ⟨hle, fun _ heq => by cases heq⟩
      · refine ⟨hle, fun receipt heq => ?_⟩
        cases heq
        exact hused gas failed rfl
  cases r with
  | ok =>
    cases h
    exact hL1
  | error =>
    obtain ⟨state, -, h⟩ := bind_eq_some_iff.1 h
    obtain ⟨delegates, -, h⟩ := map_eq_some_iff.1 h
    cases h
    exact ⟨hL1.1, fun _ heq => by cases heq⟩

theorem contractBudget_true {budget used : Nat} (hle : used ≤ budget)
    (hlt : budget + 20000 < 2 ^ 64) : contractBudget true budget used = budget + 20000 - used := by
  unfold contractBudget
  rw [if_pos rfl]
  unfold u64
  omega

/-- **A round accounts for what it tried.** -/
theorem commitNext_budget
    (hE : (w.isContract cached tx && decide (w.contractGasLimit < tx.gasLimit) ||
      leavesGas P ctx tx w.ledger.gp (w.prepared P tx).state.snapshot.2) = true)
    (hgp : w.ledger.gp < 2 ^ 64) (hbudget : w.contractGasLimit + 20000 < 2 ^ 64)
    (h : commitNext P Q cached ctx tx q w = some (q', w')) :
    w'.ledger.gp ≤ w.ledger.gp ∧ w'.contractGasLimit + (triedGas cached tx w w').toList.sum =
        w.contractGasLimit + 20000 * (triedGas cached tx w w').toList.length := by
  rcases commitNext_cases h with ⟨hcontract, hlt, rfl⟩ | ⟨hfits, res, L, hcommit, hcase⟩
  · refine ⟨Nat.le_refl _, ?_⟩
    have hnone : triedGas cached tx w' w' = none := by
      unfold triedGas
      rw [if_neg (by simp [Nat.not_le.2 hlt])]
    rw [hnone]
    rfl
  · have hprep : (w.prepared P tx).gp < 2 ^ 64 := hgp
    have hleaves : leavesGas P ctx tx w.ledger.gp (w.prepared P tx).state.snapshot.2 = true := by
      refine (Bool.or_eq_true_iff.1 hE).resolve_left fun hfull => ?_
      obtain ⟨hcontract, hlt⟩ := Bool.and_eq_true_iff.1 hfull
      exact Nat.not_lt_of_le (hfits hcontract) (of_decide_eq_true hlt)
    obtain ⟨hle, hused⟩ := commitTransaction_gas hleaves hprep hcommit
    have hround : ∃ used, used ≤ tx.gasLimit ∧ w'.ledger.gp ≤ w.ledger.gp ∧
        w'.contractGasLimit = contractBudget (w.isContract cached tx) w.contractGasLimit used ∧
        ((w'.receipts.drop w.receipts.length).map Receipt.gasUsed).sum = used := by
      rcases hcase with ⟨receipt, rfl, rfl⟩ | ⟨e, rfl, rfl⟩
      · exact ⟨receipt.gasUsed, hused receipt rfl, hle, rfl, by rw [drop_left]; simp⟩
      · exact ⟨0, Nat.zero_le _, hle, rfl, by rw [drop_length]; rfl⟩
    obtain ⟨used, hlimit, hgp', hafter, hsum⟩ := hround
    refine ⟨hgp', ?_⟩
    unfold triedGas
    rw [hafter, hsum]
    cases hcontract : w.isContract cached tx with
    | false => rfl
    | true =>
      have hroom := hfits hcontract
      rw [contractBudget_true (by omega) hbudget, decide_eq_true hroom]
      simp only [Bool.and_self, if_true, toList_some, sum_cons, sum_nil, length_cons, length_nil]
      omega

/-! ## The loop -/

/-- **The budget is what is left of it**, and is never wrapped around: after any number of rounds
it has gone down by the gas of the contract transactions, less 20000 for each that was tried. -/
theorem tallyLoop_budget (hE : roundsLeaveGas P Q cached ctx n q w = true)
    (hgp : w.ledger.gp < 2 ^ 64) (hbudget : w.contractGasLimit + 20000 * n < 2 ^ 64)
    (h : tallyLoop P Q cached ctx n q w = some (w', gas)) :
    w'.contractGasLimit + gas.sum = w.contractGasLimit + 20000 * gas.length ∧ gas.length ≤ n := by
  induction n generalizing q w gas with
  | zero =>
    cases h
    exact ⟨rfl, Nat.le_refl 0⟩
  | succ n ih =>
    unfold tallyLoop at h
    unfold roundsLeaveGas at hE
    split at h
    · cases h
      exact ⟨rfl, Nat.zero_le _⟩
    rename_i hgas
    rw [decide_eq_false hgas, Bool.false_or] at hE
    split at h
    · cases h
      exact ⟨rfl, Nat.zero_le _⟩
    · rename_i tx hpeek
      obtain ⟨⟨q1, w1⟩, hnext, h⟩ := bind_eq_some_iff.1 h
      obtain ⟨⟨w2, gas2⟩, hrest, hw, rfl⟩ := map_mk_eq_some.1 h
      have hw : w2 = w' := hw
      subst hw
      have hroom : w.contractGasLimit + 20000 < 2 ^ 64 := by
        refine Nat.lt_of_le_of_lt (Nat.add_le_add_left ?_ _) hbudget
        omega
      rw [hpeek, all_some, Bool.and_eq_true_iff, hnext, all_some] at hE
      dsimp only at hE
      obtain ⟨hgp1, hround⟩ := commitNext_budget hE.1 hgp hroom hnext
      have hone : (triedGas cached tx w w1).toList.length ≤ 1 := by
        cases triedGas cached tx w w1 <;> simp
      dsimp only at hround hrest ⊢
      obtain ⟨hloop, hlen⟩ := ih hE.2 (by omega) (by omega) hrest
      rw [sum_append, length_append]
      omega

end

/-- **The contract transactions of a block** use at most the budget and 20000 for each that was
tried, and after every round the budget is exactly what that leaves: it never wraps around. -/
theorem contract_budget {τ : Type} {P : ProcessEnv} {Q : Queue τ}
    {cached : Transaction → Option Bool} (header : Header) {state : StateDB}
    {delegates : DelegateDB} {q : τ} {n : Nat}
    (hE : roundsLeaveGas P Q cached (Header.context header) n q (.start header state delegates) =
      true)
    (hlimit : header.gasLimit < 2 ^ 64) (hn : maxContractGasLimit + 20000 * n < 2 ^ 64) :
    (∀ w gas, tallyLoop P Q cached (Header.context header) n q (.start header state delegates) =
        some (w, gas) →
      w.contractGasLimit + gas.sum = maxContractGasLimit + 20000 * gas.length ∧
        gas.sum ≤ maxContractGasLimit + 20000 * gas.length) ∧
    (n = Q.size q → commitTransactions P Q cached header state delegates q =
      (tallyLoop P Q cached (Header.context header) n q (.start header state delegates)).map
        Prod.fst) := by
  refine ⟨fun w gas h => ?_, ?_⟩
  · have hgp := hlimit
    have hloop := (tallyLoop_budget hE hgp hn h).1
    have hloop : w.contractGasLimit + gas.sum = maxContractGasLimit + 20000 * gas.length := hloop
    exact ⟨hloop, by omega⟩
  · rintro rfl
    exact (tallyLoop_fst _ _ _ _ _ _ _).symm

/-! ## Sixty-two contract calls -/

def burningEnv : ProcessEnv := { smallEnv with interp := fun _ _ _ => pure ⟨[], 0, none⟩ }

def burningTrie : Trie := fun a =>
  if a = 1 then some (plainAccount 0 (10 ^ 18))
  else if a = 5 then some { plainAccount 1 0 with code := [0] }
  else none

def burn (nonce : Nat) : Transaction :=
  { smallTx with
    accountNonce := nonce, price := 100 - nonce, gasLimit := maxOneContractGasLimit
    recipient := some 5, action := 0, vote := none }

def burns (n : Nat) : TransactionsByPriceAndNonce :=
  newTransactionsByPriceAndNonce2 ((List.range n).map burn)

def burningHeader : Header := { roomyHeader with gasLimit := 100000000 }

def burnLoop (P : ProcessEnv) (n : Nat) : Option (Work × List Nat) :=
  tallyLoop P (byPriceAndNonce P) (fun _ => none) (Header.context burningHeader) (burns n).size
    (burns n) (.start burningHeader (.new burningTrie) smallDelegates)

/-- The interpreter runs the code of account 5, which stops. -/
theorem contract_budget_two : ∃ w, burnLoop (smallEnv.running smallChain 5) 2 =
      some (w, [25000, 0, 25000, 0]) ∧
    w.contractGasLimit + 50000 = maxContractGasLimit + 80000 := by
  have hrun : (burnLoop (smallEnv.running smallChain 5) 2).map snd =
      some [25000, 0, 25000, 0] := by decide +kernel
  obtain ⟨⟨w, gas⟩, hrun, rfl⟩ := map_eq_some_iff.1 hrun
  have hbudget := (contract_budget burningHeader (by decide +kernel) (by decide) (by decide)).1 w _
    hrun
  exact ⟨w, hrun, hbudget.1⟩

/-- **More than the budget and one transaction.** Sixty-two calls, none with more gas than the pool
allows, use two million more than the budget. -/
theorem burns_exceed_budget : ∃ w gas, burnLoop burningEnv 62 = some (w, gas) ∧
    commitTransactions burningEnv (byPriceAndNonce burningEnv) (fun _ => none) burningHeader
      (.new burningTrie) smallDelegates (burns 62) = some w ∧
    gas.sum = 62000000 ∧ maxContractGasLimit + maxOneContractGasLimit < gas.sum := by
  refine exists₂_of_check (fun _ gas => gas.sum = 62000000) (by decide +kernel)
    fun w gas hrun hsum => ⟨?_, hsum, by rw [hsum]; decide⟩
  have hfst := congrArg (Option.map fst) hrun
  exact (tallyLoop_fst _ _ _ _ _ _ _).symm.trans hfst

/-! ## The gas of a block -/

/-- Each receipt has the gas that was used up to it, from `used` to `total`. -/
def Cumulates : Nat → List Receipt → Nat → Prop
  | used, [], total => used = total
  | used, r :: receipts, total =>
    r.cumulativeGasUsed = used + r.gasUsed ∧ Cumulates r.cumulativeGasUsed receipts total

/-- The executions of the transactions leave no more gas than they were given. -/
def blockLeavesGas (P : ProcessEnv) (ctx : BlockContext) (blockHash : Hash) :
    Nat → List Transaction → Ledger → Bool
  | _, [], _ => true
  | i, tx :: txs, L =>
    let L := L.prepare (P.txHash tx) blockHash i
    leavesGas P ctx tx L.gp L.state &&
      (applyTransaction P ctx tx L).all fun r => blockLeavesGas P ctx blockHash (i + 1) txs r.2

section

variable {P : ProcessEnv} {ctx : BlockContext} {blockHash : Hash} {txs : List Transaction}
  {receipts : List Receipt} {L L' : Ledger}

theorem applyTransaction_gas {tx : Transaction} {r : Receipt}
    (hE : leavesGas P ctx tx L.gp L.state = true)
    (hlt : L.usedGas + L.gp < 2 ^ 64) (h : applyTransaction P ctx tx L = some (.ok r, L')) :
    r.cumulativeGasUsed = L.usedGas + r.gasUsed ∧ L'.usedGas = r.cumulativeGasUsed ∧
      L'.usedGas + L'.gp = L.usedGas + L.gp := by
  rcases applyTransaction_cases h with ⟨-, hres, -⟩ | ⟨msg, gp, t, db, hmsg, hrun, ⟨_, -, hres, -⟩ |
    ⟨gas, failed, _, delegates, rfl, -, ⟨_, -, hres, -⟩ | ⟨root, db', -, -, rfl, hres⟩⟩⟩
  iterate 4 cases hres
  obtain ⟨_, _, _, -, -, haccounts⟩ := accounts_of_run (by omega) (gas_le_of_leavesGas hE hmsg) hrun
  have hpool := haccounts.pool
  have hused : u64 (L.usedGas + gas) = L.usedGas + gas := u64_of_lt (by omega)
  refine ⟨hused, rfl, ?_⟩
  dsimp only
  omega

theorem processTxs_gas {i : Nat} (hE : blockLeavesGas P ctx blockHash i txs L = true)
    (hlt : L.usedGas + L.gp < 2 ^ 64)
    (h : processTxs P ctx blockHash i txs L = some (.ok receipts, L')) :
    receipts.length = txs.length ∧ Cumulates L.usedGas receipts L'.usedGas ∧
      L'.usedGas + L'.gp = L.usedGas + L.gp := by
  induction txs generalizing i L receipts with
  | nil =>
    cases h
    exact ⟨rfl, rfl, rfl⟩
  | cons tx txs ih =>
    obtain ⟨⟨res, L₁⟩, happ, h⟩ := bind_eq_some_iff.1 h
    obtain ⟨hleaves, hE⟩ := Bool.and_eq_true_iff.1 hE
    rw [happ] at hE
    cases res with
    | error => cases h
    | ok r =>
      obtain ⟨⟨rest, L₂⟩, hrest, heq⟩ := map_eq_some_iff.1 h
      cases rest with
      | error => cases heq
      | ok rest =>
        cases heq
        obtain ⟨hr, hused, hsum⟩ := applyTransaction_gas (L := L.prepare _ blockHash i) hleaves hlt
          happ
        obtain ⟨hlen, hcum, hleft⟩ := ih hE (hsum ▸ hlt) hrest
        exact ⟨congrArg (· + 1) hlen, ⟨hr, hused ▸ hcum⟩, hleft.trans hsum⟩

/-- **The gas of a block.** The receipts add up to what was used, and that and what is left in the
pool is the gas limit. -/
theorem process_gas {header : Header} {state : StateDB} {delegates : DelegateDB}
    (hE : blockLeavesGas P (Header.context header) blockHash 0 txs
      ⟨state, delegates, header.gasLimit, 0⟩ = true) (hlt : header.gasLimit < 2 ^ 64)
    (h : process P header blockHash txs state delegates = some (.ok receipts, L)) :
    receipts.length = txs.length ∧ Cumulates 0 receipts L.usedGas ∧
      L.usedGas + L.gp = header.gasLimit := by
  obtain ⟨⟨res, L₁⟩, htxs, h⟩ := bind_eq_some_iff.1 h
  cases res with
  | error => cases h
  | ok =>
    obtain ⟨L₂, hfin, heq⟩ := map_eq_some_iff.1 h
    cases heq
    obtain ⟨state, -, hfin⟩ := bind_eq_some_iff.1 hfin
    obtain ⟨delegates, -, rfl⟩ := map_eq_some_iff.1 hfin
    have hgas := processTxs_gas hE (by rwa [Nat.zero_add]) htxs
    rwa [Nat.zero_add] at hgas

theorem process_gas_two : ∃ receipts L, process (smallEnv.running smallChain 5) burningHeader 0
      [burn 0, burn 1] (.new burningTrie) smallDelegates = some (.ok receipts, L) ∧
    receipts.length = 2 ∧ Cumulates 0 receipts L.usedGas ∧ L.usedGas + L.gp = 100000000 := by
  obtain ⟨⟨res, L⟩, h, hok⟩ : ∃ r, process (smallEnv.running smallChain 5) burningHeader 0
      [burn 0, burn 1] (.new burningTrie) smallDelegates = some r ∧
        r.1.toOption.isSome = true := exists_of_check _ (by decide +kernel) fun _ _ => id
  cases res with
  | error => cases hok
  | ok receipts => exact ⟨receipts, L, h, process_gas (by decide +kernel) (by decide) h⟩

end

end GoAoa.Core
