import GoAoa.Core.Admission
import GoAoa.DelegateState.DB

/-!
# Processing transactions and blocks

`ApplyTransaction` and `Process` of `core/state_processor.go`, the vote counting of
`core/vote_util.go`, `Finalize` of the engine and `ValidateState`. A map of votes is walked in
the order in which its keys first occur. Hashes of tries and lists are parameters. Monitoring,
inner transactions and log events are left out.
-/

namespace GoAoa.Core

open Option State VM DelegateState

/-- `ChainConfig`; a fork without a block is never reached. -/
structure ChainConfig where
  byzantiumBlock : Option Nat
  aresBlock : Option Nat
  epiphronBlock : Option Nat
  frontierBlockReward : Nat
  byzantiumBlockReward : Nat
  maxElectDelegate : Int

def isForked (fork : Option Nat) (number : Nat) : Bool :=
  match fork with
  | none => false
  | some n => n ≤ number

namespace ChainConfig

variable (c : ChainConfig)

def isByzantium (number : Nat) : Bool := isForked c.byzantiumBlock number
def isAres (number : Nat) : Bool := isForked c.aresBlock number
def isEpiphron (number : Nat) : Bool := isForked c.epiphronBlock number

end ChainConfig

/-- The fields of a header that execution can see. -/
structure BlockContext where
  parentHash : Hash
  coinbase : Address
  number : Nat
  time : Nat
  gasLimit : Nat
  deriving DecidableEq, Repr

def Header.context (h : Header) : BlockContext :=
  ⟨h.parentHash, h.coinbase, h.number, h.time, h.gasLimit⟩

structure Receipt where
  /-- The state root after the transaction, before the Ares block. -/
  postState : Option Hash
  failed : Bool
  cumulativeGasUsed : Nat
  bloom : BitVec 2048
  logs : List Log
  txHash : Hash
  contractAddress : Address
  gasUsed : Nat
  action : Nat
  deriving DecidableEq, Repr

/-- The fields of a log that are part of consensus. -/
structure LogRLP where
  address : Address
  topics : List Hash
  data : Bytes
  deriving DecidableEq, Repr

/-- `receiptRLP`. -/
structure ReceiptRLP where
  postStateOrStatus : Hash ⊕ Bool
  cumulativeGasUsed : Nat
  bloom : BitVec 2048
  logs : List LogRLP
  deriving DecidableEq, Repr

def Log.rlp (l : Log) : LogRLP := ⟨l.address, l.topics, l.data⟩

/-- `EncodeRLP` of a receipt: the state root if there is one, else the status. -/
def Receipt.rlp (r : Receipt) : ReceiptRLP where
  postStateOrStatus := match r.postState with
    | some root => .inl root
    | none => .inr r.failed
  cumulativeGasUsed := r.cumulativeGasUsed
  bloom := r.bloom
  logs := r.logs.map Log.rlp

/-- What processing depends on besides the block and the state. -/
structure ProcessEnv where
  config : ChainConfig
  growth : Growth
  /-- `Sender`; `none` if the signature is invalid. -/
  sender : Transaction → Option Address
  txHash : Transaction → Hash
  interp : BlockContext → Message → Frame → Code Reply
  precompiled : Address → Option Precompile
  createAddress : Address → Nat → Address
  createAddress_ne : ∀ a n, createAddress a n ≠ a
  /-- `GetDelegatePoll`: the delegates of the chain head. -/
  delegatePoll : List Address
  encodeInfo : InfoEncoder
  stateRoot : Trie → Hash
  delegateRoot : (Address → Option Delegate) → Hash
  bloom9 : Bytes → BitVec 2048
  receiptSha : List ReceiptRLP → Hash
  txSha : List Transaction → Hash

/-- The operations of the state in the block of `ctx`. -/
abbrev ProcessEnv.semantics (P : ProcessEnv) (ctx : BlockContext) :=
  VM.semantics P.growth (P.config.isEpiphron ctx.number)

/-- `AsMessage`: the vote list is decoded for votes only. -/
def asMessage (P : ProcessEnv) (tx : Transaction) : Option Message :=
  match (if tx.action = 2 ∨ tx.action = 3 then tx.vote else some []), tx.assetInfo, P.sender tx with
  | some vote, none, some sender => some (message vote ⟨"", "", none, ""⟩ sender)
  | some vote, some (some assetInfo), some sender => some (message vote assetInfo sender)
  | _, _, _ => none
where
  message (vote : List Vote) (assetInfo : AssetInfo) (sender : Address) : Message :=
    { sender := sender, recipient := tx.recipient, nonce := tx.accountNonce
      gasLimit := tx.gasLimit, gasPrice := tx.price, amount := tx.amount, data := tx.payload
      action := tx.action, vote := vote, asset := tx.asset, assetInfo := assetInfo, abi := tx.abi }

variable {P : ProcessEnv} {tx : Transaction}

theorem asMessage_eq {msg : Message}
    (h : asMessage P tx = some msg) : ∃ vote assetInfo sender, P.sender tx = some sender ∧
      (if tx.action = 2 ∨ tx.action = 3 then tx.vote else some []) = some vote ∧
      msg = asMessage.message tx vote assetInfo sender := by
  unfold asMessage at h
  split at h
  · rename_i vote sender hvote hinfo hsender
    exact ⟨vote, _, sender, hsender, hvote, (some.inj h).symm⟩
  · rename_i vote assetInfo sender hvote hinfo hsender
    exact ⟨vote, _, sender, hsender, hvote, (some.inj h).symm⟩
  · cases h

/-- `NewEVMContext` and `NewEVM`: only some actions get the delegates. -/
def newEVM (P : ProcessEnv) (ctx : BlockContext) (msg : Message) : EVM where
  interp := P.interp ctx msg
  precompiled := P.precompiled
  createAddress := P.createAddress
  createAddress_ne := P.createAddress_ne
  delegateList :=
    if msg.action = 1 ∨ msg.action = 2 ∨ msg.action = 3 ∨ msg.action = 6 then some P.delegatePoll
    else none
  maxElectDelegate := P.config.maxElectDelegate
  coinbase := ctx.coinbase

/-! ## Counting votes -/

/-- `VoteCandidate` with its action. -/
inductive Candidacy where
  | register (address : Address) (nickname : Bytes)
  | addVote (address : Address) (vote : Int)
  | subVote (address : Address) (vote : Int)
  | cancel (address : Address)
  deriving DecidableEq, Repr

def tally (votes : List (Address × Int)) (c : Address) (n : Int) : List (Address × Int) :=
  if c ∈ votes.map Prod.fst then votes.map fun e => if e.1 = c then (c, e.2 + n) else e
  else votes ++ [(c, n)]

/-- The map of votes; `none` for a vote without a candidate, which panics. -/
def candidateVotes : List Vote → List (Address × Int) → Option (List (Address × Int))
  | [], acc => some acc
  | v :: votes, acc =>
    match v.candidate with
    | none => none
    | some c =>
      candidateVotes votes (match v.operation with
        | 0 => tally acc c 1
        | 1 => tally acc c (-1)
        | _ => acc)

def Candidacy.ofVotes (e : Address × Int) : Candidacy :=
  if e.2 < 0 then .subVote e.1 (-e.2) else .addVote e.1 e.2

/-- `CountTrxVote`: what the transaction does to delegates, whatever its execution did. A sender
that is a delegate and cannot pay the registration any more is cancelled. -/
def countTrxVote (sender : Address) (msg : Message) (nickname : Bytes) (state : StateDB)
    (db : DelegateDB) : Option (List Candidacy × DelegateDB) :=
  let candidates : Option (List Candidacy) :=
    if msg.action = 2 ∨ msg.action = 3 then
      (candidateVotes msg.vote []).map fun votes => votes.map Candidacy.ofVotes
    else if msg.action = 1 then some [.register sender nickname]
    else some []
  candidates.map fun candidates =>
    let r := db.exist sender
    (if r.2 ∧ (view state).getBalance sender < registerCost then candidates ++ [.cancel sender]
     else candidates, r.1)

def voteCount (blockTime : Nat) (db : DelegateDB) : Candidacy → Except TxErr Unit × DelegateDB
  | .register a nickname =>
    match db.exist a with
    | (db, true) => (.error .duplicateRegisterAgent, db)
    | (db, false) => (.ok (), db.getOrNewStateObject a nickname blockTime)
  | .addVote a vote =>
    match db.exist a with
    | (db, false) => (.error .addVote, db)
    | (db, true) => (.ok (), db.addVote a vote)
  | .subVote a vote =>
    match db.subExist a with
    | (db, false) => (.error .subVote, db)
    | (db, true) =>
      match db.getVote a with
      | (db, current) =>
        if i64 current < vote then (.error .subVoteNotEnough, db) else (.ok (), db.subVote a vote)
  | .cancel a =>
    match db.exist a with
    | (db, false) => (.error .cancelAgent, db)
    | (db, true) => (.ok (), db.suicide a)

/-- The loop of `voteChangeToDelegateState`: the first error ends it. -/
def voteCounts (blockTime : Nat) : List Candidacy → DelegateDB → Except TxErr Unit × DelegateDB
  | [], db => (.ok (), db)
  | c :: cs, db =>
    match voteCount blockTime db c with
    | (.error e, db) => (.error e, db)
    | (.ok _, db) => voteCounts blockTime cs db

def voteChangeToDelegateState (sender : Address) (msg : Message) (nickname : Bytes)
    (state : StateDB) (blockTime : Nat) (db : DelegateDB) :
    Option (Except TxErr Unit × DelegateDB) :=
  (countTrxVote sender msg nickname state db).map fun r => voteCounts blockTime r.1 r.2

/-! ## Transactions -/

/-- What a transaction is applied to: both databases, the gas pool and the gas used. -/
structure Ledger where
  state : StateDB
  delegates : DelegateDB
  gp : Nat
  usedGas : Nat

def logsBloom (bloom9 : Bytes → BitVec 2048) (logs : List LogRLP) : BitVec 2048 :=
  logs.foldl (fun bin l => l.topics.foldl (fun bin t => bin ||| bloom9 (FixedWidth.encode 32 t.toNat))
    (bin ||| bloom9 (FixedWidth.encode 20 l.address.toNat))) 0

/-- `Finalise(true)` from the Ares block on, `IntermediateRoot(false)` before. -/
def finaliseTx (P : ProcessEnv) (ctx : BlockContext) (db : StateDB) :
    Option (Option Hash × StateDB) :=
  if P.config.isAres ctx.number then (db.finalise true).map fun db => (none, db)
  else (db.finalise false).map fun db => (some (P.stateRoot db.trie), db)

variable {ctx : BlockContext}

theorem finaliseTx_eq {db db' : StateDB} {root : Option Hash}
    (h : finaliseTx P ctx db = some (root, db')) :
    db.finalise (P.config.isAres ctx.number) = some db' ∧
      root = if P.config.isAres ctx.number then none else some (P.stateRoot db'.trie) := by
  unfold finaliseTx at h
  split at h <;>
  · rename_i hares
    obtain ⟨db1, hf, heq⟩ := map_eq_some_iff.1 h
    cases heq
    simp [hares, hf]

def newReceipt (P : ProcessEnv) (tx : Transaction) (msg : Message) (postState : Option Hash)
    (failed : Bool) (gas usedGas : Nat) (logs : List Log) : Receipt where
  postState := postState
  failed := failed
  cumulativeGasUsed := usedGas
  bloom := logsBloom P.bloom9 (logs.map Log.rlp)
  logs := logs
  txHash := P.txHash tx
  contractAddress :=
    if msg.action = 5 ∨ msg.action = 4 then P.createAddress msg.sender tx.accountNonce else 0
  gasUsed := gas
  action := tx.action

/-- `ApplyTransaction`: the receipt or the error, and what is left of the ledger either way. -/
def applyTransaction (P : ProcessEnv) (ctx : BlockContext) (tx : Transaction) (L : Ledger) :
    Option (Except TxErr Receipt × Ledger) :=
  match asMessage P tx with
  | none => some (.error .message, L)
  | some msg =>
    ((P.semantics ctx).run
        (transitionDb (newEVM P ctx msg) P.encodeInfo msg L.gp) L.state).bind fun r =>
      let L := { L with gp := r.1.1, state := r.2 }
      match r.1.2 with
      | .error e => some (.error e, L)
      | .ok (gas, failed) =>
        (voteChangeToDelegateState msg.sender msg tx.nickname L.state ctx.time L.delegates).bind
          fun v =>
            let L := { L with delegates := v.2 }
            match v.1 with
            | .error e => some (.error e, L)
            | .ok _ =>
              (finaliseTx P ctx L.state).map fun f =>
                let L := { L with state := f.2, usedGas := u64 (L.usedGas + gas) }
                (.ok (newReceipt P tx msg f.1 failed gas L.usedGas (L.state.logs (P.txHash tx))), L)

/-- **The stages of `ApplyTransaction`.** There is no message; or the transition fails; or the
counting of the votes fails; or the accounts are written. -/
theorem applyTransaction_cases {L L' : Ledger} {res : Except TxErr Receipt}
    (h : applyTransaction P ctx tx L = some (res, L')) :
    (asMessage P tx = none ∧ res = .error .message ∧ L' = L) ∨
    ∃ msg gp t db, asMessage P tx = some msg ∧
      (P.semantics ctx).run
        (transitionDb (newEVM P ctx msg) P.encodeInfo msg L.gp) L.state = some ((gp, t), db) ∧
      ((∃ e, t = .error e ∧ res = .error e ∧ L' = { L with gp := gp, state := db }) ∨
        ∃ gas failed v delegates, t = .ok (gas, failed) ∧
          voteChangeToDelegateState msg.sender msg tx.nickname db ctx.time L.delegates =
            some (v, delegates) ∧
          ((∃ e, v = .error e ∧ res = .error e ∧
              L' = { L with gp := gp, state := db, delegates := delegates }) ∨
            ∃ root db', v = .ok () ∧ finaliseTx P ctx db = some (root, db') ∧
              L' = ⟨db', delegates, gp, u64 (L.usedGas + gas)⟩ ∧
              res = .ok (newReceipt P tx msg root failed gas L'.usedGas
                (db'.logs (P.txHash tx))))) := by
  unfold applyTransaction at h
  cases hmsg : asMessage P tx with
  | none =>
    rw [hmsg] at h
    cases h
    exact .inl ⟨rfl, rfl, rfl⟩
  | some msg =>
    rw [hmsg] at h
    obtain ⟨⟨⟨gp, t⟩, db⟩, hrun, h⟩ := bind_eq_some_iff.1 h
    refine .inr ⟨msg, gp, t, db, rfl, hrun, ?_⟩
    cases t with
    | error e =>
      cases h
      exact .inl ⟨e, rfl, rfl, rfl⟩
    | ok x =>
      obtain ⟨gas, failed⟩ := x
      obtain ⟨⟨v, delegates⟩, hv, h⟩ := bind_eq_some_iff.1 h
      refine .inr ⟨gas, failed, v, delegates, rfl, hv, ?_⟩
      cases v with
      | error e =>
        cases h
        exact .inl ⟨e, rfl, rfl, rfl⟩
      | ok =>
        obtain ⟨⟨root, db'⟩, hf, h⟩ := map_eq_some_iff.1 h
        cases h
        exact .inr ⟨root, db', rfl, hf, rfl, rfl⟩

theorem applyTransaction_ok
    {L L' : Ledger} {receipt : Receipt} (h : applyTransaction P ctx tx L = some (.ok receipt, L')) :
    ∃ msg gp v db, asMessage P tx = some msg ∧
      (P.semantics ctx).run
        (transitionDb (newEVM P ctx msg) P.encodeInfo msg L.gp) L.state = some ((gp, .ok v), db) ∧
      voteChangeToDelegateState msg.sender msg tx.nickname db ctx.time L.delegates =
        some (.ok (), L'.delegates) ∧
      db.finalise (P.config.isAres ctx.number) = some L'.state := by
  rcases applyTransaction_cases h with ⟨-, hres, -⟩ | ⟨msg, gp, t, db, hmsg, hrun, ⟨_, -, hres, -⟩ |
    ⟨gas, failed, _, delegates, rfl, hvote, ⟨_, -, hres, -⟩ | ⟨root, db', rfl, hfin, rfl, -⟩⟩⟩
  iterate 3 cases hres
  exact ⟨msg, gp, _, db, hmsg, hrun, hvote, (finaliseTx_eq hfin).1⟩

/-! ## Blocks -/

def Ledger.prepare (L : Ledger) (thash bhash : Hash) (i : Nat) : Ledger :=
  { L with state := L.state.prepare thash bhash i, delegates := L.delegates.prepare thash bhash i }

/-- The loop of `Process`, from the transaction with index `i`. -/
def processTxs (P : ProcessEnv) (ctx : BlockContext) (blockHash : Hash) :
    Nat → List Transaction → Ledger → Option (Except TxErr (List Receipt) × Ledger)
  | _, [], L => some (.ok [], L)
  | i, tx :: txs, L =>
    (applyTransaction P ctx tx (L.prepare (P.txHash tx) blockHash i)).bind fun r =>
      match r.1 with
      | .error e => some (.error e, r.2)
      | .ok receipt =>
        (processTxs P ctx blockHash (i + 1) txs r.2).map fun q =>
          (q.1.map fun receipts => receipt :: receipts, q.2)

def accumulateRewards (P : ProcessEnv) (ctx : BlockContext) (db : StateDB) : StateDB :=
  db.addBalance ctx.coinbase (if P.config.isByzantium ctx.number then P.config.byzantiumBlockReward
     else P.config.frontierBlockReward : Nat)

/-- `Finalize`: the reward, and both tries written. -/
def finalize (P : ProcessEnv) (ctx : BlockContext) (L : Ledger) : Option Ledger :=
  ((accumulateRewards P ctx L.state).finalise false).bind fun state =>
    L.delegates.finalise.map fun delegates => { L with state := state, delegates := delegates }

/-- `Process` of a block over the databases of its parent. -/
def process (P : ProcessEnv) (header : Header) (blockHash : Hash) (txs : List Transaction)
    (state : StateDB) (delegates : DelegateDB) : Option (Except TxErr (List Receipt) × Ledger) :=
  let ctx := Header.context header
  (processTxs P ctx blockHash 0 txs ⟨state, delegates, header.gasLimit, 0⟩).bind fun r =>
    match r.1 with
    | .error e => some (.error e, r.2)
    | .ok receipts => (finalize P ctx r.2).map fun L => (.ok receipts, L)

def createBloom (P : ProcessEnv) (receipts : List Receipt) : BitVec 2048 :=
  receipts.foldl (fun bin r => bin ||| logsBloom P.bloom9 (r.logs.map Log.rlp)) 0

/-- `ValidateState`, which writes both tries once more. -/
def validateState (P : ProcessEnv) (header : Header) (receipts : List Receipt) (L : Ledger) :
    Option Bool :=
  (L.state.finalise false).bind fun state =>
    L.delegates.finalise.map fun delegates =>
      header.gasUsed == L.usedGas && createBloom P receipts == header.bloom &&
        P.receiptSha (receipts.map Receipt.rlp) == header.receiptHash &&
        header.root == P.stateRoot state.trie &&
        header.delegateRoot == P.delegateRoot fun a => delegates.trie.lookup a

/-! ## A small chain -/

/-- The chain of `smallEvm`, from its first block on with all forks. Address 1 signs every
transaction, and the root of the accounts tells the number of votes of address 1. -/
def smallEnv : ProcessEnv where
  config := ⟨some 0, some 0, some 0, 0, 0, 101⟩
  growth := doubling
  sender _ := some 1
  txHash tx := BitVec.ofNat 256 tx.accountNonce
  interp _ _ := smallEvm.interp
  precompiled := smallEvm.precompiled
  createAddress := smallEvm.createAddress
  createAddress_ne := smallEvm.createAddress_ne
  delegatePoll := [7]
  encodeInfo _ _ := []
  stateRoot trie := BitVec.ofNat 256 (((trie 1).map fun s => s.voteList.length).getD 0)
  delegateRoot _ := 0
  bloom9 _ := 0
  receiptSha _ := 0
  txSha _ := 0

/-- Address 1 votes for the delegate, with a transaction of value zero to address 2. -/
def smallTx : Transaction :=
  { accountNonce := 0, price := 1, gasLimit := 30000, recipient := some 2, amount := 0
    payload := [], action := 2, vote := some [⟨some 7, 0⟩], nickname := [], asset := none
    assetInfo := none, subAddress := "", abi := [], v := 0, r := 0, s := 0 }

def smallDelegates : DelegateDB :=
  { trie := ∅, delegateObjects := ∅, delegateObjectsDirty := [], thash := 0, bhash := 0
    txIndex := 0, logs := fun _ => [], logSize := 0, journal := .empty }

def smallContext : BlockContext := ⟨0, 9, 1, 10, 100000⟩

def smallStart : Ledger := ⟨.new (smallTrie 100000), smallDelegates, 100000, 0⟩

end GoAoa.Core
