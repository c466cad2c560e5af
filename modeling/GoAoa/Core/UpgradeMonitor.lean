import GoAoa.Core.Chain
import GoAoa.Core.Processor
import GoAoa.Dpos.Certificate

/-!
# The upgrade monitor

`core/upgrade_monitor.go`: after every transaction `Process` looks at the receipt for events of
the contracts that govern upgrades, and writes the logic contract they name and the upgrade they
ask for to a database of its own. That happens before the block is validated, and a block that is
then rejected leaves these writes behind.
-/

namespace GoAoa.Core

open List Option State VM DelegateState

/-! ## The store -/

structure RequestInfo where
  orderId : Hash
  contractAddress : Address
  version : Bytes
  url : Bytes
  height : Nat
  md5 : Bytes
  status : Nat
  deriving DecidableEq, Repr

/-- The upgrade database and the variable `LogicAddress`. The key of the management contract is
one byte long (`FromHex` stops at the prefix of the address), those of logic contracts are
addresses. -/
@[ext] structure UpgradeStore where
  logic : Option Address
  requests : Address → Option RequestInfo
  logicAddress : Address

inductive UpgradeWrite where
  /-- `SetUpgradeContractAddress`. -/
  | setLogic (a : Address)
  /-- `SetRequestInfo`. -/
  | setRequest (contract : Address) (info : RequestInfo)
  /-- `ClearUpgradeInfo`. -/
  | clear (contract : Address)
  deriving DecidableEq, Repr

namespace UpgradeStore

def getLogicAddress (u : UpgradeStore) : Address := u.logic.getD u.logicAddress

def apply (u : UpgradeStore) : UpgradeWrite → UpgradeStore
  | .setLogic a => { u with logic := some a, logicAddress := a }
  | .setRequest c info => { u with requests := Function.update u.requests c (some info) }
  | .clear c => { u with requests := Function.update u.requests c none }

end UpgradeStore

/-! ## Events -/

def upgradeMgmtAddress : Address := 0x38961110cf484bf534813be9a51c135a6f5d629f#160

def sha3MgmtVoteResult : Hash :=
  0x720becaeed8504f32ada91bf2766ae87265165ae7e015ba48c54b26bc21b7dfc#256
def sha3UpgradeVoteResult : Hash :=
  0x8dd5d825b18e5b987c21d6fe8f353ca17e8ae91065ffcfa3309d8852240844f4#256
def sha3UpgradeCancel : Hash :=
  0xf9e4632d130f5fdbf29c4813de62f05ed8d8c83dcf319d2d3fd1b80c8b37f767#256

def transferTopicToAddress (topic : Hash) : Address := topic.setWidth 160

/-- The text of an upgrade: version, URL and checksum, separated by semicolons. `none` where a
slice or an index is out of range. -/
def upgradeText (data : Bytes) : Option (Bytes × Bytes × Bytes) :=
  let size := i64 (FixedWidth.decode ((data.drop 56).take 8))
  if data.length < 64 ∨ size < 0 ∨ (data.length : Int) < 64 + size then none
  else
    match ((data.drop 64).take size.toNat).splitOn ';'.toUInt8 with
    | version :: url :: md5 :: _ => some (version, url, md5)
    | _ => none

/-- An event of the logic contract that ends a vote. -/
def requestInfo (logic : Address) (l : Log) : Option RequestInfo :=
  match l.topics with
  | result :: orderId :: height :: _ =>
    if result = sha3UpgradeVoteResult then
      (upgradeText l.data).map fun t =>
        { orderId := orderId, contractAddress := logic, version := t.1, url := t.2.1
          height := u64 height.toNat, md5 := t.2.2, status := 1 }
    else none
  | _ => none

/-- What `monitorUpgrade` writes for a receipt. It recovers from its panics, none of which comes
after a write. -/
def upgradeEvent (logic : Address) (tx : Transaction) (r : Receipt) : Option UpgradeWrite :=
  if r.failed then none
  else
    match tx.recipient with
    | none => none
    | some recipient =>
      if recipient = upgradeMgmtAddress then
        match r.logs with
        | [_, l] =>
          match l.topics with
          | result :: _ :: contract :: _ =>
            if result = sha3MgmtVoteResult then some (.setLogic (transferTopicToAddress contract))
            else none
          | _ => none
        | _ => none
      else if recipient = logic then
        match r.logs with
        | [] => none
        | [_, l] => (requestInfo logic l).map (.setRequest logic)
        | l :: _ => if l.topics.head? = some sha3UpgradeCancel then some (.clear logic) else none
      else none

def UpgradeStore.monitorUpgrade (u : UpgradeStore) (tx : Transaction) (r : Receipt) :
    UpgradeStore :=
  match upgradeEvent u.getLogicAddress tx r with
  | none => u
  | some w => u.apply w

def UpgradeWrite.logic (w : UpgradeWrite) (logic : Address) : Address :=
  match w with
  | .setLogic a => a
  | _ => logic

/-- The writes for a list of receipts, from the logic contract recorded before them. -/
def upgradeEvents (logic : Address) : List (Transaction × Receipt) → List UpgradeWrite
  | [] => []
  | x :: xs =>
    match upgradeEvent logic x.1 x.2 with
    | none => upgradeEvents logic xs
    | some w => w :: upgradeEvents (w.logic logic) xs

namespace UpgradeStore

theorem getLogicAddress_apply (u : UpgradeStore) (w : UpgradeWrite) :
    (u.apply w).getLogicAddress = w.logic u.getLogicAddress := by
  cases w <;> rfl

/-- Monitoring receipts is carrying out the writes of their events. -/
theorem monitor_eq (u : UpgradeStore) (xs : List (Transaction × Receipt)) :
    xs.foldl (fun u x => u.monitorUpgrade x.1 x.2) u =
      (upgradeEvents u.getLogicAddress xs).foldl apply u := by
  induction xs generalizing u with
  | nil => rfl
  | cons x xs ih =>
    rw [foldl_cons, ih, upgradeEvents, monitorUpgrade]
    cases upgradeEvent u.getLogicAddress x.1 x.2 with
    | none => rfl
    | some => simp only [foldl_cons, getLogicAddress_apply]

/-! ## The last write of each record -/

def lastLogic (ws : List UpgradeWrite) : Option Address :=
  (ws.filterMap fun w => match w with
    | .setLogic a => some a
    | _ => none).getLast?

/-- What is written last for a contract; `some none` is a cancellation. -/
def lastRequest (c : Address) (ws : List UpgradeWrite) : Option (Option RequestInfo) :=
  (ws.filterMap fun w => match w with
    | .setRequest d info => if d = c then some (some info) else none
    | .clear d => if d = c then some none else none
    | .setLogic _ => none).getLast?

/-- The writes end where they began: the last one of each record repeats what it holds. -/
def Repeats (u : UpgradeStore) (ws : List UpgradeWrite) : Prop :=
  (∀ a, lastLogic ws = some a → u.logic = some a ∧ u.logicAddress = a) ∧
    ∀ c v, lastRequest c ws = some v → u.requests c = v

theorem writes_logic (u : UpgradeStore) (ws : List UpgradeWrite) :
    (ws.foldl apply u).logic = (lastLogic ws).elim u.logic some ∧
      (ws.foldl apply u).logicAddress = (lastLogic ws).getD u.logicAddress := by
  induction ws using reverseRecOn with
  | nil => exact ⟨rfl, rfl⟩
  | append_singleton ws w ih =>
    unfold lastLogic at ih ⊢
    cases w <;> simp [apply, ih]

theorem writes_requests (u : UpgradeStore) (ws : List UpgradeWrite) (c : Address) :
    (ws.foldl apply u).requests c = (lastRequest c ws).getD (u.requests c) := by
  induction ws using reverseRecOn with
  | nil => rfl
  | append_singleton ws w ih =>
    unfold lastRequest at ih ⊢
    cases w with
    | setLogic => simpa [apply] using ih
    | setRequest d | clear d =>
      by_cases hd : d = c
      · subst hd; simp [apply]
      · simpa [apply, hd, Ne.symm hd] using ih

theorem writes_eq_iff (u : UpgradeStore) (ws : List UpgradeWrite) :
    ws.foldl apply u = u ↔ u.Repeats ws := by
  obtain ⟨hlogic, haddress⟩ := writes_logic u ws
  constructor
  · intro heq
    rw [heq] at hlogic haddress
    refine ⟨fun a ha => ?_, fun c v hv => ?_⟩
    · rw [ha] at hlogic haddress
      exact ⟨hlogic, haddress⟩
    · have hreq := writes_requests u ws c
      rw [heq, hv] at hreq
      exact hreq
  · rintro ⟨hl, hr⟩
    ext1
    · rw [hlogic]
      cases h : lastLogic ws with
      | none => rfl
      | some a => exact (hl a h).1.symm
    · funext c
      rw [writes_requests]
      cases h : lastRequest c ws with
      | none => rfl
      | some v => exact (hr c v h).symm
    · rw [haddress]
      cases h : lastLogic ws with
      | none => rfl
      | some a => exact (hl a h).2.symm

end UpgradeStore

/-! ## Processing with the monitor -/

/-- The loop of `Process` with the monitor after each transaction. -/
def monitorTxs (P : ProcessEnv) (ctx : BlockContext) (blockHash : Hash) :
    Nat → List Transaction → Ledger → UpgradeStore →
      Option (Except TxErr (List Receipt) × Ledger × UpgradeStore)
  | _, [], L, u => some (.ok [], L, u)
  | i, tx :: txs, L, u =>
    (applyTransaction P ctx tx (L.prepare (P.txHash tx) blockHash i)).bind fun r =>
      match r.1 with
      | .error e => some (.error e, r.2, u)
      | .ok receipt =>
        (monitorTxs P ctx blockHash (i + 1) txs r.2 (u.monitorUpgrade tx receipt)).map fun q =>
          (q.1.map fun receipts => receipt :: receipts, q.2)

/-- The transactions applied before one fails, with their receipts. -/
def appliedTxs (P : ProcessEnv) (ctx : BlockContext) (blockHash : Hash) :
    Nat → List Transaction → Ledger → List (Transaction × Receipt)
  | _, [], _ => []
  | i, tx :: txs, L =>
    match applyTransaction P ctx tx (L.prepare (P.txHash tx) blockHash i) with
    | some (.ok receipt, L') => (tx, receipt) :: appliedTxs P ctx blockHash (i + 1) txs L'
    | _ => []

section Process

variable {P : ProcessEnv} {ctx : BlockContext} {blockHash : Hash}

/-- The monitor does not change what `Process` computes, and sees every applied transaction. -/
theorem monitorTxs_spec {i : Nat} {txs : List Transaction} {L L' : Ledger} {u u' : UpgradeStore}
    {res : Except TxErr (List Receipt)}
    (h : monitorTxs P ctx blockHash i txs L u = some (res, L', u')) :
    processTxs P ctx blockHash i txs L = some (res, L') ∧
      u' = (appliedTxs P ctx blockHash i txs L).foldl (fun u x => u.monitorUpgrade x.1 x.2) u := by
  induction txs generalizing i L u res with
  | nil => cases h; exact ⟨rfl, rfl⟩
  | cons tx txs ih =>
    obtain ⟨⟨one, L1⟩, happ, h⟩ := bind_eq_some_iff.1 h
    unfold processTxs appliedTxs
    rw [happ]
    cases one with
    | error => cases h; exact ⟨rfl, rfl⟩
    | ok =>
      obtain ⟨⟨rest, L2, u2⟩, hrest, heq⟩ := map_eq_some_iff.1 h
      obtain ⟨rfl, rfl, rfl⟩ := heq
      obtain ⟨hp, rfl⟩ := ih hrest
      exact ⟨by rw [bind_some]; dsimp only; rw [hp]; rfl, rfl⟩

end Process

/-- `Process` and `ValidateState` of `insertChain`. -/
def processBlock (P : ProcessEnv) (C : Crypto) (databases : StateDB × DelegateDB) (b : Block)
    (u : UpgradeStore) : Option (Outcome ChainErr Unit × UpgradeStore) :=
  let ctx := Header.context b.header
  let L : Ledger := ⟨databases.1, databases.2, b.header.gasLimit, 0⟩
  (monitorTxs P ctx (b.hash C) 0 b.transactions L u).bind fun r =>
    match r.1 with
    | .error _ => some (.err .process, r.2.2)
    | .ok receipts =>
      (finalize P ctx r.2.1).bind fun L =>
        (validateState P b.header receipts L).map fun valid =>
          (if valid then .ok () else .err .process, r.2.2)

/-- The transactions of a block that are applied, with their receipts. -/
def appliedOf (P : ProcessEnv) (C : Crypto) (databases : StateDB × DelegateDB) (b : Block) :
    List (Transaction × Receipt) :=
  appliedTxs P (Header.context b.header) (b.hash C) 0 b.transactions
    ⟨databases.1, databases.2, b.header.gasLimit, 0⟩

/-- Whatever becomes of the block, the events of the applied transactions are written. -/
theorem processBlock_upgrade {P : ProcessEnv} {C : Crypto} {databases : StateDB × DelegateDB}
    {b : Block} {u u' : UpgradeStore} {res : Outcome ChainErr Unit}
    (h : processBlock P C databases b u = some (res, u')) :
    u' = (upgradeEvents u.getLogicAddress (appliedOf P C databases b)).foldl .apply u := by
  obtain ⟨⟨out, L, u1⟩, hrun, h⟩ := bind_eq_some_iff.1 h
  obtain ⟨-, hu⟩ := monitorTxs_spec hrun
  rw [UpgradeStore.monitor_eq] at hu
  rw [appliedOf, ← hu]
  cases out with
  | error => cases h; rfl
  | ok =>
    obtain ⟨L', -, h⟩ := bind_eq_some_iff.1 h
    obtain ⟨valid, -, heq⟩ := map_eq_some_iff.1 h
    exact (Prod.mk.inj heq).2.symm

/-! ## Insertion -/

/-- The chain of a node and its upgrade store. -/
structure UpgradeNode where
  chain : BlockChain
  upgrade : UpgradeStore

namespace UpgradeNode

/-- One round of the loop of `insertChain` with the processor spelled out. `databases` opens both
databases of a block. -/
def insertBlock (E : ChainEnv) (P : ProcessEnv) (databases : Block → StateDB × DelegateDB)
    (now : Int) (coin : Hash → Bool) (prev : Option Block) (n : UpgradeNode) (b : Block) :
    Option (UpgradeNode × Option ChainErr) :=
  if b.hash E.crypto ∈ E.badHashes then some (n, some .blacklistedHash)
  else
    match (n.chain.verifyHeaders E now prev b).bind fun _ => n.chain.validateBody E b with
    | .error _ =>
      (n.chain.insertBlock E now coin prev b).map fun r => (⟨r.1, n.upgrade⟩, r.2)
    | .ok () =>
      match if prev.isSome then prev else n.chain.parentOf b with
      | none => none
      | some parent =>
        (processBlock P E.crypto (databases parent) b n.upgrade).bind fun r =>
          match r.1 with
          | .panic => none
          | .err e => some (⟨n.chain, r.2⟩, some e)
          | .ok () => (n.chain.writeBlockAndState E.crypto coin b).map fun w => (⟨w.1, r.2⟩, w.2)

variable {E : ChainEnv} {P : ProcessEnv} {databases : Block → StateDB × DelegateDB} {now : Int}
  {coin : Hash → Bool} {prev : Option Block} {n : UpgradeNode} {b parent : Block}

/-- A block that passes the checks before execution is processed on its parent. -/
theorem insertBlock_checked (hbad : b.hash E.crypto ∉ E.badHashes)
    (hchecks : ((n.chain.verifyHeaders E now prev b).bind fun _ => n.chain.validateBody E b) =
      .ok ()) (hparent : (if prev.isSome then prev else n.chain.parentOf b) = some parent) :
    n.insertBlock E P databases now coin prev b =
      (processBlock P E.crypto (databases parent) b n.upgrade).bind fun r =>
        match r.1 with
        | .panic => none
        | .err e => some (⟨n.chain, r.2⟩, some e)
        | .ok () =>
          (n.chain.writeBlockAndState E.crypto coin b).map fun w => (⟨w.1, r.2⟩, w.2) := by
  unfold insertBlock
  rw [if_neg hbad, hchecks]
  rw [hparent]

/-- The chain part is `insertBlock` of the chain, with the processor as its parameter. -/
theorem insertBlock_chain
    (hprocess : ∀ parent, (processBlock P E.crypto (databases parent) b n.upgrade).elim .panic
      Prod.fst = E.process parent b) :
    (n.insertBlock E P databases now coin prev b).map (fun r => (r.1.chain, r.2)) =
      n.chain.insertBlock E now coin prev b := by
  by_cases hbad : b.hash E.crypto ∈ E.badHashes
  · simp [insertBlock, BlockChain.insertBlock, hbad]
  cases hchecks : (n.chain.verifyHeaders E now prev b).bind fun _ => n.chain.validateBody E b with
  | error =>
    unfold insertBlock
    rw [if_neg hbad, hchecks]
    rw [Option.map_map]
    exact map_id_apply
  | ok u =>
    unfold insertBlock BlockChain.insertBlock
    rw [if_neg hbad, if_neg hbad, hchecks]
    cases if prev.isSome then prev else n.chain.parentOf b with
    | none => rfl
    | some parent =>
      dsimp only
      rw [← hprocess parent]
      cases processBlock P E.crypto (databases parent) b n.upgrade with
      | none => rfl
      | some r =>
        obtain ⟨res, u⟩ := r
        cases res with
        | ok =>
          simp only [bind_some, elim_some, Option.map_map]
          exact map_id_apply
        | err => rfl
        | panic => rfl

/-- **Rejected blocks and the upgrade store.** A block that fails in processing or validation
leaves the chain as it was. It leaves the store as it was exactly when the events of the
transactions applied before the failure repeat what is recorded. -/
theorem rejected_unchanged_iff (E : ChainEnv) (P : ProcessEnv)
    (databases : Block → StateDB × DelegateDB) (now : Int) (coin : Hash → Bool)
    (prev : Option Block) (n : UpgradeNode) (b parent : Block) (e : ChainErr) (u : UpgradeStore)
    (hbad : b.hash E.crypto ∉ E.badHashes)
    (hchecks : ((n.chain.verifyHeaders E now prev b).bind fun _ => n.chain.validateBody E b) =
      .ok ()) (hparent : (if prev.isSome then prev else n.chain.parentOf b) = some parent)
    (hrejected : processBlock P E.crypto (databases parent) b n.upgrade = some (.err e, u)) :
    ∃ n', n.insertBlock E P databases now coin prev b = some (n', some e) ∧
      ((n'.chain = n.chain ∧ n'.upgrade = n.upgrade) ↔ n.upgrade.Repeats
        (upgradeEvents n.upgrade.getLogicAddress (appliedOf P E.crypto (databases parent) b))) := by
  refine ⟨⟨n.chain, u⟩, ?_, ?_⟩
  · rw [insertBlock_checked hbad hchecks hparent, hrejected]
    rfl
  · rw [processBlock_upgrade hrejected, ← UpgradeStore.writes_eq_iff]
    exact ⟨fun h => h.2, fun h => ⟨rfl, h⟩⟩

/-! ### A rejected block -/

/-- Every contract ends a vote of the management contract in favour of the contract 5. -/
def governEnv : ProcessEnv :=
  { smallEnv with
    interp := fun _ _ _ => do
      effect (.log [0] [] 1)
      effect (.log [sha3MgmtVoteResult, 0, 5] [] 1)
      pure ⟨[], 0, none⟩ }

def governTx (recipient : Address) : Transaction :=
  { smallTx with recipient := some recipient, action := 0, vote := none }

def governDatabases : Block → StateDB × DelegateDB := fun _ =>
  (.new fun a => if a = upgradeMgmtAddress then some { plainAccount 0 0 with code := [0] }
    else smallTrie 100000 a,
    smallDelegates)

def governChain : ChainEnv where
  crypto := Dpos.extraCrypto
  maxElectDelegate := 4
  blockInterval := 10
  blockInterval_range := ten_range
  badHashes := []
  deriveSha _ := 0
  process _ _ := .panic

def governParent : Block := .withBody Dpos.slotParent []

def governNode : UpgradeNode where
  chain :=
    { blocks := fun h => if h = 0 then some governParent else none
      td := fun h n => if h = 0 ∧ n = 0 then some 1 else none
      canonical := fun n => if n = 0 then some 0 else none
      currentBlock := governParent
      futureBlocks := [] }
  upgrade := ⟨none, fun _ => none, 0⟩

def governBlock (recipient : Address) : Block :=
  .withBody (Dpos.slotHeader 1 [0]) [governTx recipient]

/-- The rejected block has made the contract 5 the logic contract. -/
theorem rejected_sets_logic :
    ((governNode.insertBlock governChain governEnv governDatabases 10 (fun _ => false) none
      (governBlock upgradeMgmtAddress)).map fun r =>
        (r.2, r.1.upgrade.logic, r.1.upgrade.logicAddress)) =
      some (some .process, some 5, 5) ∧
    governNode.upgrade.logic = none := by
  decide +kernel

theorem rejected_unchanged_plain :
    ∃ n', governNode.insertBlock governChain governEnv governDatabases 10 (fun _ => false) none
        (governBlock 2) = some (n', some .process) ∧
      n'.chain = governNode.chain ∧ n'.upgrade = governNode.upgrade := by
  have hrun : (processBlock governEnv governChain.crypto (governDatabases governParent)
      (governBlock 2) governNode.upgrade).map Prod.fst = some (.err .process) := by decide +kernel
  obtain ⟨⟨res, u⟩, hrejected, rfl⟩ := map_eq_some_iff.1 hrun
  have hevents : upgradeEvents governNode.upgrade.getLogicAddress
      (appliedOf governEnv governChain.crypto (governDatabases governParent) (governBlock 2)) =
      [] := by decide +kernel
  obtain ⟨n', hinsert, hiff⟩ := rejected_unchanged_iff governChain governEnv governDatabases 10
    (fun _ => false) none governNode (governBlock 2) governParent .process u
    (by decide) (by decide +kernel) (by decide +kernel) hrejected
  rw [hevents] at hiff
  obtain ⟨hchain, hupgrade⟩ := hiff.2 ⟨fun _ h => (nomatch h), fun _ _ h => (nomatch h)⟩
  exact ⟨n', hinsert, hchain, hupgrade⟩

end UpgradeNode

end GoAoa.Core
