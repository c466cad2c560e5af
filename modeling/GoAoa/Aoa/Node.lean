import GoAoa.Aoa.LockManager
import GoAoa.Core.Chain
import GoAoa.Lib.Run

/-!
# A node

The message handlers of `aoa/handle.go` and `aoa/handle_msg.go` over the chain, the lock manager
and the fetcher's queue. A `go` statement adds a task, and tasks run in any order; timers, the
collector, the fetcher and the downloader are events that may happen at any time. `none` is a
panic. `log` is not part of the program: it records the signatures made and those accepted from
others, the certificates accepted and the signature maps collected.
-/

namespace GoAoa.Aoa

open GoAoa.Dpos GoAoa.Core Outcome LockManager Function

inductive Task where
  /-- `pm.addSignToPendingBlock(block, action)`. -/
  | signLocal (b : Block) (action : Nat)
  /-- The goroutine of one local delegate in `signsToPendingBlock`. -/
  | signOne (a : Address) (b : Block) (action : Nat)
  /-- `lockBlockManager.addSignToPendingBlock(hash, sign, action, round)`; `round` points to the
  node's current round. -/
  | addSign (h : Hash) (s : VoteSign)
  /-- `blockGenerateCallback(signs, hash)`. -/
  | commit (signs : List VoteSign) (h : Hash)

inductive Record where
  | signed (a : Address) (b : Block)
  | accepted (h : Hash) (s : VoteSign) (round : ShuffleList)
  | verified (h : Hash) (list : ShuffleList) (signs : List VoteSign)
  | collected (h : Hash) (m : BlockSignMap)

structure Node where
  chain : BlockChain
  lock : LockManager
  /-- `taskManager.GetCurrentShuffleRound()`. -/
  round : ShuffleList
  /-- The delegates whose keys the node holds. -/
  wallets : List Address
  /-- Blocks queued in the fetcher. -/
  queue : List Block
  tasks : List Task
  fastSync : Bool
  log : List Record

inductive Input where
  | preBlock (b : Block)
  | signatures (h : Hash) (signs : List VoteSign)
  | newBlock (b : Block)
  /-- A header and body fetched after a hash was announced. -/
  | fetched (header : Header) (txs : List Transaction)
  /-- Headers and bodies the downloader got from a higher peer. -/
  | synchronise (blocks : List (Header × List Transaction))
  | produce (b : Block)
  | runTask (i : Nat)
  | storeSign
  | fetcherInsert (i : Nat)
  | futureBlocks
  | pendingTimeout (h : Hash)
  | signMapTimeout (h : Hash)
  | shuffle (round : ShuffleList)

/-- An input with the clock, the coin flips of fork choice and the round `shuffleIfVerify` would
compute. -/
structure Event where
  now : Int
  coin : Hash → Bool
  reshuffled : ShuffleList
  input : Input

namespace Node

def spawn (n : Node) (t : Task) : Node := { n with tasks := n.tasks ++ [t] }

def height (n : Node) : Nat := n.chain.currentBlock.numberU64

def record (n : Node) (r : Record) : Node := { n with log := n.log ++ [r] }

/-- `GetLocalCurrentRound`: the delegates of the round the node has keys for. -/
def localRound (n : Node) : List Address := n.round.addresses.filter (· ∈ n.wallets)

/-- `insertBlockfunc`. Errors of the insertion are dropped by all callers. -/
def insertBlockFunc (E : ChainEnv) (ev : Event) (n : Node) (b : Block) : Option Node :=
  if n.fastSync then some n
  else (n.chain.insertChain E ev.now ev.coin [b]).map fun r => { n with chain := r.1 }

/-- The pending block becomes `b` and the local delegates approve it. -/
def adopt (n : Node) (b : Block) : Node :=
  match n.lock.unlock.addPendingBlock b with
  | .error _ => { n with lock := n.lock.unlock }
  | .ok lock => { n with lock := lock }.spawn (.signLocal b approveVote)

def dealPreBlockMsg (E : ChainEnv) (ev : Event) (b : Block) (n : Node) : Option Node :=
  if b.numberU64 ≤ n.height then some n
  else if u64 (n.height + 1) < b.numberU64 then some n
  else
    (verifyHeaderAndSign E.crypto (n.chain.reader E) ev.now b n.round E.blockInterval).fold
      (fun _ => some (n.adopt b))
      (fun _ => some (n.spawn (.signLocal b opposeVote)))
      none

/-- `localProduceBlockLoop`: the producer has signed the block before it is handed over. -/
def produce (b : Block) (n : Node) : Node :=
  (n.record (.signed b.header.coinbase b)).adopt b

def dealSignaturesBlockMsg (C : Crypto) (h : Hash) (signs : List VoteSign) (n : Node) : Node :=
  if checkBroadcastSignatures C h signs n.round then
    { n with tasks := n.tasks ++ signs.map (.addSign h) }
  else n

def maxUncleDist : Int := 7
def maxQueueDist : Int := 32

def enqueue (C : Crypto) (b : Block) (n : Node) : Node :=
  let dist := i64 b.numberU64 - i64 n.height
  if dist < -maxUncleDist ∨ maxQueueDist < dist then n
  else if n.queue.any fun x => x.hash C = b.hash C then n
  else { n with queue := n.queue ++ [b] }

def unlockPending (b : Block) (n : Node) : Node :=
  match n.lock.lockBlock with
  | some p =>
    if p.numberU64 = b.numberU64 then { n with lock := n.lock.unlock } else n
  | none => n

/-- The rest of `dealNewBlockMsg` once the certificate is accepted under the current round. -/
def acceptNewBlock (C : Crypto) (b : Block) (n : Node) : Node :=
  ((n.record (.verified (b.hash C) n.round (b.rlpEncodeSigns.getD []))).unlockPending b).enqueue C b

/-- The second check of `dealNewBlockMsg`, under the round `shuffleIfVerify` computed. -/
def retryNewBlock (E : ChainEnv) (ev : Event) (b : Block) (n : Node) : Option Node :=
  (verifyBlockGenerate E.crypto (n.chain.reader E) ev.now b n.round E.blockInterval).fold
    (fun _ => some (n.acceptNewBlock E.crypto b))
    (fun _ => some n)
    none

def dealNewBlockMsg (E : ChainEnv) (ev : Event) (b : Block) (n : Node) : Option Node :=
  if b.numberU64 ≤ n.height then some n
  else if u64 (n.height + 1) < b.numberU64 then some n
  else
    (verifyBlockGenerate E.crypto (n.chain.reader E) ev.now b n.round E.blockInterval).fold
      (fun _ => some (n.acceptNewBlock E.crypto b))
      (fun _ => { n with round := ev.reshuffled }.retryNewBlock E ev b)
      none

/-- The fetcher's `validator`: a second try after `shuffleIfVerify`. -/
def validator (E : ChainEnv) (ev : Event) (b : Block) (n : Node) : Node × Outcome VerifyErr Unit :=
  (verifyHeaderAndSign E.crypto (n.chain.reader E) ev.now b n.round E.blockInterval).fold
    (fun _ => (n, .ok ()))
    (fun _ => ({ n with round := ev.reshuffled },
      verifyHeaderAndSign E.crypto (n.chain.reader E) ev.now b ev.reshuffled E.blockInterval))
    (n, .panic)

theorem validator_eq (n : Node) (E : ChainEnv) (ev : Event) (b : Block) :
    ∃ round, n.validator E ev b = ({ n with round := round },
      verifyHeaderAndSign E.crypto (n.chain.reader E) ev.now b round E.blockInterval) := by
  unfold validator
  cases hv : verifyHeaderAndSign E.crypto (n.chain.reader E) ev.now b n.round E.blockInterval with
  | ok => exact ⟨n.round, by rw [hv, fold_ok]⟩
  | err => exact ⟨ev.reshuffled, by rw [fold_err]⟩
  | panic => exact ⟨n.round, by rw [hv, fold_panic]⟩

/-- `Fetcher.insert`. -/
def fetcherImport (E : ChainEnv) (ev : Event) (b : Block) (n : Node) : Option Node :=
  if n.chain.blocks b.header.parentHash = none then some n
  else
    let r := n.validator E ev b
    r.2.fold (fun _ => r.1.insertBlockFunc E ev b)
      (fun e => if e = .errFutureBlock then r.1.insertBlockFunc E ev b else some r.1)
      none

def fetcherInsert (E : ChainEnv) (ev : Event) (i : Nat) (n : Node) : Option Node :=
  match n.queue[i]? with
  | none => some n
  | some b =>
    if u64 (n.height + 1) < b.numberU64 then some n
    else
      let n := { n with queue := n.queue.eraseIdx i }
      if u64 (b.numberU64 + maxUncleDist) < n.height ∨ (n.chain.blocks (b.hash E.crypto)).isSome then
        some n
      else n.fetcherImport E ev b

/-- `blockGenerateCallback`: the pending block, if it is still the one signed, is inserted with
its certificate and the lock is released. -/
def blockGenerateCallback (E : ChainEnv) (ev : Event) (signs : List VoteSign) (h : Hash)
    (n : Node) : Option Node :=
  match n.lock.lockBlock with
  | none => some n
  | some b =>
    if b.hash E.crypto = h then
      (n.insertBlockFunc E ev { b with rlpEncodeSigns := some signs }).map fun n =>
        { n with lock := n.lock.unlock }
    else some n

/-- `lockBlockManager.addSignToPendingBlock` under the current round; errors are only logged. -/
def addSign (C : Crypto) (h : Hash) (s : VoteSign) (n : Node) : Node :=
  match n.lock.addSignToPendingBlock C h s n.round with
  | .error _ => n
  | .ok lock => { n with lock := lock }.record (.accepted h s n.round)

def runTask (E : ChainEnv) (ev : Event) (n : Node) : Task → Option Node
  | .signLocal b action =>
    some { n with tasks := n.tasks ++ n.localRound.map fun a => .signOne a b action }
  | .signOne a b action =>
    let h := b.hash E.crypto
    some ((n.record (.signed a b)).addSign E.crypto h (singleSign E.crypto h action a))
  | .addSign h s => some (n.addSign E.crypto h s)
  | .commit signs h => n.blockGenerateCallback E ev signs h

/-- The collector takes the next signature from `storeChan`. -/
def storeSign (E : ChainEnv) (n : Node) : Node :=
  match n.lock.storeChan with
  | [] => n
  | st :: rest =>
    let amount := delegateAmount E.maxElectDelegate
    match { n.lock with storeChan := rest }.dealBlockSign amount st with
    | (lock, none) => { n with lock := lock }
    | (lock, some m) =>
      ({ n with lock := lock }.record (.collected st.blockHash m)).spawn
        (.commit (commitSigns amount m) st.blockHash)

def step (E : ChainEnv) (ev : Event) (n : Node) : Option Node :=
  match ev.input with
  | .preBlock b => n.dealPreBlockMsg E ev b
  | .signatures h signs => some (n.dealSignaturesBlockMsg E.crypto h signs)
  | .newBlock b => n.dealNewBlockMsg E ev b
  | .fetched header txs => some (n.enqueue E.crypto (Block.withBody header txs))
  | .synchronise blocks =>
    (n.chain.insertChain E ev.now ev.coin (blocks.map fun x => Block.withBody x.1 x.2)).map
      fun r => { n with chain := r.1 }
  | .produce b => some (n.produce b)
  | .runTask i =>
    match n.tasks[i]? with
    | none => some n
    | some t => { n with tasks := n.tasks.eraseIdx i }.runTask E ev t
  | .storeSign => some (n.storeSign E)
  | .fetcherInsert i => n.fetcherInsert E ev i
  | .futureBlocks =>
    (n.chain.procFutureBlocks E ev.now ev.coin).map fun chain => { n with chain := chain }
  | .pendingTimeout h =>
    if n.lock.lockBlock.any fun b => b.hash E.crypto = h then
      some { n with lock := n.lock.unlock }
    else some n
  | .signMapTimeout h =>
    some { n with lock := { n.lock with signMap := update n.lock.signMap h none } }
  | .shuffle round => some { n with round := round }

structure Initial (E : ChainEnv) (genesis : Block) (n : Node) : Prop where
  blocks : n.chain.blocks = update (fun _ => none) (genesis.hash E.crypto) (some genesis)
  canonical : n.chain.canonical = update (fun _ => none) 0 (some (genesis.hash E.crypto))
  current : n.chain.currentBlock = genesis
  futureBlocks : n.chain.futureBlocks = []
  lock : n.lock = init
  queue : n.queue = []
  tasks : n.tasks = []
  log : n.log = []

def start (E : ChainEnv) (genesis : Block) (round : ShuffleList) (wallets : List Address) : Node :=
  let h := genesis.hash E.crypto
  { chain :=
      { blocks := update (fun _ => none) h (some genesis)
        td := fun k n => if k = h ∧ n = genesis.numberU64 then some 1 else none
        canonical := update (fun _ => none) 0 (some h)
        currentBlock := genesis
        futureBlocks := [] }
    lock := init
    round := round
    wallets := wallets
    queue := []
    tasks := []
    fastSync := false
    log := [] }

theorem start_initial (E : ChainEnv) (genesis : Block) (round : ShuffleList)
    (wallets : List Address) : (start E genesis round wallets).Initial E genesis :=
  ⟨rfl, rfl, rfl, rfl, rfl, rfl, rfl, rfl⟩

/-! ## A small network -/

/-- A chain that hashes a header to the length of its extra data and runs blocks without
transactions. -/
def smallEnv : ChainEnv :=
  { crypto := extraCrypto
    maxElectDelegate := 4
    blockInterval := 10
    blockInterval_range := ten_range
    badHashes := []
    deriveSha := fun _ => 0
    process := fun parent b =>
      if b.transactions = [] ∧ b.header.root = parent.header.root ∧
          b.header.delegateRoot = parent.header.delegateRoot then .ok ()
      else .err .process }

def smallGenesis : Block := .withBody slotParent []

def smallNode (wallets : List Address) : Node :=
  start smallEnv smallGenesis (slotList [1, 2, 3, 4]) wallets

def smallEvent (input : Input) : Event :=
  { now := 10, coin := fun _ => false, reshuffled := ⟨[]⟩, input := input }

end Node

end GoAoa.Aoa
