import GoAoa.Core.PriceIndex
import GoAoa.Core.Transition
import GoAoa.Core.TxList
import GoAoa.Core.TxPool
import GoAoa.Lib.Run
import Mathlib.Data.List.AList
import Mathlib.Data.List.Sort

/-!
# The transaction pool

`TxPool` of `core/tx_pool.go`: the executable transactions of each account (`pending`), the others
(`queue`), all of them by hash (`all`) and by price (`priced`). The procedures are taken over one by
one; each loop over a list is a run of its body. What a range over a map leaves open, the order, is
given with the operation (`Choices`), and so is what the operation reads from the chain. The map of
all transactions is a list that is searched by hash. `none` is a panic.

The journal file of local transactions, the events, the log and the counters are left out.
-/

namespace GoAoa.Core

open State VM Run TxList

/-! ## What the pool is given -/

/-- `TxPoolConfig`, as far as the procedures below read it. -/
structure TxPoolConfig where
  priceBump : Nat
  accountSlots : Nat
  globalSlots : Nat
  accountQueue : Nat
  globalQueue : Nat
  lifetime : Int

/-- The functions the pool uses of transactions, and its settings. `sort.Sort` need not be stable. -/
structure PoolEnv where
  config : TxPoolConfig
  hash : Transaction → Hash
  sender : Transaction → Option Address
  size : Transaction → Nat
  sortByPrice : List Transaction → List Transaction
  sortByPrice_perm : ∀ l, (sortByPrice l).Perm l
  sortByPrice_sorted : ∀ l, (sortByPrice l).Pairwise fun a b => b.price ≤ a.price
  growth : Growth
  maxElectDelegate : Int

/-- The orders in which an operation goes through maps, and its time, counted from the zero time. -/
structure Choices where
  order : List Address → List Address
  order_perm : ∀ l, (order l).Perm l
  arrange : List Transaction → List Transaction
  arrange_perm : ∀ l, (arrange l).Perm l
  now : Int

/-- The errors of `validateTx` and `add`. -/
inductive PoolErr where
  | illegalAction (action : Nat)
  | oversizedData
  | gasLimit
  | gasOverLimit
  | invalidSender
  | underpriced
  | nonceTooLow
  | delegatePoll
  | nickName
  | register
  | voteDecode
  | emptyVoteList
  | vote (e : VoteErr)
  | voteExceeds (maxElectDelegate : Int)
  | asset (e : AssetErr)
  | contractData
  | insufficientAssetFunds
  | insufficientFunds
  | outOfGas
  | intrinsicGas
  | known (hash : Hash)
  | fullPending
  | replaceUnderpriced
  deriving DecidableEq

/-- `ManagedState`: the nonces that were set, over those of a state. -/
structure ManagedState where
  stateDB : StateDB
  accounts : AList fun _ : Address => Nat

namespace ManagedState

def getNonce (ms : ManagedState) (a : Address) : Nat :=
  (ms.accounts.lookup a).getD ((view ms.stateDB).getNonce a)

def setNonce (ms : ManagedState) (a : Address) (nonce : Nat) : ManagedState :=
  { ms with accounts := ms.accounts.insert a nonce }

end ManagedState

structure TxPool where
  currentState : StateDB
  pendingState : ManagedState
  currentMaxGas : Nat
  gasPrice : Nat
  locals : List Address
  pending : AList fun _ : Address => TxList
  queue : AList fun _ : Address => TxList
  beats : AList fun _ : Address => Int
  all : List Transaction
  priced : TxTypeList

/-- Where a transaction can be: an account's list in one of the two maps. -/
inductive Place where
  | pending (account : Address)
  | queue (account : Address)
  deriving DecidableEq

def Place.account : Place → Address
  | .pending a => a
  | .queue a => a

def Place.isPending : Place → Bool
  | .pending _ => true
  | .queue _ => false

namespace TxPool

variable (p : TxPool)

def nonce (a : Address) : Nat := (view p.currentState).getNonce a

def list : Place → Option TxList
  | .pending a => p.pending.lookup a
  | .queue a => p.queue.lookup a

def store (pl : Place) (l : TxList) : TxPool :=
  match pl with
  | .pending a => { p with pending := p.pending.insert a l }
  | .queue a => { p with queue := p.queue.insert a l }

def drop : Place → TxPool
  | .pending a => { p with pending := p.pending.erase a }
  | .queue a => { p with queue := p.queue.erase a }

def setNonce (a : Address) (nonce : Nat) : TxPool :=
  { p with pendingState := p.pendingState.setNonce a nonce }

/-- "Update the account nonce if needed". -/
def lowerNonce (a : Address) (nonce : Nat) : TxPool :=
  if nonce < p.pendingState.getNonce a then p.setNonce a nonce else p

end TxPool

namespace PoolEnv

variable (E : PoolEnv) (c : Choices)

/-- The sender of a transaction that was validated. -/
def senderOf (tx : Transaction) : Address := (E.sender tx).getD 0

def known (p : TxPool) (h : Hash) : Option Transaction := p.all.find? fun tx => E.hash tx == h

def live (p : TxPool) (tx : Transaction) : Bool := (E.known p (E.hash tx)).isSome

def isLocal (p : TxPool) (tx : Transaction) : Bool := (E.sender tx).any fun a => a ∈ p.locals

/-! ## Validation -/

def maxOneContractGasLimit : Nat := 1000000

/-- The checks of `validateTx` before it asks for the delegates, and the sender. A value is never
negative here. -/
def validateHead (p : TxPool) (tx : Transaction) (isLocal : Bool) : Except PoolErr Address :=
  if 6 < tx.action then .error (.illegalAction tx.action)
  else if 32 * 1024 < E.size tx then .error .oversizedData
  else if p.currentMaxGas < tx.gasLimit then .error .gasLimit
  else if maxOneContractGasLimit < tx.gasLimit then .error .gasOverLimit
  else
    match E.sender tx with
    | none => .error .invalidSender
    | some sender =>
      if ¬ (isLocal = true ∨ sender ∈ p.locals) ∧ tx.price < p.gasPrice then .error .underpriced
      else if tx.accountNonce < p.nonce sender then .error .nonceTooLow
      else .ok sender

def voteCost (tx : Transaction) : Int :=
  if tx.action = 2 then tx.amount else i64 (-i64 tx.amount)

/-- The branch of `validateTx` for the action, with the state it leaves: `validateVote` changes the
array behind the list of votes. An asset description that is not there, or has no supply, panics. -/
def validateAction (delegateList : List Address) (tx : Transaction) (sender : Address)
    (db : StateDB) : Option (Option PoolErr × StateDB) :=
  match tx.action with
  | 1 =>
    some (if tx.nickname = [] then some .nickName
      else if sender ∈ delegateList then some .register else none, db)
  | 2 => validateVotes delegateList tx sender db
  | 3 => validateVotes delegateList tx sender db
  | 4 =>
    match tx.assetInfo with
    | some (some info) =>
      info.supply.map fun _ =>
        match isAssetInfoValid info with
        | .error e => (some (.asset e), db)
        | .ok _ => (none, db)
    | _ => none
  | 5 => some (if tx.payload = [] then some .contractData else none, db)
  | _ => some (none, db)
where
  validateVotes (delegateList : List Address) (tx : Transaction) (sender : Address)
      (db : StateDB) : Option (Option PoolErr × StateDB) :=
    match tx.vote with
    | none => some (some .voteDecode, db)
    | some [] => some (some .emptyVoteList, db)
    | some votes =>
      (validateVoteOf E.growth delegateList votes sender db).bind fun (err, db) =>
        match err with
        | some e => some (some (.vote e), db)
        | none =>
          (db.getLockBalance sender).map fun lockBalance =>
            (if aoa * E.maxElectDelegate < voteCost tx + lockBalance then
              some (.voteExceeds E.maxElectDelegate) else none, db)

/-- The checks of `validateTx` after that. The intrinsic gas is zero where it overflows. -/
def validateFunds (tx : Transaction) (sender : Address) (db : StateDB) : Option PoolErr :=
  if tx.asset.any fun a => a ≠ 0 ∧ (view db).getAssetBalance sender a < tx.amount then
    some .insufficientAssetFunds
  else if (view db).getBalance sender < tx.aoaCost then some .insufficientFunds
  else
    let intrGas := ((Action.ofCode tx.action).map (intrinsicGas tx.payload)).getD 0
    if intrGas = 0 then some .outOfGas
    else if tx.gasLimit < intrGas then some .intrinsicGas
    else none

/-- `validateTx`: the error, and the state it leaves. `poll` is what `GetDelegatePoll` returns. -/
def validateTx (poll : Option (List Address)) (tx : Transaction) (isLocal : Bool) (p : TxPool) :
    Option (Option PoolErr × StateDB) :=
  match E.validateHead p tx isLocal with
  | .error e => some (some e, p.currentState)
  | .ok sender =>
    match poll with
    | none => some (some .delegatePoll, p.currentState)
    | some delegateList =>
      (E.validateAction delegateList tx sender p.currentState).map fun (err, db) =>
        (err.or (validateFunds tx sender db), db)

/-! ## One transaction -/

/-- `delete(pool.all, hash)` and `RemoveByHash`. -/
def forget (tx : Transaction) (p : TxPool) : Option TxPool :=
  tx.getTransactionType.bind fun txType =>
    (p.priced.removeByHash E.hash txType (E.hash tx)).map fun priced =>
      { p with all := p.all.filter (fun t => E.hash t ≠ E.hash tx), priced := priced }

/-- `pool.all[hash] = tx` and `Put`. -/
def register (tx : Transaction) (p : TxPool) : Option TxPool :=
  (p.priced.put tx).map fun priced =>
    { p with all := tx :: p.all.filter (fun t => E.hash t ≠ E.hash tx), priced := priced }

/-- "Discard any previous transaction". -/
def discard (old : Option Transaction) (p : TxPool) : Option TxPool :=
  match old with
  | none => some p
  | some o => E.forget o p

/-- A new transaction, or a better one, goes to a list: whether it took another's place. -/
def insertAt (pl : Place) (tx : Transaction) (p : TxPool) : Option (Except PoolErr Bool × TxPool) :=
  match ((p.list pl).getD (new pl.isPending)).add tx E.config.priceBump with
  | none => some (.error .replaceUnderpriced, p)
  | some (old, l) =>
    ((E.discard old (p.store pl l)).bind (E.register tx)).map fun p => (.ok old.isSome, p)

def enqueueTx (tx : Transaction) (p : TxPool) : Option (Except PoolErr Bool × TxPool) :=
  E.insertAt (.queue (E.senderOf tx)) tx p

/-- `enqueueTx` where its result is not looked at. -/
def requeue (tx : Transaction) (p : TxPool) : Option TxPool := (E.enqueueTx tx p).map Prod.snd

def promoteTx (a : Address) (tx : Transaction) (p : TxPool) : Option TxPool :=
  match ((p.list (.pending a)).getD (new true)).add tx E.config.priceBump with
  | none => E.forget tx p
  | some (old, l) =>
    (E.discard old (p.store (.pending a) l)).bind fun p =>
      (if E.live p tx then some p else E.register tx p).map fun p =>
        { p.setNonce a (u64 (tx.accountNonce + 1)) with beats := p.beats.insert a c.now }

/-- The part of `removeTx` for the lists of the sender. -/
def unlist (tx : Transaction) (p : TxPool) : Option TxPool :=
  let a := E.senderOf tx
  match (p.list (.pending a)).bind fun l => l.remove tx with
  | some (invalids, l) =>
    (if l.len = 0 then some { p.drop (.pending a) with beats := p.beats.erase a }
    else exec E.requeue (c.arrange invalids) (p.store (.pending a) l)).map fun p =>
      p.lowerNonce a tx.accountNonce
  | none =>
    match p.list (.queue a) with
    | none => some p
    | some l =>
      let l := ((l.remove tx).map Prod.snd).getD l
      some (if l.len = 0 then p.drop (.queue a) else p.store (.queue a) l)

def removeTx (h : Hash) (p : TxPool) : Option TxPool :=
  match E.known p h with
  | none => some p
  | some tx => (E.forget tx p).bind (E.unlist c tx)

/-! ## Adding a transaction -/

def maxTrxType : Nat := 1000

def full (p : TxPool) : Bool :=
  u64 (E.config.globalQueue + E.config.globalSlots) ≤ p.all.length

/-- What `add` does with the index of a full pool: it picks a transaction to remove, or objects. -/
def pick (txType : Address) (tx : Transaction) (p : TxPool) :
    Option (Except PoolErr Transaction × TxTypeList) :=
  match p.priced.get txType with
  | none =>
    if maxTrxType < p.priced.length then some (.error .fullPending, p.priced)
    else (p.priced.removeTx E.sortByPrice).map fun (victim, priced) => (.ok victim, priced)
  | some (i, _) =>
    (p.priced.underpriced E.sortByPrice (E.live p) txType tx.price).bind fun (cheap, priced) =>
      if cheap then some (.error .underpriced, priced)
      else (priced.cheapest E.sortByPrice i).map fun (victim, priced) => (.ok victim, priced)

/-- The part of `add` for a full pool: an error, or the pool without one transaction. -/
def makeRoom (txType : Address) (tx : Transaction) (p : TxPool) :
    Option (Option PoolErr × TxPool) :=
  if E.full p then
    (E.pick txType tx p).bind fun (r, priced) =>
      match r with
      | .error e => some (some e, { p with priced := priced })
      | .ok victim =>
        (E.removeTx c (E.hash victim) { p with priced := priced }).map fun p => (none, p)
  else some (none, p)

/-- The part of `add` after that: a transaction with a pending nonce replaces the pending one, any
other is queued. -/
def insertTx (tx : Transaction) (isLocal : Bool) (p : TxPool) :
    Option (Except PoolErr Bool × TxPool) :=
  let a := E.senderOf tx
  if (p.list (.pending a)).any fun l => l.overlaps tx then E.insertAt (.pending a) tx p
  else
    (E.enqueueTx tx p).map fun (r, p) =>
      match r with
      | .error e => (.error e, p)
      | .ok replace => (.ok replace, if isLocal then { p with locals := p.locals.insert a } else p)

/-- `add`: whether the transaction replaced another. The line for the log reads the recipient and the
type before anything else. -/
def add (poll : Option (List Address)) (tx : Transaction) (isLocal : Bool) (p : TxPool) :
    Option (Except PoolErr Bool × TxPool) :=
  match tx.recipient, tx.getTransactionType with
  | some _, some txType =>
    if (E.known p (E.hash tx)).isSome then some (.error (.known (E.hash tx)), p)
    else
      (E.validateTx poll tx isLocal p).bind fun (err, db) =>
        match err with
        | some e => some (.error e, { p with currentState := db })
        | none =>
          (E.makeRoom c txType tx { p with currentState := db }).bind fun (err, p) =>
            match err with
            | some e => some (.error e, p)
            | none => E.insertTx tx isLocal p
  | _, _ => none

/-! ## Promotion -/

/-- Transactions are taken out of a list and forgotten. -/
def trim (pl : Place) (take : TxList → List Transaction × TxList) (p : TxPool) : Option TxPool :=
  match p.list pl with
  | none => some p
  | some l => exec E.forget (take l).1 (p.store pl (take l).2)

/-- "Delete the entire queue entry if it became empty". -/
def dropEmpty (pl : Place) (p : TxPool) : TxPool :=
  if (p.list pl).any fun l => l.len = 0 then p.drop pl else p

def promoteReady (a : Address) (p : TxPool) : Option TxPool :=
  match p.list (.queue a) with
  | none => some p
  | some l =>
    exec (E.promoteTx c a) (l.ready (p.pendingState.getNonce a)).1
      (p.store (.queue a) (l.ready (p.pendingState.getNonce a)).2)

def capQueue (a : Address) (p : TxPool) : Option TxPool :=
  match p.list (.queue a) with
  | none => some p
  | some l =>
    (l.cap (i64 E.config.accountQueue)).bind fun (drops, l) =>
      exec E.forget drops (p.store (.queue a) l)

/-- The turn of `promoteExecutables` for an account. -/
def promoteAccount (a : Address) (p : TxPool) : Option TxPool :=
  (E.trim (.queue a) (fun l => l.forward (p.nonce a)) p).bind fun p =>
    (E.trim (.queue a) (fun l =>
      let (drops, _, l) := l.filter ((view p.currentState).getBalance a) p.currentMaxGas
      (c.arrange drops, l)) p).bind fun p =>
      (E.promoteReady c a p).bind fun p =>
        (if a ∈ p.locals then some p else E.capQueue a p).map (dropEmpty (.queue a))

def pendingLen (p : TxPool) (a : Address) : Nat :=
  ((p.list (.pending a)).map len).getD 0

/-- The last pending transaction of an account is dropped. -/
def dropLast (a : Address) (p : TxPool) : Option TxPool :=
  (p.list (.pending a)).bind fun l =>
    (l.cap ((l.len : Int) - 1)).bind fun (drops, l) =>
      exec (fun tx p => (E.forget tx p).map fun p => p.lowerNonce a tx.accountNonce) drops
        (p.store (.pending a) l)

/-- Each of the offenders loses a transaction, again and again, while there are too many and the list
of `last` is longer than `threshold`. A turn takes off at least one of the `n` transactions, so `n`
turns are enough. -/
def equalize (offenders : List Address) (last : Address) (threshold : Nat) :
    Nat → Nat → TxPool → Option (Nat × TxPool)
  | 0, n, p => some (n, p)
  | fuel + 1, n, p =>
    if E.config.globalSlots < n ∧ threshold < pendingLen p last then
      (exec E.dropLast offenders p).bind fun p =>
        equalize offenders last threshold fuel (n - offenders.length) p
    else some (n, p)

/-- The loop over the spammers: those that became offenders, the number of transactions left and the
pool. -/
def penalize : List Address → List Address → Nat → TxPool →
    Option (List Address × Nat × TxPool)
  | [], offenders, n, p => some (offenders, n, p)
  | a :: spammers, offenders, n, p =>
    if n ≤ E.config.globalSlots then some (offenders, n, p)
    else
      (match offenders.getLast? with
      | none => some (n, p)
      | some last => E.equalize offenders last (pendingLen p a) n n p).bind fun (n, p) =>
        penalize spammers (offenders ++ [a]) n p

/-- "If the pending limit is overflown, start equalizing allowances". The priority queue returns the
longest lists first. -/
def truncatePending (p : TxPool) : Option TxPool :=
  let n := (p.pending.entries.map fun e => e.2.len).sum
  if n ≤ E.config.globalSlots then some p
  else
    let spammers := ((c.order p.pending.keys).filter fun a =>
      a ∉ p.locals ∧ E.config.accountSlots < pendingLen p a).insertionSort
        fun a b => pendingLen p b ≤ pendingLen p a
    (E.penalize spammers [] n p).bind fun (offenders, n, p) =>
      match offenders.getLast? with
      | none => some p
      | some last => (E.equalize offenders last E.config.accountSlots n n p).map Prod.snd

/-- Queued transactions of the accounts are removed until `drop` are gone. -/
def dropQueued : List Address → Nat → TxPool → Option TxPool
  | [], _, p => some p
  | a :: accounts, drop, p =>
    if drop = 0 then some p
    else
      (p.list (.queue a)).bind fun l =>
        if l.len ≤ drop then
          (exec (E.removeTx c) (l.flatten.map E.hash) p).bind (dropQueued accounts (drop - l.len))
        else exec (E.removeTx c) ((l.flatten.reverse.take drop).map E.hash) p

def beat (p : TxPool) (a : Address) : Int := (p.beats.lookup a).getD 0

/-- "If we've queued more transactions than the hard limit, drop oldest ones": the latest heartbeat
comes first. -/
def truncateQueue (p : TxPool) : Option TxPool :=
  let queued := (p.queue.entries.map fun e => e.2.len).sum
  if queued ≤ E.config.globalQueue then some p
  else
    let addresses := ((c.order p.queue.keys).filter fun a => a ∉ p.locals).insertionSort
      fun a b => beat p a ≤ beat p b
    E.dropQueued c addresses.reverse (queued - E.config.globalQueue) p

def promoteExecutables (accounts : List Address) (p : TxPool) : Option TxPool :=
  (exec (E.promoteAccount c) accounts p).bind fun p =>
    (E.truncatePending c p).bind (E.truncateQueue c)

/-! ## The operations of the pool -/

def addTx (poll : Option (List Address)) (tx : Transaction) (isLocal : Bool) (p : TxPool) :
    Option (Except PoolErr Unit × TxPool) :=
  (E.add c poll tx isLocal p).bind fun (r, p) =>
    match r with
    | .error e => some (.error e, p)
    | .ok true => some (.ok (), p)
    | .ok false => (E.promoteExecutables c [E.senderOf tx] p).map fun p => (.ok (), p)

/-- The loop of `addTxsLocked`: the accounts with new transactions, and the pool. -/
def addAll (poll : Option (List Address)) (isLocal : Bool) :
    List Transaction → List Address → TxPool → Option (List Address × TxPool)
  | [], dirty, p => some (dirty, p)
  | tx :: txs, dirty, p =>
    (E.add c poll tx isLocal p).bind fun (r, p) =>
      match r with
      | .ok false => addAll poll isLocal txs (dirty.insert (E.senderOf tx)) p
      | _ => addAll poll isLocal txs dirty p

def addTxsLocked (poll : Option (List Address)) (txs : List Transaction) (isLocal : Bool)
    (p : TxPool) : Option TxPool :=
  (E.addAll c poll isLocal txs [] p).bind fun (dirty, p) =>
    if dirty = [] then some p else E.promoteExecutables c (c.order dirty) p

def setGasPrice (price : Nat) (p : TxPool) : Option TxPool :=
  (p.priced.cap (E.live p) (E.isLocal p) price).bind fun (drops, priced) =>
    exec (E.removeTx c) (drops.map E.hash) { p with gasPrice := price, priced := priced }

/-- What `demoteUnexecutables` cannot pay for any more goes, and what comes after it is queued. -/
def demoteCostly (a : Address) (p : TxPool) : Option TxPool :=
  match p.list (.pending a) with
  | none => some p
  | some l =>
    let (drops, invalids, l) := l.filter ((view p.currentState).getBalance a) p.currentMaxGas
    (exec E.forget (c.arrange drops) (p.store (.pending a) l)).bind
      (exec E.requeue (c.arrange invalids))

/-- "If there's a gap in front, warn (should never happen) and postpone all transactions". -/
def demoteGapped (a : Address) (p : TxPool) : Option TxPool :=
  match p.list (.pending a) with
  | none => some p
  | some l =>
    if 0 < l.len ∧ (l.txs.get (p.nonce a)).isNone then
      (l.cap 0).bind fun (out, l) => exec E.requeue out (p.store (.pending a) l)
    else some p

/-- The turn of `demoteUnexecutables` for an account. -/
def demoteAccount (a : Address) (p : TxPool) : Option TxPool :=
  (E.trim (.pending a) (fun l => l.forward (p.nonce a)) p).bind fun p =>
    (E.demoteCostly c a p).bind fun p =>
      (E.demoteGapped a p).map fun p =>
        if (p.list (.pending a)).any fun l => l.len = 0 then
          { p.drop (.pending a) with beats := p.beats.erase a }
        else p

def demoteUnexecutables (p : TxPool) : Option TxPool :=
  exec (E.demoteAccount c) (c.order p.pending.keys) p

/-- "Update all accounts to the latest known pending nonce". -/
def updateNonce (a : Address) (p : TxPool) : Option TxPool :=
  (p.list (.pending a)).bind fun l =>
    l.flatten.getLast?.map fun tx => p.setNonce a (u64 (tx.accountNonce + 1))

def rehead (trie : Trie) (gasLimit : Nat) (p : TxPool) : TxPool :=
  { p with
    currentState := .new trie
    pendingState := ⟨.new trie, ∅⟩
    currentMaxGas := gasLimit }

def settle (p : TxPool) : Option TxPool :=
  (E.demoteUnexecutables c p).bind fun p =>
    (exec updateNonce (c.order p.pending.keys) p).bind fun p =>
      E.promoteExecutables c (c.order p.queue.keys) p

/-- `reset` to the head with a state and a gas limit. `reinject` are the transactions of the blocks
that were given up. -/
def reset (poll : Option (List Address)) (trie : Trie) (gasLimit : Nat)
    (reinject : List Transaction) (p : TxPool) : Option TxPool :=
  (E.addTxsLocked c poll reinject false (rehead trie gasLimit p)).bind (E.settle c)

/-- The account was not heard of for longer than the lifetime. `time.Since` does not exceed the
largest duration. -/
def expired (p : TxPool) (a : Address) : Bool :=
  E.config.lifetime < min (c.now - beat p a) (2 ^ 63 - 1)

def evictAt (pl : Place) (p : TxPool) : Option TxPool :=
  match p.list pl with
  | none => some p
  | some l =>
    if E.expired c p pl.account then exec (E.removeTx c) (l.flatten.map E.hash) p else some p

/-- A transaction of the index that the pool does not have is taken out of the index. -/
def sweepTx (tx : Transaction) (p : TxPool) : Option TxPool :=
  if E.live p tx then some p
  else
    tx.getTransactionType.bind fun txType =>
      (p.priced.removeByHash E.hash txType (E.hash tx)).map fun priced => { p with priced := priced }

/-- The branch of `loop` that evicts inactive accounts. -/
def evict (p : TxPool) : Option TxPool :=
  (exec (E.evictAt c) ((c.order p.pending.keys).map .pending) p).bind fun p =>
    (exec (E.evictAt c) ((c.order p.queue.keys).map .queue) p).bind fun p =>
      if p.priced.entries.length = p.all.length then some p
      else exec E.sweepTx p.priced.getTransactionList p

end PoolEnv

end GoAoa.Core
