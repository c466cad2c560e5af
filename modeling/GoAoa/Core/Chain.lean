import GoAoa.Dpos.Verify

/-!
# The block chain

`core/blockchain.go`: insertion of blocks, the choice of the canonical chain and
reorganisations. Running a block's transactions on its parent's state and comparing the result
with the header is a parameter of this module (`process`). `none` is a panic.
-/

namespace GoAoa.Core

open GoAoa.Dpos Function

inductive ChainErr where
  | nonContiguous
  | blacklistedHash
  | knownBlock
  | unknownAncestor
  | futureBlock (have_ : Nat) (max : Int)
  | transactionRootMismatch (have_ want : Hash)
  | verify (e : VerifyErr)
  | process
  | invalidOldChain
  | invalidNewChain
  deriving DecidableEq, Repr

structure ChainEnv where
  crypto : Crypto
  maxElectDelegate : Nat
  blockInterval : Int
  blockInterval_range : 0 < blockInterval ∧ blockInterval < 2 ^ 32
  badHashes : List Hash
  /-- `types.DeriveSha` of the transactions. -/
  deriveSha : List Transaction → Hash
  /-- `Process` followed by `ValidateState` of a block on the state of its parent. -/
  process : Block → Block → Outcome ChainErr Unit

theorem ten_range : 0 < (10 : Int) ∧ (10 : Int) < 2 ^ 32 := by decide

structure BlockChain where
  /-- The blocks in the database; their states are written with them. -/
  blocks : Hash → Option Block
  /-- Total difficulties, by hash and number. -/
  td : Hash → Nat → Option Nat
  canonical : Nat → Option Hash
  currentBlock : Block
  futureBlocks : List Block

namespace BlockChain

section

variable (bc : BlockChain)

/-- `GetBlock`: the database key is the number and the hash. -/
def getBlock (h : Hash) (number : Nat) : Option Block :=
  (bc.blocks h).filter fun b => b.numberU64 == number

def getHeader (h : Hash) (number : Nat) : Option Header :=
  (bc.getBlock h number).map Block.header

def hasBlockAndState (h : Hash) : Bool := (bc.blocks h).isSome

end

/-- The chain as the consensus engine reads it. -/
def reader (E : ChainEnv) (bc : BlockChain) : ChainReader :=
  { maxElectDelegate := E.maxElectDelegate, getHeader := bc.getHeader }

def parentOf (bc : BlockChain) (b : Block) : Option Block :=
  bc.getBlock b.header.parentHash (u64 (b.numberU64 - 1))

/-! ## Checks before execution -/

/-- `verifyHeaders` for a block whose predecessor in the batch is `prev`. -/
def verifyHeaders (E : ChainEnv) (bc : BlockChain) (now : Int) (prev : Option Block) (b : Block) :
    Except ChainErr Unit :=
  let parent := match prev with
    | none => (bc.parentOf b).map Block.header
    | some p => if p.hash E.crypto = b.header.parentHash then some p.header else none
  match parent with
  | none => .error .unknownAncestor
  | some parent =>
    if (bc.getHeader (b.hash E.crypto) (b.numberU64)).isSome then .ok ()
    else (verifyHeader now b.header parent).mapError .verify

def validateBody (E : ChainEnv) (bc : BlockChain) (b : Block) : Except ChainErr Unit :=
  if bc.hasBlockAndState (b.hash E.crypto) then .error .knownBlock
  else if bc.hasBlockAndState b.header.parentHash = false then .error .unknownAncestor
  else if E.deriveSha b.transactions ≠ b.header.txHash then
    .error (.transactionRootMismatch (E.deriveSha b.transactions) b.header.txHash)
  else .ok ()

/-! ## Future blocks -/

def maxFutureBlocks : Nat := 256
def maxTimeFutureBlocks : Int := 30

/-- `futureBlocks.Add`, a cache of the blocks added last. -/
def addFuture (C : Crypto) (bc : BlockChain) (b : Block) : BlockChain :=
  { bc with
    futureBlocks :=
      (b :: bc.futureBlocks.filter fun x => x.hash C ≠ b.hash C).take maxFutureBlocks }

def removeFuture (C : Crypto) (bc : BlockChain) (h : Hash) : BlockChain :=
  { bc with futureBlocks := bc.futureBlocks.filter fun x => x.hash C ≠ h }

/-! ## The canonical chain -/

/-- `insert`: `b` becomes the head and the canonical block of its number. -/
def insert (C : Crypto) (bc : BlockChain) (b : Block) : BlockChain :=
  { bc with
    canonical := update bc.canonical (b.numberU64) (some (b.hash C))
    currentBlock := b }

/-- Walk from `b` towards genesis down to the block of number `target`. The blocks passed are
returned in ascending order. -/
def climb (bc : BlockChain) (target : Nat) : Nat → Block → List Block → Option (Block × List Block)
  | 0, b, acc => if b.numberU64 = target then some (b, acc) else none
  | fuel + 1, b, acc =>
    if b.numberU64 = target then some (b, acc)
    else (bc.parentOf b).bind fun p => climb bc target fuel p (b :: acc)

/-- Walk both chains down to their common block, adding the new chain's blocks to `acc`. -/
def findCommon (C : Crypto) (bc : BlockChain) :
    Nat → Block → Block → List Block → Except ChainErr (List Block)
  | 0, old, new, acc => if old.hash C = new.hash C then .ok acc else .error .invalidOldChain
  | fuel + 1, old, new, acc =>
    if old.hash C = new.hash C then .ok acc
    else
      match bc.parentOf old, bc.parentOf new with
      | none, _ => .error .invalidOldChain
      | some _, none => .error .invalidNewChain
      | some old', some new' => findCommon C bc fuel old' new' (new :: acc)

def newChain (C : Crypto) (bc : BlockChain) (old new : Block) : Except ChainErr (List Block) :=
  let no := old.numberU64
  let nn := new.numberU64
  if nn < no then
    match bc.climb nn (no + 1) old [] with
    | none => .error .invalidOldChain
    | some (old', _) => findCommon C bc (nn + 1) old' new []
  else
    match bc.climb no (nn + 1) new [] with
    | none => .error .invalidNewChain
    | some (new', acc) => findCommon C bc (no + 1) old new' acc

def reorg (C : Crypto) (bc : BlockChain) (old new : Block) : Except ChainErr BlockChain :=
  (bc.newChain C old new).map fun bs => bs.foldl (insert C) bc

def writeTd (bc : BlockChain) (h : Hash) (number d : Nat) : BlockChain :=
  { bc with td := update bc.td h (update (bc.td h) number (some d)) }

/-- `WriteBlockAndState`. `coin` settles ties of total difficulty and number. The block itself
reaches the database after the reorganisation. -/
def writeBlockAndState (C : Crypto) (coin : Hash → Bool) (bc : BlockChain) (b : Block) :
    Option (BlockChain × Option ChainErr) :=
  let h := b.hash C
  let number := b.numberU64
  let cur := bc.currentBlock
  match bc.td b.header.parentHash (u64 (number - 1)) with
  | none => some (bc, some .unknownAncestor)
  | some ptd =>
    match bc.td (cur.hash C) cur.numberU64 with
    | none => none
    | some localTd =>
      let externTd := ptd + 1
      let bc := bc.writeTd h number externTd
      let reorg : Bool := localTd < externTd ||
        (externTd == localTd && (number < cur.numberU64 || (number == cur.numberU64 && coin h)))
      if reorg then
        match if b.header.parentHash ≠ cur.hash C then bc.reorg C cur b else .ok bc with
        | .error e => some (bc, some e)
        | .ok bc =>
          let bc := { bc with blocks := update bc.blocks h (some b) }
          some ((bc.insert C b).removeFuture C h, none)
      else
        let bc := { bc with blocks := update bc.blocks h (some b) }
        some (bc.removeFuture C h, none)

/-! ## Insertion -/

/-- One round of the loop of `insertChain`: `none` as the error goes on to the next block. -/
def insertBlock (E : ChainEnv) (now : Int) (coin : Hash → Bool) (prev : Option Block)
    (bc : BlockChain) (b : Block) : Option (BlockChain × Option ChainErr) :=
  if b.hash E.crypto ∈ E.badHashes then some (bc, some .blacklistedHash)
  else
    match (bc.verifyHeaders E now prev b).bind fun _ => bc.validateBody E b with
    | .error .knownBlock => some (bc, none)
    | .error (.verify .errFutureBlock) =>
      if now + maxTimeFutureBlocks < b.header.time then
        some (bc, some (.futureBlock b.header.time (now + maxTimeFutureBlocks)))
      else some (bc.addFuture E.crypto b, none)
    | .error .unknownAncestor =>
      if bc.futureBlocks.any fun x => x.hash E.crypto = b.header.parentHash then
        some (bc.addFuture E.crypto b, none)
      else some (bc, some .unknownAncestor)
    | .error e => some (bc, some e)
    | .ok () =>
      match if prev.isSome then prev else bc.parentOf b with
      | none => none
      | some parent =>
        match E.process parent b with
        | .panic => none
        | .err e => some (bc, some e)
        | .ok () => bc.writeBlockAndState E.crypto coin b

def insertLoop (E : ChainEnv) (now : Int) (coin : Hash → Bool) :
    Option Block → List Block → BlockChain → Option (BlockChain × Option ChainErr)
  | _, [], bc => some (bc, none)
  | prev, b :: bs, bc =>
    match bc.insertBlock E now coin prev b with
    | none => none
    | some (bc', some e) => some (bc', some e)
    | some (bc', none) => insertLoop E now coin (some b) bs bc'

/-- The batch is ordered and linked. -/
def contiguous (C : Crypto) : List Block → Bool
  | a :: b :: bs =>
    b.numberU64 == u64 (a.numberU64 + 1) && b.header.parentHash == a.hash C &&
      contiguous C (b :: bs)
  | _ => true

def insertChain (E : ChainEnv) (now : Int) (coin : Hash → Bool) (chain : List Block)
    (bc : BlockChain) : Option (BlockChain × Option ChainErr) :=
  if contiguous E.crypto chain then insertLoop E now coin none chain bc
  else some (bc, some .nonContiguous)

/-- `procFutureBlocks`: the future blocks by number, one insertion each. Errors are dropped. -/
def procFutureBlocks (E : ChainEnv) (now : Int) (coin : Hash → Bool) (bc : BlockChain) :
    Option BlockChain :=
  (bc.futureBlocks.mergeSort fun a b => a.header.number ≤ b.header.number).foldlM
    (fun bc b => (bc.insertChain E now coin [b]).map Prod.fst) bc

end BlockChain

end GoAoa.Core
