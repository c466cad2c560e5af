import GoAoa.Aoa.Node
import GoAoa.Dpos.Shuffle

/-!
# The round of a node

`aoa/dpos_taskManager.go`: the current round, the data it is stored under, and how a new-block
message changes them. A block that does not verify makes the node compute the round that the header
asks for, with the shuffle block and the time the header names, and verify again. Whether the
second check passes comes too late for the round: it has been stored (`rejected_round_iff`). The
clock is read four times, and the search for the round is followed for `fuel` turns.
-/

namespace GoAoa.Aoa

open GoAoa.Dpos GoAoa.Core GoAoa.DelegateState Node

/-- `ShuffleDelegateData`, as it can be stored. -/
structure ShuffleDelegateData where
  blockNumber : Nat
  shuffleTime : Nat
  deriving DecidableEq, Repr

/-- `DposTaskManager`, with the two channels as what was sent on them and the package variable
`initTaskBeginTime`. -/
structure TaskManager where
  currentNewRound : List RoundDel
  currentRoundBlockHeight : Int
  currentNewRoundHash : Hash
  delegateStore : Option ShuffleDelegateData
  shuffleHashChan : List (Hash × Nat)
  shuffleNewRoundChan : List (List RoundDel)
  initTaskBeginTime : Int
  deriving DecidableEq

/-- What the task manager depends on besides the chain. -/
structure TaskEnv where
  /-- The trie of delegates under a root, if the database has it. -/
  delegateTrie : Hash → Option DelegateTrie
  hexForm : HexForm
  digest : Int → Bool → Nat → Nat
  rlpHash : List RoundDel → Hash

inductive ShuffleErr where
  | shuffleBlockNotExist (number : Nat)
  | delegateState
  | delegateNotExist
  | encode
  deriving DecidableEq, Repr

/-- The clock at its four readings: the two checks, the search for the round and the test whether
the round has begun. -/
structure Readings where
  first : Int
  search : Int
  expire : Int
  second : Int

def getBlockByNumber (bc : BlockChain) (number : Nat) : Option Block :=
  (bc.canonical number).bind fun h => bc.getBlock h number

namespace TaskManager

/-- `GetCurrentShuffleRound`. -/
def round (tm : TaskManager) : ShuffleList := ⟨tm.currentNewRound.map RoundDel.toShuffleDel⟩

/-- The round a header asks for, and whether the node has a key of its delegates. -/
structure Asked where
  data : ShuffleDelegateData
  newRound : List RoundDel
  exist : Bool
  deriving DecidableEq

/-- `ShuffleWhenVerifyFail` up to where the round is stored. A negative time cannot be encoded. -/
def asked (E : ChainEnv) (T : TaskEnv) (fuel : Nat) (now : Int) (n : Node) (begins : Int)
    (receiveBlockTime : Int) (shuffleBlockNumber : Nat) : Outcome ShuffleErr Asked :=
  match getBlockByNumber n.chain (u64 shuffleBlockNumber) with
  | none => .err (.shuffleBlockNotExist (u64 shuffleBlockNumber))
  | some shuffleBlock =>
    match T.delegateTrie shuffleBlock.header.delegateRoot with
    | none => .err .delegateState
    | some trie =>
      let candidates := (DelegateDB.new trie).getDelegates T.hexForm
      if candidates = [] then .err .delegateNotExist
      else
        let topDelegates := candidates.take E.maxElectDelegate
        match calShuffleTimeByHeaderTime fuel now begins receiveBlockTime E.blockInterval
          E.maxElectDelegate with
        | none => .panic
        | some shuffleTime =>
          match shuffleNewRound T.digest shuffleTime E.maxElectDelegate topDelegates
            E.blockInterval with
          | none => .panic
          | some newRound =>
            if shuffleTime < 0 then .err .encode
            else .ok ⟨⟨shuffleBlock.header.number, shuffleTime.toNat⟩, newRound,
              candidates.any fun c => c.address ∈ n.wallets⟩

/-- `ShuffleWhenVerifyFail` from there on: the round is stored and made the current one. -/
def adopt (T : TaskEnv) (now : Int) (tm : TaskManager) (r : Asked) : TaskManager :=
  { tm with
    delegateStore := some r.data
    currentRoundBlockHeight := i64 r.data.blockNumber
    currentNewRound := r.newRound
    currentNewRoundHash := T.rlpHash r.newRound
    shuffleHashChan := tm.shuffleHashChan ++ [(T.rlpHash r.newRound, r.data.blockNumber)]
    shuffleNewRoundChan :=
      if !r.exist ∨ r.data.shuffleTime < now then tm.shuffleNewRoundChan
      else tm.shuffleNewRoundChan ++ [r.newRound] }

/-- `shuffleIfVerify`, which drops the error of `ShuffleWhenVerifyFail`. `none` is a panic or a
search that goes on. -/
def shuffleIfVerify (E : ChainEnv) (T : TaskEnv) (fuel : Nat) (r : Readings) (n : Node) (b : Block)
    (tm : TaskManager) : Option TaskManager :=
  (asked E T fuel r.search n tm.initTaskBeginTime (i64 b.header.time)
      b.header.shuffleBlockNumber).fold
    (fun x => some (tm.adopt T r.expire x))
    (fun _ => some tm)
    none

def verify (E : ChainEnv) (now : Int) (n : Node) (b : Block) (tm : TaskManager) :
    Outcome VerifyErr Unit :=
  verifyBlockGenerate E.crypto (n.chain.reader E) now b tm.round E.blockInterval

/-- `dealNewBlockMsg` with the task manager. -/
def dealNewBlockMsg (E : ChainEnv) (T : TaskEnv) (fuel : Nat) (r : Readings) (b : Block) (n : Node)
    (tm : TaskManager) : Option (Node × TaskManager) :=
  if b.numberU64 ≤ n.height then some (n, tm)
  else if u64 (n.height + 1) < b.numberU64 then some (n, tm)
  else
    (tm.verify E r.first n b).fold (fun _ => some (n.acceptNewBlock E.crypto b, tm))
      (fun _ =>
        (tm.shuffleIfVerify E T fuel r n b).bind fun tm =>
          let n := { n with round := tm.round }
          (tm.verify E r.second n b).fold (fun _ => some (n.acceptNewBlock E.crypto b, tm))
            (fun _ => some (n, tm))
            none)
      none

section

variable {E : ChainEnv} {T : TaskEnv} {fuel : Nat} {r : Readings} {b : Block} {n n' : Node}
  {tm tm' : TaskManager}

/-- **How the handling of a new block can go.** The block is not the next one; or it verifies; or
it does not, and it is checked again under the round it asks for. -/
theorem dealNewBlockMsg_cases (h : tm.dealNewBlockMsg E T fuel r b n = some (n', tm')) :
    ((b.numberU64 ≤ n.height ∨ u64 (n.height + 1) < b.numberU64) ∧ n' = n ∧ tm' = tm) ∨
    (n.height < b.numberU64 ∧ b.numberU64 ≤ u64 (n.height + 1) ∧
      ((tm.verify E r.first n b = .ok () ∧ n' = n.acceptNewBlock E.crypto b ∧ tm' = tm) ∨
        ∃ e, tm.verify E r.first n b = .err e ∧ tm.shuffleIfVerify E T fuel r n b = some tm' ∧
          ((tm'.verify E r.second n b = .ok () ∧
              n' = { n with round := tm'.round }.acceptNewBlock E.crypto b) ∨
            ∃ e', tm'.verify E r.second n b = .err e' ∧ n' = { n with round := tm'.round }))) := by
  unfold dealNewBlockMsg at h
  split at h
  · rename_i hold
    cases h
    exact .inl ⟨.inl hold, rfl, rfl⟩
  rename_i hnew
  split at h
  · rename_i hlost
    cases h
    exact .inl ⟨.inr hlost, rfl, rfl⟩
  rename_i hnext
  refine .inr ⟨Nat.lt_of_not_le hnew, Nat.le_of_not_lt hnext, ?_⟩
  cases hfirst : tm.verify E r.first n b with
  | panic => rw [hfirst] at h; cases h
  | ok =>
    rw [hfirst] at h
    cases h
    exact .inl ⟨rfl, rfl, rfl⟩
  | err e =>
    rw [hfirst, Outcome.fold_err] at h
    obtain ⟨tm1, hshuffle, h⟩ := Option.bind_eq_some_iff.1 h
    have h : (tm1.verify E r.second n b).fold
      (fun _ => some ({ n with round := tm1.round }.acceptNewBlock E.crypto b, tm1))
      (fun _ => some ({ n with round := tm1.round }, tm1)) none = some (n', tm') := h
    cases hsecond : tm1.verify E r.second n b with
    | panic => rw [hsecond] at h; cases h
    | ok =>
      rw [hsecond] at h
      cases h
      exact .inr ⟨e, rfl, hshuffle, .inl ⟨hsecond, rfl⟩⟩
    | err e' =>
      rw [hsecond] at h
      cases h
      exact .inr ⟨e, rfl, hshuffle, .inr ⟨e', hsecond, rfl⟩⟩

/-! ## Rejected blocks -/

structure SameRound (tm tm' : TaskManager) : Prop where
  newRound : tm'.currentNewRound = tm.currentNewRound
  height : tm'.currentRoundBlockHeight = tm.currentRoundBlockHeight
  hash : tm'.currentNewRoundHash = tm.currentNewRoundHash
  store : tm'.delegateStore = tm.delegateStore

/-- The header asks for no round, or for the one the node is in: if its shuffle block is in the
chain and has delegates, and the round of its time does not begin before time zero, then the block
and that begin are what is stored, and the round is the one the delegates of that block have
there. -/
def AsksForCurrent (E : ChainEnv) (T : TaskEnv) (now : Int) (n : Node) (b : Block)
    (tm : TaskManager) : Prop :=
  ∀ shuffleBlock trie,
    getBlockByNumber n.chain (u64 b.header.shuffleBlockNumber) = some shuffleBlock →
    T.delegateTrie shuffleBlock.header.delegateRoot = some trie →
    let candidates := (DelegateDB.new trie).getDelegates T.hexForm
    let begins := searchedRound now tm.initTaskBeginTime (i64 b.header.time)
      (E.maxElectDelegate * E.blockInterval)
    candidates ≠ [] → 0 ≤ begins →
      tm.delegateStore = some ⟨shuffleBlock.header.number, begins.toNat⟩ ∧
      tm.currentRoundBlockHeight = i64 shuffleBlock.header.number ∧
      shuffleNewRound T.digest begins E.maxElectDelegate (candidates.take E.maxElectDelegate)
        E.blockInterval = some tm.currentNewRound ∧
      tm.currentNewRoundHash = T.rlpHash tm.currentNewRound

/-- The rounds of the node have a length, and its times are two rounds away from where sums
wrap. -/
structure TimesFit (E : ChainEnv) (now : Int) (tm : TaskManager) : Prop where
  round : 0 < (E.maxElectDelegate : Int) * E.blockInterval
  low : -2 ^ 63 ≤ tm.initTaskBeginTime
  begins : tm.initTaskBeginTime + E.maxElectDelegate * E.blockInterval < 2 ^ 63
  now : now + 2 * (E.maxElectDelegate * E.blockInterval) < 2 ^ 63

theorem adopt_sameRound_iff (now : Int) (x : Asked) : SameRound tm (tm.adopt T now x) ↔
      tm.currentNewRound = x.newRound ∧ tm.currentRoundBlockHeight = i64 x.data.blockNumber ∧
        tm.currentNewRoundHash = T.rlpHash x.newRound ∧ tm.delegateStore = some x.data :=
  ⟨fun h => ⟨h.newRound.symm, h.height.symm, h.hash.symm, h.store.symm⟩,
    fun h => ⟨h.1.symm, h.2.1.symm, h.2.2.1.symm, h.2.2.2.symm⟩⟩

theorem shuffleIfVerify_sameRound_iff (hfit : TimesFit E r.search tm)
    (h : tm.shuffleIfVerify E T fuel r n b = some tm') :
    SameRound tm tm' ↔ AsksForCurrent E T r.search n b tm := by
  unfold shuffleIfVerify asked at h
  unfold AsksForCurrent
  have hunchanged : SameRound tm tm := ⟨rfl, rfl, rfl, rfl⟩
  cases hblock : getBlockByNumber n.chain (u64 b.header.shuffleBlockNumber) with
  | none =>
    rw [hblock] at h
    cases h
    exact iff_of_true hunchanged (by simp)
  | some shuffleBlock =>
    rw [hblock] at h
    dsimp only at h
    cases htrie : T.delegateTrie shuffleBlock.header.delegateRoot with
    | none =>
      rw [htrie] at h
      cases h
      refine iff_of_true hunchanged fun s trie hs ht => ?_
      cases hs
      cases htrie.symm.trans ht
    | some trie =>
      rw [htrie] at h
      dsimp only at h
      have hthe {P : Block → DelegateTrie → Prop} :
          (∀ s t, some shuffleBlock = some s → T.delegateTrie s.header.delegateRoot = some t →
            P s t) ↔ P shuffleBlock trie := by
        refine ⟨fun hall => hall _ _ rfl htrie, fun hP s t hs ht => ?_⟩
        cases hs
        cases htrie.symm.trans ht
        exact hP
      refine Iff.trans ?_ hthe.symm
      dsimp only
      split at h
      · rename_i hempty
        cases h
        exact iff_of_true hunchanged fun hne => absurd hempty hne
      rename_i hne
      cases htime : calShuffleTimeByHeaderTime fuel r.search tm.initTaskBeginTime
          (i64 b.header.time) E.blockInterval E.maxElectDelegate with
      | none => rw [htime] at h; cases h
      | some begins =>
        obtain ⟨k, hk⟩ := calShuffleTime_eq (t := i64 b.header.time) hfit.round hfit.low
          hfit.begins hfit.now
        have hbegins := (calShuffleTime_mono (Nat.le_add_right fuel k) htime).symm.trans
          (hk _ (Nat.le_add_left k fuel))
        rw [← Option.some.inj hbegins]
        rw [htime] at h
        dsimp only at h
        cases hround : shuffleNewRound T.digest begins E.maxElectDelegate
            (((DelegateDB.new trie).getDelegates T.hexForm).take E.maxElectDelegate)
            E.blockInterval with
        | none => rw [hround] at h; cases h
        | some newRound =>
          rw [hround] at h
          dsimp only at h
          split at h
          · rename_i hneg
            cases h
            exact iff_of_true hunchanged fun _ hpos => absurd hpos (Int.not_le.2 hneg)
          · rename_i hpos
            cases h
            rw [adopt_sameRound_iff]
            constructor
            · rintro ⟨hr, hh, hhash, hs⟩ - -
              exact ⟨hs, hh, by rw [hr], by rw [hr, hhash]⟩
            · intro hcur
              obtain ⟨hs, hh, hr, hhash⟩ := hcur hne (Int.not_lt.1 hpos)
              cases hr
              exact ⟨rfl, hh, hhash, hs⟩

/-- **What a rejected block does to the round.** After a new-block message whose block fails the
first check, whatever the second says, the round and the stored data are those of before if and
only if the header asks for no round, or for the one the node is in. -/
theorem rejected_round_iff {e : VerifyErr} (hfit : TimesFit E r.search tm)
    (hnew : n.height < b.numberU64) (hnext : b.numberU64 ≤ u64 (n.height + 1))
    (h : tm.dealNewBlockMsg E T fuel r b n = some (n', tm'))
    (hfirst : tm.verify E r.first n b = .err e) :
    SameRound tm tm' ↔ AsksForCurrent E T r.search n b tm := by
  rcases dealNewBlockMsg_cases h with ⟨hold | hlost, -, -⟩ | ⟨-, -, ⟨hok, -, -⟩ | ⟨-, -, hs, -⟩⟩
  · omega
  · omega
  · rw [hok] at hfirst
    cases hfirst
  · exact shuffleIfVerify_sameRound_iff hfit hs

end

/-! ## An unsigned block -/

def smallTasks (delegates : Option DelegateTrie) : TaskEnv where
  delegateTrie _ := delegates
  hexForm := .bytes
  digest _ _ _ := 48
  rlpHash _ := 0

def oneDelegate : DelegateTrie :=
  (∅ : DelegateTrie).insert 7 ⟨1, [], 0, false⟩

def smallManager : TaskManager where
  currentNewRound := (slotList [1, 2, 3, 4]).shuffleDels.map fun d => ⟨d, 0, []⟩
  currentRoundBlockHeight := 0
  currentNewRoundHash := 0
  delegateStore := none
  shuffleHashChan := []
  shuffleNewRoundChan := []
  initTaskBeginTime := 50

def unsignedBlock : Block := .withBody (slotHeader 1 []) []

def atTen : Readings := ⟨10, 10, 10, 10⟩

/-- The manager after the message of `not_rejected_round_unsigned`. -/
def movedManager : TaskManager :=
  { smallManager with
    currentNewRound := (slotList [7]).shuffleDels.map fun d => ⟨d, 1, []⟩
    delegateStore := some ⟨0, 10⟩ }

theorem rejected_round_again :
    ∃ n' tm', movedManager.dealNewBlockMsg Node.smallEnv (smallTasks (some oneDelegate)) 5 atTen
        unsignedBlock (Node.smallNode []) = some (n', tm') ∧ SameRound movedManager tm' := by
  refine exists₂_of_check (fun _ _ => True) (by decide +kernel) fun n' tm' h _ => ?_
  have hfit : TimesFit smallEnv 10 movedManager := ⟨by decide, by decide, by decide, by decide⟩
  have herr : movedManager.verify smallEnv 10 (smallNode []) unsignedBlock =
      .err (.missSignature 1) := by decide +kernel
  refine (rejected_round_iff hfit (by decide +kernel) (by decide +kernel) h herr).2 ?_
  intro block trie hblock htrie
  have hnumber : (getBlockByNumber (smallNode []).chain
      (u64 unsignedBlock.header.shuffleBlockNumber)).map (·.header.number) = some 0 := by
    decide +kernel
  cases htrie
  rw [hblock] at hnumber
  intro candidates begins _ _
  rw [show block.header.number = 0 from Option.some.inj hnumber]
  exact ⟨by decide +kernel, by decide +kernel, by decide +kernel, by decide +kernel⟩

/-- **An unsigned block moves the node to another round**, and the round is stored. -/
theorem not_rejected_round_unsigned :
    ∃ n' tm', smallManager.dealNewBlockMsg Node.smallEnv (smallTasks (some oneDelegate)) 5 atTen
        unsignedBlock (Node.smallNode []) = some (n', tm') ∧
      smallManager.verify Node.smallEnv 10 (Node.smallNode []) unsignedBlock =
        .err (.missSignature 1) ∧
      tm'.verify Node.smallEnv 10 (Node.smallNode []) unsignedBlock = .err (.missSignature 1) ∧
      smallManager.delegateStore = none ∧ tm'.delegateStore = some ⟨0, 10⟩ ∧
      tm'.round = slotList [7] ∧ ¬ SameRound smallManager tm' := by
  refine exists₂_of_check (fun _ tm => tm.delegateStore = some ⟨0, 10⟩ ∧ tm.round = slotList [7] ∧
      tm.verify smallEnv 10 (smallNode []) unsignedBlock = .err (.missSignature 1))
    (by decide +kernel) fun n' tm' _ ⟨hstore, hround, hverify⟩ =>
      ⟨by decide +kernel, hverify, rfl, hstore, hround, fun hsame => ?_⟩
  rw [hsame.store] at hstore
  cases hstore

end TaskManager

end GoAoa.Aoa
