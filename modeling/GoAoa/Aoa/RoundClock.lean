import GoAoa.Aoa.TaskManager

/-!
# The clock of the rounds

`aoa/dpos_taskManager.go`: the timer fires once a round and the callback computes the begin of the
round from the number of shuffles so far. That number only grows on the last line of the callback,
so every early return sets the clock of the node back by one round (`roundStart_iff`).
-/

namespace GoAoa.Aoa

open GoAoa.Dpos GoAoa.Core GoAoa.DelegateState Run Option Node

structure Clock where
  tm : TaskManager
  shuffleCount : Int
  deriving DecidableEq

/-- What the timer finds when it fires: the head of the chain, the keys of the node, and whether
the database takes the data of the round. -/
structure Firing where
  currentBlock : Block
  wallets : List Address
  stores : Bool

/-- The timer fires, or a block that does not verify makes the node shuffle. -/
inductive Tick where
  | fire (f : Firing)
  | verifyFail (fuel : Nat) (r : Readings) (n : Node) (b : Block)

namespace Clock

def roundTime (E : ChainEnv) : Int := E.maxElectDelegate * E.blockInterval

def roundStart (E : ChainEnv) (c : Clock) : Int :=
  i64 (c.tm.initTaskBeginTime + c.shuffleCount * roundTime E)

/-- `checkLocalExistDelegateWhenShuffle`, in the state of the head; `none` if the database does not
have it. -/
def candidates (T : TaskEnv) (f : Firing) : Option (Bool × List Candidate) :=
  (T.delegateTrie f.currentBlock.header.delegateRoot).map fun trie =>
    let candidates := (DelegateDB.new trie).getDelegates T.hexForm
    (candidates.any fun c => c.address ∈ f.wallets, candidates)

/-- `shuffleCallback`. A negative time cannot be encoded, and `none` is a panic. -/
def shuffleCallback (E : ChainEnv) (T : TaskEnv) (f : Firing) (c : Clock) : Option Clock :=
  match candidates T f with
  | none => some c
  | some (exist, candidates) =>
    let shuffleTime := c.roundStart E
    if !exist then some c
    else if candidates = [] then some c
    else
      let topDelegates := candidates.take E.maxElectDelegate
      match shuffleNewRound T.digest shuffleTime E.maxElectDelegate topDelegates
          E.blockInterval with
      | none => none
      | some newRound =>
        if shuffleTime < 0 ∨ !f.stores then some c
        else
          let hash := T.rlpHash newRound
          some
            { tm := { c.tm with
                  delegateStore := some ⟨f.currentBlock.header.number, shuffleTime.toNat⟩
                  currentRoundBlockHeight := i64 f.currentBlock.header.number
                  currentNewRound := newRound
                  currentNewRoundHash := hash
                  shuffleHashChan := c.tm.shuffleHashChan ++ [(hash, f.currentBlock.header.number)]
                  shuffleNewRoundChan := c.tm.shuffleNewRoundChan ++ [newRound] }
              shuffleCount := i64 (c.shuffleCount + 1) }

def step (E : ChainEnv) (T : TaskEnv) : Tick → Clock → Option Clock
  | .fire f, c => c.shuffleCallback E T f
  | .verifyFail fuel r n b, c =>
    (c.tm.shuffleIfVerify E T fuel r n b).map fun tm => { c with tm := tm }

/-- The firing returns early: the state of the head is missing, none of its delegates has a key in
the node, the time is negative, or the data of the round is not stored. -/
def returnsEarly (E : ChainEnv) (T : TaskEnv) (f : Firing) (c : Clock) : Bool :=
  match candidates T f with
  | none => true
  | some (exist, _) => !exist || c.roundStart E < 0 || !f.stores

def firings : List Tick → Nat
  | [] => 0
  | .fire _ :: ts => firings ts + 1
  | .verifyFail .. :: ts => firings ts

def earlyReturns (E : ChainEnv) (T : TaskEnv) : List Tick → Clock → Nat
  | [], _ => 0
  | t :: ts, c =>
    (match t with
      | .fire f => (c.returnsEarly E T f).toNat
      | .verifyFail .. => 0) +
    (match step E T t c with
      | none => 0
      | some c' => earlyReturns E T ts c')

variable {E : ChainEnv} {T : TaskEnv} {c c' : Clock}

/-- **What a firing does to the clock.** -/
theorem shuffleCallback_count {f : Firing} (h : c.shuffleCallback E T f = some c') :
    c'.tm.initTaskBeginTime = c.tm.initTaskBeginTime ∧
      c'.shuffleCount =
        if c.returnsEarly E T f then c.shuffleCount else i64 (c.shuffleCount + 1) := by
  unfold shuffleCallback at h
  unfold returnsEarly
  cases hc : candidates T f with
  | none =>
    rw [hc] at h
    cases h
    exact ⟨rfl, rfl⟩
  | some p =>
    obtain ⟨exist, cs⟩ := p
    rw [hc] at h
    dsimp only at h ⊢
    split at h
    · rename_i hnone
      cases h
      simp [hnone]
    rename_i hexist
    split at h
    · -- no candidate, so none with a key in the node
      rename_i hempty
      cases h
      obtain ⟨trie, -, heq⟩ := map_eq_some_iff.1 hc
      cases heq
      rw [hempty] at hexist
      simp at hexist
    split at h
    · cases h
    split at h
    · rename_i hfail
      cases h
      rcases hfail with hneg | hstore
      · simp [hneg]
      · simp [hstore]
    · rename_i hok
      cases h
      obtain ⟨hneg, hstore⟩ := not_or.1 hok
      simp [hexist, hneg, hstore]

theorem shuffleIfVerify_begin {fuel : Nat} {r : Readings} {n : Node} {b : Block}
    {tm tm' : TaskManager} (h : tm.shuffleIfVerify E T fuel r n b = some tm') :
    tm'.initTaskBeginTime = tm.initTaskBeginTime := by
  unfold TaskManager.shuffleIfVerify at h
  cases hasked : TaskManager.asked E T fuel r.search n tm.initTaskBeginTime (i64 b.header.time)
      b.header.shuffleBlockNumber with
  | panic => rw [hasked] at h; cases h
  | err | ok => rw [hasked] at h; cases h; rfl

theorem i64_dvd_sub (x : Int) : (2 ^ 64 : Int) ∣ i64 x - x := by
  unfold i64
  exact Int.dvd_bmod_sub_self

theorem i64_eq_iff {x y : Int} : i64 x = i64 y ↔ (2 ^ 64 : Int) ∣ x - y := by
  unfold i64
  rw [Int.bmod_eq_bmod_iff_bmod_sub_eq_zero, ← Int.dvd_iff_bmod_eq_zero]
  rfl

/-- **What a run does to the clock**: it counts the firings that did not return early. -/
theorem run_count {ts : List Tick} (h : exec (step E T) ts c = some c') :
    c'.tm.initTaskBeginTime = c.tm.initTaskBeginTime ∧
      (2 ^ 64 : Int) ∣ c'.shuffleCount - (c.shuffleCount + firings ts - earlyReturns E T ts c) := by
  induction ts generalizing c with
  | nil =>
    cases h
    simp [firings, earlyReturns]
  | cons t ts ih =>
    obtain ⟨c1, hstep, hrest⟩ := exec_cons_eq_some.1 h
    obtain ⟨hbegin, hcount⟩ := ih hrest
    unfold earlyReturns
    rw [hstep]
    cases t with
    | fire f =>
      obtain ⟨hbegin1, hcount1⟩ := shuffleCallback_count hstep
      refine ⟨hbegin.trans hbegin1, ?_⟩
      have hone := i64_dvd_sub (c.shuffleCount + 1)
      simp only [firings]
      cases hearly : c.returnsEarly E T f with
      | true =>
        rw [hearly, if_pos rfl] at hcount1
        simp only [Bool.toNat_true]
        omega
      | false =>
        rw [hearly, if_neg (by decide)] at hcount1
        simp only [Bool.toNat_false]
        omega
    | verifyFail =>
      obtain ⟨tm, htm, rfl⟩ := map_eq_some_iff.1 hstep
      refine ⟨hbegin.trans (shuffleIfVerify_begin htm), ?_⟩
      simpa [firings] using hcount

/-- **When the clock keeps pace.** After any run in which the timer fired `m` times, the next
firing computes the begin of the first round plus `m` rounds if and only if no firing returned
early (or the rounds that were lost add up to a multiple of `2 ^ 64` seconds). -/
theorem roundStart_iff {ts : List Tick} (hstart : c.shuffleCount = 0)
    (hrun : Run.exec (step E T) ts c = some c') :
    c'.roundStart E = i64 (c.tm.initTaskBeginTime + firings ts * roundTime E) ↔
      (2 ^ 64 : Int) ∣ earlyReturns E T ts c * roundTime E := by
  obtain ⟨hbegin, k, hk⟩ := run_count hrun
  have hcount : c'.shuffleCount = firings ts - earlyReturns E T ts c + 2 ^ 64 * k := by omega
  unfold roundStart
  rw [i64_eq_iff, hbegin, hcount]
  have hdiff : c.tm.initTaskBeginTime +
      (firings ts - earlyReturns E T ts c + 2 ^ 64 * k) * roundTime E -
        (c.tm.initTaskBeginTime + firings ts * roundTime E) =
      2 ^ 64 * (k * roundTime E) - earlyReturns E T ts c * roundTime E := by ring
  omega

/-! ## A missed round -/

/-- A node with the key of delegate 7, and one without. -/
def firing (wallets : List Address) : Firing := ⟨.withBody (slotHeader 1 []) [], wallets, true⟩

def smallClock : Clock := ⟨TaskManager.smallManager, 0⟩

def smallTask : TaskEnv := TaskManager.smallTasks (some TaskManager.oneDelegate)

theorem roundStart_two_rounds :
    ∃ c', Run.exec (step Node.smallEnv smallTask) [.fire (firing [7]), .fire (firing [7])]
        smallClock = some c' ∧
      c'.roundStart Node.smallEnv = i64 (50 + (2 : Nat) * roundTime Node.smallEnv) := by
  have hnone : earlyReturns smallEnv smallTask [.fire (firing [7]), .fire (firing [7])]
      smallClock = 0 := by decide +kernel
  refine exists_of_check (fun _ => True) (by decide +kernel)
    fun c' h _ => (roundStart_iff rfl h).2 ?_
  rw [hnone]
  exact ⟨0, by simp⟩

/-- **A node without a key falls behind.** It returns early at the first firing; at the second the
node with the key is one round on, and it is not. -/
theorem not_roundStart_missed :
    ∃ c₁ c₂, Run.exec (step Node.smallEnv smallTask) [.fire (firing [7])] smallClock = some c₁ ∧
      Run.exec (step Node.smallEnv smallTask) [.fire (firing [])] smallClock = some c₂ ∧
      roundTime Node.smallEnv = 40 ∧ c₁.roundStart Node.smallEnv = 90 ∧
      c₂.roundStart Node.smallEnv = 50 := by
  have hrun1 : (exec (step smallEnv smallTask) [.fire (firing [7])] smallClock).map
      (roundStart smallEnv) = some 90 := by decide +kernel
  have hrun2 : (exec (step smallEnv smallTask) [.fire (firing [])] smallClock).map
      (roundStart smallEnv) = some 50 := by decide +kernel
  obtain ⟨c₁, h1, heq1⟩ := map_eq_some_iff.1 hrun1
  obtain ⟨c₂, h2, heq2⟩ := map_eq_some_iff.1 hrun2
  exact ⟨c₁, c₂, h1, h2, by decide +kernel, heq1, heq2⟩

end Clock

end GoAoa.Aoa
