import GoAoa.Core.Processor
import GoAoa.State.Voting

/-!
# Votes that panic

`Vote` reads the lock balance of the sender through its decimal string. An object decoded from the
trie has a lock balance; one that was made in memory has none, and reading it panics. So whether a
vote of a transaction returns depends on where the object of its sender comes from
(`votes_well_iff`).
-/

namespace GoAoa.State.StateDB

open Option

variable {g : Growth} {db db' : StateDB} {user : Address} {votes : List Vote} {m : Int}
  {delegates : List Address} {d : Account} {s : Bool}

theorem changeVoteList_returns {e : Edit Address} {diff : Int}
    (h : ∀ v ∈ votes, v.candidate.isSome = true) :
    ∃ e' r, changeVoteList g delegates votes e diff = some (e', r) := by
  induction votes generalizing e diff with
  | nil => exact ⟨_, _, rfl⟩
  | cons v votes ih =>
    have ih := fun e diff => @ih e diff fun v hv => h v (List.mem_cons_of_mem _ hv)
    obtain ⟨c, hc⟩ := isSome_iff_exists.1 (h v List.mem_cons_self)
    unfold changeVoteList
    simp only [hc]
    split
    · split
      · exact ⟨_, _, rfl⟩
      · split
        · exact ⟨_, _, rfl⟩
        · exact ih _ _
    · split
      · exact ih _ _
      · exact ⟨_, _, rfl⟩
    · exact ⟨_, _, rfl⟩

variable (hs : db.shown user = some (d, s))
include hs

theorem addLockBalance_returns {lock : Int} (hl : d.lockBalance = some lock) (amount : Int) :
    ∃ db', db.addLockBalance user amount = some db' := by
  unfold addLockBalance
  split
  · exact ⟨_, rfl⟩
  · have hlock : (db.getOrNewStateObject user).2.data.lockBalance = some lock := by
      rw [(getOrNew_shown db user).1, hs]
      exact hl
    rw [hlock]
    exact ⟨_, rfl⟩

theorem shown_cells (cells : Slice Address) :
    (db.setVoteCells user cells).shown user = some ({ d with voteList := cells }, s) := by
  rw [shown_setVoteCells, if_pos rfl, hs]
  rfl

theorem lock_cells (cells : Slice Address) :
    (db.setVoteCells user cells).getLockBalance user = d.lockBalance := by
  rw [getLockBalance_shown, shown_cells hs]
  rfl

/-- Votes that are counted are accepted if the lock has room for them. -/
theorem vote_accepted_iff {e : Edit Address} {diff : Int}
    (hchange : changeVoteList g delegates votes (Edit.start (db.getVoteList user)) 0 =
      some (e, some diff)) : (∃ db', db.vote g m (some delegates) user votes = some (true, db')) ↔
        ∃ lock, d.lockBalance = some lock ∧ lock + diff ≤ aoa * m := by
  constructor
  · rintro ⟨db', hvote⟩
    obtain ⟨_, e', diff', lock, heq, hchange', hl, hmax, -⟩ := vote_accepted hs hvote
    cases heq
    rw [getVoteList_shown, hs] at hchange
    cases hchange.symm.trans hchange'
    exact ⟨lock, hl, hmax⟩
  · rintro ⟨lock, hl, hmax⟩
    have hpaid := Core.shown_subBalance_self (shown_cells hs e.prev) diff
    obtain ⟨db1, hadd⟩ := addLockBalance_returns hpaid hl diff
    refine ⟨db1.setVoteList user e.cur, ?_⟩
    unfold vote
    simp only [hchange, lock_cells hs, hl, if_neg (Int.not_lt.2 hmax), hadd]
    rfl

/-- **When a vote returns and leaves a lock balance.** -/
theorem vote_well_iff (hwf : ∀ v ∈ votes, v.candidate.isSome = true) :
    (∃ ok db', db.vote g m (some delegates) user votes = some (ok, db') ∧
      (db'.getLockBalance user).isSome = true) ↔ d.lockBalance.isSome = true := by
  obtain ⟨e, result, hchange⟩ := changeVoteList_returns hwf
  have hlock := lock_cells hs e.prev
  constructor
  · rintro ⟨ok, db', hvote, hsome⟩
    obtain ⟨_, e', result', heq, hchange', hcases⟩ := vote_cases hvote
    cases heq
    cases hchange.symm.trans hchange'
    rcases hcases with ⟨-, rfl⟩ | ⟨-, diff, lock, -, -, hl, -⟩
    · rwa [hlock] at hsome
    · rw [← hlock, hl]
      rfl
  · intro hsome
    obtain ⟨lock, hl⟩ := isSome_iff_exists.1 hsome
    have hrefused : (db.setVoteCells user e.prev).getLockBalance user ≠ none := by
      rw [hlock, hl]
      exact some_ne_none lock
    by_cases haccept : ∃ diff, result = some diff ∧ lock + diff ≤ aoa * m
    · obtain ⟨diff, rfl, hmax⟩ := haccept
      obtain ⟨db1, hvote⟩ := (vote_accepted_iff hs hchange).2 ⟨lock, hl, hmax⟩
      refine ⟨true, _, hvote, ?_⟩
      obtain ⟨_, _, _, lock', -, -, -, -, -, hshown, -⟩ := vote_accepted hs hvote
      rw [getLockBalance_shown, hshown, if_pos rfl]
      rfl
    · refine ⟨false, db.setVoteCells user e.prev, ?_, isSome_iff_ne_none.2 hrefused⟩
      unfold vote
      simp only [hchange]
      cases result with
      | none => rfl
      | some diff =>
        have hmax := Int.not_le.1 fun hle => haccept ⟨diff, rfl, hle⟩
        simp only [hlock, hl, if_pos hmax]

end GoAoa.State.StateDB

namespace GoAoa.Core

open State State.StateDB VM Semantics

section Reach

variable {g : Growth} {ep : Bool} {E : EVM} {enc : InfoEncoder} {msg : Message}
  {gp gas : Nat} {db : StateDB} {action : Action} {G : OpPred} {n : Nested} {c : CallArgs}

/-! ## On the way to the vote -/

theorem meets_execute (hadm : admission msg gp db = .ok action)
    (hgas : intrinsicGas msg.data action ≤ msg.gasLimit)
    (h : (semantics g ep).Meets G (transitionDb E enc msg gp) db) :
    (semantics g ep).Meets G (execute E enc msg action (gasForExecution msg action))
      (bought msg db) := by
  have hrest := (meets_bind.1 h).2 _ (run_preCheck msg gp db)
  have hst : checked msg gp db = bought msg db := by unfold checked; rw [hadm]
  rw [hadm, hst] at hrest
  have hexec := (meets_bind.1 hrest).2 _ (run_ensure _ _)
  rw [ensured_of_exist (exist_bought msg db)] at hexec
  rw [if_neg (by omega)] at hexec
  exact (meets_bind.1 hexec).1

theorem meets_call_of_execute (hv : isVote action = true)
    (h : (semantics g ep).Meets G (execute E enc msg action gas) db) :
    (semantics g ep).Meets G (call E (nestedCalls E) (callArgs msg action gas)) (called msg db) := by
  rw [execute_call (calls_of_isVote hv)] at h
  have hnonce := (meets_bind.1 h).2 (view db, db) (run_call _)
  have hcallee := (meets_bind.1 hnonce).2 ((), numbered db msg.sender) (run_call _)
  have hcall := (meets_bind.1 hcallee).2 _ (run_callee _ _)
  exact (meets_bind.1 hcall).1

theorem meets_callBody_of_call (hpay : canPay (view db) c = true)
    (hgoes : (view db).exist c.addr = true ∨ (E.precompiled c.addr).isSome = true ∨ c.value ≠ 0)
    (h : (semantics g ep).Meets G (call E n c) db) :
    (semantics g ep).Meets G (callBody E n c) (ensured db.snapshot.2 c.addr) := by
  have hscope := (meets_bind.1 h).2 (view db, db) (run_call _)
  rw [if_pos hpay, meets_within] at hscope
  have hbody := (meets_bind.1 hscope).2 (view db.snapshot.2, db.snapshot.2) (run_call _)
  unfold ensured
  split at hbody
  · rename_i hexist
    rwa [if_pos hexist]
  · rename_i hexist
    rw [if_neg hexist]
    split at hbody
    · rename_i hskip
      simp only [Bool.and_eq_true, Option.isNone_iff_eq_none, beq_iff_eq] at hskip
      rcases hgoes with hgoes | hgoes | hgoes
      · exact absurd hgoes hexist
      · rw [hskip.1] at hgoes
        cases hgoes
      · exact absurd hskip.2 hgoes
    · exact (meets_bind.1 hbody).2 _ (run_call _)

theorem vote_of_callBody (hv : isVote c.action = true) (hne : c.votes ≠ [])
    (h : (semantics g ep).Meets G (callBody E n c) db) :
    G (.vote c.caller c.votes E.delegateList E.maxElectDelegate) db := by
  unfold callBody at h
  cases hact : c.action <;> rw [hact] at hv h <;> cases hv
  all_goals
    rw [if_neg hne] at h
    exact meets_call.1 (meets_bind.1 h).1

/-! ## Votes of transactions -/

/-- `Vote` returns, and the account that votes has a lock balance. -/
def VotesWell (g : Growth) : OpPred
  | .vote user votes delegateList m, db => ∃ ok db', db.vote g m delegateList user votes =
      some (ok, db') ∧ (db'.getLockBalance user).isSome = true
  | _, _ => True

theorem delegateList_of_isVote (P : ProcessEnv) (ctx : BlockContext)
    (hact : Action.ofCode msg.action = some action) (hv : isVote action = true) :
    (newEVM P ctx msg).delegateList = some P.delegatePoll := by
  unfold Action.ofCode at hact
  unfold newEVM
  split at hact <;> cases hact <;> cases hv
  all_goals
    rename_i hcode
    simp [hcode]

theorem shown_voting (msg : Message) (db : StateDB) :
    ∃ x s, (ensured (called msg (bought msg db)).snapshot.2 msg.callee).shown msg.sender =
      some (x, s) ∧ x.lockBalance = (reading db msg.sender).lockBalance ∧
      x.voteList = (reading db msg.sender).voteList :=
  have h : (called msg (bought msg db)).snapshot.2.shown msg.sender = _ := shown_called msg db
  ⟨_, _, shown_ensured_of_some h msg.callee, rfl, rfl⟩

/-- **When the votes of a transaction return.** A transaction that comes to its vote executes it
without a panic, and leaves the sender with a lock balance, exactly if the account of the sender
had one before the transaction. -/
theorem votes_well_iff {P : ProcessEnv} {ctx : BlockContext} {L : Ledger}
    (hreach : ReachesVote (newEVM P ctx msg) msg L.gp action L.state)
    (hwf : ∀ v ∈ msg.vote, v.candidate.isSome = true) :
    (P.semantics ctx).Meets (VotesWell P.growth)
        (transitionDb (newEVM P ctx msg) P.encodeInfo msg L.gp) L.state ↔
      ((L.state.getStateObject msg.sender).bind fun o => o.data.lockBalance).isSome = true := by
  obtain ⟨hact, -⟩ := admission_ok hreach.admitted
  have hdl := delegateList_of_isVote P ctx hact hreach.isVote
  have hlock : (reading L.state msg.sender).lockBalance =
      (L.state.getStateObject msg.sender).bind fun o => o.data.lockBalance := by
    unfold reading StateDB.shown
    cases L.state.getStateObject msg.sender <;> rfl
  rw [← hlock]
  obtain ⟨x, s, hshown, hx, -⟩ := shown_voting msg L.state
  have hiff := fun m => @vote_well_iff P.growth _ _ _ m P.delegatePoll _ _ hshown hwf
  rw [hx] at hiff
  constructor
  · intro hmeets
    have hcall := meets_call_of_execute hreach.isVote
      (meets_execute hreach.admitted hreach.paysGas hmeets)
    have hvote := vote_of_callBody hreach.isVote hreach.votes
      (meets_callBody_of_call hreach.canPay hreach.goes hcall)
    rw [hdl] at hvote
    exact (hiff _).1 hvote
  · intro hsome
    have hwell : ∀ t, t.shown msg.sender =
        (called msg (bought msg L.state)).shown msg.sender →
        VotesWell P.growth (.vote msg.sender msg.vote (newEVM P ctx msg).delegateList
          (newEVM P ctx msg).maxElectDelegate) t := by
      intro t ht
      rw [shown_called] at ht
      rw [hdl]
      exact (vote_well_iff ht hwf).2 hsome
    have hdoes : (P.semantics ctx).Does _
        (transitionDb (newEVM P ctx msg) P.encodeInfo msg L.gp) L.state fun _ _ => True :=
      does_transitionDb (protected_none L.state) False.elim (fun _ => ⟨id, trivial⟩)
        fun _ _ => votable_of_shown hwell
    exact hdoes.meets.mono fun o t hg => by
      cases o with
      | vote => exact hg
      | _ => trivial

end Reach

/-! ## A vote by a new account -/

def signedEnv : ProcessEnv := { smallEnv with sender := fun tx => some (BitVec.ofNat 160 tx.r) }

def fundTx : Transaction :=
  { smallTx with action := 0, vote := none, recipient := some 8, amount := 60000, r := 1 }

theorem votes_well_smallVote :
    ReachesVote (newEVM signedEnv smallContext smallVote) smallVote smallStart.gp .addVote
        smallStart.state ∧
      (semantics doubling true).Meets (VotesWell doubling) (transitionDb
        (newEVM signedEnv smallContext smallVote) signedEnv.encodeInfo smallVote smallStart.gp)
        smallStart.state := by
  have hreach : ReachesVote (newEVM signedEnv smallContext smallVote) smallVote smallStart.gp .addVote
      smallStart.state :=
    ⟨by rfl, rfl, by decide, by decide +kernel, .inl (by decide +kernel), by decide⟩
  exact ⟨hreach, (votes_well_iff hreach (by decide)).2 (by decide +kernel)⟩

/-- Address 8 first comes into existence, and then votes: its vote panics. -/
theorem not_votes_well_new_account :
    ∃ receipts L msg, processTxs signedEnv smallContext 0 0 [fundTx] smallStart =
        some (.ok receipts, L) ∧
      asMessage signedEnv { smallTx with r := 8 } = some msg ∧
      ReachesVote (newEVM signedEnv smallContext msg) msg L.gp .addVote L.state ∧
      (∀ v ∈ msg.vote, v.candidate.isSome = true) ∧
      applyTransaction signedEnv smallContext { smallTx with r := 8 } (L.prepare 0 0 1) = none := by
  let msg : Message := { smallVote with sender := 8 }
  have hrun : (processTxs signedEnv smallContext 0 0 [fundTx] smallStart).map (fun r =>
      ((r.1.toOption.isSome, (admission msg r.2.gp r.2.state).toOption),
        canPay (view (called msg (bought msg r.2.state))) ⟨msg.sender, msg.callee, msg.data,
          gasForExecution msg .addVote, .addVote, msg.amount, msg.vote, msg.asset, false⟩,
        (view (called msg (bought msg r.2.state))).exist msg.callee,
        (applyTransaction signedEnv smallContext { smallTx with r := 8 }
          (r.2.prepare 0 0 1)).isNone)) =
      some ((true, some .addVote), true, true, true) := by decide +kernel
  obtain ⟨⟨res, L⟩, hr, hfirst, hrest⟩ := map_mk_eq_some.1 hrun
  obtain ⟨hok, hadm⟩ := Prod.mk.inj hfirst
  obtain ⟨hpay, hrest⟩ := Prod.mk.inj hrest
  obtain ⟨hgoes, hnone⟩ := Prod.mk.inj hrest
  have hadmitted : admission msg L.gp L.state = .ok .addVote := by
    cases h : admission msg L.gp L.state with
    | error => rw [h] at hadm; cases hadm
    | ok => rw [h] at hadm; cases hadm; rfl
  cases res with
  | error => cases hok
  | ok receipts =>
    exact ⟨receipts, L, msg, hr, rfl, ⟨hadmitted, rfl, by decide, hpay, .inl hgoes, by decide⟩,
      by decide, Option.isNone_iff_eq_none.1 hnone⟩

end GoAoa.Core
