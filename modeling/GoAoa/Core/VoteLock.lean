import GoAoa.Core.Blocks
import GoAoa.Core.VoteCall

/-!
# The lock of votes

An account's vote list has no duplicates, no more entries than delegates are elected, and locks
one AOA for each entry. Votes keep this when they are accepted, and new votes also when they are
taken back. A withdrawal that is taken back does not give back the list: it was made in the array
of the stored list. So the invariant holds on every chain whose withdrawals go to accounts that
cannot revert.
-/

namespace GoAoa.Core

open State State.StateDB VM Semantics Option Account

/-- One AOA is locked for each entry of a list of at most `m` different delegates. -/
def VoteLocked (m : Int) (d : Account) : Prop :=
  d.voteList.view.Nodup ∧ (d.voteList.view.length : Int) ≤ m ∧
    d.lockBalance.getD 0 = d.voteList.view.length * aoa

section

variable {T : Trie} {m : Int} {d d' : Account} {db db' : StateDB}
  {g : Growth} {ep : Bool} {E : EVM} {user : Address} {s : Bool}

theorem VoteLocked.congr (h : VoteLocked m d) (hlist : d'.voteList.view = d.voteList.view)
    (hlock : d'.lockBalance.getD 0 = d.lockBalance.getD 0) : VoteLocked m d' := by
  unfold VoteLocked at *
  rwa [hlist, hlock]

theorem voteLocked_blank (hm : 0 ≤ m) (balance : Int) :
    VoteLocked m { blank with balance := balance } :=
  ⟨by simp [blank], by simpa [blank] using hm, by simp [blank]⟩

theorem structural_voteLocked (hm : 0 ≤ m) (hT : ∀ a s, T a = some s → VoteLocked m s.decode) :
    Structural (fun _ => False) T (Shows fun _ => VoteLocked m) where
  money h _ _ _ _ := shows_some (R := fun _ => VoteLocked m) ((h _ _ rfl).congr rfl rfl)
  nonce h _ := shows_some (R := fun _ => VoteLocked m) ((h _ _ rfl).congr rfl rfl)
  nonce_pos hV := hV.elim
  code _ h _ _ := shows_some (R := fun _ => VoteLocked m) ((h _ _ rfl).congr rfl rfl)
  blank _ balance := shows_some (R := fun _ => VoteLocked m) (voteLocked_blank hm balance)
  missing hV := hV.elim
  back _ := shows_stored (R := fun _ => VoteLocked m) fun s hs => hT _ s hs

/-! ## Votes -/

variable {votes : List Vote}

theorem voteLocked_accepted {delegates : List Address} {e : Edit Address}
    {diff lock : Int} (h : VoteLocked m d) (hl : d.lockBalance = some lock)
    (hchange : changeVoteList g delegates votes (Edit.start d.voteList) 0 = some (e, some diff))
    (hmax : lock + diff ≤ aoa * m) (balance : Int) :
    VoteLocked m { d with
      balance := balance, lockBalance := some (lock + diff), voteList := e.cur } := by
  obtain ⟨hnodup, -, hlock⟩ := h
  obtain ⟨ms, -, hcast, rfl⟩ := changeVoteList_cast hchange
  have hcast : Ballot.cast (· ∈ delegates) ms d.voteList.view = some e.cur.view := hcast
  have hlen := Ballot.length_cast hcast
  have hlock : lock = d.voteList.view.length * aoa := by rw [hl] at hlock; exact hlock
  have hsum : lock + (0 + Ballot.total ms) * aoa = e.cur.view.length * aoa := by
    rw [hlock, hlen, Int.zero_add, Int.add_mul]
  refine ⟨Ballot.nodup_cast hcast hnodup, ?_, hsum⟩
  rw [hsum, Int.mul_comm] at hmax
  exact Int.le_of_mul_le_mul_left hmax (by decide)

/-- Votes that only add, by an account that is there. -/
def AddsVotes (m : Int) : OpPred
  | .vote user votes _ m', db =>
    m' = m ∧ votes ≠ [] ∧ (∀ v ∈ votes, v.operation ≠ 1) ∧ (db.shown user).isSome
  | _, _ => True

/-- Votes that only add keep the lock, and so does taking them back. -/
theorem voteLocked_addVotes {dl : Option (List Address)} {m' : Int} {ok : Bool}
    (hW : AddsVotes m (.vote user votes dl m') db) (h : Holds T (Shows fun _ => VoteLocked m) db)
    (hx : db.vote g m' dl user votes = some (ok, db')) :
    Carries T (Shows fun _ => VoteLocked m) db db' := by
  obtain ⟨rfl, hne, hadd, hthere⟩ := hW
  obtain ⟨⟨d, s⟩, hs⟩ := isSome_iff_exists.1 hthere
  have hd := h.shown user d s hs
  cases ok with
  | false =>
    obtain ⟨delegates, e, result, -, hchange, ⟨-, rfl⟩ | ⟨hok, -⟩⟩ := vote_cases hx
    · rw [getVoteList_shown, hs] at hchange
      have hview := (changeVoteList_adds hadd (Nat.le_refl _) hchange).1
      refine h.setVoteCells fun d' s' hs' _ => ?_
      cases hs.symm.trans hs'
      exact shows_some (hd.congr hview rfl)
    · cases hok
  | true =>
    obtain ⟨delegates, e, diff, lock, rfl, hchange, hl, hmax, htrie, hshown, hjournal⟩ :=
      vote_accepted hs hx
    obtain ⟨hview, hsum⟩ := changeVoteList_adds hadd (Nat.le_refl _) hchange
    have hdiff : diff ≠ 0 := by
      rw [hsum diff rfl]
      have hpos := List.length_pos_iff.2 hne
      exact Int.mul_ne_zero (by omega) (by decide)
    have hnew := voteLocked_accepted hd hl hchange hmax (d.balance - diff)
    refine ⟨h.update htrie (shows_some hnew) hshown, _, hjournal hdiff, ?_⟩
    -- the three writes are taken back together: the list and its lock are those of before
    refine Restoring.fields [.voteList e.prev, .lockBalance lock, .balance d.balance]
      fun d' s' _ => shows_some (hd.congr hview ?_)
    rw [hl]
    rfl

/-! ## Transitions -/

abbrev Locked (m : Int) : StateDB → Prop := Everywhere fun _ => VoteLocked m

theorem locked_steps (hm : 0 ≤ m) (h : Locked m db)
    (hs : (semantics g ep).Steps (Guard (fun _ => False) (AddsVotes m)) db db') : Locked m db' :=
  everywhere_steps (structural_voteLocked hm fun _ _ hs => h.stored hs) voteLocked_addVotes h hs

theorem locked_finalise {b : Bool} (h : Locked m db) (hf : db.finalise b = some db') :
    Locked m db' :=
  h.finalise (fun hd henc =>
    hd.congr (decode_encode henc).2.2.1 (decode_encode henc).2.1) hf

theorem locked_vote {dl : Option (List Address)} (h : Locked m db)
    (hs : db.shown user = some (d, s)) (hx : db.vote g m dl user votes = some (true, db')) :
    Locked m db' := by
  obtain ⟨delegates, e, diff, lock, rfl, hchange, hl, hmax, htrie, hshown, -⟩ := vote_accepted hs hx
  have hd := h.shown user d s hs
  refine h.of_holds (h.holds.update htrie (shows_some
    (voteLocked_accepted hd hl hchange hmax _)) hshown) (.vote hx)

variable {enc : InfoEncoder} {msg : Message} {gp gp' : Nat} {x : Nat × Bool}

theorem locked_transition_plain {action : Action} (hm : 0 ≤ m) (hE : E.maxElectDelegate = m)
    (hact : Action.ofCode msg.action = some action) (hv : isVote action = true)
    (hplain : Plain E db msg.callee) (h : Locked m db)
    (hrun : (semantics g ep).run (transitionDb E enc msg gp) db = some ((gp', .ok x), db')) :
    Locked m db' := by
  obtain ⟨action', reply, db1, hadm, -, hexec, herr, hsettle, -⟩ := transition_ok hrun
  obtain ⟨hact', -, hpay, -⟩ := admission_ok hadm
  cases hact.symm.trans hact'
  have hprot := protected_none db
  have hbought : (semantics g ep).Steps (Guard (fun _ => False) (AddsVotes m)) db (bought msg db) :=
    steps_bought hprot hpay
  have hcalled : (semantics g ep).Steps _ db (called msg (bought msg db)) :=
    hbought.trans (steps_called (hprot.steps hbought).1 False.elim)
  have hsnap := Steps.keep hcalled (.refl _)
  have hmade := hsnap.trans (steps_ensured (hprot.steps hsnap).1 msg.callee)
  have hs := shown_called msg db
  have hplain' : Plain E (bought msg db) msg.callee :=
    ⟨(code_bought msg db _).trans hplain.1, hplain.2⟩
  obtain ⟨_, heq, hend⟩ := execute_vote_cases hv hplain' hs hexec
  cases heq
  have hdb1 : Locked m db1 := by
    generalize herr' : reply.err = err at hend herr
    cases hend with
    | insufficient => cases herr
    | skipped => exact locked_steps hm h hsnap
    | empty => exact locked_steps hm h hmade
    | refused => cases herr
    | accepted _ _ hvote =>
      rw [hE] at hvote
      have hs' : (called msg (bought msg db)).snapshot.2.shown msg.sender = _ := hs
      exact locked_vote (locked_steps hm h hmade) (shown_ensured_of_some hs' msg.callee) hvote
  exact locked_steps hm hdb1 ((keeping_settle msg _ reply db1 (protected_none db1)).steps hsettle)

theorem locked_transition_adds (hm : 0 ≤ m) (hE : E.maxElectDelegate = m)
    (hadd : ∀ v ∈ msg.vote, v.operation ≠ 1) (h : Locked m db) {res : Except TxErr (Nat × Bool)}
    (hrun : (semantics g ep).run (transitionDb E enc msg gp) db = some ((gp', res), db')) :
    Locked m db' := by
  refine locked_steps hm h ((does_transitionDb (protected_none db) False.elim
    (fun _ => ⟨id, trivial⟩) (fun action hreach => ?_)).steps hrun)
  refine votable_of_shown fun t ht => ⟨hE, hreach.votes, hadd, ?_⟩
  rw [ht, shown_called]
  rfl

end

/-! ## Chains -/

section

variable {P : ProcessEnv} {L L' : Ledger}

/-- Withdrawals of votes are sent to accounts without code. -/
def WithdrawsPlainly (P : ProcessEnv) : ChainStep → Ledger → Prop
  | .transaction _ _ _ _ tx, L => ∀ msg, asMessage P tx = some msg →
      (∃ v ∈ msg.vote, v.operation = 1) →
      (view L.state).getCode msg.callee = [] ∧ P.precompiled msg.callee = none
  | .close .., _ => True

theorem isVote_of_mem {tx : Transaction} {msg : Message} {v : Vote}
    (hmsg : asMessage P tx = some msg) (hv : v ∈ msg.vote) :
    ∃ action, Action.ofCode msg.action = some action ∧ isVote action = true := by
  obtain ⟨vote, assetInfo, sender, -, hvote, rfl⟩ := asMessage_eq hmsg
  split at hvote
  · rename_i haction
    rcases haction with haction | haction
    · exact ⟨.addVote, congrArg Action.ofCode haction, rfl⟩
    · exact ⟨.subVote, congrArg Action.ofCode haction, rfl⟩
  · cases hvote
    cases hv

/-- **A step of the chain keeps the lists locked.** -/
theorem locked_chainStep (hm : 0 ≤ P.config.maxElectDelegate) {c : ChainStep}
    (hc : WithdrawsPlainly P c L) (h : Locked P.config.maxElectDelegate L.state)
    (hstep : chainStep P c L = some L') : Locked P.config.maxElectDelegate L'.state := by
  cases c with
  | transaction delegatePoll ctx blockHash i tx =>
    obtain ⟨receipt, happ⟩ := chainStep_transaction hstep
    obtain ⟨msg, gp, v, db, hmsg, hrun, -, hfin⟩ := applyTransaction_ok happ
    have hprep : Locked P.config.maxElectDelegate
        (L.prepare (P.txHash tx) blockHash i).state := ⟨h.objects, h.stored⟩
    refine locked_finalise ?_ hfin
    by_cases hw : ∃ v ∈ msg.vote, v.operation = 1
    · obtain ⟨v, hv, hop⟩ := hw
      obtain ⟨action, hact, hvote⟩ := isVote_of_mem hmsg hv
      refine locked_transition_plain hm rfl hact hvote ?_ hprep hrun
      exact hc msg hmsg ⟨v, hv, hop⟩
    · exact locked_transition_adds hm rfl (fun v hv hop => hw ⟨v, hv, hop⟩) hprep hrun
  | close ctx =>
    obtain ⟨state, delegates, hstate, -, rfl⟩ := chainStep_close hstep
    have hreward : Locked P.config.maxElectDelegate (accumulateRewards P ctx L.state) :=
      @locked_steps _ _ _ P.growth true hm h (.exec (o := .addBalance ..) (.refl _) (.inl (by omega)) rfl)
    exact .new fun a s hs => (locked_finalise hreward hstate).stored hs

/-- **The lock of votes.** From a genesis block without votes, in every state of a chain whose
withdrawals go to accounts without code, every list of votes has no duplicates, no more entries
than delegates are elected, and one AOA locked for each entry. -/
theorem voteLocked_of_plain_withdrawals (P : ProcessEnv) (hm : 0 ≤ P.config.maxElectDelegate)
    (trie : Trie) (delegates : DelegateState.DelegateTrie) (gasLimit : Nat)
    (hgenesis : ∀ a s, trie a = some s → s.voteList = [] ∧ s.lockBalance = 0)
    (steps : List ChainStep) (L : Ledger)
    (hplain : Run.Along (chainStep P) (WithdrawsPlainly P) steps (.genesis trie delegates gasLimit))
    (hrun : Run.exec (chainStep P) steps (.genesis trie delegates gasLimit) = some L) (a : Address)
    (o : StateObject) (ho : L.state.getStateObject a = some o) :
    VoteLocked P.config.maxElectDelegate o.data := by
  have hstart : Locked P.config.maxElectDelegate (Ledger.genesis trie delegates gasLimit).state := by
    refine .new fun b s hs => ?_
    obtain ⟨hlist, hlock⟩ := hgenesis b s hs
    refine (voteLocked_blank hm 0).congr ?_ ?_
    · simp [StoredAccount.decode, hlist, blank]
    · simp [StoredAccount.decode, hlock, blank]
  have hL := Run.invariant
    (fun c s s' hc hs hstep => locked_chainStep hm hc hs hstep) hplain hstart hrun
  exact hL.shown a o.data o.suicided (shown_of_get L.state a ho)

end

/-! ## Two votes and a withdrawal -/

/-- The small chain with a contract at address 5, which always reverts. -/
def revertingEnv : ProcessEnv :=
  { smallEnv with interp := fun _ _ _ => pure ⟨[], 0, some .executionReverted⟩ }

def revertingTrie : Trie :=
  fun a => if a = 5 then some { plainAccount 1 0 with code := [1] } else smallTrie (10 ^ 19) a

def twoDelegates : DelegateState.DelegateTrie :=
  ((∅ : DelegateState.DelegateTrie).insert 7 ⟨0, [], 0, false⟩).insert 8
    ⟨0, [], 0, false⟩

def twoVotes : ChainStep :=
  .transaction [7, 8] smallContext 0 0 { smallTx with vote := some [⟨some 7, 0⟩, ⟨some 8, 0⟩] }

/-- It withdraws its vote for delegate 7 with a transaction to `recipient`. -/
def withdrawal (recipient : Address) : ChainStep :=
  .transaction [7, 8] smallContext 0 1 { smallTx with
      accountNonce := 1, recipient := some recipient, action := 3, vote := some [⟨some 7, 1⟩] }

theorem revertingTrie_noVotes (a : Address) (s : StoredAccount) (h : revertingTrie a = some s) :
    s.voteList = [] ∧ s.lockBalance = 0 := by
  unfold revertingTrie smallTrie at h
  repeat' split at h
  all_goals cases h
  all_goals exact ⟨rfl, rfl⟩

/-- A withdrawal that is sent to an account without code. -/
theorem voteLocked_of_plain_withdrawals_two :
    ∃ L, Run.exec (chainStep revertingEnv) [twoVotes, withdrawal 2]
        (.genesis revertingTrie twoDelegates 100000) = some L ∧
      ∀ a o, L.state.getStateObject a = some o → VoteLocked 101 o.data := by
  refine exists_of_check (fun _ => True) (by decide +kernel) fun L hL _ =>
    voteLocked_of_plain_withdrawals revertingEnv (by decide) revertingTrie twoDelegates 100000
      revertingTrie_noVotes [twoVotes, withdrawal 2] L
      ⟨?_, fun L1 h1 => ⟨?_, fun _ _ => trivial⟩⟩ hL
  · intro msg hmsg hw
    cases hmsg
    revert hw
    decide
  · intro msg hmsg _
    cases hmsg
    exact ⟨of_check (fun L => (view L.state).getCode 2 = []) (by decide +kernel) h1, rfl⟩

/-- **The slip.** The withdrawal is sent to the contract that reverts. It has moved the entries of
the stored list, which is restored by its slice only, and the list has delegate 8 twice. -/
theorem not_voteLocked_reverted_withdrawal :
    (∀ a s, revertingTrie a = some s → s.voteList = [] ∧ s.lockBalance = 0) ∧
    ∃ L o, Run.exec (chainStep revertingEnv) [twoVotes, withdrawal 5]
        (.genesis revertingTrie twoDelegates 100000) = some L ∧
      L.state.getStateObject 1 = some o ∧ o.data.voteList.view = [8, 8] ∧
      ¬ VoteLocked 101 o.data := by
  refine ⟨revertingTrie_noVotes, ?_⟩
  have hrun : ((Run.exec (chainStep revertingEnv) [twoVotes, withdrawal 5]
      (.genesis revertingTrie twoDelegates 100000)).bind fun L => (L.state.getStateObject 1).map
        fun o => o.data.voteList.view) = some [8, 8] := by decide +kernel
  obtain ⟨L, hL, hrun⟩ := bind_eq_some_iff.1 hrun
  obtain ⟨o, ho, hview⟩ := map_eq_some_iff.1 hrun
  refine ⟨L, o, hL, ho, hview, fun hlocked => ?_⟩
  have hnodup := hlocked.1
  rw [hview] at hnodup
  exact absurd hnodup (by decide)

end GoAoa.Core
