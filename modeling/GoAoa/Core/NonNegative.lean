import GoAoa.Core.Admission

/-!
# Balances are not negative

Every call of the virtual machine but a vote leaves balances, lock balances and asset balances
non-negative, and so does taking it back. A vote locks an amount that is computed from the list,
while the amount that was checked is the value of the transaction.
-/

namespace GoAoa.Core

open Option Edit State State.StateDB VM Semantics

def Solvent (d : Account) : Prop :=
  0 ≤ d.balance ∧ 0 ≤ d.lockBalance.getD 0 ∧ d.assetList.Nonneg

/-- Every balance, lock balance and asset balance is non-negative. -/
def NonNegative (db : StateDB) : Prop := ∀ a o, db.getStateObject a = some o → Solvent o.data

abbrev SolventShown : Address → Option Shown → Prop := Shows fun _ => Solvent

section

variable {T : Trie} {db db' : StateDB} {a : Address} {g : Growth} {ep : Bool}

theorem NonNegative.holds (h : NonNegative db) : Holds db.trie SolventShown db := by
  refine ⟨rfl, fun a d s hx => ?_⟩
  obtain ⟨o, ho, heq⟩ := shown_eq_some db a hx
  cases heq
  exact h a o ho

theorem NonNegative.of_holds (h : Holds T SolventShown db) : NonNegative db := by
  intro a o ho
  exact h.shown a _ _ (shown_of_get db a ho)

theorem solvent_decode (s : StoredAccount) : Solvent s.decode :=
  ⟨Int.natCast_nonneg _, Int.natCast_nonneg _, s.nonneg⟩

theorem solvent_blank {balance : Int} (h : 0 ≤ balance) :
    Solvent { Account.blank with balance := balance } :=
  ⟨h, Int.le_refl 0, Assets.Nonneg.empty⟩

theorem solventShown_stored (x : Option StoredAccount) :
    SolventShown a (x.map fun s => (s.decode, false)) :=
  shows_stored fun s _ => solvent_decode s

def WriteSound : Write → Prop
  | .field (.balance v) => 0 ≤ v
  | .field (.lockBalance v) => 0 ≤ v
  | .addAsset x => 0 ≤ x.balance
  | .subAsset x => 0 ≤ x.balance
  | _ => True

theorem solvent_apply {o : StateObject} {w : Write} (ho : Solvent o.data) (hw : WriteSound w) :
    Solvent (w.apply o).data := by
  obtain ⟨hb, hl, ha⟩ := ho
  cases w with
  | field f =>
    cases f with
    | balance => exact ⟨hw, hl, ha⟩
    | lockBalance => exact ⟨hb, hw, ha⟩
    | _ => exact ⟨hb, hl, ha⟩
  | addAsset => exact ⟨hb, hl, ha.addAsset hw⟩
  | subAsset x =>
    refine ⟨hb, hl, ?_⟩
    show ((o.data.assetList.subAsset x).getD o.data.assetList).Nonneg
    cases hs : o.data.assetList.subAsset x with
    | none => exact ha
    | some => exact ha.subAsset hs
  | touch => exact ⟨hb, hl, ha⟩
  | suicide => exact ⟨Int.le_refl 0, hl, ha⟩

theorem restores_entry {o : StateObject} {w : Write} (ho : Solvent o.data) (hw : WriteSound w) :
    Restores T SolventShown (w.entry a o) := by
  obtain ⟨hb, hl, -⟩ := ho
  cases w with
  | field f =>
    intro d s hd
    obtain ⟨hb', hl', ha'⟩ := hd d s rfl
    cases f with
    | balance => exact shows_some ⟨hb, hl', ha'⟩
    | lockBalance => exact shows_some ⟨hb', hl, ha'⟩
    | _ => exact shows_some ⟨hb', hl', ha'⟩
  | addAsset | subAsset =>
    intro o' ho'
    exact shows_some (solvent_apply (ho' _ _ rfl) hw)
  | touch => trivial
  | suicide =>
    intro d s hd
    obtain ⟨-, hl', ha'⟩ := hd d s rfl
    exact shows_some ⟨hb, hl', ha'⟩

section

variable (h : Holds T SolventShown db)
include h

theorem solvent_edit {f : Writer} (hw : ∀ w, f (db.getOrNewStateObject a).2 = some w →
      Solvent (db.getOrNewStateObject a).2.data → WriteSound w) :
    Carries T SolventShown db (db.edit a f) := by
  refine h.edit (fun _ => ⟨solventShown_stored _, ?_⟩) fun w hf hPo => ?_
  · exact shows_some (solvent_blank (Int.le_refl 0))
  · have ho := hPo _ _ rfl
    exact ⟨shows_some (solvent_apply ho (hw w hf ho)), restores_entry ho (hw w hf ho)⟩

theorem solvent_balance (a : Address) : 0 ≤ (view db).getBalance a := by
  rw [view_balance]
  cases hs : db.shown a with
  | none => exact Int.le_refl 0
  | some x => exact (h.shown a x.1 x.2 hs).1

theorem solvent_subBalance {amount : Int} (ha : amount ≤ (view db).getBalance a) :
    Carries T SolventShown db (db.subBalance a amount) := by
  refine solvent_edit h fun w hf _ => ?_
  split at hf
  · cases hf
  · cases hf
    show 0 ≤ (db.getOrNewStateObject a).2.data.balance - amount
    rw [balance_getOrNew]
    omega

end

/-! ## Votes -/

/-- An accepted vote is covered by the balance, or by the lock. -/
def Covered (g : Growth) : OpPred
  | .vote user votes dl m, db => ∀ d e diff, dl = some d →
      changeVoteList g d votes (start (db.getVoteList user)) 0 = some (e, some diff) →
      (db.getLockBalance user).getD 0 + diff ≤ aoa * m →
      diff ≤ (view db).getBalance user ∧ 0 ≤ (db.getLockBalance user).getD 0 + diff
  | _, _ => True

theorem balance_setVoteCells (db : StateDB) (a : Address) (cells : Slice Address) :
    (view (db.setVoteCells a cells)).getBalance a = (view db).getBalance a := by
  rw [view_balance, view_balance, shown_setVoteCells, if_pos rfl]
  cases db.shown a <;> rfl

theorem lock_setVoteCells (db : StateDB) (a : Address) (cells : Slice Address) :
    (db.setVoteCells a cells).getLockBalance a = db.getLockBalance a := by
  rw [getLockBalance_shown, getLockBalance_shown, shown_setVoteCells, if_pos rfl]
  cases db.shown a <;> rfl

/-- The lock balance `AddLockBalance` starts from in a vote is the one of before. -/
theorem lock_subBalance {diff l : Int}
    (h : ((db.subBalance a diff).getOrNewStateObject a).2.data.lockBalance = some l) :
    db.getLockBalance a = some l := by
  have hsame : (reading (db.subBalance a diff) a).lockBalance = (reading db a).lockBalance :=
    reading_edit_of_eq db a a (·.lockBalance) fun o w hf => by split at hf <;> cases hf; rfl
  rw [reading_getOrNew, hsame, reading] at h
  rw [getLockBalance_shown]
  cases hs : db.shown a with
  | none => rw [hs] at h; cases h
  | some => rw [hs] at h; exact h

theorem solvent_vote {user : Address} {votes : List Vote} {dl : Option (List Address)} {m : Int}
    {ok : Bool} (hc : Covered g (.vote user votes dl m) db) (h : Holds T SolventShown db)
    (hx : db.vote g m dl user votes = some (ok, db')) :
    Carries T SolventShown db db' := by
  obtain ⟨d, e, result, rfl, hchange, hcases⟩ := vote_cases hx
  have hcells : Carries T SolventShown db (db.setVoteCells user e.prev) :=
    h.setVoteCells fun d s _ hd => shows_some (hd d s rfl)
  rcases hcases with ⟨-, rfl⟩ | ⟨-, diff, lock, db1, rfl, hlock, hmax, hadd, rfl⟩
  · exact hcells
  · rw [lock_setVoteCells] at hlock
    obtain ⟨hbal, hpos⟩ := hc d e diff rfl hchange (by rw [hlock]; exact hmax)
    rw [hlock] at hpos
    have hbal' : diff ≤ (view (db.setVoteCells user e.prev)).getBalance user := by
      rw [balance_setVoteCells]
      exact hbal
    have hsub := solvent_subBalance hcells.1 hbal'
    have hadd' : Carries T SolventShown ((db.setVoteCells user e.prev).subBalance user diff) db1 := by
      unfold StateDB.addLockBalance at hadd
      split at hadd
      · cases hadd
        refine solvent_edit hsub.1 fun w hf _ => ?_
        split at hf
        · cases hf; trivial
        · cases hf
      · split at hadd
        · cases hadd
        · rename_i l hl
          cases hadd
          refine solvent_edit hsub.1 fun w hf _ => ?_
          cases hf
          have hll := lock_subBalance hl
          rw [lock_setVoteCells, hlock] at hll
          cases hll
          exact hpos
    have hset := solvent_edit (a := user) (f := fun _ => some (.field (.voteList e.cur))) hadd'.1
      fun w hf _ => by cases hf; trivial
    exact ⟨hset.1, hcells.2.trans (hsub.2.trans (hadd'.2.trans hset.2))⟩

/-! ## The machine -/

theorem solvent_exec {V : Address → Prop} {o : Op} {x : Ans o} (h : Holds T SolventShown db)
    (hg : Guard V (Covered g) o db) (hx : exec g o db = some (x, db')) :
    Carries T SolventShown db db' := by
  cases executed hx with
  | idle => exact ⟨h, .refl db⟩
  | refund | log => exact ⟨h.of_objects rfl rfl, .of_append rfl trivial⟩
  | @account a =>
    refine h.create (fun _ => solventShown_stored _) (shows_some (solvent_blank ?_))
    have hb := solvent_balance h a
    rw [view_balance, StateDB.shown, map_map] at hb
    exact hb
  | object =>
    exact h.create (fun _ => solventShown_stored _)
      (shows_some (solvent_blank (Int.le_refl 0)))
  | edit writes =>
    refine solvent_edit h fun w hf ho => ?_
    cases writes _ w hf with
    | addBalance =>
      refine Int.add_nonneg ho.1 ?_
      rcases hg with hpos | ⟨b, rfl⟩
      · exact hpos
      · exact solvent_balance h b
    | subBalance =>
      have hle := hg.2
      rw [← balance_getOrNew] at hle
      exact Int.sub_nonneg_of_le hle
    | addAsset | subAsset => exact hg
    | _ => trivial
  | @describe a data ob get =>
    have hPo := h.shown a
    rw [shown_of_get db a get] at hPo
    have ho := hPo _ _ rfl
    exact ⟨h.write (shows_some ho), .of_journal rfl⟩
  | vote run => exact solvent_vote hg h run

theorem nonNegative_steps {V : Address → Prop}
    (hs : (semantics g ep).Steps (Guard V (Covered g)) db db') (h : NonNegative db) :
    NonNegative db' :=
  .of_holds ((keeps_of_exec solvent_exec).steps hs h.holds).1

/-! ## The transition -/

/-- A vote that the transaction comes to and that would be accepted is covered by what the sender
has left after buying the gas, or by its lock if it takes votes back. -/
def VoteCovered (g : Growth) (E : EVM) (msg : Message) (gp : Nat) (db : StateDB) : Prop :=
  ∀ action d e diff, ReachesVote E msg gp action db → E.delegateList = some d →
    changeVoteList g d msg.vote (start (db.getVoteList msg.sender)) 0 = some (e, some diff) →
    (db.getLockBalance msg.sender).getD 0 + diff ≤ aoa * E.maxElectDelegate →
    diff ≤ (view db).getBalance msg.sender - msg.gasCost ∧
      0 ≤ (db.getLockBalance msg.sender).getD 0 + diff

theorem covered_of_shown {user : Address} {votes : List Vote} {dl : Option (List Address)} {m : Int}
    {n : Nat} {cost : Int} {s : Bool} (hs : db'.shown user = some ({ reading db user with
      balance := (reading db user).balance - cost, nonce := n }, s))
    (h : ∀ d e diff, dl = some d →
      changeVoteList g d votes (start (db.getVoteList user)) 0 = some (e, some diff) →
      (db.getLockBalance user).getD 0 + diff ≤ aoa * m →
      diff ≤ (view db).getBalance user - cost ∧ 0 ≤ (db.getLockBalance user).getD 0 + diff) :
    Covered g (.vote user votes dl m) db' := by
  have hr : reading db' user = { reading db user with
      balance := (reading db user).balance - cost, nonce := n } := by rw [reading, hs]; rfl
  obtain ⟨-, hb, -, -, -, hl, hv⟩ := reads db' user
  obtain ⟨-, hb₀, -, -, -, hl₀, hv₀⟩ := reads db user
  rw [hr] at hb hl hv
  have hlist : db'.getVoteList user = db.getVoteList user := hv.trans hv₀.symm
  have hlock : (db'.getLockBalance user).getD 0 = (db.getLockBalance user).getD 0 := hl.trans hl₀.symm
  have hbal : (view db').getBalance user = (view db).getBalance user - cost := by rw [hb, hb₀]
  intro d e diff hd hchange hmax
  rw [hlist] at hchange
  rw [hlock] at hmax
  rw [hlock, hbal]
  exact h d e diff hd hchange hmax

variable {E : EVM} {enc : InfoEncoder} {msg : Message} {gp : Nat}

/-- **Non-negative balances.** From a state without debts `TransitionDb` leads to a state without
debts, if the votes the message comes to are covered. -/
theorem transitionDb_nonNegative (E : EVM) (enc : InfoEncoder) (msg : Message)
    (gp gp' : Nat) (db db' : StateDB) (res : Except TxErr (Nat × Bool)) (hdb : NonNegative db)
    (hvote : VoteCovered g E msg gp db)
    (hrun : (semantics g ep).run (transitionDb E enc msg gp) db = some ((gp', res), db')) :
    NonNegative db' := by
  have hshown := shown_called msg db
  refine nonNegative_steps ((does_transitionDb (protected_none db) False.elim
    (fun _ => ⟨id, trivial⟩) (fun action hreach => ?_)).steps hrun) hdb
  exact votable_of_shown fun t ht => covered_of_shown (ht.trans hshown)
    fun d e diff => hvote action d e diff hreach

end

theorem nonNegative_new (trie : Trie) : NonNegative (.new trie) := by
  intro a o ho
  obtain ⟨s, -, rfl⟩ := map_eq_some_iff.1 ho
  exact solvent_decode s

theorem transitionDb_nonNegative_small :
    ∃ r, (semantics doubling true).run (transitionDb smallEvm (fun _ _ => []) smallVote 100000)
        (.new (smallTrie (2 * 10 ^ 18))) = some r ∧ NonNegative r.2 := by
  refine exists_of_check (fun _ => True) (by decide +kernel) fun r hr _ =>
    transitionDb_nonNegative smallEvm (fun _ _ => []) smallVote 100000 r.1.1 _ r.2 r.1.2
      (nonNegative_new _) ?_ hr
  intro action d e diff _ hd hchange _
  cases hd
  have hdiff : (changeVoteList doubling [7] smallVote.vote (start
      ((StateDB.new (smallTrie (2 * 10 ^ 18))).getVoteList 1)) 0).map Prod.snd =
        some (some aoa) := by decide +kernel
  rw [show changeVoteList doubling [7] smallVote.vote (start
      ((StateDB.new (smallTrie (2 * 10 ^ 18))).getVoteList 1)) 0 = _ from hchange] at hdiff
  obtain rfl := some.inj (some.inj hdiff)
  decide +kernel

/-- **The slip.** An account that has the gas and nothing more votes with a transaction of value
zero. The value is checked, one AOA is locked, and the balance is negative. -/
theorem not_transitionDb_nonNegative : NonNegative (.new (smallTrie 30000)) ∧
      ∃ r, (semantics doubling true).run (transitionDb smallEvm (fun _ _ => []) smallVote 100000)
        (.new (smallTrie 30000)) = some r ∧ r.1.2 = .ok (25000, false) ∧
        (view r.2).getBalance 1 = 5000 - 10 ^ 18 ∧ ¬ NonNegative r.2 := by
  refine ⟨nonNegative_new _, ?_⟩
  refine exists_of_check (fun r => r.1.2 = .ok (25000, false) ∧
      (view r.2).getBalance 1 = 5000 - 10 ^ 18) (by decide +kernel)
    fun r _ ⟨hres, hbal⟩ => ⟨hres, hbal, fun hnn => ?_⟩
  have hpos := solvent_balance hnn.holds 1
  rw [hbal] at hpos
  revert hpos
  decide

end GoAoa.Core
