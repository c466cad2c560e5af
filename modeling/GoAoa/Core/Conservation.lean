import GoAoa.Core.AssetInfo
import GoAoa.Core.Deletions
import GoAoa.Core.VoteSafety
import GoAoa.VM.Conservation

/-!
# AOA is neither made nor lost

The sum over all accounts of balance and lock balance, through a transaction and through a block.
Buying gas takes from it, and settling puts it back. Three things change the sum for good. A
transaction that fails once its gas is bought has paid for nothing. Code that leaves more gas than
was bought has the fee computed modulo 2^64. And `PublishAsset` replaces the account at the address
of the asset, with what it holds.
-/

namespace GoAoa.Core

open Option Function Run State State.StateDB VM Semantics

/-- A call of a transaction that destroys no account and whose nonces do not run over. -/
def quiet : Op → Bool
  | .suicide _ => false
  | .setNonce _ n => n != 0
  | _ => true

variable {msg : Message} {db db' : StateDB} {action : Action}

section Sums

variable {g : Growth} {ep : Bool} {E : EVM} {enc : InfoEncoder} {gp gas : Nat} {x : Option Address}
  {a : Address} {V : Address → Prop} {T : Trie} {r : Reply} {G : OpPred}
  {R : StateDB → StateDB → Prop} {μ : StateDB → Int}

/-! ## Stages of a transition -/

theorem supply_ensured (db : StateDB) (a : Address) : (ensured db a).supply x = db.supply x := by
  unfold ensured
  split
  · rfl
  · rename_i hne
    have hs := shown_of_absent db a hne
    have hnone : db.dropped x a = 0 := by cases x <;> exact amount_of_none hs
    rw [supply_createAccount, hnone, Int.sub_zero]

theorem supply_bought (msg : Message) (db : StateDB) :
    (bought msg db).supply none = db.supply none - msg.gasCost := by
  rw [bought, supply_subBalance, supply_ensured, if_pos rfl]

theorem supply_settled (E : EVM) (msg : Message) (r : Reply) (db : StateDB) :
    (settled E msg r db).supply none = db.supply none + (returned msg r db.refund * msg.gasPrice +
        u64 (msg.gasLimit - returned msg r db.refund) * msg.gasPrice) := by
  rw [settled, supply_addBalance, supply_addBalance, supply_ensured, if_pos rfl, if_pos rfl,
    Int.add_assoc]

theorem supply_called (msg : Message) (db : StateDB) : (called msg db).supply x = db.supply x := by
  have hn : (db.setNonce msg.sender (u64 ((view db).getNonce msg.sender + 1))).supply x =
      db.supply x := supply_congr fun _ _ => amount_setNonce _
  unfold called
  cases msg.recipient with
  | none => exact hn
  | some => rw [supply_ensured, hn]

theorem supply_published (E : EVM) (enc : InfoEncoder) (addr : Address)
    (ai : AssetInfo) (n : Int) (db : StateDB) :
    (published E enc addr ai n db).supply x = db.supply x -
      db.worth x (E.createAddress addr ((view db).getNonce addr)) +
        if x = some (E.createAddress addr ((view db).getNonce addr)) then n else 0 := by
  have hdata : ∀ t : StateDB, ∀ a data, (t.setAssetData a data).supply x = t.supply x :=
    fun t a data => supply_congr fun _ _ => amount_setAssetData data
  have hnum : (numbered db addr).supply x = db.supply x := supply_congr fun _ _ => amount_setNonce _
  have hworth : ∀ a, (numbered db addr).worth x a = db.worth x a :=
    fun a => combined_congr fun _ _ => congrFun (amount_setNonce _) a
  unfold published
  rw [supply_addAssetBalance, hdata, supply_createObject, hnum, hworth]

/-! ## The accounts on the way -/

section Tended

variable (h : Holds T (Tended x V T) db)
include h

theorem tended_ensured (a : Address) : Holds T (Tended x V T) (ensured db a) := by
  unfold ensured
  split
  · exact h
  · rename_i hne
    have hshown := h.shown a
    rw [shown_of_absent db a hne] at hshown
    exact (tended_exec (g := doubling) (o := .createAccount a) h hshown.2 rfl).1

theorem tended_addBalance (n : Int) : Holds T (Tended x V T) (db.addBalance a n) :=
  (tended_exec (g := doubling) (o := .addBalance a n) h trivial rfl).1

theorem tended_bought (msg : Message) : Holds T (Tended x V T) (bought msg db) :=
  (tended_exec (g := doubling) (o := .subBalance ..) (tended_ensured h msg.sender) trivial rfl).1

theorem tended_settled (E : EVM) (msg : Message) (r : Reply) :
    Holds T (Tended x V T) (settled E msg r db) :=
  tended_addBalance (tended_addBalance (tended_ensured h msg.sender) _) _

theorem tended_called (hn : u64 ((view db).getNonce msg.sender + 1) ≠ 0) :
    Holds T (Tended x V T) (called msg db) := by
  have hset := (tended_exec (g := doubling) (o := .setNonce msg.sender _) h
    (fun _ _ => Nat.pos_of_ne_zero hn) rfl).1
  unfold called
  cases msg.recipient with
  | none => exact hset
  | some a => exact tended_ensured hset a

theorem tended_createObject (id : Address) :
    Holds T (Tended x (fun a => V a ∧ a ≠ id) T) (db.createObject id) := by
  refine ⟨h.trie, fun a => ?_⟩
  rw [createObject, shown_write]
  by_cases ha : a = id
  · rw [if_pos ha]
    exact tended_blank (fun _ hV => hV.2 ha) 0
  · rw [if_neg ha]
    have hshown := h.shown a
    show Tended x _ T a (db.shown a)
    cases hs : db.shown a with
    | none =>
      rw [hs] at hshown
      exact ⟨hshown.1, fun hx hV => hshown.2 hx hV.1⟩
    | some =>
      rw [hs] at hshown
      refine ⟨hshown.1, hshown.2.1, fun hx => ⟨fun hV => (hshown.2.2 hx).1 hV.1, fun hV => ?_⟩⟩
      exact (hshown.2.2 hx).2 fun hVa => hV ⟨hVa, ha⟩

theorem tended_published {addr : Address} {ai : AssetInfo} {n : Int}
    (hpos : 0 ≤ n) (hn : u64 ((view db).getNonce addr + 1) ≠ 0) :
    ∃ V', Holds T (Tended x V' T) (published E enc addr ai n db) := by
  have hset := (tended_exec (g := doubling) (o := .setNonce addr _) h
    (fun _ _ => Nat.pos_of_ne_zero hn) rfl).1
  let id := E.createAddress addr ((view db).getNonce addr)
  have hobj := tended_createObject hset id
  have hdata := (tended_exec (g := doubling) (o := .setAssetData id (enc addr ai)) hobj trivial rfl).1
  exact ⟨_, (tended_exec (g := doubling) (o := .addAssetBalance addr id n) hdata hpos rfl).1⟩

end Tended

/-! ## Execution -/

/-- What the execution of an action may do beyond the guard: a vote is the sender's, and only a
publication replaces an object. -/
def Acts (sender : Address) (action : Action) : OpPred
  | .vote user .., _ => isVote action = true ∧ user = sender
  | .createObject _, _ => action = .publishAsset
  | _, _ => True

theorem meets_acts (hact : Action.ofCode msg.action = some action) :
    (semantics g ep).Meets (Guard (fun _ => False) (Acts msg.sender action))
      (transitionDb E enc msg gp) db := by
  refine (does_transitionDb (protected_none db)
    False.elim (fun hpub => ⟨id, some.inj (hact.symm.trans hpub)⟩) ?_).meets
  intro action' hreach
  cases hact.symm.trans (admission_ok hreach.admitted).1
  exact ⟨⟨hreach.isVote, rfl⟩, fun _ => ⟨hreach.isVote, rfl⟩⟩

def QuietActs (sender : Address) (action : Action) (o : Op) (db : StateDB) : Prop :=
  Guard (fun _ => False) (Acts sender action) o db ∧ quiet o = true

section

variable (hne : action ≠ .publishAsset)
include hne

variable (hV : isVote action = true → V msg.sender)
include hV

theorem tends_of_acts {o : Op} {t : StateDB} (hI : Holds T (Tended none V T) t)
    (hg : QuietActs msg.sender action o t) : Tends none V o t := by
  obtain ⟨hguard, hquiet⟩ := hg
  cases o with
  | suicide => cases hquiet
  | createAccount a =>
    intro _ hVa
    have hshown := hI.shown a
    have hzero := hguard.1
    rw [view_nonce] at hzero
    cases hs : t.shown a with
    | none =>
      rw [hs] at hshown
      exact hshown.2 rfl hVa
    | some y =>
      rw [hs] at hshown hzero
      have hpos := (hshown.2.2 rfl).1 hVa
      have hzero : y.1.nonce = 0 := hzero
      omega
  | createObject => exact absurd hguard.2 hne
  | setNonce => exact fun _ _ => Nat.pos_of_ne_zero (bne_iff_ne.1 hquiet)
  | vote =>
    obtain ⟨hv, rfl⟩ := hguard
    exact fun _ => hV hv
  | addAssetBalance => exact hguard
  | subAssetBalance => exact hguard
  | _ => trivial

theorem safe_of_acts {o : Op} {t : StateDB} (hI : Holds T (Tended none V T) t)
    (hg : QuietActs msg.sender action o t) : Safe o t := by
  have ht := tends_of_acts hne hV hI hg
  refine ⟨fun h hh => rewindable_of_tended hh hI ht, ?_⟩
  cases o with
  | createAccount => exact dropped_of_tended hI (ht rfl)
  | createObject => exact absurd hg.1.2 hne
  | _ => rfl

/-- **A quiet program of the machine leaves the sum of AOA**, and the accounts stay as they must
be. -/
theorem supply_of_acts {α : Type} {p : M α} {y : α}
    (hp : Conserving g ep Safe (fun _ _ => True) (fun db => db.supply none) p)
    (hI : Holds T (Tended none V T) db)
    (hm : (semantics g ep).Meets (QuietActs msg.sender action) p db)
    (hr : (semantics g ep).run p db = some (y, db')) :
    db'.supply none = db.supply none ∧ Holds T (Tended none V T) db' := by
  have hk : (semantics g ep).Keeps (QuietActs msg.sender action) (Holds T (Tended none V T))
      (Grew T (Tended none V T)) :=
    keeps_of_exec fun hI hg hx => tended_exec hI (tends_of_acts hne hV hI hg) hx
  refine ⟨hp db y db' ?_ (.of_forall (fun _ _ => trivial) p db) hr, (hk.steps (hm.steps hr) hI).1⟩
  exact (hm.along hk hI).mono fun o t hg => safe_of_acts hne hV hg.2 hg.1

end

theorem conserving_ensure (hμ : Balanced g ep G R μ) (a : Address) :
    Conserving g ep G R μ (ensure a) := by
  refine .bind (conserving_act hμ rfl) fun v => ?_
  split
  · exact conserves_pure _
  · exact conserving_act hμ rfl

theorem conserving_execute (hμ : Balanced g ep G R μ) (hne : action ≠ .publishAsset) :
    Conserving g ep G R μ (execute E enc msg action gas) := by
  have hcall : Conserving g ep G R μ (executeCall E msg action gas) := by
    refine .bind (conserving_act hμ rfl) fun v => .bind (conserving_act hμ rfl) fun _ =>
      .bind ?_ fun a => ?_
    · unfold callee
      split
      · exact conserves_pure _
      · exact .bind (conserving_ensure hμ _) fun _ => conserves_pure _
    · exact .bind (conserving_call hμ (conserves_nested hμ E _)) fun _ => conserves_pure _
  unfold execute
  cases action
  case createContract =>
    dsimp only
    split
    · exact conserves_pure _
    · exact .bind (conserving_create hμ (conserves_nested hμ E _)) fun _ => conserves_pure _
  case publishAsset => exact absurd rfl hne
  all_goals exact hcall

/-- **Executing anything but a publication leaves the sum of AOA.** -/
theorem supply_execute {res : Except TxErr Reply} (hne : action ≠ .publishAsset)
    (hI : Holds T (Tended none V T) (bought msg db))
    (hm : (semantics g ep).Meets (QuietActs msg.sender action)
      (execute E enc msg action gas) (bought msg db))
    (hr : (semantics g ep).run (execute E enc msg action gas) (bought msg db) = some (res, db')) :
    db'.supply none = (bought msg db).supply none ∧ ∃ V', Holds T (Tended none V' T) db' := by
  cases hv : isVote action with
  | false =>
    have h := supply_of_acts hne (fun h => by rw [hv] at h; cases h)
      (conserving_execute (balanced_aoa g ep) hne) hI hm hr
    exact ⟨h.1, V, h.2⟩
  | true =>
    -- when the call starts, the sender has a nonce
    rw [run_execute_call (calls_of_isVote hv)] at hr
    obtain ⟨⟨reply, db1⟩, hcall, heq⟩ := map_eq_some_iff.1 hr
    cases heq
    have hm' := hm
    rw [execute_call (calls_of_isVote hv)] at hm'
    have hset := (meets_bind.1 ((meets_bind.1 hm').2 (view _, _) (run_call _))).1
    have hn := bne_iff_ne.1 (meets_call.1 hset).2
    have hsender : HasNonce (called msg (bought msg db)) msg.sender := by
      unfold HasNonce
      rw [nonce_of_shown (shown_called msg db)]
      rw [nonce_bought] at hn
      exact Nat.pos_of_ne_zero hn
    have h := supply_of_acts hne (fun _ => hsender)
      (conserving_call (balanced_aoa g ep) (conserves_nested (balanced_aoa g ep) E _))
      (tended_renumber (tended_called hI hn)) (meets_call_of_execute hv hm) hcall
    exact ⟨h.1.trans (supply_called msg _), _, h.2⟩

theorem nonce_of_publish {n : Int} (hinfo : isAssetInfoValid msg.assetInfo = .ok n)
    (hexist : (view db).exist msg.sender = true)
    (hm : (semantics g ep).Meets (QuietActs msg.sender .publishAsset)
      (execute E enc msg .publishAsset gas) db) : u64 ((view db).getNonce msg.sender + 1) ≠ 0 := by
  have hexist' : (view ((semantics g ep).snapshot db).2).exist msg.sender = true := hexist
  have hbody := (meets_bind.1 (meets_within.1 (meets_bind.1 hm).1)).2 _ (run_ensure _ _)
  rw [ensured_of_exist hexist'] at hbody
  have hpub := (meets_bind.1 hbody).1
  unfold publishAsset at hpub
  rw [hinfo] at hpub
  have hset := (meets_bind.1 ((meets_bind.1 hpub).2 (view _, _) (run_call _))).1
  exact bne_iff_ne.1 (meets_call.1 hset).2

theorem amount_publish_error {e : TxErr} {h : Holding} (hh : h ∈ parts none)
    (hI : Holds T (Tended none V T) db) (hexist : (view db).exist msg.sender = true)
    (hm : (semantics g ep).Meets (QuietActs msg.sender .publishAsset)
      (execute E enc msg .publishAsset gas) db)
    (hr : (semantics g ep).run (execute E enc msg .publishAsset gas) db = some (.error e, db')) :
    db'.amount h = db.amount h := by
  have hnonce := fun n hinfo => nonce_of_publish (n := n) hinfo hexist hm
  obtain ⟨r, db1, hwithin, hr⟩ := of_run_bind hr
  obtain ⟨undo, db2, hbody, hleft⟩ := of_run_within hwithin
  have hexist' : (view ((semantics g ep).snapshot db).2).exist msg.sender = true := hexist
  rw [run_bind, run_ensure, bind_some, ensured_of_exist hexist', run_bind,
    run_publishAsset] at hbody
  have hback : ∀ {t}, Rewinds h ep db.snapshot.2 t →
      t.revertToSnapshot ep db.snapshot.1 = some db' → db'.amount h = db.amount h :=
    fun hrew hrev => (hrew.revert hrev).1 (journaled_of_mem hh ep)
  cases hinfo : isAssetInfoValid msg.assetInfo with
  | error =>
    rw [hinfo] at hbody
    cases hbody
    cases hr
    exact hback (.refl _) hleft
  | ok n =>
    rw [hinfo] at hbody
    dsimp only at hbody
    split at hbody
    · cases hbody
      cases hr
      have hI0 := hI.snapshot.1
      have hset := (tended_exec (g := g) (o := .setNonce msg.sender _) hI0
        (fun _ _ => Nat.pos_of_ne_zero (hnonce n hinfo)) rfl).1
      have hvoid : ∀ {t}, Holds T (Tended none V T) t → ∀ a, t.shown a = none →
          h.stored (t.trie a) = 0 := by
        intro t ht a hs
        have hshown := ht.shown a
        rw [hs] at hshown
        rw [ht.trie]
        exact hshown.1 h hh
      have hnum : Rewinds h ep db.snapshot.2 (numbered db.snapshot.2 msg.sender) :=
        rewinds_exec (g := g) (o := .setNonce ..) ⟨hvoid hI0, trivial⟩ rfl
      exact hback (hnum.trans (.create (hvoid hset _))) hleft
    · cases hbody
      cases hr

/-! ## Transitions -/

/-- The message is executed with this reply, and the transition goes on to settle it. -/
structure Settles (g : Growth) (ep : Bool) (E : EVM) (enc : InfoEncoder)
    (msg : Message) (action : Action) (db : StateDB) (reply : Reply) (db₁ : StateDB) : Prop where
  gas : intrinsicGas msg.data action ≤ msg.gasLimit
  run : (semantics g ep).run (execute E enc msg action (gasForExecution msg action))
    (bought msg db) = some (.ok reply, db₁)
  ok : isConsensusErr reply.err = none

def minted (msg : Message) (ret : Nat) : Int := if msg.gasLimit < ret then 2 ^ 64 * msg.gasPrice else 0

def burnt (E : EVM) (msg : Message) (action : Action) (db : StateDB) : Int :=
  if action = .publishAsset then
    db.worth none (E.createAddress msg.sender ((view db).getNonce msg.sender)) else 0

theorem supply_settled_eq (hlimit : msg.gasLimit < 2 ^ 64) : (settled E msg r db).supply none =
      db.supply none + msg.gasCost + minted msg (returned msg r db.refund) := by
  have hret : returned msg r db.refund < 2 ^ 64 := u64_lt _
  rw [supply_settled]
  generalize returned msg r db.refund = ret at hret
  have hused : (ret : Int) + u64 (msg.gasLimit - ret) =
      msg.gasLimit + if msg.gasLimit < ret then 2 ^ 64 else 0 := by
    unfold u64
    split <;> omega
  unfold minted Message.gasCost
  rw [← Int.add_mul, hused, Int.add_mul]
  split
  · omega
  · rw [Int.zero_mul]
    omega

theorem worth_bought (hne : a ≠ msg.sender) : (bought msg db).worth none a = db.worth none a := by
  refine combined_congr fun k _ => ?_
  unfold bought ensured
  rw [amount_subBalance, update_of_ne hne]
  split
  · rfl
  · rw [amount_createAccount, update_of_ne hne]

/-- **What a transition does to the sum of AOA.** -/
theorem supply_transition {gp' : Nat} {res : Except TxErr (Nat × Bool)} (hfit : Fit none db)
    (hlimit : msg.gasLimit < 2 ^ 64)
    (hq : (semantics g ep).Meets (fun o _ => quiet o = true) (transitionDb E enc msg gp) db)
    (hr : (semantics g ep).run (transitionDb E enc msg gp) db = some ((gp', res), db')) :
    (∃ e, admission msg gp db = .error e ∧ res = .error e ∧ db'.supply none = db.supply none) ∨
    ∃ action, admission msg gp db = .ok action ∧
      (((∀ reply db1, ¬ Settles g ep E enc msg action db reply db1) ∧ (∃ e, res = .error e) ∧
          db'.supply none = db.supply none - msg.gasCost) ∨
        ∃ reply db1, Settles g ep E enc msg action db reply db1 ∧
          db'.supply none = db.supply none + minted msg (returned msg reply db1.refund) -
            burnt E msg action db ∧
          ∃ V, Holds db.trie (Tended none V db.trie) db') := by
  rcases transition_cases hr with ⟨e, hadm, rfl, -, rfl⟩ | ⟨action, hadm, hcases⟩
  · refine .inl ⟨e, hadm, rfl, ?_⟩
    unfold checked
    rw [hadm]
    split
    · rename_i heq; cases heq
    · rfl
    · exact supply_ensured db msg.sender
  refine .inr ⟨action, hadm, ?_⟩
  have hact := (admission_ok hadm).1
  have hI := tended_bought hfit.tended msg
  have hbought := supply_bought msg db
  rcases hcases with ⟨hlow, rfl, -, rfl⟩ | ⟨hgas, x, db1, hexec, hcases⟩
  · exact .inl ⟨fun _ _ h => absurd h.gas (by omega), ⟨_, rfl⟩, hbought⟩
  have hm := meets_execute hadm hgas ((meets_acts hact).and hq)
  -- what execution leaves
  have hafter : (∀ reply, x = .ok reply → db1.supply none = db.supply none - msg.gasCost -
        burnt E msg action db ∧ ∃ V, Holds db.trie (Tended none V db.trie) db1) ∧
      (∀ e, x = .error e → db1.supply none = db.supply none - msg.gasCost) ∧
      (∀ reply, x = .ok reply → isConsensusErr reply.err ≠ none → burnt E msg action db = 0) := by
    by_cases hpub : action = .publishAsset
    · subst hpub
      refine ⟨fun reply hx => ?_, fun e hx => ?_, fun reply hx herr => ?_⟩
      · subst hx
        obtain ⟨-, n, hinfo, hpos, rfl⟩ := execute_publish (exist_bought msg db) hexec
        have hn := nonce_of_publish hinfo (exist_bought msg db) hm
        refine ⟨?_, tended_published hI.snapshot.1 hpos hn⟩
        rw [supply_published, if_neg (fun heq => nomatch heq), Int.add_zero]
        show (bought msg db).supply none - (bought msg db).worth none (E.createAddress msg.sender
          ((view (bought msg db)).getNonce msg.sender)) = _
        rw [hbought, nonce_bought, worth_bought (E.createAddress_ne _ _), burnt, if_pos rfl]
      · subst hx
        rw [← hbought]
        exact supply_congr fun k hk => amount_publish_error hk hI (exist_bought msg db) hm hexec
      · subst hx
        obtain ⟨rfl, -⟩ := execute_publish (exist_bought msg db) hexec
        exact absurd rfl herr
    · have h := supply_execute hpub hI hm hexec
      have hnone : burnt E msg action db = 0 := if_neg hpub
      rw [hnone, Int.sub_zero, ← hbought]
      exact ⟨fun _ _ => h, fun _ _ => h.1, fun _ _ _ => rfl⟩
  rcases hcases with ⟨e, rfl, rfl, -, rfl⟩ | ⟨reply, e, rfl, herr, rfl, -, rfl⟩ |
    ⟨reply, rfl, hok, hsettle⟩
  · refine .inl ⟨fun reply db2 h => ?_, ⟨e, rfl⟩, hafter.2.1 e rfl⟩
    rw [h.run] at hexec
    cases hexec
  · refine .inl ⟨fun reply' db2 h => ?_, ⟨_, rfl⟩, ?_⟩
    · obtain ⟨heq, rfl⟩ := Prod.mk.inj (some.inj (h.run.symm.trans hexec))
      cases heq
      rw [h.ok] at herr
      cases herr
    · rw [(hafter.1 reply rfl).1, hafter.2.2 reply rfl (by rw [herr]; exact some_ne_none e),
        Int.sub_zero]
  · rw [run_settle] at hsettle
    split at hsettle
    · cases hsettle
    · cases hsettle
      obtain ⟨hsup, V, hV⟩ := hafter.1 reply rfl
      refine .inr ⟨reply, db1, ⟨hgas, hexec, hok⟩, ?_, V, tended_settled hV E msg reply⟩
      rw [supply_settled_eq hlimit, hsup]
      omega

end Sums

/-! ## Transactions -/

/-- No call of the transaction destroys an account or lets a nonce run over. -/
def QuietTx (P : ProcessEnv) (ctx : BlockContext) (msg : Message) (L : Ledger) : Prop :=
  (P.semantics ctx).Meets (fun o _ => quiet o = true)
    (transitionDb (newEVM P ctx msg) P.encodeInfo msg L.gp) L.state

def SettlesTx (P : ProcessEnv) (ctx : BlockContext) (msg : Message) (L : Ledger) (action : Action)
    (reply : Reply) (db : StateDB) : Prop :=
  Settles P.growth (P.config.isEpiphron ctx.number) (newEVM P ctx msg) P.encodeInfo msg action L.state
    reply db

/-- What keeps the sum of AOA. Gas that is bought and not settled must be free. Where it is settled,
the code must not leave more gas than was bought, unless it is free, and the address of a published
asset must hold nothing. -/
def KeepsAoa (P : ProcessEnv) (ctx : BlockContext) (msg : Message) (L : Ledger) : Prop :=
  ∀ action, admission msg L.gp L.state = .ok action →
    ((∀ reply db, ¬ SettlesTx P ctx msg L action reply db) → msg.gasLimit = 0 ∨ msg.gasPrice = 0) ∧
    ∀ reply db, SettlesTx P ctx msg L action reply db →
      (returned msg reply db.refund ≤ msg.gasLimit ∨ msg.gasPrice = 0) ∧
      (action = .publishAsset → L.state.worth none (assetOf P msg L.state) = 0)

section Transactions

variable {P : ProcessEnv} {ctx : BlockContext} {tx : Transaction} {L L' : Ledger}
  {res : Except TxErr Receipt} {reply reply' : Reply}

theorem gasCost_eq_zero (msg : Message) : msg.gasCost = 0 ↔ msg.gasLimit = 0 ∨ msg.gasPrice = 0 := by
  unfold Message.gasCost
  rw [Int.mul_eq_zero, Int.natCast_eq_zero, Int.natCast_eq_zero]

theorem minted_eq_zero (msg : Message) (ret : Nat) :
    minted msg ret = 0 ↔ ret ≤ msg.gasLimit ∨ msg.gasPrice = 0 := by
  unfold minted
  split <;> omega

theorem SettlesTx.unique (h : SettlesTx P ctx msg L action reply db)
    (h' : SettlesTx P ctx msg L action reply' db') : reply' = reply ∧ db' = db := by
  obtain ⟨heq, rfl⟩ := Prod.mk.inj (some.inj (h'.run.symm.trans h.run))
  exact ⟨Except.ok.inj heq, rfl⟩

/-- Settling makes AOA, or a publication drops some, but not both at once: a publication leaves no
gas but what it was given. -/
theorem settled_keeps_iff (hlimit : msg.gasLimit < 2 ^ 64)
    (h : SettlesTx P ctx msg L action reply db) :
    minted msg (returned msg reply db.refund) - burnt (newEVM P ctx msg) msg action L.state = 0 ↔
      (returned msg reply db.refund ≤ msg.gasLimit ∨ msg.gasPrice = 0) ∧
        (action = .publishAsset → L.state.worth none (assetOf P msg L.state) = 0) := by
  rw [← minted_eq_zero]
  unfold burnt
  by_cases hpub : action = .publishAsset
  · subst hpub
    have hret : returned msg reply db.refund ≤ msg.gasLimit := by
      obtain ⟨rfl, -⟩ := execute_publish (exist_bought msg L.state) h.run
      exact (used_eq hlimit (Nat.sub_le _ _) _).1
    rw [(minted_eq_zero msg _).2 (.inl hret), if_pos rfl]
    show 0 - L.state.worth none (assetOf P msg L.state) = 0 ↔ _
    constructor
    · exact fun hz => ⟨rfl, fun _ => by omega⟩
    · intro hz
      have := hz.2 rfl
      omega
  · rw [if_neg hpub, Int.sub_zero]
    exact ⟨fun hz => ⟨hz, fun hp => absurd hp hpub⟩, fun hz => hz.1⟩

/-- **When a transition keeps the sum of AOA.** -/
theorem transition_keeps_iff {gp' : Nat} {r : Except TxErr (Nat × Bool)} (hfit : Fit none L.state)
    (hlimit : msg.gasLimit < 2 ^ 64) (hq : QuietTx P ctx msg L) (hr : (P.semantics ctx).run
      (transitionDb (newEVM P ctx msg) P.encodeInfo msg L.gp) L.state = some ((gp', r), db')) :
    db'.supply none = L.state.supply none ↔ KeepsAoa P ctx msg L := by
  rcases supply_transition hfit hlimit hq hr with ⟨e, hadm, -, hsup⟩ |
    ⟨action, hadm, ⟨hnone, -, hsup⟩ | ⟨reply, db1, hs, hsup, -⟩⟩
  · refine ⟨fun _ action hok => ?_, fun _ => hsup⟩
    rw [hadm] at hok
    cases hok
  · rw [hsup]
    have hcost := gasCost_eq_zero msg
    constructor
    · intro h action' hok
      cases hadm.symm.trans hok
      exact ⟨fun _ => hcost.1 (by omega), fun reply db hs => absurd hs (hnone _ _)⟩
    · intro h
      have := hcost.2 ((h action hadm).1 hnone)
      omega
  · rw [hsup]
    have hiff := settled_keeps_iff hlimit hs
    constructor
    · intro h action' hok
      cases hadm.symm.trans hok
      refine ⟨fun hno => absurd hs (hno _ _), fun reply' db2 h' => ?_⟩
      obtain ⟨rfl, rfl⟩ := SettlesTx.unique hs h'
      exact hiff.1 (by omega)
    · intro h
      have := hiff.2 ((h action hadm).2 reply db1 hs)
      omega

theorem fit_transition {gp' gas : Nat} {failed : Bool} (hfit : Fit none L.state)
    (hlimit : msg.gasLimit < 2 ^ 64) (hq : QuietTx P ctx msg L) (hr : (P.semantics ctx).run
      (transitionDb (newEVM P ctx msg) P.encodeInfo msg L.gp) L.state =
        some ((gp', .ok (gas, failed)), db')) : Fit none db' := by
  rcases supply_transition hfit hlimit hq hr with ⟨e, -, hres, -⟩ |
    ⟨action, -, ⟨-, ⟨e, hres⟩, -⟩ | ⟨reply, db1, -, -, V, hV⟩⟩
  · cases hres
  · cases hres
  · exact hfit.next hV (removesNone_steps (Meets.steps hq hr))

/-- **When a transaction keeps the sum of AOA**, and what it leaves for the next one. -/
theorem applyTransaction_keeps_iff (hfit : Fit none L.state) (hmsg : asMessage P tx = some msg)
    (hlimit : msg.gasLimit < 2 ^ 64) (hq : QuietTx P ctx msg L)
    (happ : applyTransaction P ctx tx L = some (res, L')) :
    (L'.state.supply none = L.state.supply none ↔ KeepsAoa P ctx msg L) ∧
      ∀ receipt, res = .ok receipt → Fit none L'.state := by
  rcases applyTransaction_cases happ with ⟨hnone, -⟩ | ⟨msg', gp, t, db, hmsg', hrun, hcases⟩
  · rw [hmsg] at hnone
    cases hnone
  cases hmsg.symm.trans hmsg'
  have hiff := transition_keeps_iff hfit hlimit hq hrun
  rcases hcases with ⟨e, -, rfl, rfl⟩ | ⟨gas, failed, v, dels, rfl, -, ⟨e, -, rfl, rfl⟩ | hok⟩
  · exact ⟨hiff, fun _ h => nomatch h⟩
  · exact ⟨hiff, fun _ h => nomatch h⟩
  · obtain ⟨root, db', -, hfin, rfl, rfl⟩ := hok
    obtain ⟨hsame, hfit'⟩ := (fit_transition hfit hlimit hq hrun).finalise (finaliseTx_eq hfin).1
    refine ⟨?_, fun _ _ => hfit'⟩
    rw [← hiff]
    rw [supply_congr hsame]

/-! ## Blocks -/

/-- The transaction of the step keeps the sum of AOA and destroys nothing. -/
def KeepsAoaIn (P : ProcessEnv) : ChainStep → Ledger → Prop
  | .transaction delegatePoll ctx blockHash i tx, L => ∀ msg, asMessage P tx = some msg →
      msg.gasLimit < 2 ^ 64 ∧
      QuietTx (P.withPoll delegatePoll) ctx msg (L.prepare (P.txHash tx) blockHash i) ∧
      KeepsAoa (P.withPoll delegatePoll) ctx msg (L.prepare (P.txHash tx) blockHash i)
  | .close .., _ => True

theorem supply_transactions {cs : List ChainStep}
    (htx : ∀ c ∈ cs, ∃ poll ctx blockHash i tx, c = .transaction poll ctx blockHash i tx)
    (hcs : Along (chainStep P) (KeepsAoaIn P) cs L) (hfit : Fit none L.state)
    (hrun : exec (chainStep P) cs L = some L') :
    L'.state.supply none = L.state.supply none ∧ Fit none L'.state := by
  induction cs generalizing L with
  | nil =>
    cases hrun
    exact ⟨rfl, hfit⟩
  | cons c cs ih =>
    obtain ⟨L1, hstep, htail⟩ := exec_cons_eq_some.1 hrun
    obtain ⟨⟨poll, ctx, blockHash, i, tx, rfl⟩, hrest⟩ := List.forall_mem_cons.1 htx
    obtain ⟨receipt, happ⟩ := chainStep_transaction hstep
    obtain ⟨msg, -, -, -, hmsg, -⟩ := applyTransaction_ok happ
    have hprep : Fit none (L.prepare (P.txHash tx) blockHash i).state :=
      ⟨⟨rfl, hfit.tended.shown⟩, hfit.gone⟩
    obtain ⟨hlimit, hq, hkeeps⟩ := hcs.1 msg hmsg
    obtain ⟨hiff, hfit1⟩ := applyTransaction_keeps_iff hprep hmsg hlimit hq happ
    obtain ⟨hsup, hfit'⟩ := ih hrest (hcs.2 L1 hstep) (hfit1 receipt rfl) htail
    exact ⟨hsup.trans (hiff.2 hkeeps), hfit'⟩

def blockReward (P : ProcessEnv) (number : Nat) : Nat :=
  if P.config.isByzantium number then P.config.byzantiumBlockReward
  else P.config.frontierBlockReward

theorem mem_blockSteps {blockHash : Hash} {i : Nat}
    {txs : List Transaction} {c : ChainStep} (h : c ∈ blockSteps P ctx blockHash i txs) :
    ∃ poll ctx blockHash i tx, c = .transaction poll ctx blockHash i tx := by
  induction txs generalizing i with
  | nil => cases h
  | cons tx txs ih =>
    rcases List.mem_cons.1 h with rfl | h
    · exact ⟨_, _, _, _, _, rfl⟩
    · exact ih h

/-- **AOA is conserved.** A transaction leaves the sum of AOA exactly if it keeps to `KeepsAoa`, and
a block of such transactions adds its reward to it. -/
theorem aoa_conserved_iff (P : ProcessEnv) :
    (∀ {ctx tx msg L L' res}, Fit none L.state → asMessage P tx = some msg →
      msg.gasLimit < 2 ^ 64 → QuietTx P ctx msg L →
      applyTransaction P ctx tx L = some (res, L') →
      (L'.state.supply none = L.state.supply none ↔ KeepsAoa P ctx msg L)) ∧
    ∀ {header blockHash txs state delegates receipts L'}, Fit none state →
      Run.Along (chainStep P) (KeepsAoaIn P) (blockSteps P (Header.context header) blockHash 0 txs)
        ⟨state, delegates, header.gasLimit, 0⟩ →
      process P header blockHash txs state delegates = some (.ok receipts, L') →
      L'.state.supply none = state.supply none + blockReward P header.number := by
  refine ⟨fun hfit hmsg hlimit hq happ =>
    (applyTransaction_keeps_iff hfit hmsg hlimit hq happ).1, ?_⟩
  intro header blockHash txs state delegates receipts L' hfit hcs h
  obtain ⟨⟨res, L1⟩, htxs, h⟩ := bind_eq_some_iff.1 h
  cases res with
  | error => cases h
  | ok =>
    obtain ⟨L2, hfin, heq⟩ := map_eq_some_iff.1 h
    cases heq
    obtain ⟨state', hstate, hfin⟩ := bind_eq_some_iff.1 hfin
    obtain ⟨-, -, rfl⟩ := map_eq_some_iff.1 hfin
    obtain ⟨hsup, hfit1⟩ :=
      supply_transactions (fun c hc => mem_blockSteps hc) hcs hfit (run_processTxs htxs)
    have hreward : Fit none (accumulateRewards P (Header.context header) L1.state) :=
      hfit1.next (tended_addBalance hfit1.tended _) (.edit _ _ _)
    rw [supply_congr (hreward.finalise hstate).1]
    show (StateDB.addBalance _ _ _).supply none = _
    rw [supply_addBalance, if_pos rfl, hsup]
    rfl

/-! ## A transfer and a publication -/

theorem keepsAoa_of_settles (hadm : admission msg L.gp L.state = .ok action)
    (hs : SettlesTx P ctx msg L action reply db) (hret : returned msg reply db.refund ≤ msg.gasLimit)
    (hpub : action ≠ .publishAsset) : KeepsAoa P ctx msg L := by
  intro action' hok
  cases hadm.symm.trans hok
  refine ⟨fun hno => absurd hs (hno _ _), fun reply' db' h' => ?_⟩
  obtain ⟨rfl, rfl⟩ := hs.unique h'
  exact ⟨.inl hret, fun hp => absurd hp hpub⟩

end Transactions

def rewardingEnv : ProcessEnv :=
  { signedEnv with config := { signedEnv.config with byzantiumBlockReward := 5 } }

def fundMsg : Message := asMessage.message fundTx [] ⟨"", "", none, ""⟩ 1

theorem fit_small (balance : Nat) : Fit none (.new (smallTrie balance)) := by
  refine Fit.new fun _ a s hs hn => ?_
  unfold smallTrie at hs
  split at hs
  · cases hs; rfl
  · split at hs
    · cases hs; rfl
    · cases hs

theorem keepsAoa_fundTx : QuietTx rewardingEnv smallContext fundMsg smallStart ∧
      KeepsAoa rewardingEnv smallContext fundMsg smallStart := by
  have hchecks : (semantics doubling true).checks (fun o _ => quiet o)
      (transitionDb (newEVM rewardingEnv smallContext fundMsg) rewardingEnv.encodeInfo fundMsg 100000)
      smallStart.state = true := by decide +kernel
  have hrun : ((semantics doubling true).run (execute (newEVM rewardingEnv smallContext fundMsg)
      rewardingEnv.encodeInfo fundMsg .trans (gasForExecution fundMsg .trans))
      (bought fundMsg smallStart.state)).map (fun r => r.1.toOption.map fun reply =>
        (decide (returned fundMsg reply r.2.refund ≤ fundMsg.gasLimit), isConsensusErr reply.err)) =
      some (some (true, none)) := by decide +kernel
  obtain ⟨⟨res, db⟩, hr, heq⟩ := map_eq_some_iff.1 hrun
  obtain ⟨reply, hreply, hret, hok⟩ := map_mk_eq_some.1 heq
  cases res with
  | error => cases hreply
  | ok =>
    cases hreply
    exact ⟨meets_of_checks hchecks, keepsAoa_of_settles (by rfl) ⟨by decide, hr, hok⟩
      (of_decide_eq_true hret) (by decide)⟩

theorem aoa_conserved_fundTx :
    (∃ receipt L', applyTransaction rewardingEnv smallContext fundTx smallStart =
        some (.ok receipt, L') ∧ L'.state.supply none = smallStart.state.supply none) ∧
      ∃ receipts L', process rewardingEnv smallHeader 0 [fundTx] smallStart.state
          smallStart.delegates = some (.ok receipts, L') ∧
        L'.state.supply none = smallStart.state.supply none + 5 := by
  have hrun : (applyTransaction rewardingEnv smallContext fundTx smallStart).map
      (fun r => r.1.toOption.isSome) = some true := by decide +kernel
  have hblock : (process rewardingEnv smallHeader 0 [fundTx] smallStart.state
      smallStart.delegates).map (fun r => r.1.toOption.isSome) = some true := by decide +kernel
  obtain ⟨hquiet, hkeeps⟩ := keepsAoa_fundTx
  have hfit := fit_small 100000
  constructor
  · obtain ⟨⟨res, L'⟩, happ, hok⟩ := map_eq_some_iff.1 hrun
    have hiff := (aoa_conserved_iff rewardingEnv).1 hfit rfl (by decide) hquiet happ
    cases res with
    | error => cases hok
    | ok receipt => exact ⟨receipt, L', happ, hiff.2 hkeeps⟩
  · obtain ⟨⟨res, L'⟩, hproc, hok⟩ := map_eq_some_iff.1 hblock
    cases res with
    | error => cases hok
    | ok receipts =>
      have hprep : smallStart.prepare (rewardingEnv.txHash fundTx) 0 0 = smallStart := rfl
      have halong : Along (chainStep rewardingEnv) (KeepsAoaIn rewardingEnv)
          (blockSteps rewardingEnv (Header.context smallHeader) 0 0 [fundTx]) smallStart := by
        refine ⟨fun msg hmsg => ?_, fun _ _ => trivial⟩
        obtain rfl := some.inj hmsg
        rw [hprep]
        exact ⟨by decide, hquiet, hkeeps⟩
      have hsup := (aoa_conserved_iff rewardingEnv).2 hfit halong hproc
      exact ⟨receipts, L', hproc, hsup⟩

def fundedTrie : Trie :=
  fun a => if a = ~~~1 then some (plainAccount 0 500) else smallTrie 100000 a

def fundedStart : Ledger := { smallStart with state := .new fundedTrie }

/-- The publication of an asset at an address that has AOA destroys it. -/
theorem not_aoa_conserved_publish :
    ∃ receipt L', applyTransaction describedEnv smallContext publishTx fundedStart =
        some (.ok receipt, L') ∧ L'.state.supply none ≠ fundedStart.state.supply none := by
  have hrun : (applyTransaction describedEnv smallContext publishTx fundedStart).map
      (fun r => r.1.toOption.isSome) = some true := by decide +kernel
  have hexec : ((semantics doubling true).run (execute (newEVM describedEnv smallContext publishMsg)
      describedEnv.encodeInfo publishMsg .publishAsset (gasForExecution publishMsg .publishAsset))
      (bought publishMsg fundedStart.state)).map (fun r => r.1.toOption.map fun reply =>
        isConsensusErr reply.err) = some (some none) := by decide +kernel
  have hchecks : (semantics doubling true).checks (fun o _ => quiet o)
      (transitionDb (newEVM describedEnv smallContext publishMsg) describedEnv.encodeInfo publishMsg
        100000) fundedStart.state = true := by decide +kernel
  have hfit : Fit none fundedStart.state := by
    refine Fit.new fun _ a s hs hn => ?_
    unfold fundedTrie smallTrie at hs
    split at hs
    · cases hs; rfl
    · split at hs
      · cases hs; rfl
      · split at hs
        · cases hs; rfl
        · cases hs
  obtain ⟨⟨res, L'⟩, happ, hok⟩ := map_eq_some_iff.1 hrun
  have hmsg : asMessage describedEnv publishTx = some publishMsg := rfl
  have hiff := (applyTransaction_keeps_iff hfit hmsg (by decide) (meets_of_checks hchecks) happ).1
  cases res with
  | error => cases hok
  | ok receipt =>
    refine ⟨receipt, L', happ, fun hsame => ?_⟩
    obtain ⟨⟨res, db⟩, hr, heq⟩ := map_eq_some_iff.1 hexec
    obtain ⟨reply, hreply, hnone⟩ := map_eq_some_iff.1 heq
    cases res with
    | error => cases hreply
    | ok =>
      cases hreply
      have hzero := ((hiff.1 hsame .publishAsset (by rfl)).2 reply db ⟨by decide, hr, hnone⟩).2 rfl
      exact absurd hzero (by decide +kernel)

end GoAoa.Core
