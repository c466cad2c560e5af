import GoAoa.Core.Conservation

/-!
# The supply of an asset

Transfers, asset opcodes and reverts leave the sum of an asset over all accounts. What takes from it
is an account that is replaced: `CreateAccount` carries over the balance and not the assets, and
`PublishAsset` carries over nothing. Before the Epiphron block a revert also takes from it, if it
takes back an account that was sent the asset. And an account that is not marked dirty when its
block is closed goes back to what the trie has.

In a run without such steps the sum is what was published (`asset_supply_fixed`).
-/

namespace GoAoa.Core

open Option Run State State.StateDB VM Semantics

def spares : Op → Bool
  | .suicide _ => false
  | _ => true

section Transition

variable {g : Growth} {ep : Bool} {E : EVM} {enc : InfoEncoder} {msg : Message}
  {gp gas : Nat} {db db' : StateDB} {id : Address} {action : Action}

theorem supply_bought_asset (msg : Message) (db : StateDB) :
    (bought msg db).supply (some id) = db.supply (some id) := by
  rw [bought, supply_subBalance, supply_ensured, if_neg (by simp), Int.sub_zero]

theorem supply_settled_asset (E : EVM) (msg : Message) (r : Reply) (db : StateDB) :
    (settled E msg r db).supply (some id) = db.supply (some id) := by
  rw [settled, supply_addBalance, supply_addBalance, supply_ensured, if_neg (by simp), if_neg (by simp),
    Int.add_zero, Int.add_zero]

theorem tends_of_guard {V : Address → Prop} {o : Op} {t : StateDB}
    (hg : Guard (fun _ => False) (Acts msg.sender action) o t) (hs : spares o = true) :
    Tends (some id) V o t := by
  cases o with
  | suicide => cases hs
  | addAssetBalance => exact hg
  | subAssetBalance => exact hg
  | createAccount => exact nofun
  | createObject => exact nofun
  | setNonce => exact nofun
  | vote => exact nofun
  | _ => trivial

theorem meets_tends (id : Address) (hact : Action.ofCode msg.action = some action)
    (hq : (semantics g ep).Meets (fun o _ => spares o = true) (transitionDb E enc msg gp) db)
    (V : Address → Prop) :
    (semantics g ep).Meets (Tends (some id) V) (transitionDb E enc msg gp) db :=
  ((meets_acts hact).and hq).mono fun _ _ hg => tends_of_guard hg.1 hg.2

theorem spared_of_publish {n : Int} (hinfo : isAssetInfoValid msg.assetInfo = .ok n) (hpos : 0 ≤ n)
    (hexist : (view db).exist msg.sender = true)
    (hl : (semantics g ep).Lasting (SparesAsset id) (execute E enc msg .publishAsset gas) db) :
    db.worth (some id) (E.createAddress msg.sender ((view db).getNonce msg.sender)) = 0 := by
  have hexist' : (view ((semantics g ep).snapshot db).2).exist msg.sender = true := hexist
  have hrun : (semantics g ep).run (ensure msg.sender >>= fun _ =>
        publishAsset E enc msg.sender msg.assetInfo >>= fun r => pure (r.toBool.not, r))
      ((semantics g ep).snapshot db).2 =
        some ((false, .ok ()), published E enc msg.sender msg.assetInfo n db.snapshot.2) := by
    rw [run_bind, run_ensure, bind_some, ensured_of_exist hexist', run_bind,
      run_publishAsset, hinfo]
    dsimp only
    rw [if_neg (by omega)]
    rfl
  have hwithin := hl.bind.1
  have hbody := (hwithin ((false, .ok ()), _) _ hrun rfl).1 rfl
  have hpub := (hbody.bind.2 _ (run_ensure _ _)).bind.1
  rw [ensured_of_exist hexist'] at hpub
  unfold publishAsset at hpub
  rw [hinfo] at hpub
  have hset := hpub.bind.2 (view db.snapshot.2, db.snapshot.2) (run_call _)
  have hcreate := (hset.bind.2 ((), numbered db.snapshot.2 msg.sender) (run_call _)).bind.1
  have hspared := hcreate.1
  have hsame : (numbered db.snapshot.2 msg.sender).worth (some id) = db.worth (some id) := by
    funext a
    exact combined_congr fun _ _ => congrFun (amount_setNonce _) a
  rw [← hsame]
  exact hspared

def issued (E : EVM) (msg : Message) (action : Action) (db : StateDB) (id : Address) : Int :=
  match action, isAssetInfoValid msg.assetInfo with
  | .publishAsset, .ok n =>
    if id = E.createAddress msg.sender ((view db).getNonce msg.sender) then n else 0
  | _, _ => 0

theorem issued_of_ne (h : action ≠ .publishAsset) : issued E msg action db id = 0 := by
  unfold issued
  split
  · exact absurd rfl h
  · rfl

theorem issued_publish {n : Int} (hinfo : isAssetInfoValid msg.assetInfo = .ok n) :
    issued E msg .publishAsset db id =
      if id = E.createAddress msg.sender ((view db).getNonce msg.sender) then n else 0 := by
  unfold issued
  rw [hinfo]

variable (hfit : Fit (some id) db)
  (hq : (semantics g ep).Meets (fun o _ => spares o = true) (transitionDb E enc msg gp) db)
include hfit hq

theorem accounted_execute {res : Except TxErr Reply}
    (hadm : admission msg gp db = .ok action) (hne : action ≠ .publishAsset)
    (hgas : intrinsicGas msg.data action ≤ msg.gasLimit)
    (hv : (semantics g ep).Reverts (TakesNone id ep)
      (execute E enc msg action (gasForExecution msg action)) (bought msg db))
    (hexec : (semantics g ep).run (execute E enc msg action (gasForExecution msg action))
      (bought msg db) = some (res, db')) :
    accounted id db' = accounted id (bought msg db) ∧ ((semantics g ep).Lasting (SparesAsset id)
        (execute E enc msg action (gasForExecution msg action)) (bought msg db) →
        db'.supply (some id) = (bought msg db).supply (some id)) := by
  have hI := tended_bought hfit.tended msg
  have hm : (semantics g ep).Meets (Rewindable (.asset id))
      (execute E enc msg action (gasForExecution msg action)) (bought msg db) := by
    have ht := meets_execute hadm hgas (meets_tends id (admission_ok hadm).1 hq (HasNonce db))
    refine (ht.along (keeps_tended g ep (some id) (HasNonce db) db.trie) hI).mono fun o t hg => ?_
    exact rewindable_of_tended (List.mem_singleton_self _) hg.2 hg.1
  have hp : Conserving g ep (Rewindable (.asset id)) (TakesNone id ep) (accounted id)
      (execute E enc msg action (gasForExecution msg action)) :=
    conserving_execute (balanced_asset g ep id) hne
  exact ⟨hp _ _ _ hm hv hexec, fun hl => supply_of_lasting hp hm hv hl hexec⟩

/-- **What a transition does to the sum of an asset.** -/
theorem asset_transition {gp' : Nat} {v : Nat × Bool} (hadm : admission msg gp db = .ok action)
    (hv : (semantics g ep).Reverts (TakesNone id ep)
      (execute E enc msg action (gasForExecution msg action)) (bought msg db))
    (hl : (semantics g ep).Lasting (SparesAsset id)
      (execute E enc msg action (gasForExecution msg action)) (bought msg db))
    (hr : (semantics g ep).run (transitionDb E enc msg gp) db = some ((gp', .ok v), db')) :
    db'.supply (some id) = db.supply (some id) + issued E msg action db id := by
  obtain ⟨_, reply, db1, hadm', hgas, hexec, -, -, hend⟩ := transition_ok hr
  cases hadm.symm.trans hadm'
  rw [hend, supply_settled_asset]
  by_cases hpub : action = .publishAsset
  · subst hpub
    obtain ⟨-, n, hinfo, hpos, rfl⟩ := execute_publish (exist_bought msg db) hexec
    have hzero := spared_of_publish hinfo hpos (exist_bought msg db) hl
    rw [nonce_bought] at hzero
    rw [supply_published, issued_publish hinfo]
    show (bought msg db).supply (some id) - (bought msg db).worth (some id) (E.createAddress
      msg.sender ((view (bought msg db)).getNonce msg.sender)) + (if some id = some (E.createAddress
        msg.sender ((view (bought msg db)).getNonce msg.sender)) then n else 0) = _
    rw [nonce_bought, hzero, supply_bought_asset, Int.sub_zero]
    simp only [some.injEq]
  · rw [(accounted_execute hfit hq hadm hpub hgas hv hexec).2 hl, supply_bought_asset,
      issued_of_ne hpub, Int.add_zero]

theorem fit_asset_transition {gp' : Nat} {t : Except TxErr (Nat × Bool)}
    (hact : Action.ofCode msg.action = some action)
    (hr : (semantics g ep).run (transitionDb E enc msg gp) db = some ((gp', t), db')) :
    Fit (some id) db' := by
  have hsteps := (meets_tends id hact hq (HasNonce db)).steps hr
  exact hfit.next ((keeps_tended g ep _ _ db.trie).steps hsteps hfit.tended).1
    (removesNone_steps hsteps)

end Transition

/-! ## Chains -/

section Chains

variable {P : ProcessEnv} {L L' : Ledger} {id : Address} {n : Int}

/-- What keeps the sum of an asset in a transaction. It destroys no account; a scope that is taken
back before the Epiphron block takes none of the asset with it; no account with some of the asset is
replaced for good; and the asset is published only while nobody has it. -/
structure KeepsAssetTx (P : ProcessEnv) (ctx : BlockContext) (msg : Message) (id : Address)
    (L : Ledger) (action : Action) : Prop where
  spared : (P.semantics ctx).Meets (fun o _ => spares o = true)
    (transitionDb (newEVM P ctx msg) P.encodeInfo msg L.gp) L.state
  taken : (P.semantics ctx).Reverts
    (TakesNone id (P.config.isEpiphron ctx.number))
    (execute (newEVM P ctx msg) P.encodeInfo msg action (gasForExecution msg action))
    (bought msg L.state)
  lasting : (P.semantics ctx).Lasting (SparesAsset id)
    (execute (newEVM P ctx msg) P.encodeInfo msg action (gasForExecution msg action))
    (bought msg L.state)
  fresh : action = .publishAsset → assetOf P msg L.state = id → L.state.supply (some id) = 0

/-- What keeps the sum of an asset in a step. When a block is closed, the accounts that are not
marked dirty have of the asset what the trie has. -/
def KeepsAsset (P : ProcessEnv) (id : Address) : ChainStep → Ledger → Prop
  | .transaction delegatePoll ctx blockHash i tx, L => ∀ msg action, asMessage P tx = some msg →
      Action.ofCode msg.action = some action →
      KeepsAssetTx (P.withPoll delegatePoll) ctx msg id (L.prepare (P.txHash tx) blockHash i) action
  | .close ctx _, L => ∀ a, a ∉ (accumulateRewards P ctx L.state).stateObjectsDirty →
      (accumulateRewards P ctx L.state).amount (.asset id) a =
        (Holding.asset id).stored (L.state.trie a)

/-- The step publishes the asset, with a supply of `n`. -/
def Publishes (P : ProcessEnv) (id : Address) (n : Int) : ChainStep → Ledger → Prop
  | .transaction _ _ _ _ tx, L => ∃ msg, asMessage P tx = some msg ∧
      Action.ofCode msg.action = some .publishAsset ∧ assetOf P msg L.state = id ∧
      isAssetInfoValid msg.assetInfo = .ok n
  | .close .., _ => False

theorem supply_ne_zero {ai : AssetInfo} (h : isAssetInfoValid ai = .ok n) : n ≠ 0 := by
  unfold isAssetInfoValid at h
  split at h
  · cases h
  split at h
  · cases h
  split at h
  · cases h
  split at h
  · cases h
  split at h
  · cases h
  split at h
  · cases h
  · split at h
    · cases h
    · rename_i hne
      exact Except.ok.inj h ▸ hne

theorem amount_new (T : Trie) (h : Holding) (a : Address) :
    (StateDB.new T).amount h a = h.stored (T a) := by
  have hshown : (StateDB.new T).shown a = (T a).map fun s => (s.decode, false) := map_map ..
  rw [amount, hshown, map_map]
  rfl

section Transaction

variable {delegatePoll : List Address} {ctx : BlockContext} {blockHash : Hash} {i : Nat}
  {tx : Transaction}

theorem fit_prepare (hfit : Fit (some id) L.state) (thash bhash : Hash) (i : Nat) :
    Fit (some id) (L.prepare thash bhash i).state :=
  ⟨⟨rfl, hfit.tended.shown⟩, hfit.gone⟩

theorem asset_transaction (hc : KeepsAsset P id (.transaction delegatePoll ctx blockHash i tx) L)
    (hfit : Fit (some id) L.state)
    (hstep : chainStep P (.transaction delegatePoll ctx blockHash i tx) L = some L') :
    ∃ msg action, asMessage P tx = some msg ∧ Action.ofCode msg.action = some action ∧
      L'.state.supply (some id) = L.state.supply (some id) +
        issued (newEVM (P.withPoll delegatePoll) ctx msg) msg action L.state id ∧
      Fit (some id) L'.state := by
  obtain ⟨receipt, happ⟩ := chainStep_transaction hstep
  obtain ⟨msg, gp, v, db, hmsg, hrun, -, hfin⟩ := applyTransaction_ok happ
  obtain ⟨action, _, _, hadm, -⟩ := transition_ok hrun
  have hact := (admission_ok hadm).1
  obtain ⟨hspared, htaken, hlasting, -⟩ := hc msg action hmsg hact
  have hprep := fit_prepare hfit (P.txHash tx) blockHash i
  have hsup := asset_transition hprep hspared hadm htaken hlasting hrun
  obtain ⟨hsame, hfit'⟩ := (fit_asset_transition hprep hspared hact hrun).finalise hfin
  exact ⟨msg, action, hmsg, hact, (supply_congr hsame).trans hsup, hfit'⟩

theorem asset_lost {msg : Message} {action : Action} (hmsg : asMessage P tx = some msg)
    (hact : Action.ofCode msg.action = some action) (hne : action ≠ .publishAsset)
    (hfit : Fit (some id) L.state) (hspared : (P.semantics ctx).Meets
      (fun o _ => spares o = true)
      (transitionDb (newEVM (P.withPoll delegatePoll) ctx msg) P.encodeInfo msg L.gp)
      (L.prepare (P.txHash tx) blockHash i).state) (hep : P.config.isEpiphron ctx.number = true)
    (hstep : chainStep P (.transaction delegatePoll ctx blockHash i tx) L = some L') :
    ∃ res db, (P.semantics ctx).run
        (execute (newEVM (P.withPoll delegatePoll) ctx msg) P.encodeInfo msg action
          (gasForExecution msg action)) (bought msg (L.prepare (P.txHash tx) blockHash i).state) =
        some (res, db) ∧
      L'.state.supply (some id) + db.replaced (.asset id) = L.state.supply (some id) +
        (bought msg (L.prepare (P.txHash tx) blockHash i).state).replaced (.asset id) := by
  obtain ⟨receipt, happ⟩ := chainStep_transaction hstep
  obtain ⟨msg', gp, v, db, hmsg', hrun, -, hfin⟩ := applyTransaction_ok happ
  cases hmsg.symm.trans hmsg'
  have hprep := fit_prepare hfit (P.txHash tx) blockHash i
  obtain ⟨action', reply, db1, hadm, hgas, hexec, -, -, rfl⟩ := transition_ok hrun
  cases hact.symm.trans (admission_ok hadm).1
  refine ⟨_, db1, hexec, ?_⟩
  have htaken : ∀ s t, TakesNone id (P.config.isEpiphron ctx.number) s t :=
    fun _ _ hno => absurd hep (by rw [hno]; decide)
  have hsum := (accounted_execute hprep hspared hadm hne hgas (.of_forall htaken _ _) hexec).1
  have hend := supply_congr ((fit_asset_transition hprep hspared hact hrun).finalise hfin).1
  rw [supply_settled_asset] at hend
  unfold accounted at hsum
  rw [supply_bought_asset] at hsum
  rw [hend]
  exact hsum

end Transaction

theorem asset_close {ctx : BlockContext} {gasLimit : Nat}
    (hc : KeepsAsset P id (.close ctx gasLimit) L) (hfit : Fit (some id) L.state)
    (hstep : chainStep P (.close ctx gasLimit) L = some L') :
    L'.state.supply (some id) = L.state.supply (some id) ∧ Fit (some id) L'.state := by
  obtain ⟨state, -, hstate, -, rfl⟩ := chainStep_close hstep
  refine ⟨?_, .new nofun⟩
  have hreward : Fit (some id) (accumulateRewards P ctx L.state) :=
    hfit.next (tended_addBalance hfit.tended _) (.edit _ _ _)
  have hsame : ∀ k ∈ parts (some id), (StateDB.new state.trie).amount k =
      (accumulateRewards P ctx L.state).amount k := by
    intro k hk
    funext a
    rw [amount_new]
    rcases finalise_at hstate a with ⟨hd, -⟩ | ⟨hd, -, htrie⟩
    · exact hreward.stored hk hstate hd
    · obtain rfl := List.mem_singleton.1 hk
      have hrewarded : (accumulateRewards P ctx L.state).trie = L.state.trie := trie_edit _ _ _
      rw [htrie, hrewarded]
      exact (hc a hd).symm
  rw [supply_congr hsame]
  show (StateDB.addBalance _ _ _).supply (some id) = _
  rw [supply_addBalance, if_neg nofun, Int.add_zero]

/-- **A step publishes the asset, or leaves its sum.** -/
theorem asset_chainStep {c : ChainStep} (hc : KeepsAsset P id c L) (hfit : Fit (some id) L.state)
    (hstep : chainStep P c L = some L') :
    Fit (some id) L'.state ∧ ((∃ n, Publishes P id n c L) → L.state.supply (some id) = 0) ∧
      (∀ n, Publishes P id n c L → L'.state.supply (some id) = n) ∧
      ((∀ n, ¬ Publishes P id n c L) → L'.state.supply (some id) = L.state.supply (some id)) := by
  cases c with
  | close =>
    obtain ⟨hsup, hfit'⟩ := asset_close hc hfit hstep
    exact ⟨hfit', fun h => h.choose_spec.elim, fun _ h => h.elim, fun _ => hsup⟩
  | transaction delegatePoll ctx blockHash i tx =>
    obtain ⟨msg, action, hmsg, hact, hsup, hfit'⟩ := asset_transaction hc hfit hstep
    have hfresh := (hc msg action hmsg hact).fresh
    have hzero : ∀ {n}, Publishes P id n (.transaction delegatePoll ctx blockHash i tx) L →
        L.state.supply (some id) = 0 := by
      rintro n ⟨msg', hmsg', hact', hid, -⟩
      cases hmsg.symm.trans hmsg'
      cases hact.symm.trans hact'
      exact hfresh rfl hid
    refine ⟨hfit', fun ⟨n, hn⟩ => hzero hn, fun n hn => ?_, fun hno => ?_⟩
    · have hstart := hzero hn
      obtain ⟨msg', hmsg', hact', hid, hinfo⟩ := hn
      cases hmsg.symm.trans hmsg'
      cases hact.symm.trans hact'
      rw [hsup, hstart, issued_publish hinfo, Int.zero_add]
      exact if_pos hid.symm
    · rw [hsup]
      unfold issued
      split
      · rename_i hinfo
        split
        · rename_i hid
          exact absurd ⟨msg, hmsg, hact, hid.symm, hinfo⟩ (hno _)
        · omega
      · omega

theorem asset_run {cs : List ChainStep} (hcs : Along (chainStep P) (KeepsAsset P id) cs L)
    (hne : n ≠ 0) (hfit : Fit (some id) L.state) (hsup : L.state.supply (some id) = n)
    (hrun : exec (chainStep P) cs L = some L') : L'.state.supply (some id) = n := by
  refine (invariant (I := fun L => Fit (some id) L.state ∧ L.state.supply (some id) = n)
    ?_ hcs ⟨hfit, hsup⟩ hrun).2
  rintro c L1 L2 hc ⟨hfit1, hsup1⟩ hstep
  obtain ⟨hfit2, hzero, -, hkeep⟩ := asset_chainStep hc hfit1 hstep
  refine ⟨hfit2, (hkeep fun m hm => hne ?_).trans hsup1⟩
  rw [← hsup1, hzero ⟨m, hm⟩]

theorem fit_run {cs : List ChainStep} (hcs : Along (chainStep P) (KeepsAsset P id) cs L)
    (hfit : Fit (some id) L.state) (hrun : exec (chainStep P) cs L = some L') :
    Fit (some id) L'.state :=
  invariant (I := fun L => Fit (some id) L.state)
    (fun _ _ _ hc h hstep => (asset_chainStep hc h hstep).1) hcs hfit hrun

/-- **The sum of an asset over all accounts stays what was published**, in every state of every
run from genesis whose steps keep it. -/
theorem asset_supply_fixed {trie : Trie} {delegates : DelegateState.DelegateTrie} {gasLimit : Nat}
    {before after : List ChainStep} {c : ChainStep}
    (hcs : Run.Along (chainStep P) (KeepsAsset P id) (before ++ c :: after)
      (.genesis trie delegates gasLimit))
    (hbefore : Run.exec (chainStep P) before (.genesis trie delegates gasLimit) = some L)
    (hpub : Publishes P id n c L) (hafter : Run.exec (chainStep P) (c :: after) L = some L') :
    L'.state.supply (some id) = n := by
  obtain ⟨hstart, hrest⟩ := along_append.1 hcs
  obtain ⟨hc, hafters⟩ := hrest L hbefore
  obtain ⟨L1, hstep, htail⟩ := exec_cons_eq_some.1 hafter
  have hfit := fit_run hstart (.new nofun) hbefore
  obtain ⟨hfit1, -, hsup, -⟩ := asset_chainStep hc hfit hstep
  have hne : n ≠ 0 := by
    cases c with
    | close => exact hpub.elim
    | transaction =>
      obtain ⟨msg, -, -, -, hinfo⟩ := hpub
      exact supply_ne_zero hinfo
  exact asset_run (hafters L1 hstep) hne hfit1 (hsup n hpub) htail

end Chains

/-! ## A contract at an address that has the asset -/

/-- The small chain, where a contract or an asset gets a new address each time. -/
def coinEnv : ProcessEnv :=
  { describedEnv with
    createAddress := fun a n => if n = 0 then ~~~a else a + 2
    createAddress_ne := fun a n => by split <;> bv_omega }

def coinStart : Ledger := .genesis (smallTrie 1000000) ∅ 1000000

def sendTx : Transaction :=
  { smallTx with
    accountNonce := 1, action := 0, vote := none, recipient := some 3, asset := some (~~~1)
    amount := 10 }

def sendMsg : Message := asMessage.message sendTx [] ⟨"", "", none, ""⟩ 1

def contractTx : Transaction :=
  { smallTx with
    accountNonce := 2, action := 5, vote := none, recipient := none, payload := [1]
    gasLimit := 100000 }

def contractMsg : Message := asMessage.message contractTx [] ⟨"", "", none, ""⟩ 1

def coinStep (i : Nat) (tx : Transaction) : ChainStep := .transaction [7] smallContext 0 i tx

/-- `KeepsAssetTx` for the asset at the first address, but for the supply before a publication, by
running the transaction. -/
def keepsAsset (L : Ledger) (msg : Message) (action : Action) : Bool :=
  (semantics doubling true).checks (fun o _ => spares o)
      (transitionDb (newEVM coinEnv smallContext msg) coinEnv.encodeInfo msg L.gp) L.state &&
    (semantics doubling true).checks (fun o db => decide (lostBy (some (~~~1)) o db = 0))
      (execute (newEVM coinEnv smallContext msg) coinEnv.encodeInfo msg action
        (gasForExecution msg action)) (bought msg L.state)

theorem keepsAsset_coinStep {L : Ledger} {msg : Message} {action : Action} {i : Nat}
    {tx : Transaction} (hmsg : asMessage coinEnv tx = some msg)
    (hact : Action.ofCode msg.action = some action)
    (h : keepsAsset (L.prepare (coinEnv.txHash tx) 0 i) msg action = true)
    (hfresh : action = .publishAsset → L.state.supply (some (~~~1)) = 0) :
    KeepsAsset coinEnv (~~~1) (coinStep i tx) L := by
  intro msg' action' hmsg' hact'
  cases hmsg.symm.trans hmsg'
  cases hact.symm.trans hact'
  simp only [keepsAsset, Bool.and_eq_true] at h
  refine ⟨meets_of_checks h.1, .of_forall (fun _ _ hno => nomatch hno) _ _, ?_, fun hp _ => hfresh hp⟩
  exact ((meets_of_checks h.2).mono fun _ _ hd => of_decide_eq_true hd).lasting

theorem supply_coinStart (id : Address) : coinStart.state.supply (some id) = 0 := by
  refine Finset.sum_eq_zero fun a _ => ?_
  show (StateDB.new (smallTrie 1000000)).amount (.asset id) a = 0
  rw [amount_new]
  unfold smallTrie
  split
  · rfl
  · split <;> rfl

theorem publishes_coin : Publishes coinEnv (~~~1) 1000 (coinStep 0 publishTx) coinStart :=
  ⟨publishMsg, rfl, rfl, rfl, rfl⟩

/-- Publishing the asset and sending some of it are as they should be. -/
theorem keepsAsset_send : Along (chainStep coinEnv) (KeepsAsset coinEnv (~~~1))
    [coinStep 0 publishTx, coinStep 1 sendTx] coinStart := by
  have hpub : keepsAsset (coinStart.prepare (coinEnv.txHash publishTx) 0 0) publishMsg .publishAsset =
      true := by decide +kernel
  have hsend : (chainStep coinEnv (coinStep 0 publishTx) coinStart).map (fun L =>
      keepsAsset (L.prepare (coinEnv.txHash sendTx) 0 1) sendMsg .trans) = some true := by
    decide +kernel
  refine ⟨keepsAsset_coinStep rfl rfl hpub fun _ => supply_coinStart _, fun L hL => ?_⟩
  rw [hL] at hsend
  exact ⟨keepsAsset_coinStep rfl rfl (some.inj hsend) nofun, fun _ _ => trivial⟩

theorem asset_supply_fixed_send :
    ∃ L, Run.exec (chainStep coinEnv) [coinStep 0 publishTx, coinStep 1 sendTx] coinStart = some L ∧
      L.state.supply (some (~~~1)) = 1000 := by
  have hbefore : exec (chainStep coinEnv) [] coinStart = some coinStart := rfl
  exact exists_of_check (fun _ => True) (by decide +kernel) fun L hL _ =>
    asset_supply_fixed keepsAsset_send hbefore publishes_coin hL

/-- The contract is made at an address that has 10 of the asset, which are gone. -/
theorem not_asset_supply_fixed_contract :
    Publishes coinEnv (~~~1) 1000 (coinStep 0 publishTx) coinStart ∧
      ∃ L, Run.exec (chainStep coinEnv)
          [coinStep 0 publishTx, coinStep 1 sendTx, coinStep 2 contractTx] coinStart = some L ∧
        L.state.supply (some (~~~1)) = 990 := by
  refine ⟨publishes_coin, ?_⟩
  have hrun : (exec (chainStep coinEnv) [coinStep 0 publishTx, coinStep 1 sendTx]
      coinStart).map (fun L => ((chainStep coinEnv (coinStep 2 contractTx) L).isSome,
        (semantics doubling true).checks (fun o _ => spares o)
          (transitionDb (newEVM coinEnv smallContext contractMsg) coinEnv.encodeInfo contractMsg L.gp)
          (L.prepare (coinEnv.txHash contractTx) 0 2).state,
        ((semantics doubling true).run (execute (newEVM coinEnv smallContext contractMsg)
          coinEnv.encodeInfo contractMsg .createContract (gasForExecution contractMsg .createContract))
          (bought contractMsg (L.prepare (coinEnv.txHash contractTx) 0 2).state)).map fun r =>
            r.2.replaced (.asset (~~~1)) - (bought contractMsg
              (L.prepare (coinEnv.txHash contractTx) 0 2).state).replaced (.asset (~~~1)))) =
      some (true, true, some 10) := by decide +kernel
  obtain ⟨L, hL, hsome, heq⟩ := map_mk_eq_some.1 hrun
  obtain ⟨hspared, hlost⟩ := Prod.mk.inj heq
  obtain ⟨L', hL'⟩ := isSome_iff_exists.1 hsome
  obtain ⟨L1, hstep, hsend⟩ := exec_cons_eq_some.1 hL
  obtain ⟨hc, hcs⟩ := keepsAsset_send
  obtain ⟨hfit1, -, hsup1, -⟩ := asset_chainStep hc (.new nofun) hstep
  have hfit := fit_run (hcs L1 hstep) hfit1 hsend
  have hsup := asset_run (hcs L1 hstep) (by decide) hfit1 (hsup1 1000 publishes_coin) hsend
  have hmsg : asMessage coinEnv contractTx = some contractMsg := rfl
  obtain ⟨res, db, hexec, hsum⟩ := asset_lost hmsg rfl nofun hfit (meets_of_checks hspared) rfl hL'
  refine ⟨L', ?_, ?_⟩
  · rw [show [coinStep 0 publishTx, coinStep 1 sendTx, coinStep 2 contractTx] =
      [coinStep 0 publishTx, coinStep 1 sendTx] ++ [coinStep 2 contractTx] from rfl,
      exec_append, hL]
    exact exec_cons_eq_some.2 ⟨L', hL', rfl⟩
  · obtain ⟨r, hr, hten⟩ := map_eq_some_iff.1 hlost
    cases hexec.symm.trans hr
    have hten : db.replaced (.asset (~~~1)) - (bought contractMsg
      (L.prepare (coinEnv.txHash contractTx) 0 2).state).replaced (.asset (~~~1)) = 10 := hten
    omega

end GoAoa.Core
