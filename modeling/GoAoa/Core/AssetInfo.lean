import GoAoa.Core.Blocks
import GoAoa.State.Pinned

/-!
# The description of a published asset

`PublishAsset` makes an account for the asset that holds its description and nothing else. Such an
account counts as empty, so the `Finalise(true)` that ends the transaction deletes it, and
`GetAssetInfo` finds nothing. Only a balance keeps it: the description stays if the fee of the
publication went to the account of the asset itself (`info_permanent_iff`).
-/

namespace GoAoa.State.StateDB

open StateDB Account

variable {T : Trie} {db db' : StateDB} {a id : Address} {data : Bytes} {flag : Bool}

/-- `GetAssetInfo`, as it is encoded; `none` for an account that is not one of an asset. -/
def getAssetInfo (db : StateDB) (a : Address) : Option Bytes :=
  (db.getStateObject a).bind fun o =>
    if o.data.assetData = [] then none else some o.data.assetData

/-! ## An account with a description and a balance -/

def Described (id : Address) (data : Bytes) (a : Address) (x : Option Shown) : Prop :=
  a = id → ∃ d, x = some (d, false) ∧ d.assetData = data ∧ 0 < d.balance

theorem described_of_ne (h : a ≠ id) (x : Option Shown) : Described id data a x :=
  fun heq => absurd heq h

variable {d : Account}

theorem described_some {s : Bool} : Described id data a (some (d, s)) ↔
      (a = id → s = false ∧ d.assetData = data ∧ 0 < d.balance) := by
  constructor
  · intro h ha
    obtain ⟨d', heq, hdata, hpos⟩ := h ha
    cases heq
    exact ⟨rfl, hdata, hpos⟩
  · intro h ha
    obtain ⟨rfl, hdata, hpos⟩ := h ha
    exact ⟨d, rfl, hdata, hpos⟩

theorem described_write {o : StateObject} {w : Write}
    (h : Described id data a (some (o.data, o.suicided))) (hsui : a = id → w ≠ .suicide)
    (hbal : a = id → ∀ v, w = .field (.balance v) → o.data.balance ≤ v) :
    Described id data a (some ((w.apply o).data, (w.apply o).suicided)) ∧
      Restores T (Described id data) (w.entry a o) := by
  rw [described_some] at h
  cases w with
  | field f =>
    refine ⟨described_some.2 fun ha => ?_, fun d s hd => described_some.2 fun ha => ?_⟩
    · obtain ⟨hs, hdata, hpos⟩ := h ha
      refine ⟨hs, by cases f <;> exact hdata, ?_⟩
      cases f with
      | balance v => exact Int.lt_of_lt_of_le hpos (hbal ha v rfl)
      | _ => exact hpos
    · obtain ⟨hs, hdata, hpos⟩ := described_some.1 hd ha
      refine ⟨hs, by cases f <;> exact hdata, ?_⟩
      cases f with
      | balance => exact (h ha).2.2
      | _ => exact hpos
  | addAsset | subAsset =>
    refine ⟨described_some.2 h, fun o' ho' => ?_⟩
    rw [described_some] at ho'
    exact described_some.2 ho'
  | touch => exact ⟨described_some.2 h, trivial⟩
  | suicide =>
    have ha : a ≠ id := fun ha => hsui ha rfl
    exact ⟨described_of_ne ha _, fun _ _ _ => described_of_ne ha _⟩

theorem described_edit (h : Holds T (Described id data) db) {f : Writer}
    (hf : a = id → ∀ o w, f o = some w → w ≠ .suicide ∧
      ∀ v, w = .field (.balance v) → o.data.balance ≤ v) :
    Carries T (Described id data) db (db.edit a f) := by
  refine h.edit (fun hnone => ?_) fun w hw hP =>
    described_write hP (fun ha => (hf ha _ w hw).1) fun ha => (hf ha _ w hw).2
  have ha : a ≠ id := by
    rintro rfl
    obtain ⟨d, heq, -⟩ := h.shown a rfl
    rw [shown, hnone] at heq
    cases heq
  exact ⟨described_of_ne ha _, described_of_ne ha _⟩

/-! ## Writing it -/

structure Listed (id : Address) (data : Bytes) (db : StateDB) : Prop where
  shown : ∃ d, db.shown id = some (d, false) ∧ d.assetData = data ∧ 0 < d.balance
  stored : ∃ s, db.trie id = some s ∧ s.assetData = data ∧ 0 < s.balance

theorem Listed.holds (h : Listed id data db) : Holds db.trie (Described id data) db :=
  ⟨rfl, fun _ ha => ha ▸ h.shown⟩

theorem Listed.getAssetInfo (h : Listed id data db) (hdata : data ≠ []) :
    db.getAssetInfo id = some data := by
  obtain ⟨d, hs, rfl, -⟩ := h.shown
  obtain ⟨o, ho, heq⟩ := shown_eq_some db id hs
  obtain ⟨rfl, -⟩ := Prod.mk.inj heq
  unfold getAssetInfo
  rw [ho]
  exact if_neg hdata

theorem listed_new (h : ∃ s, T id = some s ∧ s.assetData = data ∧ 0 < s.balance) :
    Listed id data (.new T) := by
  obtain ⟨s, hs, hdata, hpos⟩ := h
  refine ⟨⟨s.decode, ?_, hdata, Int.ofNat_lt.2 hpos⟩, s, hs, hdata, hpos⟩
  show ((T id).map _).map _ = _
  rw [hs]
  rfl

theorem encode_info {s : StoredAccount} (h : d.encode = some s) :
    s.assetData = d.assetData ∧ (s.balance : Int) = d.balance := by
  refine ⟨?_, (encode_eq_some h).2.1⟩
  unfold encode at h
  split at h
  · split at h
    · cases h; rfl
    · cases h
  · cases h

theorem listed_finalise (hs : ∃ d, db.shown id = some (d, false) ∧ d.assetData = data ∧ 0 < d.balance)
    (ht : id ∈ db.stateObjectsDirty ∨ ∃ s, db.trie id = some s ∧ s.assetData = data ∧ 0 < s.balance)
    (hf : db.finalise flag = some db') : Listed id data db' := by
  obtain ⟨d, hs, hdata, hpos⟩ := hs
  obtain ⟨o, ho, heq⟩ := shown_eq_some db id hs
  obtain ⟨rfl, hsui⟩ := Prod.mk.inj heq
  have hkept : removes flag o = false := by
    have hne := Int.ne_of_gt hpos
    simp [removes, ← hsui, isEmpty, hne]
  rcases finalise_at hf id with ⟨-, slot, slot', hslot, hslot', hfin⟩ | ⟨hd, hobj, htrie⟩
  · obtain rfl := slot_of_get ho hslot
    rcases finaliseSlot_cases hfin with ⟨hrem, -⟩ | ⟨-, rfl, s, henc, htrie⟩
    · rw [show removes flag o = true from hrem] at hkept
      cases hkept
    · obtain ⟨hd', hb'⟩ := encode_info henc
      refine ⟨⟨o.data, ?_, hdata, hpos⟩, s, htrie, hd'.trans hdata, ?_⟩
      · rw [shown_of_get db' id (get_live hslot'), ← hsui]
      · have : (0 : Int) < s.balance := by rw [hb']; exact hpos
        omega
  · refine ⟨⟨o.data, ?_, hdata, hpos⟩, ?_⟩
    · rw [shown_congr hobj htrie, hs]
    · rw [htrie]
      exact ht.resolve_left hd

theorem finalise_empty {s : Bool} (hs : db.shown a = some (d, s))
    (hempty : d.isEmpty = true) (hd : a ∈ db.stateObjectsDirty)
    (hf : db.finalise true = some db') : db'.getStateObject a = none := by
  obtain ⟨o, ho, heq⟩ := shown_eq_some db a hs
  cases heq
  rcases finalise_at hf a with ⟨-, slot, slot', hslot, hslot', hfin⟩ | ⟨hnot, -⟩
  · obtain rfl := slot_of_get ho hslot
    rcases finaliseSlot_cases hfin with ⟨-, -, rfl⟩ | ⟨hrem, -⟩
    · exact get_deleted hslot'
    · simp [removes, Slot.obj, hempty] at hrem
  · exact absurd hd hnot

end GoAoa.State.StateDB

namespace GoAoa.VM

open State State.StateDB

variable {T : Trie} {db db' : StateDB} {a id : Address} {data : Bytes} {g : Growth}

/-- The call leaves the account of an asset: it is not made again, removed or described anew, and
nothing is taken from it. -/
def LeavesAsset (id : Address) : OpPred
  | .createAccount a, _ => a ≠ id
  | .createObject a, _ => a ≠ id
  | .suicide a, _ => a ≠ id
  | .setAssetData a _, _ => a ≠ id
  | .addBalance a amount, _ => a = id → 0 ≤ amount
  | .subBalance a amount, _ => a = id → amount ≤ 0
  | .vote user _ _ _, _ => user ≠ id
  | _, _ => True

theorem described_exec {o : Op} {x : Ans o} (h : Holds T (Described id data) db)
    (hg : LeavesAsset id o db) (hx : exec g o db = some (x, db')) :
    Carries T (Described id data) db db' := by
  cases executed hx with
  | idle => exact ⟨h, .refl db⟩
  | refund | log => exact ⟨h.of_objects rfl rfl, .of_append rfl trivial⟩
  | account | object => exact h.create (fun _ => described_of_ne hg _) (described_of_ne hg _)
  | edit writes =>
    refine described_edit h fun ha ob w hf => ?_
    cases writes ob w hf with
    | addBalance | subBalance =>
      refine ⟨nofun, fun v hv => ?_⟩
      cases hv
      have := hg ha
      omega
    | suicide => exact absurd ha hg
    | _ => exact ⟨nofun, nofun⟩
  | describe => exact ⟨h.write (described_of_ne hg _), .of_journal rfl⟩
  | vote run =>
    exact h.vote (fun _ _ _ => described_of_ne hg _)
      (fun _ => ⟨described_of_ne hg _, described_of_ne hg _⟩) run

theorem Listed.steps {ep : Bool} (h : Listed id data db)
    (hs : (semantics g ep).Steps (LeavesAsset id) db db') : Listed id data db' := by
  have hI := ((keeps_of_exec described_exec).steps hs h.holds).1
  refine ⟨hI.shown id rfl, ?_⟩
  rw [hI.trie]
  exact h.stored

end GoAoa.VM

namespace GoAoa.Core

open State State.StateDB VM Semantics

/-! ## Chains -/

section Chains

variable {P : ProcessEnv} {L L' : Ledger} {id : Address} {data : Bytes}

/-- No call of the step's transaction touches the account of an asset but to pay to it. -/
def LeavesAssetIn (P : ProcessEnv) (id : Address) : ChainStep → Ledger → Prop
  | .transaction delegatePoll ctx blockHash i tx, L => ∀ msg, asMessage P tx = some msg →
      (P.semantics ctx).Meets (LeavesAsset id)
        (transitionDb (newEVM (P.withPoll delegatePoll) ctx msg) P.encodeInfo msg L.gp)
        (L.prepare (P.txHash tx) blockHash i).state
  | .close .., _ => True

theorem listed_chainStep {c : ChainStep} (hc : LeavesAssetIn P id c L)
    (h : Listed id data L.state) (hstep : chainStep P c L = some L') : Listed id data L'.state := by
  cases c with
  | transaction delegatePoll ctx blockHash i tx =>
    obtain ⟨receipt, happ⟩ := chainStep_transaction hstep
    obtain ⟨msg, gp, v, db, hmsg, hrun, -, hfin⟩ := applyTransaction_ok happ
    have hstart : Listed id data (L.prepare (P.txHash tx) blockHash i).state := ⟨h.shown, h.stored⟩
    have hdb := Listed.steps hstart ((hc msg hmsg).steps hrun)
    exact listed_finalise hdb.shown (.inr hdb.stored) hfin
  | close ctx =>
    obtain ⟨state, delegates, hstate, -, rfl⟩ := chainStep_close hstep
    have hreward : Listed id data (accumulateRewards P ctx L.state) := by
      refine @Listed.steps _ _ _ _ P.growth true h (.exec (o := .addBalance ..) (.refl _) ?_ rfl)
      exact fun _ => Int.natCast_nonneg _
    exact listed_new (listed_finalise hreward.shown (.inr hreward.stored) hstate).stored

theorem listed_run {cs : List ChainStep} (hc : Run.Along (chainStep P) (LeavesAssetIn P id) cs L)
    (h : Listed id data L.state) (hrun : Run.exec (chainStep P) cs L = some L') :
    Listed id data L'.state :=
  Run.invariant (fun _ _ _ hc h hstep => listed_chainStep hc h hstep) hc h hrun

end Chains

/-! ## The publication -/

section Publication

variable {E : EVM} {enc : InfoEncoder} {msg : Message} {addr : Address}
  {ai : AssetInfo} {supply : Int} {db : StateDB} {reply : Reply} {a b : Address}

theorem mem_dirty_edit (db : StateDB) (f : Writer)
    (h : b ∈ db.stateObjectsDirty) : b ∈ (db.edit a f).stateObjectsDirty :=
  (Adds.edit db a f).dirty b h

theorem shown_edit_of_ne (db : StateDB) (f : Writer) (h : b ≠ a) :
    (db.edit a f).shown b = db.shown b :=
  (shown_edit db a b f).trans (if_neg h)

theorem shown_published (E : EVM) (enc : InfoEncoder) (addr : Address)
    (ai : AssetInfo) (supply : Int) (db : StateDB) :
    let id := E.createAddress addr ((view db).getNonce addr)
    (published E enc addr ai supply db).shown id =
        some ({ Account.blank with assetData := enc addr ai }, false) ∧
      id ∈ (published E enc addr ai supply db).stateObjectsDirty := by
  intro id
  have hget : ((numbered db addr).createObject id).getStateObject id = some (fresh 0) := by
    unfold createObject
    rw [getStateObject_write, if_pos rfl]
    rfl
  have hdirty : id ∈ ((numbered db addr).createObject id).stateObjectsDirty := List.mem_insert_self
  have hset : (((numbered db addr).createObject id).setAssetData id (enc addr ai)).shown id =
      some ({ Account.blank with assetData := enc addr ai }, false) ∧
      id ∈ (((numbered db addr).createObject id).setAssetData id
        (enc addr ai)).stateObjectsDirty := by
    unfold setAssetData
    rw [hget]
    exact ⟨(shown_write _ _ _ _).trans (if_pos rfl), hdirty⟩
  refine ⟨?_, mem_dirty_edit _ _ hset.2⟩
  show (addAssetBalance _ addr id supply).shown id = _
  rw [addAssetBalance, shown_edit_of_ne _ _ (E.createAddress_ne addr _)]
  exact hset.1

theorem shown_settled {d : Account} (hs : db.shown a = some (d, false)) (hd : a ∈ db.stateObjectsDirty)
    (hne : a ≠ msg.sender) :
    (settled E msg reply db).shown a = some ({ d with
      balance := if E.coinbase = a then
        d.balance + u64 (msg.gasLimit - returned msg reply db.refund) * msg.gasPrice
        else d.balance }, false) ∧
      a ∈ (settled E msg reply db).stateObjectsDirty := by
  unfold settled
  generalize (u64 (msg.gasLimit - returned msg reply db.refund) : Int) * msg.gasPrice = fee
  generalize (returned msg reply db.refund : Int) * msg.gasPrice = back
  have hmade : (ensured db msg.sender).shown a = some (d, false) ∧
      a ∈ (ensured db msg.sender).stateObjectsDirty := by
    refine ⟨shown_ensured_of_some hs msg.sender, ?_⟩
    unfold ensured
    split
    · exact hd
    · exact (Adds.create _).dirty a hd
  have hback : ((ensured db msg.sender).addBalance msg.sender back).shown a = some (d, false) :=
    (shown_edit_of_ne _ _ hne).trans hmade.1
  refine ⟨?_, mem_dirty_edit _ _ (mem_dirty_edit _ _ hmade.2)⟩
  by_cases hc : E.coinbase = a
  · rw [if_pos hc, hc]
    exact shown_addBalance_self hback fee
  · rw [if_neg hc]
    exact (shown_edit_of_ne _ _ (Ne.symm hc)).trans hback

/-- **How a publication that goes through ends**: it is settled, and the accounts are written. -/
theorem publication_ends {P : ProcessEnv} {ctx : BlockContext} {tx : Transaction} {L L' : Ledger}
    {receipt : Receipt} (hmsg : asMessage P tx = some msg)
    (hact : Action.ofCode msg.action = some .publishAsset)
    (happ : applyTransaction P ctx tx L = some (.ok receipt, L')) :
    intrinsicGas msg.data .publishAsset ≤ msg.gasLimit ∧ ∃ supply,
      isAssetInfoValid msg.assetInfo = .ok supply ∧ 0 ≤ supply ∧
      (settled (newEVM P ctx msg) msg ⟨[], gasForExecution msg .publishAsset, none⟩
        (published (newEVM P ctx msg) P.encodeInfo msg.sender msg.assetInfo supply
          (bought msg L.state).snapshot.2)).finalise (P.config.isAres ctx.number) = some L'.state := by
  obtain ⟨msg', gp, v, db, hmsg', hrun, -, hfin⟩ := applyTransaction_ok happ
  cases hmsg.symm.trans hmsg'
  obtain ⟨action, reply, db1, hadm, hgas, hexec, -, -, rfl⟩ := transition_ok hrun
  cases (admission_ok hadm).1.symm.trans hact
  obtain ⟨rfl, supply, hinfo, hpos, rfl⟩ := execute_publish (exist_bought msg L.state) hexec
  exact ⟨hgas, supply, hinfo, hpos, hfin⟩

theorem used_ne_zero_iff (hlimit : msg.gasLimit < 2 ^ 64)
    (hgas : intrinsicGas msg.data .publishAsset ≤ msg.gasLimit) (counter : Nat) :
    u64 (msg.gasLimit - returned msg ⟨[], gasForExecution msg .publishAsset, none⟩ counter) ≠ 0 ↔
      intrinsicGas msg.data .publishAsset ≠ 0 := by
  have hle : gasForExecution msg .publishAsset ≤ msg.gasLimit := Nat.sub_le _ _
  have hret := returned_le (r := ⟨[], gasForExecution msg .publishAsset, none⟩) hlimit hle counter
  rw [(used_eq hlimit hle counter).2]
  simp only [gasForExecution] at hret ⊢
  omega

theorem shown_publication (hlimit : msg.gasLimit < 2 ^ 64)
    (hgas : intrinsicGas msg.data .publishAsset ≤ msg.gasLimit) :
    let id := E.createAddress msg.sender ((view db).getNonce msg.sender)
    let t := settled E msg ⟨[], gasForExecution msg .publishAsset, none⟩
      (published E enc msg.sender msg.assetInfo supply db)
    ∃ bal : Int, t.shown id = some ({ Account.blank with
        balance := bal, assetData := enc msg.sender msg.assetInfo }, false) ∧
      id ∈ t.stateObjectsDirty ∧ 0 ≤ bal ∧
      (bal ≠ 0 ↔ E.coinbase = id ∧ msg.gasPrice ≠ 0 ∧ intrinsicGas msg.data .publishAsset ≠ 0) := by
  intro id t
  obtain ⟨hpub, hdirty⟩ := shown_published E enc msg.sender msg.assetInfo supply db
  have hne : id ≠ msg.sender := E.createAddress_ne _ _
  obtain ⟨hset, hmark⟩ := shown_settled hpub hdirty hne
  refine ⟨_, hset, hmark, ?_⟩
  have hused := used_ne_zero_iff hlimit hgas (published E enc msg.sender msg.assetInfo supply db).refund
  split
  · rename_i hc
    rw [← hused, show Account.blank.balance = 0 from rfl, Int.zero_add]
    refine ⟨Int.mul_nonneg (by omega) (by omega), fun hne => ?_, fun h => ?_⟩
    · refine ⟨hc, fun hp => hne ?_, fun hu => hne ?_⟩
      · rw [hp, Int.natCast_zero, Int.mul_zero]
      · rw [hu, Int.natCast_zero, Int.zero_mul]
    · exact Int.mul_ne_zero (Int.natCast_ne_zero.2 h.2.2) (Int.natCast_ne_zero.2 h.2.1)
  · rename_i hc
    exact ⟨Int.le_refl 0, absurd rfl, fun h => absurd h.1 hc⟩

def assetOf (P : ProcessEnv) (msg : Message) (db : StateDB) : Address :=
  P.createAddress msg.sender ((view db).getNonce msg.sender)

/-- **When the description of an asset stays.** After a publication with `Finalise(true)`, every
later state of every run that leaves the account of the asset has the description, exactly if the
fee of the publication was paid to that account and is not zero. -/
theorem info_permanent_iff {P : ProcessEnv} {ctx : BlockContext} {tx : Transaction} {L L' : Ledger}
    {receipt : Receipt} (henc : ∀ addr ai, P.encodeInfo addr ai ≠ [])
    (hares : P.config.isAres ctx.number = true) (hlimit : tx.gasLimit < 2 ^ 64)
    (hmsg : asMessage P tx = some msg) (hact : Action.ofCode tx.action = some .publishAsset)
    (happ : applyTransaction P ctx tx L = some (.ok receipt, L')) :
    (∀ cs L'', Run.Along (chainStep P) (LeavesAssetIn P (assetOf P msg L.state)) cs L' →
      Run.exec (chainStep P) cs L' = some L'' →
      L''.state.getAssetInfo (assetOf P msg L.state) =
        some (P.encodeInfo msg.sender msg.assetInfo)) ↔
    ctx.coinbase = assetOf P msg L.state ∧ tx.price ≠ 0 ∧
      intrinsicGas tx.payload .publishAsset ≠ 0 := by
  obtain ⟨vote, ai, sender, -, -, heq⟩ := asMessage_eq hmsg
  have hgasLimit : msg.gasLimit = tx.gasLimit := by rw [heq]; rfl
  have hprice : msg.gasPrice = tx.price := by rw [heq]; rfl
  have hdata : msg.data = tx.payload := by rw [heq]; rfl
  have hact' : Action.ofCode msg.action = some .publishAsset := by rw [heq]; exact hact
  obtain ⟨hgas, supply, -, -, hfin⟩ := publication_ends hmsg hact' happ
  obtain ⟨bal, hset, hmark, hpos, hbal⟩ := @shown_publication (newEVM P ctx msg) P.encodeInfo msg
    supply (bought msg L.state).snapshot.2 (hgasLimit ▸ hlimit) hgas
  have hid : (newEVM P ctx msg).createAddress msg.sender
      ((view (bought msg L.state).snapshot.2).getNonce msg.sender) = assetOf P msg L.state :=
    congrArg (P.createAddress msg.sender) (nonce_bought msg L.state msg.sender)
  rw [hid] at hset hmark hbal
  rw [hares] at hfin
  rw [← hdata, ← hprice, show ctx.coinbase = (newEVM P ctx msg).coinbase from rfl, ← hbal]
  constructor
  · rintro h rfl
    have hinfo := h [] L' trivial rfl
    unfold getAssetInfo at hinfo
    rw [finalise_empty hset rfl hmark hfin] at hinfo
    cases hinfo
  · intro hne cs L'' hcs hrun
    have hlisted :=
      listed_finalise ⟨_, hset, rfl, lt_of_le_of_ne hpos (Ne.symm hne)⟩ (.inl hmark) hfin
    exact (listed_run hcs hlisted hrun).getAssetInfo (henc _ _)

def describedEnv : ProcessEnv := { smallEnv with encodeInfo := fun _ _ => [1] }

def publishTx : Transaction :=
  { smallTx with
    action := 4, vote := none, recipient := none, gasLimit := 100000
    assetInfo := some (some ⟨"Gold", "GLD", some 1000, "gold"⟩) }

def blockBy (coinbase : Address) : BlockContext := { smallContext with coinbase := coinbase }

def publishMsg : Message := asMessage.message publishTx [] ⟨"Gold", "GLD", some 1000, "gold"⟩ 1

theorem publishTx_ok (coinbase : Address) (h : coinbase = 9 ∨ coinbase = ~~~1) :
    ∃ receipt L', applyTransaction describedEnv (blockBy coinbase) publishTx smallStart =
        some (.ok receipt, L') ∧
      (L'.state.getAssetInfo (~~~1)).isSome = decide (coinbase = ~~~1) := by
  have hrun : (applyTransaction describedEnv (blockBy coinbase) publishTx smallStart).map
      (fun r => (r.1.toOption.isSome, (r.2.state.getAssetInfo (~~~1)).isSome)) =
      some (true, decide (coinbase = ~~~1)) := by
    rcases h with rfl | rfl <;> decide +kernel
  obtain ⟨⟨res, L'⟩, hr, hok, hinfo⟩ := map_mk_eq_some.1 hrun
  cases res with
  | error => cases hok
  | ok receipt => exact ⟨receipt, L', hr, hinfo⟩

theorem info_permanent_own_coinbase :
    ∃ receipt L', applyTransaction describedEnv (blockBy (~~~1)) publishTx smallStart =
        some (.ok receipt, L') ∧
      ∀ cs L'', Run.Along (chainStep describedEnv) (LeavesAssetIn describedEnv (~~~1)) cs L' →
        Run.exec (chainStep describedEnv) cs L' = some L'' →
        L''.state.getAssetInfo (~~~1) = some [1] := by
  obtain ⟨receipt, L', happ, -⟩ := publishTx_ok (~~~1) (.inr rfl)
  have hiff := @info_permanent_iff publishMsg describedEnv _ _ _ _ _
    (fun _ _ => List.cons_ne_nil _ _) rfl
    (by decide) rfl rfl happ
  exact ⟨receipt, L', happ, hiff.2 ⟨rfl, by decide, by decide⟩⟩

/-- In the block of another coinbase the description is gone once the publication is over. -/
theorem not_info_permanent_publish :
    ∃ receipt L', applyTransaction describedEnv (blockBy 9) publishTx smallStart =
        some (.ok receipt, L') ∧
      L'.state.getAssetInfo (assetOf describedEnv publishMsg smallStart.state) = none := by
  obtain ⟨receipt, L', happ, hinfo⟩ := publishTx_ok 9 (.inl rfl)
  exact ⟨receipt, L', happ, Option.isNone_iff_eq_none.1 (Option.isSome_eq_false_iff.1 hinfo)⟩

end Publication

end GoAoa.Core
