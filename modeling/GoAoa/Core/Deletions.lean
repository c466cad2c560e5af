import GoAoa.Core.Processor
import GoAoa.State.Pinned

/-!
# Accounts that were deleted in a block

From the Ares block on every transaction ends with `Finalise(true)`, which deletes empty accounts.
Their objects stay in the map and in the dirty set. The block ends with `IntermediateRoot(false)`,
which goes through the dirty set again and deletes only what has self-destructed, so that the
empty accounts are written once more (`absent_iff_suicided`).
-/

namespace GoAoa.State.StateDB

variable {db db' : StateDB} {a b : Address} {o : StateObject}

/-- The next `Finalise(true)` deletes the object of the account. -/
def Deletes (db : StateDB) (a : Address) (o : StateObject) : Prop :=
  a ∈ db.stateObjectsDirty ∧ (db.stateObjects a).map Slot.obj = some o ∧ removes true o = true

/-- The object is marked as deleted and still dirty. -/
def Deleted (db : StateDB) (a : Address) (o : StateObject) : Prop :=
  a ∈ db.stateObjectsDirty ∧ db.stateObjects a = some (.deleted o)

theorem Deletes.finalise (h : db.Deletes a o) (hf : db.finalise true = some db') :
    db'.trie a = none ∧ db'.Deleted a o := by
  obtain ⟨hmem, hobj, hrem⟩ := h
  obtain ⟨slot, hslot, rfl⟩ := Option.map_eq_some_iff.1 hobj
  rcases finalise_at hf a with ⟨-, slot1, slot', hslot1, hslot', hfin⟩ | ⟨hnot, -⟩
  · cases hslot.symm.trans hslot1
    rcases finaliseSlot_cases hfin with ⟨-, htrie, rfl⟩ | ⟨hkeep, -⟩
    · exact ⟨htrie, (finalise_rest hf).1 ▸ hmem, hslot'⟩
    · rw [hrem] at hkeep
      cases hkeep
  · exact absurd hmem hnot

theorem slot_edit_of_ne (db : StateDB) (f : Writer) (h : b ≠ a) :
    (db.edit a f).stateObjects b = db.stateObjects b := by
  have hget : (db.getOrNewStateObject a).1.stateObjects b = db.stateObjects b := by
    rcases getOrNew_cases db a with ⟨-, heq⟩ | ⟨-, -, heq⟩ <;> rw [heq]
    exact Function.update_of_ne h _ _
  unfold edit
  dsimp only
  cases f (db.getOrNewStateObject a).2 with
  | none => exact hget
  | some => exact (Function.update_of_ne h _ _).trans hget

theorem Deleted.edit (h : db.Deleted b o) (f : Writer) (hne : b ≠ a) : (db.edit a f).Deleted b o :=
  ⟨(Adds.edit db a f).dirty b h.1, (slot_edit_of_ne db f hne).trans h.2⟩

/-- **What `Finalise(false)` leaves of a deleted account.** -/
theorem Deleted.finalise_false (h : db.Deleted a o) (hf : db.finalise false = some db') :
    db'.trie a = none ↔ o.suicided = true := by
  rcases finalise_at hf a with ⟨-, slot, slot', hslot, -, hfin⟩ | ⟨hnot, -⟩
  · cases h.2.symm.trans hslot
    have hrem : removes false o = o.suicided := by simp [removes]
    rcases finaliseSlot_cases hfin with ⟨hsui, htrie, -⟩ | ⟨hsui, -, s, -, htrie⟩
    · exact ⟨fun _ => hrem.symm.trans hsui, fun _ => htrie⟩
    · rw [htrie]
      refine ⟨fun heq => (by cases heq), fun heq => ?_⟩
      rw [hrem.symm.trans hsui] at heq
      cases heq
  · exact absurd h.1 hnot

end GoAoa.State.StateDB

namespace GoAoa.Core

open List Option State VM DelegateState

/-! ## Blocks -/

section Blocks

variable {P : ProcessEnv} {ctx : BlockContext} {header : Header} {blockHash : Hash}
  {txs : List Transaction} {tx : Transaction} {state : StateDB} {delegates : DelegateDB}
  {receipts receipts' : List Receipt} {L L' : Ledger} {a : Address} {o : StateObject}

/-- The `Finalise` that ends the transaction deletes the object of the account. -/
def TxDeletes (P : ProcessEnv) (ctx : BlockContext) (tx : Transaction) (L : Ledger) (a : Address)
    (o : StateObject) : Prop :=
  ∃ msg r, asMessage P tx = some msg ∧ (P.semantics ctx).run
      (transitionDb (newEVM P ctx msg) P.encodeInfo msg L.gp) L.state = some r ∧
    r.2.Deletes a o

/-- After the transaction the account is out of the trie, and its object is still there. -/
theorem TxDeletes.deleted {receipt : Receipt} (hares : P.config.isAres ctx.number = true)
    (h : TxDeletes P ctx tx L a o) (happ : applyTransaction P ctx tx L = some (.ok receipt, L')) :
    L'.state.trie a = none ∧ L'.state.Deleted a o := by
  obtain ⟨msg, r, hmsg, hrun, hdel⟩ := h
  obtain ⟨msg', gp, v, db, hmsg', hrun', -, hfin⟩ := applyTransaction_ok happ
  cases hmsg.symm.trans hmsg'
  cases hrun.symm.trans hrun'
  rw [hares] at hfin
  exact hdel.finalise hfin

theorem Deleted.finalize (h : L.state.Deleted a o) (hne : a ≠ ctx.coinbase)
    (hfin : finalize P ctx L = some L') : L'.state.trie a = none ↔ o.suicided = true := by
  obtain ⟨state, hstate, hfin⟩ := bind_eq_some_iff.1 hfin
  obtain ⟨-, -, rfl⟩ := map_eq_some_iff.1 hfin
  exact StateDB.Deleted.finalise_false (h.edit _ hne) hstate

theorem processTxs_append {i : Nat} {txs' : List Transaction}
    (h : processTxs P ctx blockHash i txs L = some (.ok receipts, L')) :
    processTxs P ctx blockHash i (txs ++ txs') L =
      (processTxs P ctx blockHash (i + txs.length) txs' L').map fun q =>
        (q.1.map fun rest => receipts ++ rest, q.2) := by
  induction txs generalizing i L receipts with
  | nil =>
    obtain ⟨heq, rfl⟩ := Prod.mk.inj (some.inj h)
    cases heq
    rw [nil_append, length_nil, Nat.add_zero]
    cases processTxs P ctx blockHash i txs' L with
    | none => rfl
    | some q => rcases q with ⟨_ | _, L1⟩ <;> rfl
  | cons tx txs ih =>
    obtain ⟨⟨res, L1⟩, happ, h⟩ := bind_eq_some_iff.1 h
    cases res with
    | error => cases h
    | ok =>
      obtain ⟨⟨rest, L2⟩, hrest, hres, rfl⟩ := map_mk_eq_some.1 h
      cases rest with
      | error => cases hres
      | ok =>
        obtain rfl := Except.ok.inj hres
        have hlen : i + (tx :: txs).length = i + 1 + txs.length := by
          rw [length_cons]; omega
        rw [cons_append, processTxs, happ, bind_some, hlen]
        rw [ih hrest]
        cases processTxs P ctx blockHash (i + 1 + txs.length) txs' L2 with
        | none => rfl
        | some q => rcases q with ⟨_ | _, L3⟩ <;> rfl

/-- **Which deleted accounts stay away.** The last transaction of a block deletes an account that
is not the coinbase; after `Finalize` the account is not in the trie exactly if it had
self-destructed. -/
theorem absent_iff_suicided (hares : P.config.isAres header.number = true)
    (htxs : processTxs P (Header.context header) blockHash 0 txs
      ⟨state, delegates, header.gasLimit, 0⟩ = some (.ok receipts, L))
    (hdel : TxDeletes P (Header.context header) tx
      (L.prepare (P.txHash tx) blockHash txs.length) a o) (hne : a ≠ header.coinbase)
    (h : process P header blockHash (txs ++ [tx]) state delegates = some (.ok receipts', L')) :
    L'.state.trie a = none ↔ o.suicided = true := by
  obtain ⟨⟨res, L1⟩, hproc, h⟩ := bind_eq_some_iff.1 h
  rw [processTxs_append htxs, Nat.zero_add] at hproc
  obtain ⟨⟨last, L2⟩, hlast, hres, rfl⟩ := map_mk_eq_some.1 hproc
  obtain ⟨⟨res', L3⟩, happ, hlast⟩ := bind_eq_some_iff.1 hlast
  cases res' with
  | error =>
    cases hlast
    cases hres
    cases h
  | ok =>
    obtain ⟨⟨rest, L4⟩, hnil, heq⟩ := map_eq_some_iff.1 hlast
    obtain ⟨hrest, rfl⟩ := Prod.mk.inj (some.inj hnil)
    cases heq
    cases hrest
    cases hres
    obtain ⟨L5, hfin, heq⟩ := map_eq_some_iff.1 h
    cases heq
    exact Deleted.finalize (hdel.deleted hares happ).2 hne hfin

def emptyTransfer : Transaction :=
  { smallTx with action := 0, vote := none, recipient := some 8 }

def smallHeader : Header :=
  { parentHash := 0, coinbase := 9, root := 0, txHash := 0, receiptHash := 0, bloom := 0, number := 1
    gasLimit := 100000, gasUsed := 0, time := 10, extra := [], agentName := [], delegateRoot := 0
    shuffleHash := 0, shuffleBlockNumber := 0 }

theorem emptyTransfer_deletes :
    ∃ o, o.suicided = false ∧ TxDeletes smallEnv (Header.context smallHeader) emptyTransfer
      (smallStart.prepare (smallEnv.txHash emptyTransfer) 0 0) 8 o := by
  let msg : Message := asMessage.message emptyTransfer [] ⟨"", "", none, ""⟩ 1
  have hrun : ((semantics doubling true).run (transitionDb
      (newEVM smallEnv (Header.context smallHeader) msg) smallEnv.encodeInfo msg 100000)
      (smallStart.prepare (smallEnv.txHash emptyTransfer) 0 0).state).map (fun r =>
        (decide (8 ∈ r.2.stateObjectsDirty), (r.2.stateObjects 8).map fun slot =>
          (StateDB.removes true (StateDB.Slot.obj slot), (StateDB.Slot.obj slot).suicided))) =
      some (true, some (true, false)) := by decide +kernel
  obtain ⟨r, hr, hdirty, hslot⟩ := map_mk_eq_some.1 hrun
  obtain ⟨slot, hslot, hrem, hsui⟩ := map_mk_eq_some.1 hslot
  exact ⟨StateDB.Slot.obj slot, hsui, msg, r, rfl, hr, of_decide_eq_true hdirty,
    by rw [hslot]; rfl, hrem⟩

theorem process_emptyTransfer :
    ∃ receipts L, process smallEnv smallHeader 0 [emptyTransfer] smallStart.state
        smallStart.delegates = some (.ok receipts, L) ∧ L.state.trie 8 ≠ none := by
  have hrun : (process smallEnv smallHeader 0 [emptyTransfer] smallStart.state
      smallStart.delegates).map (fun r => (r.1.toOption.isSome, (r.2.state.trie 8).isSome)) =
      some (true, true) := by decide +kernel
  obtain ⟨⟨res, L⟩, hr, hok, htrie⟩ := map_mk_eq_some.1 hrun
  cases res with
  | error => cases hok
  | ok receipts => exact ⟨receipts, L, hr, fun hnone => by rw [hnone] at htrie; cases htrie⟩

theorem absent_iff_suicided_emptyTransfer :
    ∃ (o : StateObject) (receipts : List Receipt) (L : Ledger), o.suicided = false ∧
      process smallEnv smallHeader 0 [emptyTransfer] smallStart.state smallStart.delegates =
        some (.ok receipts, L) ∧
      (L.state.trie 8 = none ↔ o.suicided = true) := by
  obtain ⟨o, hsui, hdel⟩ := emptyTransfer_deletes
  obtain ⟨receipts, L, hproc, -⟩ := process_emptyTransfer
  have htxs : processTxs smallEnv (Header.context smallHeader) 0 0 [] smallStart =
      some (.ok [], smallStart) := rfl
  exact ⟨o, receipts, L, hsui, hproc, absent_iff_suicided rfl htxs hdel (by decide) hproc⟩

/-- The account of address 8 is deleted by the only transaction, and is in the trie of the block. -/
theorem not_absent_emptyTransfer :
    ∃ o receipts L, TxDeletes smallEnv (Header.context smallHeader) emptyTransfer
        (smallStart.prepare (smallEnv.txHash emptyTransfer) 0 0) 8 o ∧
      process smallEnv smallHeader 0 [emptyTransfer] smallStart.state smallStart.delegates =
        some (.ok receipts, L) ∧
      L.state.trie 8 ≠ none := by
  obtain ⟨o, -, hdel⟩ := emptyTransfer_deletes
  obtain ⟨receipts, L, hproc, htrie⟩ := process_emptyTransfer
  exact ⟨o, receipts, L, hdel, hproc, htrie⟩

end Blocks

end GoAoa.Core
