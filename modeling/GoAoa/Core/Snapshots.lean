import GoAoa.Core.Admission
import GoAoa.State.Pinned
import GoAoa.VM.Reverts
import GoAoa.Lib.Run

/-!
# Reverting to a snapshot

Over every sequence of operations after a snapshot, nested snapshots and reverts included:
`RevertToSnapshot` gives back the encoding of every account, and with it the root. The rules are
those of the Epiphron block. An asset balance is taken back by the opposite change, and an entry
with a zero balance does not survive that: nothing may be added to such an entry. Votes that
withdraw are left out, since they move the cells that the entries of the journal share.
-/

namespace GoAoa.Core

open List Option Run State State.StateDB VM Semantics

variable {g : Growth} {E : EVM} {enc : InfoEncoder} {s s' t t' u : StateDB} {id : Nat}

/-! ## Moves -/

/-- What is done to a database between a snapshot and its revert. -/
inductive Move where
  | op (o : Op)
  | publish (addr : Address) (assetInfo : AssetInfo)
  | snapshot
  | revert (id : Nat)

def play (g : Growth) (E : EVM) (enc : InfoEncoder) : Move → StateDB → Option StateDB
  | .op o, db => (exec g o db).map (·.2)
  | .publish addr assetInfo, db =>
    ((semantics g true).run (publishAsset E enc addr assetInfo) db).map (·.2)
  | .snapshot, db => some db.snapshot.2
  | .revert id, db => db.revertToSnapshot true id

/-- The moves after the snapshot `id` that are undone exactly. The description of an asset is set
by publishing only. -/
def Exactly (g : Growth) (E : EVM) (id : Nat) : Move → StateDB → Prop
  | .op (.setAssetData ..), _ => False
  | .op (.vote _ votes _ _), _ => ∀ v ∈ votes, v.operation ≠ 1
  | .op o, db => Allows .exact g o db
  | .publish addr assetInfo, db => ∀ supply, isAssetInfoValid assetInfo = .ok supply →
    Likeness.exact.addable (assetsOf db addr)
      ⟨E.createAddress addr ((view db).getNonce addr), supply⟩
  | .snapshot, _ => True
  | .revert id', _ => id < id'

/-! ## One move -/

theorem adds_exec {o : Op} {x : Ans o} (hx : exec g o t = some (x, t')) : Adds t t' := by
  cases executed hx with
  | idle => exact .refl t
  | account | object => exact .create _
  | refund | log =>
    refine .of_objects ⟨_, .append _ _, fun e he => ?_⟩ rfl rfl rfl
    rw [mem_singleton.1 he]
    trivial
  | edit => exact .edit _ _ _
  | describe => exact .write ⟨[], .refl _, forall_mem_nil _⟩ rfl
  | vote run => exact .vote run

/-- What a move does besides a revert. -/
structure Advances (t t' : StateDB) : Prop where
  grounded : Grounded t'
  removes : RemovesNone t t'
  adds : Adds t t'
  undoable : Undoable .exact t t'

theorem Advances.trans (h : Advances t t') (h' : Advances t' u) : Advances t u :=
  ⟨h'.grounded, h.removes.trans h'.removes, h.adds.trans h'.adds, h.undoable.trans h'.undoable⟩

theorem advances_exec {o : Op} {x : Ans o} (hg : Grounded t) (ho : Allows .exact g o t)
    (hx : exec g o t = some (x, t')) : Advances t t' :=
  ⟨grounded_exec hg hx, removesNone_exec hx, adds_exec hx, undoable_exec hg ho hx⟩

theorem advances_describe (hg : Grounded t) (asset : Address) (data : Bytes) :
    Advances t ((t.createObject asset).setAssetData asset data) := by
  have hget : (t.createObject asset).getStateObject asset =
      some { newObject Account.blank with onDirty := false } := by
    unfold createObject
    rw [getStateObject_write, if_pos rfl]
  have hmake : exec doubling (.createObject asset) t = some ((), t.createObject asset) := rfl
  have hset : exec doubling (.setAssetData asset data) (t.createObject asset) =
    some ((), (t.createObject asset).setAssetData asset data) := rfl
  refine ⟨grounded_exec (grounded_exec hg hmake) hset,
    (removesNone_exec hmake).trans (removesNone_exec hset),
    (adds_exec hmake).trans (adds_exec hset), ?_⟩
  unfold StateDB.setAssetData
  rw [hget]
  refine undoable_create hg rfl rfl rfl rfl fun b hb => ?_
  unfold createObject
  rw [shown_write, if_neg hb, shown_write, if_neg hb]
  rfl

theorem shown_describe {asset b : Address} {data : Bytes} (hb : b ≠ asset) :
    ((t.createObject asset).setAssetData asset data).shown b = t.shown b := by
  have hmake : (t.createObject asset).shown b = t.shown b := by
    unfold createObject
    rw [shown_write, if_neg hb]
    rfl
  unfold StateDB.setAssetData
  split
  · exact hmake
  · rw [shown_write, if_neg hb, hmake]

theorem advances_publish {addr : Address} {ai : AssetInfo} {r : Except AssetErr Unit}
    (hg : Grounded t) (hadd : ∀ supply, isAssetInfoValid ai = .ok supply →
      Likeness.exact.addable (assetsOf t addr)
        ⟨E.createAddress addr ((view t).getNonce addr), supply⟩)
    (hx : (semantics g true).run (publishAsset E enc addr ai) t = some (r, t')) : Advances t t' := by
  rw [run_publishAsset] at hx
  cases hinfo : isAssetInfoValid ai with
  | error =>
    rw [hinfo] at hx
    cases hx
    exact ⟨hg, .refl t, .refl t, .refl _ t⟩
  | ok supply =>
    rw [hinfo] at hx
    dsimp only at hx
    have hnonce : Advances t (t.setNonce addr (u64 ((view t).getNonce addr + 1))) :=
      advances_exec (g := g) (o := .setNonce ..) hg trivial rfl
    split at hx
    · cases hx
      exact hnonce.trans (advances_exec (g := g) (o := .createObject ..) hnonce.grounded trivial rfl)
    · cases hx
      have hdescribe := advances_describe hnonce.grounded
        (E.createAddress addr ((view t).getNonce addr)) (enc addr ai)
      refine (hnonce.trans hdescribe).trans
        (advances_exec (g := g) (o := .addAssetBalance ..) hdescribe.grounded ?_ rfl)
      -- the publisher's list is still the one there was
      have hassets : assetsOf (((t.setNonce addr (u64 ((view t).getNonce addr + 1))).createObject
          (E.createAddress addr ((view t).getNonce addr))).setAssetData
          (E.createAddress addr ((view t).getNonce addr)) (enc addr ai)) addr = assetsOf t addr := by
        unfold assetsOf
        rw [reading_getOrNew, reading_getOrNew]
        unfold VM.reading
        rw [shown_describe (E.createAddress_ne _ _).symm]
        show (VM.reading (t.setNonce addr _) addr).assetList = (VM.reading t addr).assetList
        unfold StateDB.setNonce
        rw [reading_edit, if_pos rfl, ← reading_getOrNew]
        rfl
      show Likeness.exact.addable (assetsOf _ addr) _
      rw [hassets]
      exact hadd supply hinfo

/-! ## Runs -/

/-- What holds of `t` on the way from the snapshot `id` of `s`. -/
structure Trail (s : StateDB) (id : Nat) (t : StateDB) : Prop where
  grounded : Grounded t
  removes : RemovesNone s t
  pins : NoLoss s → Pins s.Marked t
  changes : ∃ es, t.journal.Since id es ∧
    Undoes StateDB.undo (Alike .exact) (FairEntry .exact) es s t ∧
    (NoLoss s → ∀ e ∈ es, Spares s.Marked e)

theorem trail_snapshot (hg : Grounded s) : Trail s s.snapshot.1 s.snapshot.2 where
  grounded := hg
  removes := .of_objects rfl
  pins h := ⟨h.backed, fun _ ha => ha, fun _ ⟨_, ho, hd⟩ => (h.get ho).1 hd⟩
  changes := ⟨[], .snapshot_self _, .nil (.of_shown rfl (fun _ => rfl) rfl rfl),
    fun _ => List.forall_mem_nil _⟩

theorem Trail.advance (h : Trail s id t) (ha : Advances t t') : Trail s id t' := by
  obtain ⟨es, hsince, hback, hspare⟩ := h.changes
  obtain ⟨es1, hext, hundo⟩ := ha.undoable
  obtain ⟨es2, hext2, hspare2⟩ := ha.adds.journal
  obtain rfl := append_cancel_right (hext.entries.symm.trans hext2.entries)
  refine ⟨ha.grounded, h.removes.trans ha.removes, fun hs => (h.pins hs).adds ha.adds,
    es1 ++ es, hsince.extends hext, (undoing .exact).append hback hundo, fun hs e he => ?_⟩
  rcases mem_append.1 he with he | he
  · exact (hspare2 e he).mono (h.pins hs).marked
  · exact hspare hs e he

theorem Trail.revert {id' : Nat} (h : Trail s id t) (hid : id < id')
    (hr : t.revertToSnapshot true id' = some t') : Trail s id t' := by
  have hremoves := RemovesNone.revert hr
  unfold StateDB.revertToSnapshot at hr
  split at hr
  · cases hr
  · rename_i undone journal hroll
    obtain ⟨t1, h1, rfl⟩ := map_eq_some_iff.1 hr
    obtain ⟨es, hsince, hback, hspare⟩ := h.changes
    obtain ⟨rest, rfl, hrest⟩ := hsince.rollback_newer hid hroll
    obtain ⟨t2, h2, hback'⟩ := hback.split
    obtain rfl := some.inj (h2.symm.trans h1)
    refine ⟨?_, h.removes.trans hremoves, fun hs => ?_, rest, hrest, ?_, fun hs e he => ?_⟩
    · have htrie := trie_undoAll h1
      exact h.grounded.of_removesNone htrie hremoves
    · have hp := (h.pins hs).undoAll (fun e he => hspare hs e (mem_append_left _ he)) h1
      exact ⟨hp.backed, hp.marked, hp.dirty⟩
    · exact (undoing .exact).above hback' (.of_shown rfl (fun _ => rfl) rfl rfl)
    · exact hspare hs e (mem_append_right _ he)

theorem Trail.play {m : Move} (h : Trail s id t) (hm : Exactly g E id m t)
    (hp : play g E enc m t = some t') : Trail s id t' := by
  cases m with
  | op o =>
    obtain ⟨⟨x, t1⟩, hx, rfl⟩ := map_eq_some_iff.1 hp
    refine h.advance (advances_exec h.grounded ?_ hx)
    cases o with
    | setAssetData => exact hm.elim
    | vote =>
      intro d e r _ he
      exact (changeVoteList_adds hm (Nat.le_refl _) he).1
    | _ => exact hm
  | publish =>
    obtain ⟨⟨r, t1⟩, hx, rfl⟩ := map_eq_some_iff.1 hp
    exact h.advance (advances_publish h.grounded hm hx)
  | snapshot =>
    cases hp
    refine h.advance ⟨h.grounded, .of_objects rfl, .of_objects ⟨[], .snapshot _, forall_mem_nil _⟩
      rfl rfl rfl, [], .snapshot _, .nil ?_⟩
    exact .of_shown rfl (fun _ => rfl) rfl rfl
  | revert => exact h.revert hm hp

/-- What is written of an account, and whether it is to be removed. -/
def encoding (db : StateDB) (a : Address) : Option (Option StoredAccount × Bool) :=
  (db.shown a).map fun x => (x.1.encode, x.2)

theorem encoding_alike (h : Alike .exact s u) (a : Address) : encoding u a = encoding s a := by
  unfold encoding
  have hshow := h.shown a
  generalize s.shown a = x at hshow
  generalize u.shown a = y at hshow
  cases hshow with
  | none => rfl
  | some f hd =>
    show some (_, f) = some (_, f)
    rw [hd.encode.1]

/-- **Reverting to a snapshot restores the encoding of every account**, and with it the root, if
nothing was lost before the snapshot and the same accounts are removed. -/
theorem snapshot_restores {moves : List Move} (hg : Grounded s)
    (hm : Run.Along (play g E enc) (Exactly g E s.snapshot.1) moves s.snapshot.2)
    (hr : Run.exec (play g E enc) moves s.snapshot.2 = some t) :
    ∃ u, t.revertToSnapshot true s.snapshot.1 = some u ∧ (∀ a, encoding u a = encoding s a) ∧
      ∀ flag s', NoLoss s → RemovedAgain flag s → SameDeletions flag s u →
        s.finalise flag = some s' → ∃ u', u.finalise flag = some u' ∧ u'.trie = s'.trie := by
  have h := invariant (fun _ _ _ hm h hp => h.play hm hp) hm (trail_snapshot hg) hr
  obtain ⟨es, hsince, hback, hspare⟩ := h.changes
  obtain ⟨j, hj⟩ := hsince.rollback
  obtain ⟨u, hu, hal⟩ := hback.undone
  rw [← undoUnlessAsset_true] at hu
  have hrev : t.revertToSnapshot true s.snapshot.1 = some { u with journal := j } := by
    unfold StateDB.revertToSnapshot
    rw [hj]
    dsimp only
    rw [hu]
    rfl
  have hal : Alike .exact s { u with journal := j } := ⟨hal.trie, hal.shown, hal.logs, hal.refund⟩
  refine ⟨_, hrev, encoding_alike hal, fun flag s' hs hagain hsame hf => ?_⟩
  have hp := (h.pins hs).undoAll (hspare hs) hu
  exact same_root hs hg hal (h.removes.trans (.revert hrev)) ⟨hp.backed, hp.marked, hp.dirty⟩ hagain
    hsame hf

/-! ## An entry with a zero balance -/

def onlyTrie : Trie :=
  fun a => if a = 1 then some (plainAccount 0 10) else none

def nestedMoves : List Move :=
  [.op (.addAssetBalance 1 7 3), .op (.addBalance 2 0), .snapshot, .op (.setNonce 1 4), .revert 1]

theorem snapshot_restores_nested :
    ∃ t u u', Run.exec (play doubling smallEvm fun _ _ => []) nestedMoves
        (StateDB.new onlyTrie).snapshot.2 = some t ∧
      t.revertToSnapshot true (StateDB.new onlyTrie).snapshot.1 = some u ∧
      (∀ a, encoding u a = encoding (.new onlyTrie) a) ∧
      u.finalise false = some u' ∧ u'.trie = onlyTrie := by
  have hrun : (exec (play doubling smallEvm fun _ _ => []) nestedMoves
      (StateDB.new onlyTrie).snapshot.2).isSome = true := by decide +kernel
  obtain ⟨t, hr⟩ := isSome_iff_exists.1 hrun
  have hno : (assetsOf (StateDB.new onlyTrie).snapshot.2 1).find 7 = none := by decide +kernel
  have hm : Along (play doubling smallEvm fun _ _ => []) (Exactly doubling smallEvm 0)
      nestedMoves (StateDB.new onlyTrie).snapshot.2 := by
    refine ⟨fun b hb => ?_, fun _ _ => ⟨trivial, fun _ _ => ⟨trivial, fun _ _ => ⟨trivial, fun _ _ =>
      ⟨Nat.zero_lt_one, fun _ _ => trivial⟩⟩⟩⟩⟩
    cases hno.symm.trans hb
  obtain ⟨u, hrev, henc, hroot⟩ := snapshot_restores (sane_new onlyTrie).grounded hm hr
  obtain ⟨u', hu', htrie⟩ := hroot false _ (kept_new onlyTrie) (fun a o h => by cases h) nofun rfl
  exact ⟨t, u, u', hr, hrev, henc, hu', htrie⟩

/-- **An entry with a zero balance is lost**: nothing is added to it, and taking that back removes
the entry. The root is another one. -/
theorem not_snapshot_restores_zero :
    ∃ s t u s' u', s = (StateDB.new onlyTrie).addAssetBalance 1 7 0 ∧
      Run.exec (play doubling smallEvm fun _ _ => []) [.op (.addAssetBalance 1 7 0)]
        s.snapshot.2 = some t ∧
      t.revertToSnapshot true s.snapshot.1 = some u ∧ s.finalise false = some s' ∧
      u.finalise false = some u' ∧
      (s'.trie 1).map (·.assetList.assetList) = some [⟨7, 0⟩] ∧
      (u'.trie 1).map (·.assetList.assetList) = some [] := by
  have hrun : ((exec (play doubling smallEvm fun _ _ => []) [.op (.addAssetBalance 1 7 0)]
      ((StateDB.new onlyTrie).addAssetBalance 1 7 0).snapshot.2).bind fun t =>
      (t.revertToSnapshot true ((StateDB.new onlyTrie).addAssetBalance 1 7 0).snapshot.1).bind
        fun u => (((StateDB.new onlyTrie).addAssetBalance 1 7 0).finalise false).bind fun s' =>
          (u.finalise false).map fun u' => ((s'.trie 1).map (·.assetList.assetList),
            (u'.trie 1).map (·.assetList.assetList))) = some (some [⟨7, 0⟩], some []) := by
    decide +kernel
  obtain ⟨t, ht, hrest⟩ := bind_eq_some_iff.1 hrun
  obtain ⟨u, hu, hrest⟩ := bind_eq_some_iff.1 hrest
  obtain ⟨s', hs', hrest⟩ := bind_eq_some_iff.1 hrest
  obtain ⟨u', hu', heq⟩ := map_eq_some_iff.1 hrest
  obtain ⟨h1, h2⟩ := Prod.mk.inj heq
  exact ⟨_, t, u, s', u', rfl, ht, hu, hs', hu', h1, h2⟩

end GoAoa.Core
