import GoAoa.Core.PoolAdd
import GoAoa.Core.PoolDemote

/-!
# Runs of the pool

The operations of the pool are sequences of the steps of `PoolOp`: a transaction is added or removed,
queued transactions are promoted, the price is set, inactive accounts are evicted, the pool is moved
to another head, and it is settled there. `addTx`, `addTxsLocked` and `reset` are such sequences
(`addTx_steps`, `addTxsLocked_steps`, `reset_steps`). Every step keeps the pool `SoundPool`.
-/

namespace GoAoa.Core

open List Option Run TxPool PoolEnv State VM

/-- The pool of `NewTxPool`: it has no transactions, and the state of a head. -/
def TxPool.new (trie : Trie) (gasLimit gasPrice : Nat) : TxPool :=
  rehead trie gasLimit
    { currentState := .new trie
      pendingState := ⟨.new trie, ∅⟩
      currentMaxGas := 0
      gasPrice := gasPrice
      locals := []
      pending := ∅
      queue := ∅
      beats := ∅
      all := []
      priced := [] }

/-- The steps of the pool. A nonce is a `uint64`. -/
inductive PoolOp where
  | add (poll : Option (List Address)) (tx : Transaction) (hnonce : tx.accountNonce < 2 ^ 64)
      (isLocal : Bool)
  | remove (h : Hash)
  | promote (accounts : List Address)
  | setGasPrice (price : Nat)
  | evict
  | rehead (trie : Trie) (gasLimit : Nat)
  | settle

namespace PoolEnv

/-- One step, whatever it answers. -/
def step (E : PoolEnv) (i : Choices × PoolOp) (p : TxPool) : Option TxPool :=
  match i.2 with
  | .add poll tx _ isLocal => (E.add i.1 poll tx isLocal p).map Prod.snd
  | .remove h => E.removeTx i.1 h p
  | .promote accounts => E.promoteExecutables i.1 accounts p
  | .setGasPrice price => E.setGasPrice i.1 price p
  | .evict => E.evict i.1 p
  | .rehead trie gasLimit => some (rehead trie gasLimit p)
  | .settle => E.settle i.1 p

end PoolEnv

def Reachable (E : PoolEnv) (p : TxPool) : Prop :=
  ∃ trie gasLimit gasPrice ops, exec E.step ops (new trie gasLimit gasPrice) = some p

section Runs

variable {E : PoolEnv} {c : Choices} {p p' p1 p2 q : TxPool} {pl : Place} {t x tx : Transaction}
  {a : Address} {h : Hash} {priced : TxTypeList} {poll : Option (List Address)} {isLocal : Bool}

/-! ## Operations as sequences of steps -/

theorem addTx_steps (hnonce : tx.accountNonce < 2 ^ 64) {r : Except PoolErr Unit}
    (hrun : E.addTx c poll tx isLocal p = some (r, p')) :
    ∃ ops, exec E.step ((c, .add poll tx hnonce isLocal) :: ops) p = some p' ∧
      (ops = [] ∨ ops = [(c, .promote [E.senderOf tx])]) := by
  obtain ⟨⟨r', p1⟩, hadd, hrun⟩ := bind_eq_some_iff.1 hrun
  have hstep : E.step (c, .add poll tx hnonce isLocal) p = some p1 :=
    congrArg (Option.map Prod.snd) hadd
  dsimp only at hrun
  split at hrun
  · cases hrun
    exact ⟨[], exec_cons_eq_some.2 ⟨p', hstep, rfl⟩, .inl rfl⟩
  · cases hrun
    exact ⟨[], exec_cons_eq_some.2 ⟨p', hstep, rfl⟩, .inl rfl⟩
  · obtain ⟨p2, hpromote, heq⟩ := map_eq_some_iff.1 hrun
    cases heq
    refine ⟨[(c, .promote [E.senderOf tx])], exec_cons_eq_some.2 ⟨p1, hstep, ?_⟩, .inr rfl⟩
    exact exec_cons_eq_some.2 ⟨p', hpromote, rfl⟩

theorem addAll_steps {txs : List Transaction} (hnonce : ∀ tx ∈ txs, tx.accountNonce < 2 ^ 64)
    {dirty dirty' : List Address} (hrun : E.addAll c poll isLocal txs dirty p = some (dirty', p')) :
    ∃ ops, exec E.step ops p = some p' ∧ ∀ i ∈ ops, ∃ tx h, i = (c, .add poll tx h isLocal) := by
  induction txs generalizing dirty p with
  | nil =>
    cases hrun
    exact ⟨[], rfl, fun i hi => (nomatch hi)⟩
  | cons tx txs ih =>
    obtain ⟨⟨r, p1⟩, hadd, hrun⟩ := bind_eq_some_iff.1 hrun
    obtain ⟨dirty, hrest⟩ : ∃ dirty, E.addAll c poll isLocal txs dirty p1 = some (dirty', p') := by
      dsimp only at hrun
      split at hrun <;> exact ⟨_, hrun⟩
    obtain ⟨ops, hops, hall⟩ := ih (fun t ht => hnonce t (mem_cons_of_mem tx ht)) hrest
    refine ⟨(c, .add poll tx (hnonce tx mem_cons_self) isLocal) :: ops,
      exec_cons_eq_some.2 ⟨p1, congrArg (Option.map Prod.snd) hadd, hops⟩, fun i hi => ?_⟩
    rcases mem_cons.1 hi with rfl | hi
    · exact ⟨_, _, rfl⟩
    · exact hall i hi

theorem addTxsLocked_steps {txs : List Transaction} (hnonce : ∀ tx ∈ txs, tx.accountNonce < 2 ^ 64)
    (hrun : E.addTxsLocked c poll txs isLocal p = some p') :
    ∃ adds ops, exec E.step (adds ++ ops) p = some p' ∧
      (∀ i ∈ adds, ∃ tx h, i = (c, .add poll tx h isLocal)) ∧
      (ops = [] ∨ ∃ accounts, ops = [(c, .promote accounts)]) := by
  obtain ⟨⟨dirty, p1⟩, hadds, hrun⟩ := bind_eq_some_iff.1 hrun
  obtain ⟨adds, hrun1, hall⟩ := addAll_steps hnonce hadds
  dsimp only at hrun
  split at hrun
  · cases hrun
    exact ⟨adds, [], by rw [append_nil]; exact hrun1, hall, .inl rfl⟩
  · refine ⟨adds, [(c, .promote (c.order dirty))], ?_, hall, .inr ⟨_, rfl⟩⟩
    rw [exec_append, hrun1]
    exact exec_cons_eq_some.2 ⟨p', hrun, rfl⟩

/-- **A reset** moves the pool, adds the transactions that were given up, and settles. -/
theorem reset_steps {trie : Trie} {gasLimit : Nat}
    {reinject : List Transaction} (hnonce : ∀ tx ∈ reinject, tx.accountNonce < 2 ^ 64)
    (hrun : E.reset c poll trie gasLimit reinject p = some p') :
    ∃ adds ops, exec E.step ((c, .rehead trie gasLimit) :: (adds ++ ops ++ [(c, .settle)])) p =
        some p' ∧
      (∀ i ∈ adds, ∃ tx h, i = (c, .add poll tx h false)) ∧
      (ops = [] ∨ ∃ accounts, ops = [(c, .promote accounts)]) := by
  obtain ⟨p1, hadds, hsettle⟩ := bind_eq_some_iff.1 hrun
  obtain ⟨adds, ops, hrun1, hall, hops⟩ := addTxsLocked_steps hnonce hadds
  refine ⟨adds, ops, exec_cons_eq_some.2 ⟨_, rfl, ?_⟩, hall, hops⟩
  rw [exec_append, hrun1]
  exact exec_cons_eq_some.2 ⟨p', hsettle, rfl⟩

/-! ## The parts of the steps -/

theorem removeTx_cases (hs : Shaped E p) (hrun : E.removeTx c h p = some p') :
    (E.known p h = none ∧ p' = p) ∨ ∃ t, E.known p h = some t ∧ t ∈ p.all ∧ Removal E c p t p' := by
  cases hk : E.known p h with
  | none =>
    rw [removeTx, hk] at hrun
    cases hrun
    exact .inl ⟨rfl, rfl⟩
  | some t =>
    obtain ⟨ht, rfl⟩ := (known_eq_some hs).1 hk
    obtain ⟨q, hq, hr⟩ := removeTx_removal hs ht
    rw [hrun] at hq
    cases hq
    exact .inr ⟨t, rfl, ht, hr⟩

theorem removes_invariant {I : TxPool → Prop} (hshape : ∀ q, I q → Shaped E q)
    (hstep : ∀ q q' t, I q → t ∈ q.all → Removal E c q t q' → I q') {hashes : List Hash} (hI : I p)
    (hrun : exec (E.removeTx c) hashes p = some p') : I p' := by
  refine invariant_all (fun h q q' hq hstep' => ?_) hI hrun
  rcases removeTx_cases (hshape q hq) hstep' with ⟨-, rfl⟩ | ⟨t, -, ht, hr⟩
  · exact hq
  · exact hstep q q' t hq ht hr

/-- The transactions that `SetGasPrice` removes, in its order. -/
def PoolEnv.dropsBelow (E : PoolEnv) (p : TxPool) (price : Nat) : List Transaction :=
  (TxTypeList.capLoop (E.live p) (E.isLocal p) price p.priced.popped).1

/-- What it puts into the index once more. -/
def PoolEnv.savesBelow (E : PoolEnv) (p : TxPool) (price : Nat) : List Transaction :=
  (TxTypeList.capLoop (E.live p) (E.isLocal p) price p.priced.popped).2

theorem Shaped.more (hs : Shaped E p) (hindexed : priced.Indexed) {more : List Transaction}
    (hperm : priced.entries.Perm (more ++ p.priced.entries)) (gasPrice : Nat) :
    Shaped E { p with gasPrice := gasPrice, priced := priced } :=
  ⟨⟨hs.records.hashes, hindexed, fun t ht =>
    hperm.mem_iff.2 (mem_append_right _ (hs.records.entry t ht))⟩,
    hs.member, hs.strict, hs.apart⟩

theorem setGasPrice_removes (hs : Shaped E p) {price : Nat}
    (hrun : E.setGasPrice c price p = some p') :
    ∃ priced, priced.Indexed ∧ priced.entries.Perm (E.savesBelow p price ++ p.priced.entries) ∧
      Shaped E { p with gasPrice := price, priced := priced } ∧
      exec (E.removeTx c) ((E.dropsBelow p price).map E.hash)
        { p with gasPrice := price, priced := priced } = some p' := by
  obtain ⟨priced, hcap, hindexed, hperm⟩ := TxTypeList.cap_entries hs.records.indexed
  rw [setGasPrice, hcap, bind_some] at hrun
  exact ⟨priced, hindexed, hperm, hs.more hindexed hperm price, hrun⟩

theorem sweepTx_reindexed (hs : Shaped E p) (hrun : E.sweepTx t p = some p') :
    ∃ priced, Reindexed E p priced ∧ p' = { p with priced := priced } := by
  unfold sweepTx at hrun
  split at hrun
  · cases hrun
    exact ⟨p.priced, ⟨hs.records.indexed, [], fun _ ht => (nomatch ht), .refl _⟩, rfl⟩
  · rename_i hlive
    obtain ⟨txType, -, hrun⟩ := bind_eq_some_iff.1 hrun
    obtain ⟨priced, hrem, rfl⟩ := map_eq_some_iff.1 hrun
    obtain ⟨e, he, hindexed, hperm⟩ := TxTypeList.removeByHash_eq_some hs.records.indexed hrem
    refine ⟨priced, ⟨hindexed, [e], fun y hy => ?_, hperm⟩, rfl⟩
    rw [mem_singleton.1 hy, live, he]
    exact Bool.eq_false_iff.2 hlive

theorem evict_invariant {I : TxPool → Prop} (hshape : ∀ q, I q → Shaped E q)
    (hlist : ∀ q q' pl, I q → exec (E.removeTx c) ((q.content pl).map E.hash) q = some q' → I q')
    (hindex : ∀ q priced, I q → Reindexed E q priced → I { q with priced := priced }) (hI : I p)
    (hrun : E.evict c p = some p') : I p' := by
  have hat : ∀ pl q q', I q → E.evictAt c pl q = some q' → I q' := by
    intro pl q q' hq hrun
    unfold evictAt at hrun
    split at hrun
    · cases hrun
      exact hq
    · rename_i l hl
      split at hrun
      · rw [← content_of_list hl] at hrun
        exact hlist q q' pl hq hrun
      · cases hrun
        exact hq
  obtain ⟨p1, h1, hrun⟩ := bind_eq_some_iff.1 hrun
  obtain ⟨p2, h2, hrun⟩ := bind_eq_some_iff.1 hrun
  have hI2 := invariant_all hat (invariant_all hat hI h1) h2
  split at hrun
  · cases hrun
    exact hI2
  · refine invariant_all (fun tx q q' hq hq' => ?_) hI2 hrun
    obtain ⟨priced, hre, rfl⟩ := sweepTx_reindexed (hshape q hq) hq'
    exact hindex q priced hq hre

theorem updateNonce_same (hrun : updateNonce a p = some p') :
    p' = { p with pendingState := p'.pendingState } := by
  obtain ⟨l, -, hrun⟩ := bind_eq_some_iff.1 hrun
  obtain ⟨-, -, rfl⟩ := map_eq_some_iff.1 hrun
  rfl

theorem updateNonces_same {accounts : List Address}
    (hrun : exec updateNonce accounts p = some p') :
    p' = { p with pendingState := p'.pendingState } := by
  refine invariant_all (I := fun q => q = { p with pendingState := q.pendingState })
    (fun a q q' hq hq' => ?_) rfl hrun
  rw [updateNonce_same hq', hq]

theorem Shaped.renonce (hs : Shaped E p) (ms : ManagedState) :
    Shaped E { p with pendingState := ms } :=
  hs.congr rfl rfl fun _ => rfl

theorem settle_parts (hrun : E.settle c p = some p') :
    ∃ p1 p2, E.demoteUnexecutables c p = some p1 ∧
      exec updateNonce (c.order p1.pending.keys) p1 = some p2 ∧
      p2 = { p1 with pendingState := p2.pendingState } ∧
      E.promoteExecutables c (c.order p2.queue.keys) p2 = some p' := by
  obtain ⟨p1, h1, hrun⟩ := bind_eq_some_iff.1 hrun
  obtain ⟨p2, h2, h3⟩ := bind_eq_some_iff.1 hrun
  exact ⟨p1, p2, h1, h2, updateNonces_same h2, h3⟩

/-! ## Every step keeps the pool sound -/

structure SoundPool (E : PoolEnv) (p : TxPool) : Prop where
  shaped : Shaped E p
  sized : Sized p

theorem SoundPool.of_all (h : SoundPool E p) (hs : Shaped E p') (hall : ∀ x ∈ p'.all, x ∈ p.all) :
    SoundPool E p' :=
  ⟨hs, h.sized.mono hall⟩

theorem Neat.sound (hn : Neat E p p') (h : SoundPool E p) : SoundPool E p' := h.of_all hn.shaped hn.all

theorem add_all (hs : Shaped E p) {r : Except PoolErr Bool}
    (hrun : E.add c poll tx isLocal p = some (r, p')) (hx : x ∈ p'.all) : x ∈ p.all ∨ x = tx := by
  cases add_cases hs hrun with
  | known => exact .inl hx
  | invalid => exact .inl hx
  | objects => exact .inl hx
  | refused _ _ _ hroom => exact .inl (hroom.all x hx)
  | done htype hk hv hroom hj hexact hend =>
    rename_i p2 replace
    have hx : x ∈ p2.all := by rcases hend with rfl | rfl <;> exact hx
    rcases (hj.all x).1 hx with rfl | ⟨hx, -⟩
    · exact .inr rfl
    · exact .inl (hroom.all x hx)

theorem removes_sound {hashes : List Hash} (h : SoundPool E p)
    (hrun : exec (E.removeTx c) hashes p = some p') : SoundPool E p' :=
  removes_invariant (fun _ hq => hq.shaped) (fun _ _ _ hq _ hr =>
    hq.of_all hr.shaped fun _ hx => (hr.all.1 hx).1) h hrun

theorem settle_sound (h : SoundPool E p) (hrun : E.settle c p = some p') : SoundPool E p' := by
  obtain ⟨p1, p2, h1, -, h2, h3⟩ := settle_parts hrun
  obtain ⟨hn, -⟩ := demoteUnexecutables_spec h.shaped h.sized h1
  have hsound1 := hn.sound h
  have hsound2 : SoundPool E p2 := by
    rw [h2]
    exact ⟨hsound1.shaped.renonce _, hsound1.sized⟩
  exact (promoteExecutables_tidy hsound2.shaped h3).toNeat.sound hsound2

/-- **Every step keeps the pool sound.** -/
theorem step_sound {i : Choices × PoolOp} (h : SoundPool E p) (hrun : E.step i p = some p') :
    SoundPool E p' := by
  obtain ⟨c, op⟩ := i
  cases op with
  | add poll tx hnonce =>
    obtain ⟨⟨r, q⟩, hadd, heq⟩ := map_eq_some_iff.1 hrun
    cases heq
    refine ⟨add_shaped h.shaped hadd, fun x hx => ?_⟩
    rcases add_all h.shaped hadd hx with hx | rfl
    · exact h.sized x hx
    · exact hnonce
  | remove hash =>
    have hrun : exec (E.removeTx c) [hash] p = some p' := exec_cons_eq_some.2 ⟨p', hrun, rfl⟩
    exact removes_sound h hrun
  | promote => exact (promoteExecutables_tidy h.shaped hrun).toNeat.sound h
  | setGasPrice =>
    obtain ⟨priced, -, -, hs, hrem⟩ := setGasPrice_removes h.shaped hrun
    exact removes_sound ⟨hs, h.sized⟩ hrem
  | evict =>
    exact evict_invariant (fun _ hq => hq.shaped) (fun _ _ _ hq hrem => removes_sound hq hrem)
      (fun _ _ hq hre => ⟨hre.shaped hq.shaped, hq.sized⟩) h hrun
  | rehead =>
    cases hrun
    exact ⟨h.shaped.congr rfl rfl fun _ => rfl, h.sized⟩
  | settle => exact settle_sound h hrun

theorem sound_new (E : PoolEnv) (trie : Trie) (gasLimit gasPrice : Nat) :
    SoundPool E (new trie gasLimit gasPrice) := by
  have hnone : ∀ pl, (new trie gasLimit gasPrice).list pl = none := fun pl => by
    cases pl <;> rfl
  have hnil : ∀ pl, (new trie gasLimit gasPrice).content pl = [] := fun pl =>
    content_of_none (hnone pl)
  refine ⟨⟨⟨nodup_nil, TxTypeList.indexed_nil, fun t ht => (nomatch ht)⟩, fun pl t ht => ?_,
    fun pl l hl => ?_, fun a t ht => ?_⟩, fun t ht => (nomatch ht)⟩
  · rw [hnil] at ht
    cases ht
  · rw [hnone] at hl
    cases hl
  · rw [hnil] at ht
    cases ht

/-- **Every pool that can be reached is sound.** -/
theorem Reachable.sound (h : Reachable E p) : SoundPool E p := by
  obtain ⟨trie, gasLimit, gasPrice, ops, hrun⟩ := h
  exact invariant_all (fun _ _ _ hq => step_sound hq) (sound_new E trie gasLimit gasPrice) hrun

theorem Reachable.exec (h : Reachable E p) {ops : List (Choices × PoolOp)}
    (hrun : exec E.step ops p = some p') : Reachable E p' := by
  obtain ⟨trie, gasLimit, gasPrice, ops', h⟩ := h
  exact ⟨trie, gasLimit, gasPrice, ops' ++ ops, by rwa [exec_append, h]⟩

/-- **A pool that can be reached is sound, and every call leaves it so.** -/
theorem reachable_calls {txs : List Transaction} (h : Reachable E p)
    (hnonce : ∀ tx ∈ txs, tx.accountNonce < 2 ^ 64) :
    SoundPool E p ∧ (∀ i p', E.step i p = some p' → Reachable E p') ∧
    (∀ tx ∈ txs, ∀ isLocal r p', E.addTx c poll tx isLocal p = some (r, p') → Reachable E p') ∧
    (∀ isLocal p', E.addTxsLocked c poll txs isLocal p = some p' → Reachable E p') ∧
    ∀ trie gasLimit p', E.reset c poll trie gasLimit txs p = some p' → Reachable E p' := by
  refine ⟨h.sound, fun i p' hrun => ?_, fun tx htx isLocal r p' hrun => ?_,
    fun isLocal p' hrun => ?_, fun trie gasLimit p' hrun => ?_⟩
  · exact h.exec (show exec E.step [i] p = some p' from exec_cons_eq_some.2 ⟨p', hrun, rfl⟩)
  · obtain ⟨ops, hops, -⟩ := addTx_steps (hnonce tx htx) hrun
    exact h.exec hops
  · obtain ⟨adds, ops, hops, -⟩ := addTxsLocked_steps hnonce hrun
    exact h.exec hops
  · obtain ⟨adds, ops, hops, -⟩ := reset_steps hnonce hrun
    exact h.exec hops

end Runs

end GoAoa.Core
