import GoAoa.Core.Coherence

/-!
# The pool's index of prices

The index has every transaction of the pool once, under its type (`PriceCoherent`), in every run in
which nothing is put back (`PutsNoneBack`). `enqueueTx` puts its transaction into the index, and the
pool also calls it for transactions that are in the index already: those that a removal from the
middle of a pending list takes out of it, and those that demotion sends back to the queue. `Cap` takes
nothing out of the index, and puts in what it wants to keep.
-/

namespace GoAoa.Core

open State VM TxPool Run Option TxTypeList

/-- Each transaction of the pool is in the index once, under its type, and the operations of the index
find what they look for. -/
structure PriceCoherent (E : PoolEnv) (p : TxPool) : Prop where
  once : p.priced.entries.Perm p.all
  nodup : p.all.Nodup
  keys : (p.priced.map KV.key).Nodup
  typed : ∀ kv ∈ p.priced, ∀ t ∈ kv.value, t.getTransactionType = some kv.key
  put : ∀ t, t.getTransactionType.isSome → (p.priced.put t).isSome
  underpriced : ∀ txType price, (p.priced.get txType).isSome →
    (p.priced.underpriced E.sortByPrice (E.live p) txType price).isSome
  cap : ∀ price, (p.priced.cap (E.live p) (E.isLocal p) price).isSome
  removeByHash : ∀ t ∈ p.all, ∀ txType, t.getTransactionType = some txType →
    (p.priced.removeByHash E.hash txType (E.hash t)).isSome

section PriceCoherent

variable {E : PoolEnv} {c : Choices} {p p' : TxPool} {t tx : Transaction} {txType : Address}
  {poll : Option (List Address)} {isLocal : Bool}

theorem priceCoherent_of_exact (hs : Shaped E p) (he : Exact p) : PriceCoherent E p where
  once := he
  nodup := hs.records.hashes.of_map
  keys := hs.records.indexed.keys
  typed := hs.records.indexed.typed
  put t ht := by
    obtain ⟨txType, htype⟩ := isSome_iff_exists.1 ht
    obtain ⟨priced, hput, -⟩ := put_entries hs.records.indexed htype
    rw [hput]
    rfl
  underpriced txType price hget := by
    -- the type has a transaction, and every transaction of the index is live
    obtain ⟨⟨i, txList⟩, hget⟩ := isSome_iff_exists.1 hget
    have hi := getElem?_of_get hget
    have hkv := List.mem_of_getElem? hi
    obtain ⟨t, ht⟩ := List.exists_mem_of_ne_nil _ (hs.records.indexed.value_ne_nil _ hkv)
    have hentry := mem_entries.2 ⟨_, hkv, ht⟩
    exact (underpriced_isSome E.sortByPrice_perm hs.records.indexed).2
      ⟨t, hentry, hs.records.indexed.typed _ hkv t ht, live_eq_true.2 ⟨t, he.mem_iff.1 hentry, rfl⟩⟩
  cap price := by
    obtain ⟨priced, hcap, -⟩ := cap_entries hs.records.indexed
    rw [hcap]
    rfl
  removeByHash t ht txType htype := by
    obtain ⟨e, priced, hrem, -⟩ := removeByHash_entries hs.records.indexed
      (hs.records.entry t ht) htype rfl
    rw [hrem]
    rfl

/-- Nothing that is in the index is put into it by the step. -/
def PutsNoneBack (E : PoolEnv) (i : Choices × PoolOp) (p : TxPool) : Prop :=
  match i.2 with
  | .add poll tx _ isLocal =>
    ∀ db txType victim priced, E.known p (E.hash tx) = none →
      E.validateTx poll tx isLocal p = some (none, db) → tx.getTransactionType = some txType →
      E.full p = true → E.pick txType tx p = some (.ok victim, priced) → Quiet E p [E.hash victim]
  | .remove h => Quiet E p [h]
  | .setGasPrice price =>
    (∀ t ∈ p.all, t.price < price ∧ E.isLocal p t = false) ∧
      Quiet E p ((E.dropsBelow p price).map E.hash)
  | .settle => ∀ a, Unmoved p a
  | _ => True

theorem Room.exact (hroom : Room E c p txType tx p') (hs : Shaped E p) (he : Exact p)
    (hquiet : ∀ victim priced, E.full p = true → E.pick txType tx p = some (.ok victim, priced) →
      Quiet E p [E.hash victim]) : Exact p' := by
  cases hroom with
  | free => exact he
  | stale _ _ hre => exact hre.exact he
  | removed hfull hpick hre _ hrun _ =>
    exact Quiet.exact (hre.shaped hs) hrun (hquiet _ _ hfull hpick) (hre.exact he)

theorem add_exact (hs : Shaped E p) (he : Exact p) {r : Except PoolErr Bool}
    (hquiet : ∀ db txType victim priced, E.known p (E.hash tx) = none →
      E.validateTx poll tx isLocal p = some (none, db) → tx.getTransactionType = some txType →
      E.full p = true → E.pick txType tx p = some (.ok victim, priced) → Quiet E p [E.hash victim])
    (hrun : E.add c poll tx isLocal p = some (r, p')) : Exact p' := by
  cases add_cases hs hrun with
  | known => exact he
  | invalid => exact he
  | objects _ _ _ _ _ hre => exact hre.exact he
  | refused htype hk hv hroom _ =>
    exact hroom.exact (hs.recast _) he fun victim priced => hquiet _ _ victim priced hk hv htype
  | done htype hk hv hroom hj hexact hend =>
    have he1 := hexact (hroom.exact (hs.recast _) he fun victim priced =>
      hquiet _ _ victim priced hk hv htype)
    rcases hend with rfl | rfl <;> exact he1

theorem savesBelow_eq_nil (he : Exact p) {price : Nat}
    (hall : ∀ t ∈ p.all, t.price < price ∧ E.isLocal p t = false) : E.savesBelow p price = [] :=
  capLoop_save_nil fun t ht _ =>
    hall t (he.mem_iff.1 ((popped_perm p.priced).mem_iff.1 ht))

structure PricedPool (E : PoolEnv) (p : TxPool) : Prop extends SoundPool E p where
  exact : Exact p

theorem PricedPool.of_quiet (h : PricedPool E p) {hashes : List Hash} (hquiet : Quiet E p hashes)
    (hrun : exec (E.removeTx c) hashes p = some p') : PricedPool E p' :=
  ⟨removes_sound h.toSoundPool hrun, (removes_quiet h.shaped hquiet h.exact hrun).2⟩

theorem Tidy.priced (ht : Tidy E p p') (h : PricedPool E p) : PricedPool E p' :=
  ⟨ht.toNeat.sound h.toSoundPool, ht.exact h.exact⟩

/-- **A step that puts nothing back keeps the index exact.** -/
theorem step_priced {i : Choices × PoolOp} (hok : PutsNoneBack E i p) (h : PricedPool E p)
    (hrun : E.step i p = some p') : PricedPool E p' := by
  have hsound := step_sound h.toSoundPool hrun
  obtain ⟨c, op⟩ := i
  cases op with
  | add =>
    obtain ⟨⟨r, q⟩, hadd, heq⟩ := map_eq_some_iff.1 hrun
    cases heq
    exact ⟨hsound, add_exact h.shaped h.exact hok hadd⟩
  | remove => exact h.of_quiet hok (exec_cons_eq_some.2 ⟨p', hrun, rfl⟩)
  | promote => exact (promoteExecutables_tidy h.shaped hrun).priced h
  | setGasPrice price =>
    obtain ⟨hall, hquiet⟩ := hok
    obtain ⟨priced, -, hperm, hs, hrem⟩ := setGasPrice_removes h.shaped hrun
    rw [savesBelow_eq_nil h.exact hall] at hperm
    have hp : PricedPool E { p with gasPrice := price, priced := priced } :=
      ⟨⟨hs, h.sized⟩, hperm.trans h.exact⟩
    exact hp.of_quiet hquiet hrem
  | evict =>
    refine evict_invariant (fun _ hq => hq.shaped) (fun q q' pl hq hrem => ?_)
      (fun q priced hq hre => ?_) h hrun
    · exact hq.of_quiet (quiet_content hq.shaped pl) hrem
    · exact ⟨⟨hre.shaped hq.shaped, hq.sized⟩, hre.exact hq.exact⟩
  | rehead =>
    cases hrun
    exact ⟨hsound, h.exact⟩
  | settle =>
    obtain ⟨p1, p2, h1, -, h2, h3⟩ := settle_parts hrun
    obtain ⟨hn, -, he, -⟩ := demoteUnexecutables_spec h.shaped h.sized h1
    have hp2 : PricedPool E p2 := by
      rw [h2]
      exact ⟨⟨hn.shaped.renonce _, h.sized.mono hn.all⟩, he hok h.exact⟩
    exact (promoteExecutables_tidy hp2.shaped h3).priced hp2

/-- **In every run whose steps put nothing back, the index has each transaction once.** -/
theorem priceCoherent_run {trie : Trie} {gasLimit gasPrice : Nat} {ops : List (Choices × PoolOp)}
    (hok : Run.Along E.step (PutsNoneBack E) ops (TxPool.new trie gasLimit gasPrice))
    (hrun : Run.exec E.step ops (TxPool.new trie gasLimit gasPrice) = some p) :
    PriceCoherent E p := by
  have hnew : PricedPool E (new trie gasLimit gasPrice) :=
    ⟨sound_new E trie gasLimit gasPrice, .refl _⟩
  have hp := invariant (fun _ _ _ => step_priced) hok hnew hrun
  exact priceCoherent_of_exact hp.shaped hp.exact

end PriceCoherent

theorem putsNoneBack_of_last {i : Choices × PoolOp} (h : removesLast E i p = true) :
    PutsNoneBack E i p := by
  obtain ⟨c, op⟩ := i
  cases op with
  | add =>
    exact fun db txType victim priced _ _ _ hfull => absurd hfull (by simpa [removesLast] using h)
  | remove =>
    intro a t ht _ hturn x hx hlt
    exact absurd ((last_of_turn h hturn).2 x hx) (Nat.not_le.2 hlt)
  | promote => trivial
  | _ => cases h

theorem priceCoherent_run_last : ∃ p, Run.exec (smallPool 4 0).step lastGoes
      (TxPool.new poolTrie 1000000 1) = some p ∧
    p.all = [poolTx 3 0 2, poolTx 1 0 1] ∧ PriceCoherent (smallPool 4 0) p := by
  refine exists_of_check (fun p => p.all = [poolTx 3 0 2, poolTx 1 0 1]) (by decide +kernel)
    fun p hp hall => ⟨hall, priceCoherent_run ?_ hp⟩
  exact along_of_check (fun _ _ _ => step_sound) (fun i p _ => putsNoneBack_of_last)
    (sound_new _ _ _ _)
    (show checkAlong _ (removesLast (smallPool 4 0)) lastGoes _ = true by decide +kernel)

/-- **The third transaction of account 1 is in the index twice**: account 3 takes the place of the
second. -/
theorem doubled_successor : ∃ p, Run.exec (smallPool 2 1).step
      (arrives (poolTx 1 0 5) (by decide) ++ arrives (poolTx 1 1 1) (by decide) ++
        arrives (poolTx 1 2 6) (by decide) ++ arrives (poolTx 3 0 2) (by decide))
      (TxPool.new poolTrie 1000000 1) = some p ∧
    p.priced.entries.count (poolTx 1 2 6) = 2 ∧ ¬ PriceCoherent (smallPool 2 1) p := by
  refine exists_of_check (fun p => p.priced.entries.count (poolTx 1 2 6) = 2) (by decide +kernel)
    fun p _ hcount => ⟨hcount, fun hc => ?_⟩
  have hle := List.nodup_iff_count_le_one.1 (hc.once.nodup_iff.2 hc.nodup) (poolTx 1 2 6)
  omega

/-! ## Rejected transactions -/

end GoAoa.Core
