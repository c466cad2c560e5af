import GoAoa.Core.PoolRemovals

/-!
# The pool's map of all transactions

The map holds the transactions of the lists, each of which is in one list (`CoherentPool`), in every run
in which no removal strands a transaction (`StrandsNone`). `removeTx` of the first of an account's
pending transactions empties the list; it deletes the list then, and does nothing with those that
came after the first. They stay in the map, and no list has them.
-/

namespace GoAoa.Core

open State VM TxPool Run List

/-- The map has the transactions of the lists and no others, and each is in one list, once. -/
structure CoherentPool (E : PoolEnv) (p : TxPool) : Prop where
  mapped : ∀ pl, ∀ t ∈ p.content pl, E.known p (E.hash t) = some t
  listed : ∀ h t, E.known p h = some t → E.hash t = h ∧ ∃! pl, t ∈ p.content pl
  once : ∀ pl, (p.content pl).Nodup

section CoherentPool

variable {E : PoolEnv} {c : Choices} {p p' : TxPool} {t x tx : Transaction} {txType : Address}
  {poll : Option (List Address)} {isLocal : Bool}

theorem coherent_of_shaped (hs : Shaped E p) (hloose : ∀ x, ¬ Loose p x) : CoherentPool E p where
  mapped pl t ht := (known_eq_some hs).2 ⟨(hs.member pl t ht).1, rfl⟩
  listed h t hk := by
    obtain ⟨ht, hhash⟩ := (known_eq_some hs).1 hk
    obtain ⟨pl, hpl⟩ : ∃ pl, t ∈ p.content pl := by
      by_contra hno
      exact hloose t ⟨ht, fun pl hpl => hno ⟨pl, hpl⟩⟩
    exact ⟨hhash, pl, hpl, fun pl' hpl' => hs.place_unique hpl' hpl⟩
  once pl := (p.nodup_content pl).of_map

theorem tight_congr (h : ∀ x, ¬ Loose p x) (hall : p'.all = p.all) (hlist : p'.list = p.list)
    (x : Transaction) : ¬ Loose p' x := by
  rintro ⟨hx, hnot⟩
  exact h x ⟨hall ▸ hx, fun pl => content_congr (congrFun hlist pl) ▸ hnot pl⟩

/-- No removal of the step leaves transactions without a list. A full pool removes the transaction it
picked, when it takes a new one in. -/
def StrandsNone (E : PoolEnv) (i : Choices × PoolOp) (p : TxPool) : Prop :=
  match i.2 with
  | .add poll tx _ isLocal =>
    ∀ db txType victim priced, E.known p (E.hash tx) = none →
      E.validateTx poll tx isLocal p = some (none, db) → tx.getTransactionType = some txType →
      E.full p = true → E.pick txType tx p = some (.ok victim, priced) →
      SparesRest E p [E.hash victim]
  | .remove h => SparesRest E p [h]
  | .setGasPrice price => SparesRest E p ((E.dropsBelow p price).map E.hash)
  | _ => True

structure Whole (E : PoolEnv) (p : TxPool) : Prop extends SoundPool E p where
  tight : ∀ x, ¬ Loose p x

theorem Whole.of_spares (h : Whole E p) {hashes : List Hash} (hspares : SparesRest E p hashes)
    (hrun : exec (E.removeTx c) hashes p = some p') : Whole E p' :=
  ⟨removes_sound h.toSoundPool hrun, (removes_spare h.shaped h.tight hspares hrun).2⟩

theorem Neat.whole (hn : Neat E p p') (h : Whole E p) : Whole E p' :=
  ⟨hn.sound h.toSoundPool, fun x hx => h.tight x (hn.loose x hx)⟩

theorem Room.tight (hroom : Room E c p txType tx p') (hs : Shaped E p) (hloose : ∀ x, ¬ Loose p x)
    (hspares : ∀ victim priced, E.full p = true → E.pick txType tx p = some (.ok victim, priced) →
      SparesRest E p [E.hash victim]) : ∀ x, ¬ Loose p' x := by
  have hpriced : ∀ priced x, ¬ Loose { p with priced := priced } x := fun _ =>
    tight_congr hloose rfl rfl
  cases hroom with
  | free => exact hloose
  | stale => exact hpriced _
  | removed hfull hpick hre _ hrun _ =>
    exact (removes_spare (hre.shaped hs) (hpriced _) (hspares _ _ hfull hpick)
      (exec_cons_eq_some.2 ⟨p', hrun, rfl⟩)).2

theorem add_tight (hs : Shaped E p) (hloose : ∀ x, ¬ Loose p x) {r : Except PoolErr Bool}
    (hspares : ∀ db txType victim priced, E.known p (E.hash tx) = none →
      E.validateTx poll tx isLocal p = some (none, db) → tx.getTransactionType = some txType →
      E.full p = true → E.pick txType tx p = some (.ok victim, priced) → SparesRest E p [E.hash victim])
    (hrun : E.add c poll tx isLocal p = some (r, p')) : ∀ x, ¬ Loose p' x := by
  have hstate : ∀ db x, ¬ Loose { p with currentState := db } x := fun _ =>
    tight_congr hloose rfl rfl
  cases add_cases hs hrun with
  | known => exact hloose
  | invalid => exact hstate _
  | objects => exact tight_congr hloose rfl rfl
  | refused htype hk hv hroom _ =>
    exact hroom.tight (hs.recast _) (hstate _) fun victim priced hfull hpick =>
      hspares _ _ victim priced hk hv htype hfull hpick
  | done htype hk hv hroom hj _ hend =>
    have htight := hroom.tight (hs.recast _) (hstate _) fun victim priced hfull hpick =>
      hspares _ _ victim priced hk hv htype hfull hpick
    have hafter x hx := htight x (hj.loose hx)
    rcases hend with rfl | rfl
    · exact hafter
    · exact tight_congr hafter rfl rfl

/-- **A step that strands nothing keeps the pool whole.** -/
theorem step_whole {i : Choices × PoolOp} (hok : StrandsNone E i p) (h : Whole E p)
    (hrun : E.step i p = some p') : Whole E p' := by
  have hsound := step_sound h.toSoundPool hrun
  obtain ⟨c, op⟩ := i
  cases op with
  | add =>
    obtain ⟨⟨r, q⟩, hadd, heq⟩ := Option.map_eq_some_iff.1 hrun
    cases heq
    exact ⟨hsound, add_tight h.shaped h.tight hok hadd⟩
  | remove => exact h.of_spares hok (exec_cons_eq_some.2 ⟨p', hrun, rfl⟩)
  | promote => exact (promoteExecutables_tidy h.shaped hrun).toNeat.whole h
  | setGasPrice price =>
    obtain ⟨priced, -, -, hs, hrem⟩ := setGasPrice_removes h.shaped hrun
    have hw : Whole E { p with gasPrice := price, priced := priced } :=
      ⟨⟨hs, h.sized⟩, tight_congr h.tight rfl rfl⟩
    exact hw.of_spares hok hrem
  | evict =>
    refine evict_invariant (fun _ hq => hq.shaped) (fun q q' pl hq hrem => ?_)
      (fun q priced hq hre => ?_) h hrun
    · exact hq.of_spares (spares_content hq.shaped pl) hrem
    · exact ⟨⟨hre.shaped hq.shaped, hq.sized⟩, tight_congr hq.tight rfl rfl⟩
  | rehead =>
    cases hrun
    exact ⟨hsound, tight_congr h.tight rfl rfl⟩
  | settle =>
    obtain ⟨p1, p2, h1, -, h2, h3⟩ := settle_parts hrun
    obtain ⟨hn, -⟩ := demoteUnexecutables_spec h.shaped h.sized h1
    have hw1 := hn.whole h
    have hw2 : Whole E p2 := by
      rw [h2]
      exact ⟨⟨hw1.shaped.renonce _, hw1.sized⟩, tight_congr hw1.tight rfl rfl⟩
    exact (promoteExecutables_tidy hw2.shaped h3).toNeat.whole hw2

/-- **In every run whose steps strand nothing, the map has the transactions of the lists.** -/
theorem coherent_run {trie : Trie} {gasLimit gasPrice : Nat}
    {ops : List (Choices × PoolOp)}
    (hok : Run.Along E.step (StrandsNone E) ops (TxPool.new trie gasLimit gasPrice))
    (hrun : Run.exec E.step ops (TxPool.new trie gasLimit gasPrice) = some p) : CoherentPool E p := by
  have hnew : Whole E (new trie gasLimit gasPrice) :=
    ⟨sound_new E trie gasLimit gasPrice, fun x hx => (nomatch hx.1)⟩
  have hw := invariant (fun _ _ _ => step_whole) hok hnew hrun
  exact coherent_of_shaped hw.shaped hw.tight

end CoherentPool

/-! ## A pool of two transactions -/

/-- Nothing is left open: maps are gone through in the order of their entries. -/
def plainChoices : Choices := ⟨id, fun _ => Perm.refl _, id, fun _ => Perm.refl _, 0⟩

/-- A pool for `slots` pending and `queued` other transactions. The signature of a transaction has its
sender and its hash. -/
def smallPool (slots queued : Nat) : PoolEnv where
  config := ⟨10, 16, slots, 64, queued, 10800000000000⟩
  hash tx := BitVec.ofNat _ tx.r
  sender tx := some (BitVec.ofNat _ tx.v)
  size _ := 100
  sortByPrice l := l.insertionSort fun a b => b.price ≤ a.price
  sortByPrice_perm l := perm_insertionSort _ l
  sortByPrice_sorted l := pairwise_insertionSort _ l
  growth := doubling
  maxElectDelegate := 101

def poolTrie : Trie := fun a =>
  if a = 1 ∨ a = 3 then some (plainAccount 0 (10 ^ 18)) else none

def arrives (tx : Transaction) (h : tx.accountNonce < 2 ^ 64) : List (Choices × PoolOp) :=
  [(plainChoices, .add (some []) tx h false), (plainChoices, .promote [BitVec.ofNat 160 tx.v])]

theorem reachable_calls_three : ∃ p, (smallPool 2 0).addTxsLocked plainChoices (some [])
      [poolTx 1 0 1, poolTx 1 1 5, poolTx 3 0 2] false (TxPool.new poolTrie 1000000 1) = some p ∧
    p.content (.pending 3) = [poolTx 3 0 2] ∧ Reachable (smallPool 2 0) p :=
  exists_of_check (fun p => p.content (.pending 3) = [poolTx 3 0 2]) (by decide +kernel)
    fun p h hp => ⟨hp, (reachable_calls ⟨_, _, _, [], rfl⟩ (by decide)).2.2.2.1 _ p h⟩

/-- Transactions are added where there is room, and the last of several of an account is removed. -/
def removesLast (E : PoolEnv) (i : Choices × PoolOp) (p : TxPool) : Bool :=
  match i.2 with
  | .add .. => !E.full p
  | .remove h => (E.known p h).any fun d =>
      (p.content (.pending (E.senderOf d))).any (·.accountNonce < d.accountNonce) &&
        (p.content (.pending (E.senderOf d))).all (·.accountNonce ≤ d.accountNonce)
  | .promote _ => true
  | _ => false

theorem last_of_turn {E : PoolEnv} {p : TxPool} {c : Choices} {h : Hash} {a : Address} {n : Nat}
    (hlast : removesLast E (c, .remove h) p = true) (hturn : E.turn p [h] a n < 1) :
    (∃ y ∈ p.content (.pending a), y.accountNonce < n) ∧
      ∀ y ∈ p.content (.pending a), y.accountNonce ≤ n := by
  obtain ⟨h', hmem, d, hk, rfl, rfl⟩ := turn_lt.1 hturn
  obtain rfl := mem_singleton.1 hmem
  unfold removesLast at hlast
  simpa [hk] using hlast

theorem strandsNone_of_last {E : PoolEnv} {p : TxPool} {i : Choices × PoolOp}
    (h : removesLast E i p = true) : StrandsNone E i p := by
  obtain ⟨c, op⟩ := i
  cases op with
  | add => exact fun db txType victim priced _ _ _ hfull => absurd hfull (by simpa [removesLast] using h)
  | remove =>
    intro a t ht hfirst hturn
    obtain ⟨⟨y, hy, hlt⟩, -⟩ := last_of_turn h hturn
    exact absurd (hfirst y hy) (Nat.not_le.2 hlt)
  | promote => trivial
  | _ => cases h

def lastGoes : List (Choices × PoolOp) :=
  arrives (poolTx 1 0 1) (by decide) ++ arrives (poolTx 1 1 5) (by decide) ++
    arrives (poolTx 3 0 2) (by decide) ++ [(plainChoices, .remove (BitVec.ofNat _ (poolTx 1 1 5).r))]

theorem coherent_run_last : ∃ p, Run.exec (smallPool 4 0).step lastGoes
      (TxPool.new poolTrie 1000000 1) = some p ∧
    p.content (.pending 1) = [poolTx 1 0 1] ∧ CoherentPool (smallPool 4 0) p := by
  refine exists_of_check (fun p => p.content (.pending 1) = [poolTx 1 0 1]) (by decide +kernel)
    fun p hp hcontent => ⟨hcontent, coherent_run ?_ hp⟩
  exact along_of_check (fun _ _ _ => step_sound) (fun i p _ => strandsNone_of_last)
    (sound_new _ _ _ _)
    (show checkAlong _ (removesLast (smallPool 4 0)) lastGoes _ = true by decide +kernel)

/-- **The second transaction of account 1 is lost**: account 3 takes the place of the first. -/
theorem stranded_successor : ∃ p, Run.exec (smallPool 2 0).step
      (arrives (poolTx 1 0 1) (by decide) ++ arrives (poolTx 1 1 5) (by decide) ++
        arrives (poolTx 3 0 2) (by decide)) (TxPool.new poolTrie 1000000 1) = some p ∧
    (smallPool 2 0).known p ((smallPool 2 0).hash (poolTx 1 1 5)) = some (poolTx 1 1 5) ∧
    (∀ pl, poolTx 1 1 5 ∉ p.content pl) ∧ ¬ CoherentPool (smallPool 2 0) p := by
  refine exists_of_check (fun p => (smallPool 2 0).known p ((smallPool 2 0).hash (poolTx 1 1 5)) =
      some (poolTx 1 1 5) ∧ p.content (.pending 1) = [] ∧ p.content (.queue 1) = [])
    (by decide +kernel) fun p hp ⟨hknown, hpending, hqueue⟩ => ?_
  have hs := (Reachable.sound ⟨_, _, _, _, hp⟩).shaped
  have hnot : ∀ pl, poolTx 1 1 5 ∉ p.content pl := by
    intro pl hpl
    have hacc := (senderOf_of_mem hs hpl).symm
    cases pl with
    | pending a =>
      obtain rfl : a = 1 := hacc
      rw [hpending] at hpl
      cases hpl
    | queue a =>
      obtain rfl : a = 1 := hacc
      rw [hqueue] at hpl
      cases hpl
  refine ⟨hknown, hnot, fun hc => ?_⟩
  obtain ⟨-, pl, hpl, -⟩ := hc.listed _ _ hknown
  exact hnot pl hpl

end GoAoa.Core
