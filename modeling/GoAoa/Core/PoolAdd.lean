import GoAoa.Core.PoolTidy

/-!
# Adding a transaction to the pool

`add` ends in one of three ways (`add_cases`): the transaction is refused before the lists are
looked at; the full pool objects; or room is made, by the removal of a transaction where the pool is
full, and the new transaction is put into a list or is refused for its price.
-/

namespace GoAoa.Core

open List Option PoolEnv State VM TxPool

section Add

variable {E : PoolEnv} {c : Choices} {p p' p₁ p₂ : TxPool} {pl : Place} {t x tx : Transaction}
  {a : Address} {txType : Address} {priced : TxTypeList} {poll : Option (List Address)}
  {isLocal : Bool}

theorem live_eq_true : E.live p t = true ↔ ∃ x ∈ p.all, E.hash x = E.hash t := by
  rw [live, isSome_iff_ne_none, Ne, known_eq_none]
  push Not
  rfl

/-! ## What validation leaves of the state -/

/-- The states answer alike, but for lists of votes. -/
structure SameReads (db db' : StateDB) : Prop where
  view : view db' = view db
  lockBalance : ∀ a, db'.getLockBalance a = db.getLockBalance a

theorem SameReads.refl (db : StateDB) : SameReads db db := ⟨rfl, fun _ => rfl⟩

theorem SameReads.setVoteCells (db : StateDB) (a : Address) (cells : Slice Address) :
    SameReads db (db.setVoteCells a cells) := by
  have hobj : ∀ b, ∃ f : Account → Slice Address,
      (db.setVoteCells a cells).getStateObject b = (db.getStateObject b).map fun o =>
        { o with data := { o.data with voteList := f o.data } } := by
    intro b
    unfold StateDB.setVoteCells
    split
    · exact ⟨fun d => d.voteList, by simp⟩
    · rename_i o ho
      by_cases hb : b = a
      · subst hb
        exact ⟨fun _ => cells, by simp [ho]⟩
      · exact ⟨fun d => d.voteList, by simp [hb]⟩
  constructor
  · refine congrArg₂ View.mk (funext fun b => ?_) ?_
    · obtain ⟨f, hf⟩ := hobj b
      rw [hf, Option.map_map]
      rfl
    · unfold StateDB.setVoteCells
      split <;> rfl
  · intro b
    obtain ⟨f, hf⟩ := hobj b
    unfold StateDB.getLockBalance
    rw [hf]
    cases db.getStateObject b <;> rfl

variable {err : Option PoolErr}

theorem validateAction_reads {d : List Address} {sender : Address} {db db' : StateDB}
    (h : E.validateAction d tx sender db = some (err, db')) : SameReads db db' := by
  have hvotes : ∀ {err}, validateAction.validateVotes E d tx sender db = some (err, db') →
      SameReads db db' := by
    intro err h
    unfold validateAction.validateVotes at h
    split at h
    · cases h
      exact .refl db
    · cases h
      exact .refl db
    · obtain ⟨⟨e, db1⟩, hv, h⟩ := bind_eq_some_iff.1 h
      obtain ⟨r, -, heq⟩ := map_eq_some_iff.1 hv
      cases heq
      dsimp only at h
      split at h
      · cases h
        exact .setVoteCells db sender _
      · obtain ⟨lock, -, heq⟩ := map_eq_some_iff.1 h
        cases heq
        exact .setVoteCells db sender _
  unfold validateAction at h
  split at h
  · cases h
    exact .refl db
  · exact hvotes h
  · exact hvotes h
  · split at h
    · obtain ⟨-, -, heq⟩ := map_eq_some_iff.1 h
      split at heq <;> cases heq <;> exact .refl db
    · cases h
  · cases h
    exact .refl db
  · cases h
    exact .refl db

theorem validateTx_reads {db : StateDB}
    (h : E.validateTx poll tx isLocal p = some (err, db)) : SameReads p.currentState db := by
  unfold validateTx at h
  split at h
  · cases h
    exact SameReads.refl _
  · split at h
    · cases h
      exact SameReads.refl _
    · obtain ⟨⟨e, db'⟩, ha, heq⟩ := map_eq_some_iff.1 h
      cases heq
      exact validateAction_reads ha

theorem validateTx_ok {db : StateDB} (h : E.validateTx poll tx isLocal p = some (none, db)) :
    E.sender tx = some (E.senderOf tx) ∧ tx.gasLimit ≤ p.currentMaxGas ∧
      (∃ d, poll = some d ∧
        E.validateAction d tx (E.senderOf tx) p.currentState = some (none, db)) ∧
      validateFunds tx (E.senderOf tx) db = none := by
  unfold validateTx at h
  split at h
  · cases h
  rename_i sender hhead
  split at h
  · cases h
  rename_i d
  obtain ⟨⟨e, db'⟩, haction, heq⟩ := map_eq_some_iff.1 h
  obtain ⟨herr, rfl⟩ := Prod.mk.inj heq
  obtain ⟨rfl, hfunds⟩ := or_eq_none_iff.1 herr
  unfold validateHead at hhead
  repeat' split at hhead
  all_goals cases hhead
  rename_i hgas _ _ hsender _ _
  have hof : E.senderOf tx = sender := by rw [senderOf, hsender, getD_some]
  rw [hof]
  exact ⟨hsender, Nat.le_of_not_lt hgas, ⟨d, rfl, haction⟩, hfunds⟩

theorem validateFunds_ok {sender : Address} {db : StateDB} (h : validateFunds tx sender db = none) :
    (∀ a, tx.asset = some a → a ≠ 0 → (tx.amount : Int) ≤ (view db).getAssetBalance sender a) ∧
      tx.aoaCost ≤ (view db).getBalance sender ∧ ∀ action, Action.ofCode tx.action = some action →
        intrinsicGas tx.payload action ≤ tx.gasLimit := by
  unfold validateFunds at h
  split at h
  · cases h
  rename_i hasset
  split at h
  · cases h
  rename_i hcost
  dsimp only at h
  repeat' split at h
  all_goals cases h
  rename_i hlow
  refine ⟨fun a ha hne => ?_, Int.not_lt.1 hcost, fun action ha => ?_⟩
  · rw [ha] at hasset
    simp only [any_some, decide_eq_true_eq, not_and, Int.not_lt] at hasset
    exact hasset hne
  · rw [ha] at hlow
    exact Nat.le_of_not_lt hlow

/-! ## The index of a full pool -/

/-- The index in another order, without some stale transactions. -/
structure Reindexed (E : PoolEnv) (p : TxPool) (priced : TxTypeList) : Prop where
  indexed : priced.Indexed
  stale : ∃ stale, (∀ t ∈ stale, E.live p t = false) ∧
    p.priced.entries.Perm (stale ++ priced.entries)

section

variable (h : Reindexed E p priced)
include h

theorem Reindexed.entry (hs : Shaped E p) (ht : t ∈ p.all) : t ∈ priced.entries := by
  obtain ⟨stale, hstale, hperm⟩ := h.stale
  refine (mem_append.1 (hperm.mem_iff.1 (hs.records.entry t ht))).resolve_left fun hin => ?_
  exact Bool.eq_false_iff.1 (hstale t hin) (live_eq_true.2 ⟨t, ht, rfl⟩)

theorem Reindexed.shaped (hs : Shaped E p) : Shaped E { p with priced := priced } :=
  ⟨⟨hs.records.hashes, h.indexed, fun _ ht => h.entry hs ht⟩, hs.member, hs.strict, hs.apart⟩

theorem Reindexed.exact (he : Exact p) : Exact { p with priced := priced } := by
  obtain ⟨stale, hstale, hperm⟩ := h.stale
  have hnil : stale = [] := by
    refine eq_nil_iff_forall_not_mem.2 fun t ht => ?_
    have hin := he.mem_iff.1 (hperm.mem_iff.2 (mem_append_left _ ht))
    exact Bool.eq_false_iff.1 (hstale t ht) (live_eq_true.2 ⟨t, hin, rfl⟩)
  subst hnil
  exact hperm.symm.trans he

end

theorem pick_reindexed (hs : Shaped E p) {r : Except PoolErr Transaction}
    (hpick : E.pick txType tx p = some (r, priced)) :
    Reindexed E p priced ∧ ∀ v, r = .ok v → v ∈ priced.entries := by
  have hsort := E.sortByPrice_perm
  have hindexed := hs.records.indexed
  unfold PoolEnv.pick at hpick
  split at hpick
  · split at hpick
    · cases hpick
      exact ⟨⟨hindexed, [], by simp, .refl _⟩, fun v hv => (nomatch hv)⟩
    · obtain ⟨⟨v, priced'⟩, hrem, heq⟩ := map_eq_some_iff.1 hpick
      cases heq
      have hlt : 0 < p.priced.length := by
        obtain ⟨kv, hkv, -⟩ := bind_eq_some_iff.1 hrem
        exact (List.getElem?_eq_some_iff.1 hkv).1
      obtain ⟨v', priced', hcheap, hindexed', hperm, hv⟩ :=
        TxTypeList.cheapest_entries hsort hindexed hlt
      rw [TxTypeList.removeTx, hcheap] at hrem
      cases hrem
      refine ⟨⟨hindexed', [], by simp, hperm.symm⟩, ?_⟩
      rintro v ⟨⟩
      exact hperm.mem_iff.2 hv
  · rename_i i txList hget
    obtain ⟨⟨cheap, priced1⟩, hunder, hpick⟩ := bind_eq_some_iff.1 hpick
    obtain ⟨j, txList', kept, stale, last, hget', -, hstale, hlast, -, -, hset, hindexed1, hperm1⟩ :=
      TxTypeList.underpriced_entries hsort hindexed hunder
    rw [hget] at hget'
    cases hget'
    have hre : Reindexed E p priced1 := ⟨hindexed1, stale, hstale, hperm1⟩
    dsimp only at hpick
    split at hpick
    · cases hpick
      exact ⟨hre, fun v hv => (nomatch hv)⟩
    · obtain ⟨⟨v, priced2⟩, hrem, heq⟩ := map_eq_some_iff.1 hpick
      cases heq
      have hlt : i < priced1.length := by
        rw [hset, length_set]
        exact (List.getElem?_eq_some_iff.1 (TxTypeList.getElem?_of_get hget)).1
      obtain ⟨v', priced', hcheap, hindexed', hperm, hv⟩ :=
        TxTypeList.cheapest_entries hsort hindexed1 hlt
      rw [hcheap] at hrem
      cases hrem
      refine ⟨⟨hindexed', stale, hstale, hperm1.trans (hperm.symm.append_left stale)⟩, ?_⟩
      rintro v ⟨⟩
      exact hperm.mem_iff.2 hv

/-- How room is made: there is room, or a transaction was picked, and if the pool has it, it is
removed. -/
inductive Room (E : PoolEnv) (c : Choices) (p : TxPool) (txType : Address) (tx : Transaction) :
    TxPool → Prop
  | free (hfull : E.full p = false) : Room E c p txType tx p
  | stale {v : Transaction} {priced : TxTypeList} (hfull : E.full p = true)
      (hpick : E.pick txType tx p = some (.ok v, priced)) (hre : Reindexed E p priced)
      (hstale : E.known p (E.hash v) = none) : Room E c p txType tx { p with priced := priced }
  | removed {v t : Transaction} {priced : TxTypeList} {p' : TxPool} (hfull : E.full p = true)
      (hpick : E.pick txType tx p = some (.ok v, priced)) (hre : Reindexed E p priced)
      (hknown : E.known p (E.hash v) = some t)
      (hrun : E.removeTx c (E.hash v) { p with priced := priced } = some p')
      (hremoval : Removal E c { p with priced := priced } t p') : Room E c p txType tx p'

theorem makeRoom_cases (hs : Shaped E p) (hrun : E.makeRoom c txType tx p = some (err, p')) :
    (∃ e priced, err = some e ∧ E.full p = true ∧ E.pick txType tx p = some (.error e, priced) ∧
      Reindexed E p priced ∧ p' = { p with priced := priced }) ∨
    (err = none ∧ Room E c p txType tx p') := by
  unfold makeRoom at hrun
  split at hrun
  · rename_i hfull
    obtain ⟨⟨r, priced⟩, hpick, hrun⟩ := bind_eq_some_iff.1 hrun
    obtain ⟨hre, -⟩ := pick_reindexed hs hpick
    dsimp only at hrun
    split at hrun
    · rename_i e
      cases hrun
      exact .inl ⟨e, priced, rfl, hfull, hpick, hre, rfl⟩
    · rename_i v
      obtain ⟨q, hq, heq⟩ := map_eq_some_iff.1 hrun
      cases heq
      refine .inr ⟨rfl, ?_⟩
      cases hk : E.known p (E.hash v) with
      | none =>
        have hsame : E.removeTx c (E.hash v) { p with priced := priced } =
            some { p with priced := priced } := by
          rw [removeTx, show E.known { p with priced := priced } (E.hash v) = none from hk]
        rw [hsame] at hq
        cases hq
        exact .stale hfull hpick hre hk
      | some =>
        obtain ⟨ht, hhash⟩ := (known_eq_some hs).1 hk
        obtain ⟨q', hq', hr⟩ := removeTx_removal (hre.shaped hs) ht
        rw [hhash, hq] at hq'
        cases hq'
        exact .removed hfull hpick hre hk hq hr
  · rename_i hfull
    cases hrun
    exact .inr ⟨rfl, .free (by simpa using hfull)⟩

/-! ## The new transaction -/

structure Fresh (E : PoolEnv) (p : TxPool) (tx : Transaction) : Prop where
  sender : E.sender tx = some (E.senderOf tx)
  typed : tx.getTransactionType.isSome
  unknown : E.known p (E.hash tx) = none

theorem Fresh.mono (h : Fresh E p tx) (hall : ∀ x ∈ p'.all, x ∈ p.all) : Fresh E p' tx :=
  ⟨h.sender, h.typed, known_eq_none.2 fun x hx => known_eq_none.1 h.unknown x (hall x hx)⟩

theorem Fresh.not_mem (h : Fresh E p tx) (hs : Shaped E p) (pl : Place) : tx ∉ p.content pl :=
  fun hin => known_eq_none.1 h.unknown tx (hs.member pl tx hin).1 rfl

theorem Fresh.ready (h : Fresh E p tx) (hs : Shaped E p) (hpl : pl.account = E.senderOf tx)
    (hapart : ∀ pl', pl' ≠ pl → pl'.account = pl.account → ∀ x ∈ p.content pl',
      x.accountNonce ≠ tx.accountNonce) : Ready E p pl tx :=
  ⟨by rw [hpl]; exact h.sender, h.typed, hapart,
    fun x hx heq => absurd heq (known_eq_none.1 h.unknown x hx), h.not_mem hs⟩

def placeFor (E : PoolEnv) (p : TxPool) (tx : Transaction) : Place :=
  if (p.list (.pending (E.senderOf tx))).any fun l => l.overlaps tx then
    .pending (E.senderOf tx) else .queue (E.senderOf tx)

theorem overlaps_iff : ((p.list (.pending a)).any fun l => l.overlaps tx) = true ↔
    ∃ o ∈ p.content (.pending a), o.accountNonce = tx.accountNonce := by
  cases hl : p.list (.pending a) with
  | none => simp [content_of_none hl]
  | some =>
    rw [content_of_list hl, any_some, TxList.overlaps, isSome_iff_exists]
    exact exists_congr fun o => TxList.get_eq_some

theorem account_placeFor : (placeFor E p tx).account = E.senderOf tx := by
  unfold placeFor
  split <;> rfl

theorem Fresh.ready_placeFor (h : Fresh E p tx) (hs : Shaped E p) :
    Ready E p (placeFor E p tx) tx := by
  refine h.ready hs account_placeFor fun pl' hne hacc x hx => ?_
  rw [account_placeFor] at hacc
  unfold placeFor at hne
  split at hne
  · rename_i hover
    obtain ⟨o, ho, hn⟩ := overlaps_iff.1 hover
    cases pl' with
    | pending => exact absurd (congrArg Place.pending hacc) hne
    | queue =>
      obtain rfl := hacc
      exact fun heq => hs.apart _ o ho x hx (hn.trans heq.symm)
  · rename_i hover
    cases pl' with
    | pending =>
      obtain rfl := hacc
      exact fun heq => hover (overlaps_iff.2 ⟨x, hx, heq⟩)
    | queue => exact absurd (congrArg Place.queue hacc) hne

theorem insertTx_cases (hs : Shaped E p) (h : Fresh E p tx) (isLocal : Bool) :
    (E.insertTx tx isLocal p = some (.error .replaceUnderpriced, p) ∧
      ∃ o ∈ p.content (placeFor E p tx), o.accountNonce = tx.accountNonce) ∨
    ∃ p₁ p' replace, E.insertTx tx isLocal p = some (.ok replace, p') ∧
      Joins E p p₁ (placeFor E p tx) tx ∧ (Exact p → Exact p₁) ∧
      (p' = p₁ ∨ p' = { p₁ with locals := p₁.locals.insert (E.senderOf tx) }) := by
  have hcases := insertAt_cases hs (h.ready_placeFor hs)
  by_cases hover : ((p.list (.pending (E.senderOf tx))).any fun l => l.overlaps tx) = true
  · have hpl : placeFor E p tx = .pending (E.senderOf tx) := if_pos hover
    have hins : E.insertTx tx isLocal p = E.insertAt (.pending (E.senderOf tx)) tx p := if_pos hover
    rw [hpl] at hcases ⊢
    rw [hins]
    rcases hcases with hcases | ⟨p', old, hrun, hj, -, -, hexact⟩
    · exact .inl hcases
    · exact .inr ⟨p', p', old, hrun, hj, hexact h.unknown, .inl rfl⟩
  · have hpl : placeFor E p tx = .queue (E.senderOf tx) := if_neg hover
    rw [hpl] at hcases ⊢
    unfold insertTx
    rw [if_neg hover, enqueueTx]
    rcases hcases with ⟨hrun, ho⟩ | ⟨p', old, hrun, hj, -, -, hexact⟩
    · rw [hrun]
      exact .inl ⟨rfl, ho⟩
    · rw [hrun]
      refine .inr ⟨p', _, old, rfl, hj, hexact h.unknown, ?_⟩
      cases isLocal
      · exact .inl rfl
      · exact .inr rfl

inductive Added (E : PoolEnv) (c : Choices) (poll : Option (List Address)) (tx : Transaction)
    (isLocal : Bool) (p : TxPool) : Except PoolErr Bool → TxPool → Prop
  | known (hk : (E.known p (E.hash tx)).isSome) :
      Added E c poll tx isLocal p (.error (.known (E.hash tx))) p
  | invalid {e : PoolErr} {db : StateDB} (hk : E.known p (E.hash tx) = none)
      (hv : E.validateTx poll tx isLocal p = some (some e, db)) :
      Added E c poll tx isLocal p (.error e) { p with currentState := db }
  | objects {e : PoolErr} {db : StateDB} {txType : Address} {priced : TxTypeList}
      (htype : tx.getTransactionType = some txType) (hk : E.known p (E.hash tx) = none)
      (hv : E.validateTx poll tx isLocal p = some (none, db)) (hfull : E.full p = true)
      (hpick : E.pick txType tx p = some (.error e, priced)) (hre : Reindexed E p priced) :
      Added E c poll tx isLocal p (.error e) { p with currentState := db, priced := priced }
  | refused {db : StateDB} {txType : Address} {p' : TxPool}
      (htype : tx.getTransactionType = some txType) (hk : E.known p (E.hash tx) = none)
      (hv : E.validateTx poll tx isLocal p = some (none, db))
      (hroom : Room E c { p with currentState := db } txType tx p')
      (ho : ∃ o ∈ p'.content (placeFor E p' tx), o.accountNonce = tx.accountNonce) :
      Added E c poll tx isLocal p (.error .replaceUnderpriced) p'
  | done {db : StateDB} {txType : Address} {p₁ p₂ p' : TxPool} {replace : Bool}
      (htype : tx.getTransactionType = some txType) (hk : E.known p (E.hash tx) = none)
      (hv : E.validateTx poll tx isLocal p = some (none, db))
      (hroom : Room E c { p with currentState := db } txType tx p₁)
      (hj : Joins E p₁ p₂ (placeFor E p₁ tx) tx) (hexact : Exact p₁ → Exact p₂)
      (hend : p' = p₂ ∨ p' = { p₂ with locals := p₂.locals.insert (E.senderOf tx) }) :
      Added E c poll tx isLocal p (.ok replace) p'

theorem Room.shaped (h : Room E c p txType tx p') (hs : Shaped E p) : Shaped E p' := by
  cases h with
  | free => exact hs
  | stale _ _ hre => exact hre.shaped hs
  | removed _ _ _ _ _ hr => exact hr.shaped

theorem Room.all (h : Room E c p txType tx p') : ∀ x ∈ p'.all, x ∈ p.all := by
  intro x hx
  cases h with
  | free => exact hx
  | stale => exact hx
  | removed _ _ _ _ _ hr => exact (hr.all.1 hx).1

theorem Shaped.recast (hs : Shaped E p) (db : StateDB) : Shaped E { p with currentState := db } :=
  hs.congr rfl rfl fun _ => rfl

/-- **The ways in which `add` ends.** -/
theorem add_cases (hs : Shaped E p) {r : Except PoolErr Bool}
    (hrun : E.add c poll tx isLocal p = some (r, p')) : Added E c poll tx isLocal p r p' := by
  unfold add at hrun
  split at hrun
  · rename_i txType _ htype
    split at hrun
    · rename_i hk
      cases hrun
      exact .known hk
    · rename_i hk
      have hk : E.known p (E.hash tx) = none := by simpa using hk
      obtain ⟨⟨err, db⟩, hv, hrun⟩ := bind_eq_some_iff.1 hrun
      dsimp only at hrun
      split at hrun
      · cases hrun
        exact .invalid hk hv
      · obtain ⟨⟨err, p₁⟩, hmake, hrun⟩ := bind_eq_some_iff.1 hrun
        have hs0 := hs.recast db
        rcases makeRoom_cases hs0 hmake with ⟨e, priced, rfl, hfull, hpick, hre, rfl⟩ | ⟨rfl, hroom⟩
        · cases hrun
          exact .objects htype hk hv hfull hpick ⟨hre.indexed, hre.stale⟩
        · have hfresh : Fresh E p tx := ⟨(validateTx_ok hv).1, by rw [htype]; rfl, hk⟩
          have hfresh1 := hfresh.mono hroom.all
          rcases insertTx_cases (hroom.shaped hs0) hfresh1 isLocal with
            ⟨hins, ho⟩ | ⟨p₂, p3, replace, hins, hj, hexact, hend⟩
          · rw [hins] at hrun
            cases hrun
            exact .refused htype hk hv hroom ho
          · rw [hins] at hrun
            cases hrun
            exact .done htype hk hv hroom hj hexact hend
  · cases hrun

/-- **`add` keeps the shape of the pool.** -/
theorem add_shaped (hs : Shaped E p) {r : Except PoolErr Bool}
    (hrun : E.add c poll tx isLocal p = some (r, p')) : Shaped E p' := by
  cases add_cases hs hrun with
  | known => exact hs
  | invalid => exact hs.recast _
  | objects _ _ _ _ _ hre => exact (hre.shaped hs).recast _
  | refused _ _ _ hroom _ => exact hroom.shaped (hs.recast _)
  | done _ _ _ _ hj _ hend =>
    rcases hend with rfl | rfl
    · exact hj.shaped
    · exact hj.shaped.congr rfl rfl fun _ => rfl

end Add

end GoAoa.Core
