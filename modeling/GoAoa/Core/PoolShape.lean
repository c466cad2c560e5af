import GoAoa.Core.Pool

/-!
# What every procedure of the pool keeps

In every state of the pool the lists hold transactions that the pool knows, each account's own, with
no nonce both pending and queued, and the index has every transaction that the pool knows (`Shaped`).
A transaction that the pool knows and no list holds is `Loose`. A procedure takes transactions out of
a list, which makes them loose, and then forgets them or puts them into another list; so it is said
of each what becomes loose, and what is done with loose transactions never fails.
-/

namespace GoAoa.Core

open List Option Run Transaction PoolEnv TxTypeList State VM

variable {p : TxPool} {pl : Place} {l : TxList}

namespace TxPool

/-! ## Lists by place -/

def content (p : TxPool) (pl : Place) : List Transaction := ((p.list pl).map TxList.flatten).getD []

variable {pl' : Place}

theorem content_of_list (h : p.list pl = some l) : p.content pl = l.flatten := by
  rw [content, h]
  rfl

theorem content_of_none (h : p.list pl = none) : p.content pl = [] := by
  rw [content, h]
  rfl

theorem content_congr {p' : TxPool} (h : p'.list pl = p.list pl) : p'.content pl = p.content pl := by
  rw [content, content, h]

@[simp] theorem list_store_self (p : TxPool) (pl : Place) (l : TxList) :
    (p.store pl l).list pl = some l := by
  cases pl <;> exact AList.lookup_insert _

@[simp] theorem list_drop_self (p : TxPool) (pl : Place) : (p.drop pl).list pl = none := by
  cases pl <;> exact AList.lookup_erase _ _

theorem list_store_of_ne (h : pl' ≠ pl) (l : TxList) : (p.store pl l).list pl' = p.list pl' := by
  cases pl <;> cases pl' <;> try rfl
  all_goals exact AList.lookup_insert_ne (by rintro rfl; exact h rfl)

theorem list_drop_of_ne (h : pl' ≠ pl) : (p.drop pl).list pl' = p.list pl' := by
  cases pl <;> cases pl' <;> try rfl
  all_goals exact AList.lookup_erase_ne (by rintro rfl; exact h rfl)

@[simp] theorem content_store_self (p : TxPool) (pl : Place) (l : TxList) :
    (p.store pl l).content pl = l.flatten :=
  content_of_list (list_store_self p pl l)

theorem content_store_of_ne (h : pl' ≠ pl) (l : TxList) :
    (p.store pl l).content pl' = p.content pl' :=
  content_congr (list_store_of_ne h l)

@[simp] theorem content_drop_self (p : TxPool) (pl : Place) : (p.drop pl).content pl = [] :=
  content_of_none (list_drop_self p pl)

theorem content_drop_of_ne (h : pl' ≠ pl) : (p.drop pl).content pl' = p.content pl' :=
  content_congr (list_drop_of_ne h)

@[simp] theorem all_store (p : TxPool) (pl : Place) (l : TxList) : (p.store pl l).all = p.all := by
  cases pl <;> rfl

@[simp] theorem priced_store (p : TxPool) (pl : Place) (l : TxList) :
    (p.store pl l).priced = p.priced := by
  cases pl <;> rfl

@[simp] theorem all_drop (p : TxPool) (pl : Place) : (p.drop pl).all = p.all := by
  cases pl <;> rfl

@[simp] theorem priced_drop (p : TxPool) (pl : Place) : (p.drop pl).priced = p.priced := by
  cases pl <;> rfl

theorem list_records (p : TxPool) (all : List Transaction) (priced : TxTypeList) (pl : Place) :
    ({ p with all := all, priced := priced } : TxPool).list pl = p.list pl := rfl

theorem content_sorted (p : TxPool) (pl : Place) :
    (p.content pl).Pairwise fun a b => a.accountNonce < b.accountNonce := by
  unfold content
  cases p.list pl with
  | none => exact List.Pairwise.nil
  | some l => exact l.txs.sorted

theorem nodup_content (p : TxPool) (pl : Place) :
    ((p.content pl).map accountNonce).Nodup := by
  cases h : p.list pl with
  | none =>
    rw [content_of_none h]
    exact nodup_nil
  | some l =>
    rw [content_of_list h]
    exact l.nodup_nonces

end TxPool

open TxPool

/-! ## The shape of the pool -/

def Loose (p : TxPool) (t : Transaction) : Prop := t ∈ p.all ∧ ∀ pl, t ∉ p.content pl

/-- Transactions by hash and by price: the hashes are apart, and the index has each of them. -/
structure Records (E : PoolEnv) (all : List Transaction) (priced : TxTypeList) : Prop where
  hashes : (all.map E.hash).Nodup
  indexed : priced.Indexed
  entry : ∀ t ∈ all, t ∈ priced.entries

structure Shaped (E : PoolEnv) (p : TxPool) : Prop where
  records : Records E p.all p.priced
  member : ∀ pl, ∀ t ∈ p.content pl, t ∈ p.all ∧ E.sender t = some pl.account
  strict : ∀ pl l, p.list pl = some l → l.strict = pl.isPending
  apart : ∀ a, ∀ t ∈ p.content (.pending a), ∀ t' ∈ p.content (.queue a),
    t.accountNonce ≠ t'.accountNonce

/-- The pools have the same head of the chain and the same local accounts. -/
structure SameHead (p p' : TxPool) : Prop where
  currentState : p'.currentState = p.currentState
  currentMaxGas : p'.currentMaxGas = p.currentMaxGas
  locals : p'.locals = p.locals

theorem SameHead.refl (p : TxPool) : SameHead p p := ⟨rfl, rfl, rfl⟩

theorem SameHead.trans {p1 p2 : TxPool} (h1 : SameHead p p1) (h2 : SameHead p1 p2) :
    SameHead p p2 :=
  ⟨h2.currentState.trans h1.currentState, h2.currentMaxGas.trans h1.currentMaxGas,
    h2.locals.trans h1.locals⟩

theorem SameHead.store (p : TxPool) (pl : Place) (l : TxList) : SameHead p (p.store pl l) := by
  cases pl <;> exact ⟨rfl, rfl, rfl⟩

theorem SameHead.drop (p : TxPool) (pl : Place) : SameHead p (p.drop pl) := by
  cases pl <;> exact ⟨rfl, rfl, rfl⟩

/-- The index has the transactions of the pool, each once, and no others. -/
def Exact (p : TxPool) : Prop := p.priced.entries.Perm p.all

/-! ## Records -/

variable {E : PoolEnv} {t x : Transaction}

namespace Records

variable {all : List Transaction} {priced : TxTypeList}

variable (h : Records E all priced)
include h

theorem eq_of_hash (ht : t ∈ all) (hx : x ∈ all) (heq : E.hash t = E.hash x) : t = x :=
  inj_on_of_nodup_map h.hashes ht hx heq

theorem typed (ht : t ∈ all) : ∃ txType, t.getTransactionType = some txType := by
  obtain ⟨kv, hkv, ht⟩ := mem_entries.1 (h.entry t ht)
  exact ⟨kv.key, h.indexed.typed kv hkv t ht⟩

theorem perm_filter (ht : t ∈ all) : all.Perm (t :: all.filter fun x => E.hash x ≠ E.hash t) := by
  have hnot : t ∉ all.filter fun x => E.hash x ≠ E.hash t := by simp
  refine (perm_ext_iff_of_nodup h.hashes.of_map
    (nodup_cons.2 ⟨hnot, h.hashes.of_map.filter _⟩)).2 fun x => ?_
  rw [mem_cons, mem_filter, decide_eq_true_eq]
  constructor
  · intro hx
    by_cases heq : E.hash x = E.hash t
    · exact .inl (h.eq_of_hash hx ht heq)
    · exact .inr ⟨hx, heq⟩
  · rintro (rfl | ⟨hx, -⟩)
    · exact ht
    · exact hx

theorem forget (ht : t ∈ all) : ∃ all' priced', (∀ p : TxPool, p.all = all → p.priced = priced →
        E.forget t p = some { p with all := all', priced := priced' }) ∧
      Records E all' priced' ∧ (∀ x, x ∈ all' ↔ x ∈ all ∧ x ≠ t) ∧
      (∃ e, E.hash e = E.hash t ∧ priced.entries.Perm (e :: priced'.entries)) ∧
      (priced.entries.Perm all → priced'.entries.Perm all') := by
  obtain ⟨txType, htype⟩ := h.typed ht
  obtain ⟨e, priced', hrem, hhash, hindexed, hperm⟩ :=
    removeByHash_entries h.indexed (h.entry t ht) htype (rfl : E.hash t = E.hash t)
  refine ⟨all.filter fun x => E.hash x ≠ E.hash t, priced', ?_, ⟨?_, hindexed, ?_⟩, ?_,
    ⟨e, hhash, hperm⟩, ?_⟩
  · rintro p rfl rfl
    rw [forget, htype, bind_some, hrem]
    rfl
  · exact h.hashes.sublist (List.Sublist.map _ filter_sublist)
  · intro x hx
    obtain ⟨hx, hne⟩ := mem_filter.1 hx
    rcases mem_cons.1 (hperm.mem_iff.1 (h.entry x hx)) with rfl | hx
    · simp [hhash] at hne
    · exact hx
  · intro x
    rw [mem_filter, decide_eq_true_eq]
    exact and_congr_right fun hx => not_congr ⟨h.eq_of_hash hx ht, fun heq => by rw [heq]⟩
  · intro hexact
    have he := hexact.mem_iff.1 (hperm.mem_iff.2 mem_cons_self)
    obtain rfl : e = t := h.eq_of_hash he ht hhash
    exact (hperm.symm.trans (hexact.trans (h.perm_filter ht))).cons_inv

theorem discard {old : Option Transaction} (hold : ∀ o ∈ old, o ∈ all) :
    ∃ all' priced', (∀ p : TxPool, p.all = all → p.priced = priced →
        E.discard old p = some { p with all := all', priced := priced' }) ∧
      Records E all' priced' ∧ (∀ x, x ∈ all' ↔ x ∈ all ∧ x ∉ old) ∧
      (old = none → priced' = priced) ∧ (priced.entries.Perm all → priced'.entries.Perm all') := by
  cases old with
  | none =>
    refine ⟨all, priced, ?_, h, by simp, fun _ => rfl, id⟩
    rintro p rfl rfl
    rfl
  | some o =>
    obtain ⟨all', priced', hrun, h', hall, -, hexact⟩ := h.forget (hold o rfl)
    refine ⟨all', priced', hrun, h', fun x => ?_, fun hnone => (nomatch hnone), hexact⟩
    rw [hall, mem_def, some.injEq, ne_comm]

theorem register {txType : Address} (htype : t.getTransactionType = some txType) :
    ∃ all' priced', (∀ p : TxPool, p.all = all → p.priced = priced →
        E.register t p = some { p with all := all', priced := priced' }) ∧
      Records E all' priced' ∧ (∀ x, x ∈ all' ↔ x = t ∨ x ∈ all ∧ E.hash x ≠ E.hash t) ∧
      priced'.entries.Perm (t :: priced.entries) ∧
      ((∀ x ∈ all, E.hash x ≠ E.hash t) → priced.entries.Perm all → priced'.entries.Perm all') := by
  obtain ⟨priced', hput, hindexed, hperm⟩ := put_entries h.indexed htype
  refine ⟨t :: all.filter fun x => E.hash x ≠ E.hash t, priced', ?_, ⟨?_, hindexed, ?_⟩, ?_, hperm,
    ?_⟩
  · rintro p rfl rfl
    rw [register, hput]
    rfl
  · rw [map_cons, nodup_cons]
    refine ⟨fun hmem => ?_, h.hashes.sublist (List.Sublist.map _ filter_sublist)⟩
    obtain ⟨x, hx, heq⟩ := mem_map.1 hmem
    simp [heq] at hx
  · intro x hx
    rw [hperm.mem_iff]
    rcases mem_cons.1 hx with rfl | hx
    · exact mem_cons_self
    · exact mem_cons_of_mem t (h.entry x (mem_filter.1 hx).1)
  · intro x
    rw [mem_cons, mem_filter, decide_eq_true_eq]
  · intro hfresh hexact
    rw [filter_eq_self.2 fun x hx => by simpa using hfresh x hx]
    exact hperm.trans (hexact.cons t)

end Records

variable {p' : TxPool}

namespace Shaped

theorem place_unique (h : Shaped E p) {pl' : Place} (ht : t ∈ p.content pl)
    (ht' : t ∈ p.content pl') : pl = pl' := by
  have hacc := some.inj ((h.member pl t ht).2.symm.trans (h.member pl' t ht').2)
  cases pl <;> cases pl' <;> simp only [Place.account] at hacc <;> subst hacc
  · rfl
  · exact absurd rfl (h.apart _ t ht t ht')
  · exact absurd rfl (h.apart _ t ht' t ht)
  · rfl

theorem congr (h : Shaped E p) (hall : p'.all = p.all) (hpriced : p'.priced = p.priced)
    (hlist : ∀ pl, p'.list pl = p.list pl) : Shaped E p' := by
  have hcontent : ∀ pl, p'.content pl = p.content pl := fun pl => content_congr (hlist pl)
  refine ⟨by rw [hall, hpriced]; exact h.records, ?_, ?_, ?_⟩
  · intro pl
    rw [hcontent, hall]
    exact h.member pl
  · intro pl
    rw [hlist]
    exact h.strict pl
  · intro a
    rw [hcontent, hcontent]
    exact h.apart a

end Shaped

/-! ## Taking transactions out of a list -/

/-- The pool without the transactions `out` of a place. -/
structure Out (p p' : TxPool) (pl : Place) (out : List Transaction) : Prop where
  all : p'.all = p.all
  priced : p'.priced = p.priced
  other : ∀ pl', pl' ≠ pl → p'.list pl' = p.list pl'
  perm : (out ++ p'.content pl).Perm (p.content pl)
  strict : ∀ l, p'.list pl = some l → l.strict = pl.isPending

variable {out : List Transaction}

namespace Out

variable {rest : TxList} {t' : Transaction}

theorem store (h : Shaped E p) (hl : p.list pl = some l) (hp : l.Parts out rest) :
    Out p (p.store pl rest) pl out where
  all := all_store p pl rest
  priced := priced_store p pl rest
  other pl' hne := list_store_of_ne hne rest
  perm := by
    rw [content_store_self, content_of_list hl]
    exact hp.perm
  strict l' hl' := by
    rw [list_store_self] at hl'
    cases hl'
    rw [hp.strict]
    exact h.strict pl l hl

theorem drop (hl : p.list pl = some l) (hp : l.Parts out rest) (hrest : rest.len = 0) :
    Out p (p.drop pl) pl out where
  all := all_drop p pl
  priced := priced_drop p pl
  other pl' hne := list_drop_of_ne hne
  perm := by
    have hp := hp.perm
    rw [length_eq_zero_iff.1 hrest] at hp
    rw [content_drop_self, content_of_list hl]
    exact hp
  strict l' hl' := by
    rw [list_drop_self] at hl'
    cases hl'

variable (h : Out p p' pl out)
include h

theorem mem : t ∈ p.content pl ↔ t ∈ out ∨ t ∈ p'.content pl := by
  rw [← h.perm.mem_iff, mem_append]

theorem content_other {pl' : Place} (hne : pl' ≠ pl) : p'.content pl' = p.content pl' :=
  content_congr (h.other pl' hne)

theorem sub {pl' : Place} (ht : t ∈ p'.content pl') : t ∈ p.content pl' := by
  by_cases hne : pl' = pl
  · subst hne
    exact h.mem.2 (.inr ht)
  · rwa [h.content_other hne] at ht

theorem nonces : (out.map accountNonce).Nodup ∧
    ∀ t ∈ out, ∀ t' ∈ p'.content pl, t.accountNonce ≠ t'.accountNonce := by
  have hn := (h.perm.map accountNonce).nodup_iff.2 (p.nodup_content pl)
  rw [map_append, nodup_append] at hn
  exact ⟨hn.1, fun t ht t' ht' => hn.2.2 _ (mem_map_of_mem ht) _ (mem_map_of_mem ht')⟩

theorem shaped (hs : Shaped E p) : Shaped E p' where
  records := by rw [h.all, h.priced]; exact hs.records
  member pl' t ht := by rw [h.all]; exact hs.member pl' t (h.sub ht)
  strict pl' l hl := by
    by_cases hne : pl' = pl
    · subst hne
      exact h.strict l hl
    · rw [h.other pl' hne] at hl
      exact hs.strict pl' l hl
  apart a t ht t' ht' := hs.apart a t (h.sub ht) t' (h.sub ht')

theorem loose (hs : Shaped E p) : Loose p' t ↔ Loose p t ∨ t ∈ out := by
  unfold Loose
  rw [h.all]
  constructor
  · rintro ⟨hall, hno⟩
    by_cases hout : t ∈ out
    · exact .inr hout
    · refine .inl ⟨hall, fun pl' ht => hno pl' ?_⟩
      by_cases hne : pl' = pl
      · subst hne
        exact (h.mem.1 ht).resolve_left hout
      · rwa [h.content_other hne]
  · rintro (⟨hall, hno⟩ | hout)
    · exact ⟨hall, fun pl' ht => hno pl' (h.sub ht)⟩
    · have hin := h.mem.2 (.inl hout)
      refine ⟨(hs.member pl t hin).1, fun pl' ht => ?_⟩
      obtain rfl := hs.place_unique hin (h.sub ht)
      exact h.nonces.2 t hout t ht rfl

end Out

/-! ## Forgetting a loose transaction -/

variable {xs : List Transaction}

/-- The pool without some transactions that no list holds. -/
structure Forgets (E : PoolEnv) (p p' : TxPool) (xs : List Transaction) : Prop where
  rest : ∃ all priced, p' = { p with all := all, priced := priced }
  all : ∀ t, t ∈ p'.all ↔ t ∈ p.all ∧ t ∉ xs
  shaped : Shaped E p'
  entries : ∃ es, es.map E.hash = xs.map E.hash ∧ p.priced.entries.Perm (es ++ p'.priced.entries)
  exact : Exact p → Exact p'

theorem Forgets.list (h : Forgets E p p' xs) (pl : Place) : p'.list pl = p.list pl := by
  obtain ⟨-, -, rfl⟩ := h.rest
  cases pl <;> rfl

theorem Forgets.content (h : Forgets E p p' xs) (pl : Place) : p'.content pl = p.content pl :=
  content_congr (h.list pl)

theorem Forgets.loose (h : Forgets E p p' xs) : Loose p' x ↔ Loose p x ∧ x ∉ xs := by
  unfold Loose
  rw [h.all]
  simp only [h.content]
  tauto

theorem forget_loose (h : Shaped E p) (ht : Loose p t) :
    ∃ p', E.forget t p = some p' ∧ Forgets E p p' [t] := by
  obtain ⟨all, priced, hrun, hrecords, hall, ⟨e, he, hperm⟩, hexact⟩ := h.records.forget ht.1
  refine ⟨_, hrun p rfl rfl, ⟨all, priced, rfl⟩, ?_, ⟨hrecords, ?_, h.strict, h.apart⟩,
    ⟨[e], by simp [he], hperm⟩, hexact⟩
  · intro x
    rw [mem_singleton]
    exact hall x
  · intro pl x hx
    refine ⟨(hall x).2 ⟨(h.member pl x hx).1, ?_⟩, (h.member pl x hx).2⟩
    rintro rfl
    exact ht.2 pl hx

/-- **Loose transactions can be forgotten.** -/
theorem forgets_loose (h : Shaped E p) (hx : ∀ x ∈ xs, Loose p x) (hnd : xs.Nodup) :
    ∃ p', exec E.forget xs p = some p' ∧ Forgets E p p' xs := by
  induction xs generalizing p with
  | nil => exact ⟨p, rfl, ⟨p.all, p.priced, rfl⟩, by simp, h, ⟨[], rfl, .refl _⟩, id⟩
  | cons x xs ih =>
    obtain ⟨hnot, hnd⟩ := nodup_cons.1 hnd
    obtain ⟨p1, hrun1, hf1⟩ := forget_loose h (hx x mem_cons_self)
    obtain ⟨p2, hrun2, hf2⟩ := ih hf1.shaped (fun y hy => hf1.loose.2
      ⟨hx y (mem_cons_of_mem x hy), by rintro hyx; exact hnot (mem_singleton.1 hyx ▸ hy)⟩) hnd
    refine ⟨p2, exec_cons_eq_some.2 ⟨p1, hrun1, hrun2⟩, ?_, fun t => ?_, hf2.shaped, ?_,
      fun he => hf2.exact (hf1.exact he)⟩
    · obtain ⟨all1, priced1, rfl⟩ := hf1.rest
      obtain ⟨all2, priced2, rfl⟩ := hf2.rest
      exact ⟨all2, priced2, rfl⟩
    · rw [hf2.all, hf1.all, mem_singleton, mem_cons]
      tauto
    · obtain ⟨es1, hes1, hperm1⟩ := hf1.entries
      obtain ⟨es2, hes2, hperm2⟩ := hf2.entries
      refine ⟨es1 ++ es2, by rw [map_append, hes1, hes2]; rfl, ?_⟩
      rw [append_assoc]
      exact hperm1.trans (hperm2.append_left es1)

/-! ## Putting a transaction into a list -/

variable {a : Address}

section Insert

variable {n : Nat}

def Free (p : TxPool) (a : Address) (n : Nat) : Prop :=
  ∀ pl : Place, pl.account = a → ∀ t ∈ p.content pl, t.accountNonce ≠ n

/-- A transaction goes to a list, in the place of the one with its nonce. -/
structure Joins (E : PoolEnv) (p p' : TxPool) (pl : Place) (t : Transaction) : Prop where
  other : ∀ pl', pl' ≠ pl → p'.list pl' = p.list pl'
  content : ∀ x, x ∈ p'.content pl ↔ x = t ∨ x ∈ p.content pl ∧ x.accountNonce ≠ t.accountNonce
  all : ∀ x, x ∈ p'.all ↔ x = t ∨ x ∈ p.all ∧ ¬ (x ∈ p.content pl ∧ x.accountNonce = t.accountNonce)
  head : SameHead p p'
  pendingState : p'.pendingState = p.pendingState
  shaped : Shaped E p'

/-- What can go to a place: a transaction that is new, or loose, if no other list of its sender has
the nonce. -/
structure Ready (E : PoolEnv) (p : TxPool) (pl : Place) (t : Transaction) : Prop where
  sender : E.sender t = some pl.account
  typed : t.getTransactionType.isSome
  apart : ∀ pl', pl' ≠ pl → pl'.account = pl.account → ∀ x ∈ p.content pl',
    x.accountNonce ≠ t.accountNonce
  fresh : ∀ x ∈ p.all, E.hash x = E.hash t → x = t
  loose : ∀ pl', t ∉ p.content pl'

theorem Joins.loose (h : Joins E p p' pl t) : Loose p' x → Loose p x := by
  rintro ⟨hall, hno⟩
  rcases (h.all x).1 hall with rfl | ⟨hall, hstay⟩
  · exact absurd ((h.content x).2 (.inl rfl)) (hno pl)
  · refine ⟨hall, fun pl' hx => hno pl' ?_⟩
    by_cases hne : pl' = pl
    · subst hne
      exact (h.content x).2 (.inr ⟨hx, fun hn => hstay ⟨hx, hn⟩⟩)
    · rwa [content_congr (h.other pl' hne)]

theorem known_eq_none {h : Hash} : E.known p h = none ↔ ∀ x ∈ p.all, E.hash x ≠ h := by
  simp [known]

theorem content_getD (p : TxPool) (pl : Place) :
    ((p.list pl).getD (TxList.new pl.isPending)).flatten = p.content pl := by
  cases h : p.list pl with
  | none =>
    rw [content_of_none h]
    rfl
  | some => rw [content_of_list h, getD_some]

theorem Shaped.strict_getD (hs : Shaped E p) (pl : Place) :
    ((p.list pl).getD (TxList.new pl.isPending)).strict = pl.isPending := by
  cases h : p.list pl with
  | none => rfl
  | some l => exact hs.strict pl l h

theorem Joins.of_records (hs : Shaped E p) (hr : Ready E p pl t)
    {all : List Transaction} {priced : TxTypeList} (hrecords : Records E all priced)
    (hstrict : l.strict = pl.isPending)
    (hlist : ∀ x, x ∈ l.flatten ↔ x = t ∨ x ∈ p.content pl ∧ x.accountNonce ≠ t.accountNonce)
    (hall : ∀ x, x ∈ all ↔
      x = t ∨ x ∈ p.all ∧ ¬ (x ∈ p.content pl ∧ x.accountNonce = t.accountNonce)) :
    Joins E p { p.store pl l with all := all, priced := priced } pl t := by
  have hother : ∀ pl', pl' ≠ pl →
      ({ p.store pl l with all := all, priced := priced } : TxPool).list pl' = p.list pl' :=
    fun pl' hne => (list_records _ _ _ _).trans (list_store_of_ne hne l)
  have hself : ({ p.store pl l with all := all, priced := priced } : TxPool).list pl = some l :=
    (list_records _ _ _ _).trans (list_store_self p pl l)
  generalize hp' : ({ p.store pl l with all := all, priced := priced } : TxPool) = p' at *
  have hcontent : ∀ x, x ∈ p'.content pl ↔
      x = t ∨ x ∈ p.content pl ∧ x.accountNonce ≠ t.accountNonce := by
    rw [content_of_list hself]
    exact hlist
  have hsame : ∀ pl', pl' ≠ pl → p'.content pl' = p.content pl' := fun pl' hne =>
    content_congr (hother pl' hne)
  have hall' : p'.all = all := by rw [← hp']
  refine ⟨hother, hcontent, by rw [hall']; exact hall, ?_, ?_, ?_, ?_, ?_, ?_⟩
  · rw [← hp']
    exact (SameHead.store p pl l).trans ⟨rfl, rfl, rfl⟩
  · rw [← hp']
    cases pl <;> rfl
  · rw [hall', show p'.priced = priced by rw [← hp']]
    exact hrecords
  · intro pl' x hx
    rw [hall', hall]
    by_cases hne : pl' = pl
    · subst hne
      rcases (hcontent x).1 hx with rfl | ⟨hx, hn⟩
      · exact ⟨.inl rfl, hr.sender⟩
      · exact ⟨.inr ⟨(hs.member pl' x hx).1, fun h => hn h.2⟩, (hs.member pl' x hx).2⟩
    · rw [hsame pl' hne] at hx
      exact ⟨.inr ⟨(hs.member pl' x hx).1, fun h => hne (hs.place_unique hx h.1)⟩,
        (hs.member pl' x hx).2⟩
  · intro pl' l' hl'
    by_cases hne : pl' = pl
    · subst hne
      rw [hself] at hl'
      cases hl'
      exact hstrict
    · rw [hother pl' hne] at hl'
      exact hs.strict pl' l' hl'
  · -- the new transaction is in one of the two lists, and the other has not its nonce
    intro a x hx y hy
    by_cases hpend : (.pending a : Place) = pl
    · subst hpend
      rw [hsame (.queue a) (by simp)] at hy
      rcases (hcontent x).1 hx with rfl | ⟨hx, -⟩
      · exact (hr.apart (.queue a) (by simp) rfl y hy).symm
      · exact hs.apart a x hx y hy
    · rw [hsame (.pending a) hpend] at hx
      by_cases hque : (.queue a : Place) = pl
      · subst hque
        rcases (hcontent y).1 hy with rfl | ⟨hy, -⟩
        · exact hr.apart (.pending a) (by simp) rfl x hx
        · exact hs.apart a x hx y hy
      · rw [hsame (.queue a) hque] at hy
        exact hs.apart a x hx y hy

/-- **A transaction goes to a list**, or is refused because of the price. -/
theorem insertAt_cases (hs : Shaped E p) (hr : Ready E p pl t) :
    (E.insertAt pl t p = some (.error .replaceUnderpriced, p) ∧
      ∃ o ∈ p.content pl, o.accountNonce = t.accountNonce) ∨
    ∃ p' old, E.insertAt pl t p = some (.ok old, p') ∧ Joins E p p' pl t ∧
      (old = false → p'.priced.entries.Perm (t :: p.priced.entries)) ∧
      (old = true ↔ ∃ o ∈ p.content pl, o.accountNonce = t.accountNonce) ∧
      (E.known p (E.hash t) = none → Exact p → Exact p') := by
  have hflat := content_getD p pl
  have hstrict := hs.strict_getD pl
  unfold insertAt
  generalize (p.list pl).getD (TxList.new pl.isPending) = l at *
  cases hadd : l.add t E.config.priceBump with
  | none =>
    refine .inl ⟨rfl, ?_⟩
    by_contra hno
    push Not at hno
    obtain ⟨l', hl'⟩ := TxList.add_of_fresh (by rw [hflat]; exact hno)
    rw [hadd] at hl'
    cases hl'
  | some r =>
    obtain ⟨old, l'⟩ := r
    obtain ⟨hold, hstrict', hmem⟩ := TxList.add_eq_some hadd
    have hold' : ∀ o, o ∈ old ↔ o ∈ p.content pl ∧ o.accountNonce = t.accountNonce := by
      intro o
      rw [hold, mem_def, TxList.get_eq_some, hflat]
    rw [hflat] at hmem
    have hknown : ∀ o ∈ old, o ∈ p.all := fun o ho => (hs.member pl o ((hold' o).1 ho).1).1
    obtain ⟨all1, priced1, hrun1, hrec1, hall1, hsame1, hexact1⟩ := hs.records.discard hknown
    obtain ⟨txType, htype⟩ := isSome_iff_exists.1 hr.typed
    obtain ⟨all2, priced2, hrun2, hrec2, hall2, hperm2, hexact2⟩ := hrec1.register htype
    have hall : ∀ x, x ∈ all2 ↔
        x = t ∨ x ∈ p.all ∧ ¬ (x ∈ p.content pl ∧ x.accountNonce = t.accountNonce) := by
      intro x
      rw [hall2, hall1, hold']
      constructor
      · rintro (rfl | ⟨hx, -⟩)
        · exact .inl rfl
        · exact .inr hx
      · rintro (rfl | hx)
        · exact .inl rfl
        · by_cases heq : x = t
          · exact .inl heq
          · exact .inr ⟨hx, fun hh => heq (hr.fresh x hx.1 hh)⟩
    refine .inr ⟨{ p.store pl l' with all := all2, priced := priced2 }, old.isSome, ?_, ?_, ?_, ?_,
      ?_⟩
    · dsimp only
      rw [hrun1 _ (all_store p pl l') (priced_store p pl l'), bind_some, hrun2 _ rfl rfl]
      rfl
    · exact Joins.of_records hs hr hrec2 (hstrict'.trans hstrict) hmem hall
    · intro hnone
      rw [hsame1 (by simpa using hnone)] at hperm2
      exact hperm2
    · rw [isSome_iff_exists]
      exact exists_congr hold'
    · intro hknown hexact
      refine hexact2 (fun x hx => ?_) (hexact1 hexact)
      exact known_eq_none.1 hknown x ((hall1 x).1 hx).1

end Insert

/-! ## Loose transactions go to a list -/

variable {p1 : TxPool}

section Land

variable {c : Choices} {p2 : TxPool}
  {ys : List Transaction}

structure Lands (E : PoolEnv) (p p' : TxPool) (pl : Place) (xs : List Transaction) : Prop where
  other : ∀ pl', pl' ≠ pl → p'.list pl' = p.list pl'
  content : ∀ x, x ∈ p'.content pl ↔ x ∈ xs ∨ x ∈ p.content pl
  all : ∀ x, x ∈ p'.all ↔ x ∈ p.all
  head : SameHead p p'
  shaped : Shaped E p'

theorem Lands.refl (hs : Shaped E p) (pl : Place) : Lands E p p pl [] :=
  ⟨fun _ _ => rfl, by simp, fun _ => Iff.rfl, SameHead.refl p, hs⟩

theorem Lands.trans (h1 : Lands E p p1 pl xs) (h2 : Lands E p1 p2 pl ys) :
    Lands E p p2 pl (xs ++ ys) where
  other pl' hne := (h2.other pl' hne).trans (h1.other pl' hne)
  content x := by
    rw [h2.content, h1.content, mem_append]
    tauto
  all x := (h2.all x).trans (h1.all x)
  head := h1.head.trans h2.head
  shaped := h2.shaped

theorem Lands.content_other (h : Lands E p p' pl xs) {pl' : Place} (hne : pl' ≠ pl) :
    p'.content pl' = p.content pl' :=
  content_congr (h.other pl' hne)

theorem Lands.loose (h : Lands E p p' pl xs) : Loose p' x ↔ Loose p x ∧ x ∉ xs := by
  unfold Loose
  rw [h.all]
  constructor
  · rintro ⟨hall, hno⟩
    refine ⟨⟨hall, fun pl' hx => hno pl' ?_⟩, fun hx => hno pl ((h.content x).2 (.inl hx))⟩
    by_cases hne : pl' = pl
    · subst hne
      exact (h.content x).2 (.inr hx)
    · rwa [h.content_other hne]
  · rintro ⟨⟨hall, hno⟩, hxs⟩
    refine ⟨hall, fun pl' hx => ?_⟩
    by_cases hne : pl' = pl
    · subst hne
      exact ((h.content x).1 hx).elim hxs (hno pl')
    · rw [h.content_other hne] at hx
      exact hno pl' hx

structure Landing (E : PoolEnv) (p : TxPool) (a : Address) (xs : List Transaction) : Prop where
  loose : ∀ x ∈ xs, Loose p x
  sender : ∀ x ∈ xs, E.sender x = some a
  nonces : (xs.map accountNonce).Nodup
  free : ∀ x ∈ xs, Free p a x.accountNonce

theorem Landing.ready (h : Landing E p a xs) (hs : Shaped E p) (hx : x ∈ xs)
    (hpl : pl.account = a) : Ready E p pl x := by
  obtain ⟨txType, htype⟩ := hs.records.typed (h.loose x hx).1
  refine ⟨by rw [hpl]; exact h.sender x hx, by rw [htype]; rfl, ?_, ?_, (h.loose x hx).2⟩
  · intro pl' _ hacc y hy
    exact h.free x hx pl' (hacc.trans hpl) y hy
  · intro y hy heq
    exact hs.records.eq_of_hash hy (h.loose x hx).1 heq

theorem Landing.tail (h : Landing E p a (x :: xs)) (hpl : pl.account = a)
    (hland : Lands E p p' pl [x]) : Landing E p' a xs := by
  obtain ⟨hnot, hnd⟩ := nodup_cons.1 h.nonces
  have hne : ∀ y ∈ xs, y.accountNonce ≠ x.accountNonce := fun y hy heq =>
    hnot (heq ▸ mem_map_of_mem hy)
  refine ⟨fun y hy => hland.loose.2 ⟨h.loose y (mem_cons_of_mem x hy), fun hyx => ?_⟩,
    fun y hy => h.sender y (mem_cons_of_mem x hy), hnd, fun y hy pl' hacc z hz => ?_⟩
  · exact hne y hy (mem_singleton.1 hyx ▸ rfl)
  · by_cases hpl' : pl' = pl
    · subst hpl'
      rcases (hland.content z).1 hz with hzx | hz
      · rw [mem_singleton.1 hzx]
        exact (hne y hy).symm
      · exact h.free y (mem_cons_of_mem x hy) pl' hpl z hz
    · rw [hland.content_other hpl'] at hz
      exact h.free y (mem_cons_of_mem x hy) pl' hacc z hz

theorem Landing.perm (h : Landing E p a xs) (hp : ys.Perm xs) : Landing E p a ys :=
  ⟨fun x hx => h.loose x (hp.mem_iff.1 hx), fun x hx => h.sender x (hp.mem_iff.1 hx),
    (hp.map _).nodup_iff.2 h.nonces, fun x hx => h.free x (hp.mem_iff.1 hx)⟩

theorem Landing.head (h : Landing E p a (x :: xs)) : Landing E p a [x] :=
  ⟨fun y hy => h.loose y (mem_singleton.1 hy ▸ mem_cons_self),
    fun y hy => h.sender y (mem_singleton.1 hy ▸ mem_cons_self), by simp,
    fun y hy => h.free y (mem_singleton.1 hy ▸ mem_cons_self)⟩

theorem Out.landing (ho : Out p p1 pl ys) (hs : Shaped E p) (hsub : ∀ x ∈ xs, x ∈ ys)
    (hnd : (xs.map accountNonce).Nodup) : Landing E p1 pl.account xs := by
  have hin : ∀ x ∈ xs, x ∈ p.content pl := fun x hx => ho.mem.2 (.inl (hsub x hx))
  refine ⟨fun x hx => (ho.loose hs).2 (.inr (hsub x hx)), fun x hx => (hs.member _ x (hin x hx)).2,
    hnd, fun x hx pl' hpl' y hy => ?_⟩
  by_cases hne : pl' = pl
  · subst hne
    exact (ho.nonces.2 x (hsub x hx) y hy).symm
  · have hyp := ho.sub hy
    have hxp := hin x hx
    cases pl <;> cases pl' <;> simp only [Place.account] at hpl' <;> subst hpl'
    · exact absurd rfl hne
    · exact (hs.apart _ x hxp y hyp).symm
    · exact hs.apart _ y hyp x hxp
    · exact absurd rfl hne

theorem Landing.forgets (h : Landing E p a xs) (hf : Forgets E p p' ys) (hdis : ∀ x ∈ xs, x ∉ ys) :
    Landing E p' a xs :=
  ⟨fun x hx => hf.loose.2 ⟨h.loose x hx, hdis x hx⟩, h.sender, h.nonces, fun x hx pl hpl y hy =>
    h.free x hx pl hpl y (by rwa [hf.content] at hy)⟩

theorem lands_exec {step : Transaction → TxPool → Option TxPool}
    {Q : List Transaction → TxPool → Prop} (hpl : pl.account = a)
    (hstep : ∀ x xs p, Shaped E p → Landing E p a [x] → Q (x :: xs) p →
      ∃ p', step x p = some p' ∧ Lands E p p' pl [x] ∧ Q xs p')
    (hs : Shaped E p) (h : Landing E p a xs) (hq : Q xs p) :
    ∃ p', exec step xs p = some p' ∧ Lands E p p' pl xs ∧ Q [] p' := by
  induction xs generalizing p with
  | nil => exact ⟨p, rfl, Lands.refl hs pl, hq⟩
  | cons x xs ih =>
    obtain ⟨p1, hrun1, hland1, hq1⟩ := hstep x xs p hs h.head hq
    obtain ⟨p2, hrun2, hland2, hq2⟩ := ih hland1.shaped (h.tail hpl hland1) hq1
    exact ⟨p2, exec_cons_eq_some.2 ⟨p1, hrun1, hrun2⟩, hland1.trans hland2, hq2⟩

theorem Joins.lands (hj : Joins E p p' pl x) (h : Landing E p a [x]) (hpl : pl.account = a) :
    Lands E p p' pl [x] := by
  have hx := mem_singleton_self x
  have hfree := h.free x hx pl hpl
  refine ⟨hj.other, fun y => ?_, fun y => ?_, hj.head, hj.shaped⟩
  · rw [hj.content, mem_singleton]
    exact or_congr_right ⟨fun hy => hy.1, fun hy => ⟨hy, hfree y hy⟩⟩
  · rw [hj.all]
    refine ⟨?_, fun hy => .inr ⟨hy, fun hyq => hfree y hyq.1 hyq.2⟩⟩
    rintro (rfl | hy)
    · exact (h.loose y hx).1
    · exact hy.1

theorem requeue_lands (hs : Shaped E p) (h : Landing E p a [x]) :
    ∃ p', E.requeue x p = some p' ∧ Lands E p p' (.queue a) [x] ∧
      p'.pendingState = p.pendingState ∧ p'.priced.entries.Perm (x :: p.priced.entries) := by
  have hx := mem_singleton_self x
  have hready : Ready E p (.queue a) x := h.ready hs hx rfl
  have hfree := h.free x hx
  have hsender : E.senderOf x = a := by rw [senderOf, h.sender x hx, getD_some]
  unfold requeue enqueueTx
  rw [hsender]
  rcases insertAt_cases hs hready with ⟨-, o, ho, hn⟩ | ⟨p', old, hrun, hj, hperm, hold, -⟩
  · exact absurd hn (hfree (.queue a) rfl o ho)
  · have hnone : old = false := by
      refine Bool.eq_false_iff.2 fun htrue => ?_
      obtain ⟨o, ho, hn⟩ := hold.1 htrue
      exact hfree (.queue a) rfl o ho hn
    exact ⟨p', by rw [hrun]; rfl, hj.lands h rfl, hj.pendingState, hperm hnone⟩

/-- **Loose transactions go back to the queue**, and into the index once more. -/
theorem requeues_land (hs : Shaped E p) (h : Landing E p a xs) :
    ∃ p', exec E.requeue xs p = some p' ∧ Lands E p p' (.queue a) xs ∧
      p'.pendingState = p.pendingState ∧ p'.priced.entries.Perm (xs ++ p.priced.entries) := by
  refine lands_exec (Q := fun ys q => q.pendingState = p.pendingState ∧
    (ys ++ q.priced.entries).Perm (xs ++ p.priced.entries)) rfl
    (fun x ys q hq hland hQ => ?_) hs h ⟨rfl, .refl _⟩
  obtain ⟨q', hrun, hland, hsame, hperm⟩ := requeue_lands hq hland
  refine ⟨q', hrun, hland, hsame.trans hQ.1, ?_⟩
  exact (hperm.append_left ys).trans (perm_middle.trans hQ.2)

theorem Lands.congr (h : Lands E p p1 pl xs) (hall : p'.all = p1.all) (hpriced : p'.priced = p1.priced)
    (hlist : ∀ pl, p'.list pl = p1.list pl) (hhead : SameHead p1 p') : Lands E p p' pl xs where
  other pl' hne := (hlist pl').trans (h.other pl' hne)
  content x := by
    rw [content_congr (hlist pl)]
    exact h.content x
  all x := by
    rw [hall]
    exact h.all x
  head := h.head.trans hhead
  shaped := h.shaped.congr hall hpriced hlist

theorem promoteTx_lands (hs : Shaped E p) (h : Landing E p a [x]) :
    ∃ p', E.promoteTx c a x p = some p' ∧ Lands E p p' (.pending a) [x] ∧
      p'.pendingState = p.pendingState.setNonce a (u64 (x.accountNonce + 1)) ∧
      p'.all = p.all ∧ p'.priced = p.priced := by
  have hx := mem_singleton_self x
  have hfree := h.free x hx (.pending a) rfl
  obtain ⟨l, hl⟩ : ∃ l, (p.list (.pending a)).getD (TxList.new true) = l := ⟨_, rfl⟩
  have hflat := hl ▸ content_getD p (.pending a)
  have hstrict := hl ▸ hs.strict_getD (.pending a)
  obtain ⟨l', hadd⟩ : ∃ l', l.add x E.config.priceBump = some (none, l') :=
    TxList.add_of_fresh (by rw [hflat]; exact hfree)
  obtain ⟨-, hstrict', hmem⟩ := TxList.add_eq_some hadd
  rw [hflat] at hmem
  have hlive : E.live (p.store (.pending a) l') x = true := by
    have hin := (h.loose x hx).1
    rw [live, isSome_iff_ne_none]
    exact fun hnone => known_eq_none.1 hnone x hin rfl
  have hall : ∀ y, y ∈ p.all ↔ y = x ∨ y ∈ p.all ∧
      ¬ (y ∈ p.content (.pending a) ∧ y.accountNonce = x.accountNonce) := by
    intro y
    refine ⟨fun hy => .inr ⟨hy, fun hyp => hfree y hyp.1 hyp.2⟩, ?_⟩
    rintro (rfl | hy)
    · exact (h.loose y hx).1
    · exact hy.1
  have hj := Joins.of_records hs (h.ready hs hx rfl) hs.records (hstrict'.trans hstrict) hmem hall
  refine ⟨{ (p.store (.pending a) l').setNonce a (u64 (x.accountNonce + 1)) with
    beats := p.beats.insert a c.now }, ?_,
    (hj.lands h rfl).congr rfl rfl (fun pl => ?_) ⟨rfl, rfl, rfl⟩, rfl, rfl, rfl⟩
  · rw [promoteTx, hl, hadd]
    dsimp only [PoolEnv.discard]
    rw [bind_some, if_pos hlive]
    rfl
  · cases pl <;> rfl

/-- **Loose transactions are promoted**, and the next nonce is that after the last. -/
theorem promotes_land (hs : Shaped E p) (h : Landing E p a xs) :
    ∃ p', exec (E.promoteTx c a) xs p = some p' ∧ Lands E p p' (.pending a) xs ∧ p'.pendingState =
        xs.foldl (fun ms x => ms.setNonce a (u64 (x.accountNonce + 1))) p.pendingState ∧
      (Exact p → Exact p') := by
  refine lands_exec (Q := fun ys q => (ys.foldl (fun ms x => ms.setNonce a
    (u64 (x.accountNonce + 1))) q.pendingState = xs.foldl (fun ms x => ms.setNonce a
    (u64 (x.accountNonce + 1))) p.pendingState) ∧ (Exact p → Exact q)) rfl
    (fun x ys q hq hland hQ => ?_) hs h ⟨rfl, id⟩
  obtain ⟨q', hrun, hland, hstate, hall, hpriced⟩ := promoteTx_lands hq hland
  refine ⟨q', hrun, hland, ?_, fun he => ?_⟩
  · rw [hstate]
    exact hQ.1
  · have := hQ.2 he
    rwa [Exact, hall, hpriced]

end Land

/-! ## Dropping transactions -/

section Drop

variable {out' : List Transaction}

/-- The pool without the transactions `out` of a place. -/
structure Drops (E : PoolEnv) (p p' : TxPool) (pl : Place) (out : List Transaction) : Prop where
  other : ∀ pl', pl' ≠ pl → p'.list pl' = p.list pl'
  perm : (out ++ p'.content pl).Perm (p.content pl)
  all : ∀ x, x ∈ p'.all ↔ x ∈ p.all ∧ x ∉ out
  loose : ∀ x, Loose p' x ↔ Loose p x
  exact : Exact p → Exact p'
  head : SameHead p p'
  pendingState : p'.pendingState = p.pendingState
  shaped : Shaped E p'

theorem Forgets.head (h : Forgets E p p' xs) : SameHead p p' := by
  obtain ⟨-, -, rfl⟩ := h.rest
  exact ⟨rfl, rfl, rfl⟩

theorem Forgets.pendingState (h : Forgets E p p' xs) : p'.pendingState = p.pendingState := by
  obtain ⟨-, -, rfl⟩ := h.rest
  rfl

theorem Drops.of_forgets (hs : Shaped E p) (ho : Out p p1 pl out) (hf : Forgets E p1 p' out')
    (hperm : out'.Perm out) (hhead : SameHead p p') (hstate : p'.pendingState = p.pendingState) :
    Drops E p p' pl out where
  other pl' hne := (hf.list pl').trans (ho.other pl' hne)
  perm := by
    rw [hf.content]
    exact ho.perm
  all x := by rw [hf.all, ho.all, hperm.mem_iff]
  loose x := by
    rw [hf.loose, ho.loose hs, hperm.mem_iff]
    refine ⟨fun h => h.1.resolve_right h.2, fun h => ⟨.inl h, fun hx => ?_⟩⟩
    exact h.2 pl (ho.mem.2 (.inl hx))
  exact he := hf.exact (by rwa [Exact, ho.all, ho.priced])
  head := hhead
  pendingState := hstate
  shaped := hf.shaped

/-- **What is taken out of a list can be forgotten.** -/
theorem Out.forgets (ho : Out p p1 pl out) (hs : Shaped E p) (hhead : SameHead p p1)
    (hstate : p1.pendingState = p.pendingState) (hperm : out'.Perm out) :
    ∃ p', exec E.forget out' p1 = some p' ∧ Drops E p p' pl out ∧ p'.list pl = p1.list pl := by
  have hnd := hperm.nodup_iff.2 ho.nonces.1.of_map
  have hloose : ∀ x ∈ out', Loose p1 x := fun x hx =>
    (ho.loose hs).2 (.inr (hperm.mem_iff.1 hx))
  obtain ⟨p', hrun, hf⟩ := forgets_loose (ho.shaped hs) hloose hnd
  exact ⟨p', hrun, Drops.of_forgets hs ho hf hperm (hhead.trans hf.head)
    (hf.pendingState.trans hstate), hf.list pl⟩

theorem trim_drops (hs : Shaped E p) {take : TxList → List Transaction × TxList}
    (hl : p.list pl = some l) (hp : l.Parts out (take l).2) (hperm : (take l).1.Perm out) :
    ∃ p', E.trim pl take p = some p' ∧ Drops E p p' pl out ∧ p'.list pl = some (take l).2 := by
  obtain ⟨p', hrun, hd, hlist⟩ := (Out.store hs hl hp).forgets hs (SameHead.store p pl _)
    (by cases pl <;> rfl) hperm
  refine ⟨p', ?_, hd, hlist.trans (list_store_self p pl _)⟩
  rw [trim, hl]
  exact hrun

end Drop

end GoAoa.Core
