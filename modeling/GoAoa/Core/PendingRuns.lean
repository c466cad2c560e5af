import GoAoa.Core.Coherence

/-!
# Pending lists as runs of nonces

The pool counts, for each account, the nonce that comes next. Its pending list `Follows` that count:
every nonce from the account's own up to the next is pending and can be paid for, and once the pool
has settled on a head, nothing else is. Every step keeps this but the two that make up a reset.
Moving the pool to another head starts the count anew, and settling takes it from the last
transaction of the list; demotion looks for a gap in front of the list only, so a list with a gap
further back is counted through (`Unbroken` rules this out).
-/

namespace GoAoa.Core

open List Option Run Transaction TxPool PoolEnv State VM

namespace TxPool

def next (p : TxPool) (a : Address) : Nat := p.pendingState.getNonce a

end TxPool

section PendingRuns

variable {E : PoolEnv} {c : Choices} {p p' p₁ p₂ : TxPool} {pl : Place} {t x tx : Transaction}
  {a b : Address} {settled : Bool} {xs out : List Transaction} {m n : Nat} {txType : Address}
  {poll : Option (List Address)} {isLocal : Bool}

theorem next_congr (h : p'.pendingState = p.pendingState) (a : Address) : p'.next a = p.next a := by
  rw [TxPool.next, TxPool.next, h]

/-- The pending list of an account is the run of nonces that the pool counts; up to a reset, it may
have others. -/
structure Follows (settled : Bool) (p : TxPool) (a : Address) : Prop where
  reach : ∀ n, p.nonce a ≤ n → n < p.next a → ∃ t ∈ p.content (.pending a), t.accountNonce = n
  paid : ∀ t ∈ p.content (.pending a), p.nonce a ≤ t.accountNonce → t.accountNonce < p.next a →
    p.exceeds a t = false
  only : settled = true → ∀ t ∈ p.content (.pending a),
    p.nonce a ≤ t.accountNonce ∧ t.accountNonce < p.next a

/-- **A list that follows the count is the run.** -/
theorem Follows.run (h : Follows true p a) : (p.content (.pending a)).map accountNonce =
      range' (p.nonce a) (p.next a - p.nonce a) := by
  have hmem : ∀ n, n ∈ (p.content (.pending a)).map accountNonce ↔
      n ∈ range' (p.nonce a) (p.next a - p.nonce a) := by
    intro n
    rw [mem_range'_1, List.mem_map]
    constructor
    · rintro ⟨t, ht, rfl⟩
      have := h.only rfl t ht
      omega
    · rintro ⟨hlow, hhigh⟩
      exact h.reach n hlow (by omega)
  have hperm := (perm_ext_iff_of_nodup (p.nodup_content (.pending a)) nodup_range').2 hmem
  refine hperm.eq_of_pairwise (fun x y _ _ hxy hyx => ?_)
    (pairwise_map.2 (p.content_sorted (.pending a))) pairwise_lt_range'
  omega

/-- The pools look at the same accounts, with the same limit. -/
structure SameView (p p' : TxPool) : Prop where
  view : view p'.currentState = view p.currentState
  currentMaxGas : p'.currentMaxGas = p.currentMaxGas

theorem SameHead.sameView (h : SameHead p p') : SameView p p' :=
  ⟨by rw [h.currentState], h.currentMaxGas⟩

theorem SameView.nonce (h : SameView p p') (a : Address) : p'.nonce a = p.nonce a := by
  rw [TxPool.nonce, TxPool.nonce, h.view]

theorem SameView.exceeds (h : SameView p p') (a : Address) (t : Transaction) :
    p'.exceeds a t = p.exceeds a t := by
  rw [TxPool.exceeds, TxPool.exceeds, h.view, h.currentMaxGas]

namespace Follows

section

variable (h : Follows settled p a)
include h

theorem congr (hview : SameView p p')
    (hcontent : p'.content (.pending a) = p.content (.pending a)) (hnext : p'.next a = p.next a) :
    Follows settled p' a := by
  constructor
  · rw [hview.nonce, hnext, hcontent]
    exact h.reach
  · rw [hview.nonce, hnext, hcontent]
    intro t
    rw [hview.exceeds]
    exact h.paid t
  · rw [hview.nonce, hnext, hcontent]
    exact h.only

theorem cut (hview : SameView p p')
    (hcontent : ∀ x, x ∈ p'.content (.pending a) ↔ x ∈ p.content (.pending a) ∧ x.accountNonce < m)
    (hnext : p'.next a = min (p.next a) m) : Follows settled p' a := by
  refine ⟨fun n hlow hhigh => ?_, fun t ht hlow hhigh => ?_, fun hset t ht => ?_⟩
  · rw [hview.nonce] at hlow
    obtain ⟨t, ht, rfl⟩ := h.reach n hlow (by omega)
    exact ⟨t, (hcontent t).2 ⟨ht, by omega⟩, rfl⟩
  · rw [hview.nonce] at hlow
    rw [hview.exceeds]
    exact h.paid t ((hcontent t).1 ht).1 hlow (by omega)
  · obtain ⟨ht, hlt⟩ := (hcontent t).1 ht
    have := h.only hset t ht
    rw [hview.nonce, hnext]
    omega

theorem replace (hview : SameView p p') (hcontent : ∀ x, x ∈ p'.content (.pending a) ↔
      x = t ∨ x ∈ p.content (.pending a) ∧ x.accountNonce ≠ t.accountNonce)
    (hnext : p'.next a = p.next a) (hold : ∃ o ∈ p.content (.pending a), o.accountNonce = t.accountNonce)
    (hpaid : p.exceeds a t = false) : Follows settled p' a := by
  obtain ⟨o, ho, hn⟩ := hold
  refine ⟨fun n hlow hhigh => ?_, fun x hx hlow hhigh => ?_, fun hset x hx => ?_⟩
  · rw [hview.nonce] at hlow
    obtain ⟨x, hx, rfl⟩ := h.reach n hlow (by omega)
    by_cases hxt : x.accountNonce = t.accountNonce
    · exact ⟨t, (hcontent t).2 (.inl rfl), hxt.symm⟩
    · exact ⟨x, (hcontent x).2 (.inr ⟨hx, hxt⟩), rfl⟩
  · rw [hview.exceeds]
    rw [hview.nonce] at hlow
    rcases (hcontent x).1 hx with rfl | ⟨hx, -⟩
    · exact hpaid
    · exact h.paid x hx hlow (by omega)
  · rw [hview.nonce, hnext]
    rcases (hcontent x).1 hx with rfl | ⟨hx, -⟩
    · have := h.only hset o ho
      omega
    · exact h.only hset x hx

end

theorem exists_nonce_iff (hxs : xs.map accountNonce = range' m xs.length) :
    (∃ x ∈ xs, x.accountNonce = n) ↔ m ≤ n ∧ n < m + xs.length := by
  rw [← List.mem_map, hxs, mem_range'_1]

theorem extend (h : Follows settled p a) (hview : SameView p p')
    (hcontent : ∀ x, x ∈ p'.content (.pending a) ↔ x ∈ xs ∨ x ∈ p.content (.pending a))
    (hxs : xs.map accountNonce = range' (p.next a) xs.length)
    (hnext : p'.next a = p.next a + xs.length)
    (hlow : ∀ x ∈ xs, p.nonce a ≤ x.accountNonce) (hpaid : ∀ x ∈ xs, p.exceeds a x = false)
    (hfree : ∀ x ∈ xs, ∀ y ∈ p.content (.pending a), y.accountNonce ≠ x.accountNonce) :
    Follows settled p' a := by
  refine ⟨fun n hn hlt => ?_, fun x hx hn hlt => ?_, fun hset x hx => ?_⟩
  · rw [hview.nonce] at hn
    by_cases hnew : n < p.next a
    · obtain ⟨x, hx, rfl⟩ := h.reach n hn hnew
      exact ⟨x, (hcontent x).2 (.inr hx), rfl⟩
    · obtain ⟨x, hx, rfl⟩ := (exists_nonce_iff hxs).2 ⟨Nat.le_of_not_lt hnew, by omega⟩
      exact ⟨x, (hcontent x).2 (.inl hx), rfl⟩
  · rw [hview.nonce] at hn
    rw [hview.exceeds]
    rcases (hcontent x).1 hx with hx | hx
    · exact hpaid x hx
    · refine h.paid x hx hn (Nat.lt_of_not_le fun hle => ?_)
      -- the nonce would be one of those that were added
      obtain ⟨y, hy, hyx⟩ := (exists_nonce_iff hxs).2 ⟨hle, by omega⟩
      exact hfree y hy x hx hyx.symm
  · rw [hview.nonce, hnext]
    rcases (hcontent x).1 hx with hx | hx
    · exact ⟨hlow x hx, ((exists_nonce_iff hxs).1 ⟨x, hx, rfl⟩).2⟩
    · have := h.only hset x hx
      omega

end Follows

/-! ## The count of nonces -/

theorem getNonce_setNonce (ms : ManagedState) (a b : Address) (n : Nat) :
    (ms.setNonce a n).getNonce b = if b = a then n else ms.getNonce b := by
  unfold ManagedState.setNonce ManagedState.getNonce
  split
  · rename_i h
    subst h
    rw [AList.lookup_insert, getD_some]
  · rename_i h
    rw [AList.lookup_insert_ne h]

theorem next_lowerNonce (p : TxPool) (a b : Address) (n : Nat) :
    (p.lowerNonce a n).next b = if b = a then min (p.next a) n else p.next b := by
  unfold lowerNonce TxPool.next
  split
  · rename_i hlt
    rw [setNonce, getNonce_setNonce]
    split
    · omega
    · rfl
  · rename_i hle
    split
    · rename_i h
      subst h
      omega
    · rfl

theorem getNonce_promoted {ms : ManagedState} {k : Nat}
    (hxs : xs.map accountNonce = range' m k) (b : Address) :
    (xs.foldl (fun ms x => ms.setNonce a (u64 (x.accountNonce + 1))) ms).getNonce b =
      if b = a ∧ 0 < k then u64 (m + k) else ms.getNonce b := by
  induction xs generalizing ms m k with
  | nil =>
    have hk : k = 0 := by simpa using congrArg length hxs.symm
    simp [hk]
  | cons x xs ih =>
    cases k with
    | zero => cases hxs
    | succ k =>
      obtain ⟨hx, hxs⟩ := cons.inj hxs
      rw [foldl_cons, ih hxs, getNonce_setNonce]
      by_cases hb : b = a
      · subst hb
        rcases Nat.eq_zero_or_pos k with rfl | hk
        · simp [hx]
        · simp [hk, Int.add_assoc, Int.add_comm 1]
      · simp [hb]

/-! ## Steps that cut -/

/-- Every pending list of a sound pool follows the count. -/
structure Steady (settled : Bool) (E : PoolEnv) (p : TxPool) : Prop extends SoundPool E p where
  follows : ∀ a, Follows settled p a

theorem Steady.congr (h : Steady settled E p) (hsound : SoundPool E p') (hview : SameView p p')
    (hcontent : ∀ a, p'.content (.pending a) = p.content (.pending a))
    (hstate : p'.pendingState = p.pendingState) : Steady settled E p' :=
  ⟨hsound, fun a => (h.follows a).congr hview (hcontent a) (next_congr hstate a)⟩

theorem Drops.steady (hd : Drops E p p' (.queue a) out) (h : Steady settled E p) :
    Steady settled E p' :=
  h.congr (hd.tidy.toNeat.sound h.toSoundPool) hd.head.sameView
    (fun _ => content_congr (hd.other _ (by simp))) hd.pendingState

theorem Removal.next (hr : Removal E c p t p') (b : Address) :
    (p'.next b = p.next b ∧ p'.content (.pending b) = p.content (.pending b)) ∨
      (b = E.senderOf t ∧ p'.next b = min (p.next b) t.accountNonce ∧
        ∃ o ∈ p.content (.pending b), o.accountNonce = t.accountNonce) := by
  have hlower : ∀ {q : TxPool}, q.pendingState = p.pendingState →
      (q.lowerNonce (E.senderOf t) t.accountNonce).next b =
        if b = E.senderOf t then min (p.next (E.senderOf t)) t.accountNonce else p.next b := by
    intro q hq
    rw [next_lowerNonce, next_congr hq, next_congr hq]
  by_cases hb : b = E.senderOf t
  · subst hb
    rw [if_pos rfl] at hlower
    cases hr with
    | cut hn _ ho _ _ _ _ _ hstate | clear hn _ ho _ _ _ hstate =>
      exact .inr ⟨rfl, hlower hstate, _, ho.mem.2 (.inl mem_cons_self), hn⟩
    | queued hnot hn ho hgone hf hhead hstate =>
      refine .inl ⟨next_congr hstate _, ?_⟩
      rw [hf.content, ho.content_other (by simp)]
  · rw [if_neg hb] at hlower
    refine .inl ⟨?_, hr.pending_other hb⟩
    cases hr with
    | cut _ _ _ _ _ _ _ _ hstate | clear _ _ _ _ _ _ hstate => exact hlower hstate
    | queued _ _ _ _ _ _ hstate => exact next_congr hstate b

theorem Removal.steady (hr : Removal E c p t p') (h : Steady settled E p) : Steady settled E p' := by
  refine ⟨h.toSoundPool.of_all hr.shaped fun x hx => (hr.all.1 hx).1, fun b => ?_⟩
  rcases hr.next b with ⟨hnext, hcontent⟩ | ⟨rfl, hnext, o, ho, hn⟩
  · exact (h.follows b).congr hr.head.sameView hcontent hnext
  · exact (h.follows _).cut hr.head.sameView (fun x => hr.pending_below ho hn) hnext

theorem removes_steady {hashes : List Hash} (h : Steady settled E p)
    (hrun : exec (E.removeTx c) hashes p = some p') : Steady settled E p' :=
  removes_invariant (fun _ hq => hq.shaped) (fun _ _ _ hq _ hr => hr.steady hq) h hrun

theorem dropLast_steady (h : Steady settled E p) (hrun : E.dropLast a p = some p') :
    Steady settled E p' := by
  have hsound := (dropLast_tidy h.shaped hrun).toNeat.sound h.toSoundPool
  obtain ⟨q, t, hd, hlast, rfl⟩ := dropLast_drops h.shaped hrun
  have hview := (hd.head.trans (records_lowerNonce q a t.accountNonce).2.2).sameView
  have hlist : ∀ b, (q.lowerNonce a t.accountNonce).content (.pending b) = q.content (.pending b) :=
    fun b => content_lowerNonce q a t.accountNonce _
  have hstate := next_congr hd.pendingState
  refine ⟨hsound, fun b => ?_⟩
  by_cases hb : b = a
  · subst hb
    refine (h.follows b).cut (m := t.accountNonce) hview (fun x => ?_) ?_
    · rw [hlist, ← hd.perm.mem_iff, mem_append, mem_singleton]
      refine ⟨fun hx => ⟨.inr hx, hlast x hx⟩, ?_⟩
      rintro ⟨rfl | hx, hlt⟩
      · omega
      · exact hx
    · rw [next_lowerNonce, if_pos rfl, hstate]
  · refine (h.follows b).congr hview ?_ ?_
    · rw [hlist]
      exact content_congr (hd.other _ fun heq => hb (Place.pending.inj heq))
    · rw [next_lowerNonce, if_neg hb, hstate]

/-! ## Promotion -/

/-- The transactions of the account do not fill the nonces up to the last `uint64`. -/
def Bounded (p : TxPool) (a : Address) : Prop :=
  ∀ t, t ∈ p.content (.pending a) ∨ t ∈ p.content (.queue a) → t.accountNonce + 1 = 2 ^ 64 →
    ∃ n, p.nonce a ≤ n ∧ n < t.accountNonce ∧ Free p a n

theorem Bounded.mono (h : Bounded p a) (hnonce : p'.nonce a = p.nonce a)
    (hheld : ∀ pl : Place, pl.account = a → ∀ x ∈ p'.content pl,
      x ∈ p.content (.pending a) ∨ x ∈ p.content (.queue a)) : Bounded p' a := by
  intro t ht hmax
  have ht : t ∈ p.content (.pending a) ∨ t ∈ p.content (.queue a) := by
    rcases ht with ht | ht
    · exact hheld (.pending a) rfl t ht
    · exact hheld (.queue a) rfl t ht
  obtain ⟨n, hlow, hlt, hfree⟩ := h t ht hmax
  refine ⟨n, by rw [hnonce]; exact hlow, hlt, fun pl hpl x hx => ?_⟩
  rcases hheld pl hpl x hx with hx | hx
  · exact hfree (.pending a) rfl x hx
  · exact hfree (.queue a) rfl x hx

/-- A turn for an account leaves the lists of the others and their counts, and brings nothing new to
the account's own. -/
structure Turn (a : Address) (p p' : TxPool) : Prop where
  head : SameHead p p'
  other : ∀ pl : Place, pl.account ≠ a → p'.content pl = p.content pl
  next : ∀ b, b ≠ a → p'.next b = p.next b
  held : ∀ pl : Place, pl.account = a → ∀ x ∈ p'.content pl,
    x ∈ p.content (.pending a) ∨ x ∈ p.content (.queue a)

namespace Turn

theorem refl (a : Address) (p : TxPool) : Turn a p p :=
  ⟨SameHead.refl p, fun _ _ => rfl, fun _ _ => rfl, fun _ hpl _ hx => hpl ▸ Place.mem_lists hx⟩

theorem trans (h1 : Turn a p p₁) (h2 : Turn a p₁ p₂) : Turn a p p₂ where
  head := h1.head.trans h2.head
  other pl hpl := (h2.other pl hpl).trans (h1.other pl hpl)
  next b hb := (h2.next b hb).trans (h1.next b hb)
  held pl hpl x hx := by
    rcases h2.held pl hpl x hx with hx | hx
    · exact h1.held (.pending a) rfl x hx
    · exact h1.held (.queue a) rfl x hx

theorem bounded (h : Turn a p p') (hb : Bounded p b) : Bounded p' b := by
  refine hb.mono (h.head.sameView.nonce b) fun pl hpl x hx => ?_
  by_cases hab : b = a
  · subst hab
    exact h.held pl hpl x hx
  · rw [h.other pl (by rw [hpl]; exact hab)] at hx
    exact hpl ▸ Place.mem_lists hx

theorem steady (ht : Turn a p p') (h : Steady settled E p) (hsound : SoundPool E p')
    (hfollows : Follows settled p' a) : Steady settled E p' := by
  refine ⟨hsound, fun b => ?_⟩
  by_cases hb : b = a
  · exact hb ▸ hfollows
  · exact (h.follows b).congr ht.head.sameView (ht.other _ hb) (ht.next b hb)

end Turn

theorem Drops.turn (hd : Drops E p p' (.queue a) out) : Turn a p p' where
  head := hd.head
  other pl hpl := content_congr (hd.other pl (by rintro rfl; exact hpl rfl))
  next b _ := next_congr hd.pendingState b
  held pl hpl x hx := by
    by_cases hne : pl = .queue a
    · subst hne
      exact .inr (hd.perm.mem_iff.1 (mem_append_right _ hx))
    · rw [content_congr (hd.other pl hne)] at hx
      exact hpl ▸ Place.mem_lists hx

/-- Nothing in the queue of the account is too old or cannot be paid for. -/
def Trimmed (p : TxPool) (a : Address) : Prop :=
  ∀ x ∈ p.content (.queue a), p.nonce a ≤ x.accountNonce ∧ p.exceeds a x = false

theorem ready_next (hs : Shaped E p) (h : Follows settled p a) (htrim : Trimmed p a) {l : TxList}
    (hl : p.list (.queue a) = some l) :
    (l.ready (p.next a)).1.map accountNonce =
      range' (p.next a) (l.ready (p.next a)).1.length := by
  obtain ⟨first, hle, hxs⟩ := l.ready_nonces (p.next a)
  rcases Nat.eq_zero_or_pos (l.ready (p.next a)).1.length with hzero | hpos
  · rw [hzero, length_eq_zero_iff.1 hzero]
    rfl
  · obtain ⟨x, hx, hn⟩ : ∃ x ∈ (l.ready (p.next a)).1, x.accountNonce = first := by
      rw [← List.mem_map, hxs, mem_range'_1]
      omega
    have hxq : x ∈ p.content (.queue a) := by
      rw [content_of_list hl]
      exact (l.parts_ready _).mem.2 (.inl hx)
    have heq : first = p.next a := by
      refine Nat.le_antisymm hle (Nat.le_of_not_lt fun hlt => ?_)
      -- a nonce below the count is pending already
      obtain ⟨t, ht, hnt⟩ := h.reach first (hn ▸ (htrim x hxq).1) hlt
      exact hs.apart a t ht x hxq (hnt.trans hn.symm)
    rw [hxs, heq]

theorem dropEmpty_turn (p : TxPool) (a : Address) : Turn a p (dropEmpty (.queue a) p) := by
  have hnext : ∀ b, (dropEmpty (.queue a) p).next b = p.next b := by
    intro b
    unfold dropEmpty
    split <;> rfl
  refine ⟨?_, fun pl _ => dropEmpty_content p _ pl, fun b _ => hnext b, fun pl hpl x hx => ?_⟩
  · unfold dropEmpty
    split
    · exact SameHead.drop p _
    · exact SameHead.refl p
  · rw [dropEmpty_content] at hx
    exact hpl ▸ Place.mem_lists hx

section Promotion

variable (h : Steady settled E p)
include h

theorem ready_bounded (hbound : Bounded p a)
    (hxs : xs.map accountNonce = range' (p.next a) xs.length)
    (hsub : ∀ x ∈ xs, x ∈ p.content (.queue a)) (hpos : 0 < xs.length) :
    p.next a + xs.length < 2 ^ 64 := by
  obtain ⟨x, hx, hn⟩ := (Follows.exists_nonce_iff (n := p.next a + xs.length - 1) hxs).2 (by omega)
  have hsize := h.sized x (h.shaped.member _ x (hsub x hx)).1
  refine Nat.lt_of_not_le fun hge => ?_
  obtain ⟨n, hlow, hlt, hfree⟩ := hbound x (.inr (hsub x hx)) (by omega)
  by_cases hnew : n < p.next a
  · obtain ⟨t, ht, hnt⟩ := (h.follows a).reach n hlow hnew
    exact hfree (.pending a) rfl t ht hnt
  · obtain ⟨y, hy, hny⟩ := (Follows.exists_nonce_iff hxs).2 ⟨Nat.le_of_not_lt hnew, by omega⟩
    exact hfree (.queue a) rfl y (hsub y hy) hny

theorem promoteReady_steady (hbound : Bounded p a) (htrim : Trimmed p a)
    (hrun : E.promoteReady c a p = some p') : Turn a p p' ∧ Steady settled E p' := by
  have hs := h.shaped
  have hsound := (promoteReady_tidy hs hrun).toNeat.sound h.toSoundPool
  unfold promoteReady at hrun
  split at hrun
  · cases hrun
    exact ⟨Turn.refl a p, h⟩
  rename_i l hl
  have hparts := l.parts_ready (p.next a)
  have hxs := ready_next hs (h.follows a) htrim hl
  have hsub : ∀ x ∈ (l.ready (p.next a)).1, x ∈ p.content (.queue a) := fun x hx => by
    rw [content_of_list hl]
    exact hparts.mem.2 (.inl hx)
  have ho := Out.store hs hl hparts
  have hlanding : Landing E _ a _ := ho.landing hs (fun _ hx => hx) ho.nonces.1
  obtain ⟨q, hq, hland, hstate, -⟩ := promotes_land (ho.shaped hs) hlanding
  obtain rfl : q = p' := some.inj (hq.symm.trans hrun)
  have hnext : ∀ b, q.next b = if b = a ∧ 0 < (l.ready (p.next a)).1.length then
      u64 (p.next a + (l.ready (p.next a)).1.length) else p.next b := by
    intro b
    rw [TxPool.next, hstate, getNonce_promoted hxs]
    rfl
  have hpending : (p.store (.queue a) (l.ready (p.next a)).2).content (.pending a) =
      p.content (.pending a) := content_store_of_ne (by simp) _
  have hturn : Turn a p q := by
    refine ⟨(SameHead.store p _ _).trans hland.head, fun pl hpl => ?_, fun b hb => ?_,
      fun pl hpl x hx => ?_⟩
    · have hne : pl ≠ .pending a := by rintro rfl; exact hpl rfl
      have hne' : pl ≠ .queue a := by rintro rfl; exact hpl rfl
      rw [hland.content_other hne, content_store_of_ne hne']
    · rw [hnext, if_neg fun hba => hb hba.1]
    · by_cases hne : pl = .pending a
      · subst hne
        rcases (hland.content x).1 hx with hx | hx
        · exact .inr (hsub x hx)
        · exact .inl (by rwa [hpending] at hx)
      · rw [hland.content_other hne] at hx
        exact hpl ▸ Place.mem_lists (ho.sub hx)
  refine ⟨hturn, hturn.steady h hsound ?_⟩
  refine (h.follows a).extend hturn.head.sameView (fun x => ?_) hxs ?_
    (fun x hx => (htrim x (hsub x hx)).1) (fun x hx => (htrim x (hsub x hx)).2)
    (fun x hx y hy => hs.apart a y hy x (hsub x hx))
  · rw [hland.content, hpending]
  · rw [hnext]
    split
    · rename_i hpos
      have hlt := ready_bounded h hbound hxs hsub hpos.2
      exact u64_of_lt hlt
    · rename_i hzero
      have : (l.ready (p.next a)).1.length = 0 := by
        by_contra hne
        exact hzero ⟨rfl, Nat.pos_of_ne_zero hne⟩
      omega

/-- **The turn of promotion for an account.** -/
theorem promoteAccount_steady (hbound : Bounded p a)
    (hrun : E.promoteAccount c a p = some p') : Turn a p p' ∧ Steady settled E p' := by
  have hsound := (promoteAccount_tidy h.shaped hrun).toNeat.sound h.toSoundPool
  obtain ⟨p₂, p3, p4, out, out', hd2, htrim, h3, hd4, rfl⟩ := promoteAccount_parts h.shaped hrun
  obtain ⟨ht3, hs3⟩ := promoteReady_steady (hd2.steady h) (hd2.turn.bounded hbound) htrim h3
  have hs4 := hd4.steady hs3
  have ht5 := dropEmpty_turn p4 a
  refine ⟨((hd2.turn.trans ht3).trans hd4.turn).trans ht5, ?_⟩
  refine ht5.steady hs4 hsound ((hs4.follows a).congr ht5.head.sameView (dropEmpty_content _ _ _) ?_)
  unfold dropEmpty
  split <;> rfl

variable {accounts : List Address}

theorem promotes_steady (hbound : ∀ a ∈ accounts, Bounded p a)
    (hrun : exec (E.promoteAccount c) accounts p = some p') : Steady settled E p' := by
  induction accounts generalizing p with
  | nil =>
    cases hrun
    exact h
  | cons a accounts ih =>
    obtain ⟨p₁, h1, hrun⟩ := exec_cons_eq_some.1 hrun
    obtain ⟨ht, hs⟩ := promoteAccount_steady h (hbound a mem_cons_self) h1
    exact ih hs (fun b hb => ht.bounded (hbound b (mem_cons_of_mem a hb))) hrun

/-- **Promotion keeps the lists in step with the count.** -/
theorem promoteExecutables_steady (hbound : ∀ a ∈ accounts, Bounded p a)
    (hrun : E.promoteExecutables c accounts p = some p') : Steady settled E p' := by
  obtain ⟨p₁, h1, hrun⟩ := bind_eq_some_iff.1 hrun
  obtain ⟨p₂, h2, h3⟩ := bind_eq_some_iff.1 hrun
  have hs1 := promotes_steady h hbound h1
  have hs2 := truncatePending_invariant (fun _ _ _ hq hq' => dropLast_steady hq hq') hs1 h2
  exact truncateQueue_invariant hs2 (fun _ hq => hq.shaped) (fun _ _ _ _ hq hd => hd.steady hq) h3

end Promotion

/-! ## A new transaction -/

theorem Steady.recast (h : Steady settled E p) {db : StateDB} (hreads : SameReads p.currentState db) :
    Steady settled E { p with currentState := db } :=
  h.congr ⟨h.shaped.recast db, h.sized⟩ ⟨hreads.view, rfl⟩ (fun _ => rfl) rfl

theorem Reindexed.steady {priced : TxTypeList} (hre : Reindexed E p priced) (h : Steady settled E p) :
    Steady settled E { p with priced := priced } :=
  h.congr ⟨hre.shaped h.shaped, h.sized⟩ ⟨rfl, rfl⟩ (fun _ => rfl) rfl

theorem Room.steady (hroom : Room E c p txType tx p') (h : Steady settled E p) :
    Steady settled E p' ∧ SameHead p p' := by
  cases hroom with
  | free => exact ⟨h, SameHead.refl p⟩
  | stale _ _ hre => exact ⟨hre.steady h, ⟨rfl, rfl, rfl⟩⟩
  | removed _ _ hre _ _ hr => exact ⟨hr.steady (hre.steady h), ⟨hr.head.1, hr.head.2, hr.head.3⟩⟩

theorem Joins.steady (hj : Joins E p p' (placeFor E p tx) tx) (h : Steady settled E p)
    (hsized : tx.accountNonce < 2 ^ 64) (hpaid : p.exceeds (E.senderOf tx) tx = false) :
    Steady settled E p' := by
  have hsound : SoundPool E p' := by
    refine ⟨hj.shaped, fun x hx => ?_⟩
    rcases (hj.all x).1 hx with rfl | ⟨hx, -⟩
    · exact hsized
    · exact h.sized x hx
  have hnext := next_congr hj.pendingState
  refine ⟨hsound, fun b => ?_⟩
  by_cases hpl : placeFor E p tx = .pending b
  · have hcontent := hj.content
    have hb : b = E.senderOf tx := by rw [← account_placeFor, hpl]; rfl
    rw [hpl] at hcontent
    refine (h.follows b).replace hj.head.sameView hcontent (hnext b) ?_ (hb ▸ hpaid)
    unfold placeFor at hpl
    split at hpl
    · rename_i hover
      rw [hb]
      exact overlaps_iff.1 hover
    · cases hpl
  · exact (h.follows b).congr hj.head.sameView (content_congr (hj.other _ fun h => hpl h.symm))
      (hnext b)

theorem add_steady (h : Steady settled E p) (hsized : tx.accountNonce < 2 ^ 64)
    {r : Except PoolErr Bool} (hrun : E.add c poll tx isLocal p = some (r, p')) :
    Steady settled E p' := by
  cases add_cases h.shaped hrun with
  | known => exact h
  | invalid _ hv => exact h.recast (validateTx_reads hv)
  | objects _ _ hv _ _ hre => exact (hre.steady h).recast (validateTx_reads hv)
  | refused _ _ hv hroom => exact (hroom.steady (h.recast (validateTx_reads hv))).1
  | done htype hk hv hroom hj hexact hend =>
    rename_i db txType p₁ p₂ replace
    obtain ⟨hs1, hhead⟩ := hroom.steady (h.recast (validateTx_reads hv))
    obtain ⟨-, hgas, -, hfunds⟩ := validateTx_ok hv
    obtain ⟨-, hcost, -⟩ := validateFunds_ok hfunds
    have hpaid : p₁.exceeds (E.senderOf tx) tx = false := by
      rw [hhead.exceeds, TxPool.exceeds, TxList.exceeds, Bool.or_eq_false_iff,
        decide_eq_false_iff_not, decide_eq_false_iff_not]
      exact ⟨Int.not_lt.2 hcost, Nat.not_lt.2 hgas⟩
    have hs2 := hj.steady hs1 hsized hpaid
    rcases hend with rfl | rfl
    · exact hs2
    · exact hs2.congr ⟨hs2.shaped.congr rfl rfl fun _ => rfl, hs2.sized⟩
        ⟨rfl, rfl⟩ (fun _ => rfl) rfl

/-! ## Resets -/

/-- What demotion leaves of the account's pending list has no gap. -/
def Unbroken (p : TxPool) (a : Address) : Prop :=
  ∀ t, p.Kept a t → ∀ n, p.nonce a ≤ n → n ≤ t.accountNonce →
    ∃ x ∈ p.content (.pending a), x.accountNonce = n

theorem rehead_steady (h : Steady settled E p) (trie : Trie)
    (gasLimit : Nat) : Steady false E (rehead trie gasLimit p) := by
  have hsound : SoundPool E (rehead trie gasLimit p) :=
    ⟨h.shaped.congr rfl rfl fun _ => rfl, h.sized⟩
  -- the count starts at the account's nonce
  have hnext : ∀ a, (rehead trie gasLimit p).next a =
      (rehead trie gasLimit p).nonce a := fun _ => rfl
  refine ⟨hsound, fun a => ⟨fun n hlow hhigh => ?_, fun t _ hlow hhigh => ?_, nofun⟩⟩
  all_goals
    rw [hnext] at hhigh
    omega

theorem updateNonces_next (hrun : exec updateNonce accounts p = some p') (a : Address) :
    (a ∉ accounts → p'.next a = p.next a) ∧
      (a ∈ accounts → ∃ t, (p.content (.pending a)).getLast? = some t ∧
        p'.next a = u64 (t.accountNonce + 1)) := by
  induction accounts generalizing p with
  | nil =>
    cases hrun
    exact ⟨fun _ => rfl, fun h => (nomatch h)⟩
  | cons b accounts ih =>
    obtain ⟨p₁, h1, hrun⟩ := exec_cons_eq_some.1 hrun
    obtain ⟨hout, hin⟩ := ih hrun
    obtain ⟨l, hl, h1⟩ := bind_eq_some_iff.1 h1
    obtain ⟨t, ht, rfl⟩ := map_eq_some_iff.1 h1
    have hnext : (p.setNonce b (u64 (t.accountNonce + 1))).next a =
        if a = b then u64 (t.accountNonce + 1) else p.next a := getNonce_setNonce _ _ _ _
    constructor
    · intro hnot
      rw [mem_cons, not_or] at hnot
      rw [hout hnot.2, hnext, if_neg hnot.1]
    · intro hmem
      by_cases ha : a ∈ accounts
      · exact hin ha
      · obtain rfl : a = b := (mem_cons.1 hmem).resolve_right ha
        refine ⟨t, ?_, ?_⟩
        · rw [content_of_list hl]
          exact ht
        · rw [hout ha, hnext, if_pos rfl]

theorem last_mem (h : (p.content (.pending a)).getLast? = some t) :
    t ∈ p.content (.pending a) ∧ ∀ x ∈ p.content (.pending a), x.accountNonce ≤ t.accountNonce := by
  obtain ⟨init, hinit⟩ := getLast?_eq_some_iff.1 h
  have hsorted := p.content_sorted (.pending a)
  rw [hinit] at hsorted ⊢
  refine ⟨by simp, fun x hx => ?_⟩
  rcases mem_append.1 hx with hx | hx
  · exact Nat.le_of_lt ((pairwise_append.1 hsorted).2.2 x hx t (mem_singleton_self t))
  · rw [mem_singleton.1 hx]

theorem next_le_of_not_kept (h : Follows settled p a) (hnone : ∀ t, ¬ p.Kept a t) :
    p.next a ≤ p.nonce a := by
  refine Nat.le_of_not_lt fun hlt => ?_
  obtain ⟨t, ht, hn⟩ := h.reach (p.nonce a) (Nat.le_refl _) hlt
  have hstays : p.Stays a t := by
    refine ⟨ht, by omega, fun x hx hlow hle => ?_⟩
    have hxt : x = t := inj_on_of_nodup_map (p.nodup_content (.pending a)) hx ht (by omega)
    rw [hxt]
    exact h.paid t ht (by omega) (by omega)
  exact hnone t ⟨hstays, t, hstays, hn⟩

/-- **Settling on a head** makes the lists without gaps runs. -/
theorem settle_steady (h : Steady settled E p) (hbound : ∀ a, Bounded p a)
    (hunbroken : ∀ a, Unbroken p a) (hrun : E.settle c p = some p') : Steady true E p' := by
  obtain ⟨p₁, p₂, h1, hupdate, h2, h3⟩ := settle_parts hrun
  obtain ⟨hneat, hstate, -, hkept, hheld⟩ := demoteUnexecutables_spec h.shaped h.sized h1
  have hsound1 := hneat.sound h.toSoundPool
  have hhead : SameHead p p₂ := by
    rw [h2]
    exact ⟨hneat.head.1, hneat.head.2, hneat.head.3⟩
  have hcontent : ∀ pl, p₂.content pl = p₁.content pl := fun pl => by
    rw [h2]
    exact content_congr (rfl)
  have hkept2 : ∀ a x, x ∈ p₂.content (.pending a) ↔ p.Kept a x := fun a x => by
    rw [hcontent, hkept]
  have hsound2 : SoundPool E p₂ := by
    rw [h2]
    exact ⟨hsound1.shaped.renonce _, hsound1.sized⟩
  have hbound2 : ∀ a, Bounded p₂ a := fun a => by
    refine (hbound a).mono (hhead.nonce a) fun pl hpl x hx => ?_
    rw [hcontent] at hx
    exact hpl ▸ hheld pl x hx
  have hpaid : ∀ a t, p.Kept a t → p₂.exceeds a t = false := fun a t ht => by
    rw [hhead.exceeds]
    exact ht.1.paid t ht.1.pending ht.1.nonce (Nat.le_refl _)
  refine promoteExecutables_steady ⟨hsound2, fun a => ?_⟩ (fun a _ => hbound2 a) h3
  obtain ⟨hout, hin⟩ := updateNonces_next hupdate a
  have hkeys : a ∈ c.order p₁.pending.keys ↔ (p₁.list (.pending a)).isSome := by
    rw [(c.order_perm _).mem_iff, mem_keys_iff]
  by_cases ha : a ∈ c.order p₁.pending.keys
  · obtain ⟨t, hlast, hnext⟩ := hin ha
    obtain ⟨ht, hmax⟩ := last_mem hlast
    have htk := (hkept a t).1 ht
    have hnext : p₂.next a = t.accountNonce + 1 := by
      rw [hnext]
      refine u64_of_lt (n := t.accountNonce + 1) (Nat.lt_of_not_le fun hge => ?_)
      have hsize := h.sized t (h.shaped.member _ t htk.1.pending).1
      obtain ⟨n, hlow, hlt, hfree⟩ := hbound a t (.inl htk.1.pending) (by omega)
      obtain ⟨x, hx, hn⟩ := hunbroken a t htk n hlow (by omega)
      exact hfree (.pending a) rfl x hx hn
    refine ⟨fun n hlow hhigh => ?_, fun x hx _ _ => hpaid a x ((hkept2 a x).1 hx), fun _ x hx => ?_⟩
    · rw [hhead.nonce] at hlow
      obtain ⟨x, hx, hn⟩ := hunbroken a t htk n hlow (by omega)
      have hxk : p.Kept a x := by
        refine ⟨⟨hx, by omega, fun y hy hly hle => ?_⟩, htk.2⟩
        exact htk.1.paid y hy hly (by omega)
      exact ⟨x, (hkept2 a x).2 hxk, hn⟩
    · have hle := hmax x (by rwa [hcontent] at hx)
      have hlow := ((hkept2 a x).1 hx).1.nonce
      rw [hhead.nonce, hnext]
      omega
  · have hnil : p₂.content (.pending a) = [] := by
      rw [hcontent]
      rw [hkeys] at ha
      exact content_of_none (by simpa using ha)
    have hle : p₂.next a ≤ p₂.nonce a := by
      rw [hout ha, hhead.nonce, TxPool.next, hstate]
      refine next_le_of_not_kept (h.follows a) fun t ht => ?_
      have := (hkept2 a t).2 ht
      rw [hnil] at this
      cases this
    refine ⟨fun n hlow hhigh => by omega, ?_, fun _ => ?_⟩ <;>
    · rw [hnil]
      exact nofun

/-! ## Runs -/

/-- What the steps need: settling finds no gap behind the front of a list, and no count comes to the
end of `uint64`. -/
def TracksRuns (i : Choices × PoolOp) (p : TxPool) : Prop :=
  match i.2 with
  | .promote accounts => ∀ a ∈ accounts, Bounded p a
  | .settle => ∀ a, Bounded p a ∧ Unbroken p a
  | _ => True

def settledAfter (settled : Bool) : List (Choices × PoolOp) → Bool
  | [] => settled
  | (_, .rehead _ _) :: ops => settledAfter false ops
  | (_, .settle) :: ops => settledAfter true ops
  | _ :: ops => settledAfter settled ops

theorem step_steady {i : Choices × PoolOp} (hok : TracksRuns i p) (h : Steady settled E p)
    (hrun : E.step i p = some p') : Steady (settledAfter settled [i]) E p' := by
  obtain ⟨c, op⟩ := i
  cases op with
  | add poll tx hnonce =>
    obtain ⟨⟨r, q⟩, hadd, rfl⟩ := map_eq_some_iff.1 hrun
    exact add_steady h hnonce hadd
  | remove hash =>
    have hrun : exec (E.removeTx c) [hash] p = some p' := exec_cons_eq_some.2 ⟨p', hrun, rfl⟩
    exact removes_steady h hrun
  | promote => exact promoteExecutables_steady h hok hrun
  | setGasPrice =>
    obtain ⟨priced, -, -, hs, hrem⟩ := setGasPrice_removes h.shaped hrun
    have h1 := h.congr ⟨hs, h.sized⟩ ⟨rfl, rfl⟩ (fun _ => rfl) rfl
    exact removes_steady h1 hrem
  | evict =>
    exact evict_invariant (fun _ hq => hq.shaped) (fun _ _ _ hq hrem => removes_steady hq hrem)
      (fun _ _ hq hre => hre.steady hq) h hrun
  | rehead trie gasLimit =>
    cases hrun
    exact rehead_steady h trie gasLimit
  | settle => exact settle_steady h (fun a => (hok a).1) (fun a => (hok a).2) hrun

theorem settledAfter_cons (i : Choices × PoolOp) (ops : List (Choices × PoolOp)) (settled : Bool) :
    settledAfter settled (i :: ops) = settledAfter (settledAfter settled [i]) ops := by
  obtain ⟨c, op⟩ := i
  cases op <;> rfl

theorem run_steady {ops : List (Choices × PoolOp)} (hok : Along E.step TracksRuns ops p)
    (h : Steady settled E p) (hrun : exec E.step ops p = some p') :
    Steady (settledAfter settled ops) E p' := by
  induction ops generalizing p settled with
  | nil =>
    cases hrun
    exact h
  | cons i ops ih =>
    obtain ⟨p₁, h1, hrun⟩ := exec_cons_eq_some.1 hrun
    rw [settledAfter_cons]
    exact ih (hok.2 p₁ h1) (step_steady hok.1 h h1) hrun

/-- **Pending lists are runs.** In every run whose steps find no gap, whenever no reset is under way,
the nonces of each pending list count from the account's own to the next. -/
theorem pending_runs (trie : Trie) (gasLimit gasPrice : Nat) (ops : List (Choices × PoolOp))
    (p : TxPool) (hok : Run.Along E.step TracksRuns ops (TxPool.new trie gasLimit gasPrice))
    (hrun : Run.exec E.step ops (TxPool.new trie gasLimit gasPrice) = some p)
    (hdone : settledAfter true ops = true) (a : Address) :
    (p.content (.pending a)).map Transaction.accountNonce =
      List.range' (p.nonce a) (p.next a - p.nonce a) := by
  have hnew : Steady true E (new trie gasLimit gasPrice) := by
    refine ⟨sound_new E trie gasLimit gasPrice, fun b => ⟨fun n hlow hhigh => ?_, nofun,
      fun _ => nofun⟩⟩
    exact absurd hhigh (Nat.not_lt.2 hlow)
  have hs := run_steady hok hnew hrun
  rw [hdone] at hs
  exact (hs.follows a).run

end PendingRuns

/-! ## A reset to an earlier head -/

def nonceTrie (nonce : Nat) : Trie := fun a =>
  if a = 1 then some (plainAccount nonce (10 ^ 18)) else none

theorem bounded_of_all {E : PoolEnv} {p : TxPool} (hs : Shaped E p)
    (hall : ∀ t ∈ p.all, t.accountNonce + 1 ≠ 2 ^ 64) (a : Address) : Bounded p a := by
  intro t ht hmax
  rcases ht with ht | ht <;> exact absurd hmax (hall t (hs.member _ t ht).1)

/-- No nonce is the last `uint64`, and settling finds no gap in a pending list. -/
def gapless (E : PoolEnv) (i : Choices × PoolOp) (p : TxPool) : Bool :=
  p.all.all (fun t => t.accountNonce + 1 ≠ 2 ^ 64) && match i.2 with
    | .settle => p.all.all fun t =>
        (List.range' (p.nonce (E.senderOf t)) (t.accountNonce + 1 - p.nonce (E.senderOf t))).all
          fun n => (p.content (.pending (E.senderOf t))).any fun x => x.accountNonce = n
    | _ => true

theorem tracksRuns_of_gapless {E : PoolEnv} {p : TxPool} {i : Choices × PoolOp}
    (hs : SoundPool E p) (h : gapless E i p = true) : TracksRuns i p := by
  obtain ⟨c, op⟩ := i
  obtain ⟨hlast, hgap⟩ := Bool.and_eq_true_iff.1 h
  have hbounded := bounded_of_all hs.shaped (by simpa using hlast)
  cases op with
  | promote => exact fun a _ => hbounded a
  | settle =>
    refine fun a => ⟨hbounded a, fun t ht n hlow hle => ?_⟩
    have hrow := all_eq_true.1 hgap t (hs.shaped.member _ t ht.1.pending).1
    rw [senderOf_of_mem hs.shaped ht.1.pending] at hrow
    have hn : n ∈ range' (p.nonce a) (t.accountNonce + 1 - p.nonce a) := mem_range'_1.2 (by omega)
    obtain ⟨x, hx, heq⟩ := any_eq_true.1 (all_eq_true.1 hrow n hn)
    exact ⟨x, hx, of_decide_eq_true heq⟩
  | _ => trivial

/-- The second transaction arrives before the first, and the pool is settled once more. -/
def settlesTwo : List (Choices × PoolOp) :=
  [(plainChoices, .add (some []) (poolTx 1 4 1) (by decide) false), (plainChoices, .promote [1]),
    (plainChoices, .add (some []) (poolTx 1 3 2) (by decide) false), (plainChoices, .promote [1]),
    (plainChoices, .settle)]

theorem pending_runs_two : ∃ p, Run.exec (smallPool 10 10).step settlesTwo
      (TxPool.new (nonceTrie 3) 1000000 1) = some p ∧
    (p.content (.pending 1)).map Transaction.accountNonce = [3, 4] ∧
    (p.content (.pending 1)).map Transaction.accountNonce =
      List.range' (p.nonce 1) (p.next 1 - p.nonce 1) := by
  refine exists_of_check (fun p => (p.content (.pending 1)).map accountNonce = [3, 4])
    (by decide +kernel) fun p hp hcontent =>
      ⟨hcontent, pending_runs (nonceTrie 3) 1000000 1 settlesTwo p ?_ hp rfl 1⟩
  exact along_of_check (fun _ _ _ => step_sound) (fun i p => tracksRuns_of_gapless)
    (sound_new _ _ _ _)
    (show checkAlong _ (gapless (smallPool 10 10)) settlesTwo _ = true by decide +kernel)

/-- The head moves to one where account 1 has sent one transaction; `back` comes back. -/
def resetToOne (back : List (Choices × PoolOp)) : List (Choices × PoolOp) :=
  arrives (poolTx 1 3 1) (by decide) ++ [(plainChoices, .rehead (nonceTrie 1) 1000000)] ++ back ++
    [(plainChoices, .promote [1]), (plainChoices, .settle)]

/-- The price of the second is below the price of the pool. -/
def secondCheap : List (Choices × PoolOp) :=
  [(plainChoices, .add (some []) (poolTx 1 1 1) (by decide : 1 < 2 ^ 64) false),
    (plainChoices, .add (some []) (poolTx 1 2 0) (by decide) false)]

/-- **The list has a gap**: the second is refused, the third is still pending, and the pool counts
from the third. -/
theorem not_pending_runs_gap : ∃ p, Run.exec (smallPool 10 10).step (resetToOne secondCheap)
      (TxPool.new (nonceTrie 3) 1000000 1) = some p ∧
    settledAfter true (resetToOne secondCheap) = true ∧ p.nonce 1 = 1 ∧ p.next 1 = 4 ∧
    (p.content (.pending 1)).map Transaction.accountNonce = [1, 3] := by
  exact exists_of_check (fun p => p.nonce 1 = 1 ∧ p.next 1 = 4 ∧
    (p.content (.pending 1)).map accountNonce = [1, 3]) (by decide +kernel) fun _ _ h => ⟨rfl, h⟩

end GoAoa.Core
