import GoAoa.Core.PoolTidy

/-!
# Demotion

`demoteUnexecutables` goes through the pending lists after the head has changed. Of each list it
keeps what is not too old and can be paid for, up to the first transaction that cannot
(`TxPool.Stays`), unless the nonce of the account is not among it; then it keeps nothing. The rest is
forgotten or queued (`Demotes`), and what is queued is put into the index once more.
-/

namespace GoAoa.Core

open List Option Run PoolEnv State VM TxPool

namespace TxPool

def exceeds (p : TxPool) (a : Address) (t : Transaction) : Bool :=
  TxList.exceeds ((view p.currentState).getBalance a) p.currentMaxGas t

/-- The transaction is not too old, and nothing before it has to go. -/
structure Stays (p : TxPool) (a : Address) (t : Transaction) : Prop where
  pending : t ∈ p.content (.pending a)
  nonce : p.nonce a ≤ t.accountNonce
  paid : ∀ x ∈ p.content (.pending a), p.nonce a ≤ x.accountNonce →
    x.accountNonce ≤ t.accountNonce → p.exceeds a x = false

/-- What demotion leaves of a pending list. -/
def Kept (p : TxPool) (a : Address) (t : Transaction) : Prop :=
  p.Stays a t ∧ ∃ x, p.Stays a x ∧ x.accountNonce = p.nonce a

end TxPool

/-- No nonce is beyond the range of `uint64`. -/
def Sized (p : TxPool) : Prop := ∀ t ∈ p.all, t.accountNonce < 2 ^ 64

section Demote

variable {E : PoolEnv} {c : Choices} {p p' p1 p2 q : TxPool} {pl : Place} {t x : Transaction}
  {a b : Address} {out : List Transaction} {l : TxList}

theorem Sized.mono (h : Sized p) (hall : ∀ x ∈ p'.all, x ∈ p.all) : Sized p' :=
  fun t ht => h t (hall t ht)

theorem SameHead.nonce (h : SameHead p p') (a : Address) : p'.nonce a = p.nonce a := by
  rw [TxPool.nonce, TxPool.nonce, h.currentState]

theorem SameHead.exceeds (h : SameHead p p') (a : Address) (t : Transaction) :
    p'.exceeds a t = p.exceeds a t := by
  rw [TxPool.exceeds, TxPool.exceeds, h.currentState, h.currentMaxGas]

theorem Stays.congr (hhead : SameHead p p') (hcontent : p'.content (.pending a) = p.content (.pending a))
    (h : p.Stays a t) : p'.Stays a t := by
  refine ⟨by rw [hcontent]; exact h.pending, by rw [hhead.nonce]; exact h.nonce, fun x hx hn hle => ?_⟩
  rw [hcontent] at hx
  rw [hhead.nonce] at hn
  rw [hhead.exceeds]
  exact h.paid x hx hn hle

theorem stays_congr (hhead : SameHead p p')
    (hcontent : p'.content (.pending a) = p.content (.pending a)) : p'.Stays a t ↔ p.Stays a t :=
  ⟨Stays.congr ⟨hhead.currentState.symm, hhead.currentMaxGas.symm, hhead.locals.symm⟩ hcontent.symm,
    Stays.congr hhead hcontent⟩

theorem kept_congr (hhead : SameHead p p')
    (hcontent : p'.content (.pending a) = p.content (.pending a)) : p'.Kept a t ↔ p.Kept a t := by
  unfold TxPool.Kept
  simp only [stays_congr hhead hcontent, hhead.nonce]

/-- Transactions of the account are forgotten, or go from one of its lists to the other. -/
structure Demotes (E : PoolEnv) (a : Address) (p p' : TxPool) : Prop extends Neat E p p' where
  pendingState : p'.pendingState = p.pendingState
  other : ∀ pl : Place, pl.account ≠ a → p'.list pl = p.list pl
  held : ∀ pl : Place, ∀ x ∈ p'.content pl,
    x ∈ p.content (.pending pl.account) ∨ x ∈ p.content (.queue pl.account)

theorem Place.mem_lists (h : x ∈ p.content pl) :
    x ∈ p.content (.pending pl.account) ∨ x ∈ p.content (.queue pl.account) := by
  cases pl
  · exact .inl h
  · exact .inr h

theorem Demotes.refl (hs : Shaped E p) (a : Address) : Demotes E a p p :=
  ⟨Neat.refl hs, rfl, fun _ _ => rfl, fun _ _ => Place.mem_lists⟩

theorem Demotes.trans (h1 : Demotes E a p p1) (h2 : Demotes E a p1 p2) : Demotes E a p p2 where
  toNeat := h1.toNeat.trans h2.toNeat
  pendingState := h2.pendingState.trans h1.pendingState
  other pl hne := (h2.other pl hne).trans (h1.other pl hne)
  held pl x hx := by
    rcases h2.held pl x hx with hx | hx
    · exact h1.held (.pending pl.account) x hx
    · exact h1.held (.queue pl.account) x hx

theorem Drops.demotes (h : Drops E p p' (.pending a) out) : Demotes E a p p' where
  toNeat := h.tidy.toNeat
  pendingState := h.pendingState
  other pl hne := h.other pl (by rintro rfl; exact hne rfl)
  held pl x hx := by
    refine Place.mem_lists ?_
    by_cases hpl : pl = .pending a
    · subst hpl
      exact h.perm.mem_iff.1 (mem_append_right _ hx)
    · rwa [content_congr (h.other pl hpl)] at hx

section

variable (hs : Shaped E p)
include hs

/-- **Of what is taken out of a pending list, some is forgotten and the rest is queued.** -/
theorem Out.demotes {drops invalids ds is : List Transaction}
    (ho : Out p p1 (.pending a) (drops ++ invalids)) (hhead : SameHead p p1)
    (hstate : p1.pendingState = p.pendingState) (hds : ds.Perm drops) (his : is.Perm invalids)
    (hrun : (exec E.forget ds p1).bind (exec E.requeue is) = some p') :
    Demotes E a p p' ∧ p'.list (.pending a) = p1.list (.pending a) ∧
      (invalids = [] → Exact p → Exact p') := by
  have hnonces := ho.nonces.1
  rw [map_append, nodup_append] at hnonces
  have hdis : ∀ y ∈ invalids, y ∉ ds := fun y hy hyd =>
    hnonces.2.2 _ (mem_map_of_mem (hds.mem_iff.1 hyd)) _ (mem_map_of_mem hy) rfl
  have hloose : ∀ y ∈ ds, Loose p1 y := fun y hy =>
    (ho.loose hs).2 (.inr (mem_append_left _ (hds.mem_iff.1 hy)))
  obtain ⟨p2, hforget, hf⟩ := forgets_loose (ho.shaped hs) hloose (hds.nodup_iff.2 hnonces.1.of_map)
  have hlanding := ho.landing hs (fun y hy => mem_append_right _ hy) hnonces.2.1
  obtain ⟨q, hq, hland, hstate', -⟩ := requeues_land hf.shaped ((hlanding.forgets hf hdis).perm his)
  rw [hforget, bind_some, hq] at hrun
  cases hrun
  have hpending : p'.list (.pending a) = p1.list (.pending a) :=
    (hland.other _ (by simp)).trans (hf.list _)
  refine ⟨⟨⟨hland.shaped, fun y hy => ?_, fun y hy => ?_, (hhead.trans hf.head).trans hland.head⟩,
    hstate'.trans (hf.pendingState.trans hstate), fun pl hne => ?_, fun pl y hy => ?_⟩, hpending, ?_⟩
  · obtain ⟨hy, hnot⟩ := hland.loose.1 hy
    obtain ⟨hy, hnot'⟩ := hf.loose.1 hy
    refine ((ho.loose hs).1 hy).resolve_right fun hout => ?_
    rcases mem_append.1 hout with hout | hout
    · exact hnot' (hds.mem_iff.2 hout)
    · exact hnot (his.mem_iff.2 hout)
  · exact ho.all ▸ ((hf.all y).1 ((hland.all y).1 hy)).1
  · have hne' : pl ≠ .queue a := by rintro rfl; exact hne rfl
    have hne'' : pl ≠ .pending a := by rintro rfl; exact hne rfl
    rw [hland.other pl hne', hf.list, ho.other pl hne'']
  · by_cases hpl : pl = .queue a
    · subst hpl
      rcases (hland.content y).1 hy with hin | hin
      · exact .inl (ho.mem.2 (.inl (mem_append_right _ (his.mem_iff.1 hin))))
      · rw [hf.content] at hin
        exact .inr (ho.sub hin)
    · rw [hland.content_other hpl, hf.content] at hy
      exact Place.mem_lists (ho.sub hy)
  · rintro rfl he
    obtain rfl := perm_nil.1 his
    cases hq
    exact hf.exact (by rwa [Exact, ho.all, ho.priced])

/-! ## One account -/

theorem forward_demotes (hrun : E.trim (.pending a) (fun l => l.forward (p.nonce a)) p = some p') :
    Demotes E a p p' ∧ (Exact p → Exact p') ∧ ∀ x, x ∈ p'.content (.pending a) ↔
      x ∈ p.content (.pending a) ∧ p.nonce a ≤ x.accountNonce := by
  cases hl : p.list (.pending a) with
  | none =>
    rw [trim, hl] at hrun
    cases hrun
    exact ⟨Demotes.refl hs a, id, by simp [content_of_none hl]⟩
  | some l =>
    have hparts := l.parts_forward (p.nonce a)
    obtain ⟨q, hq, hd, hlist⟩ : ∃ q, E.trim (.pending a) (fun l => l.forward (p.nonce a)) p = some q ∧
        Drops E p q (.pending a) (l.forward (p.nonce a)).1 ∧
        q.list (.pending a) = some (l.forward (p.nonce a)).2 :=
      trim_drops hs hl hparts (.refl _)
    rw [hrun] at hq
    cases hq
    refine ⟨hd.demotes, hd.exact, fun x => ?_⟩
    rw [content_of_list hlist, content_of_list hl]
    show x ∈ filter _ _ ↔ _
    rw [mem_filter, Bool.not_eq_true', decide_eq_false_iff_not, Nat.not_lt]
    rfl

theorem demoteCostly_demotes (hsize : Sized p) (hrun : E.demoteCostly c a p = some p') :
    Demotes E a p p' ∧
      ((∀ x ∈ p.content (.pending a), p.exceeds a x = false → ∀ y ∈ p.content (.pending a),
        y.accountNonce ≤ x.accountNonce → p.exceeds a y = false) → Exact p → Exact p') ∧
      ∀ x, x ∈ p'.content (.pending a) ↔ x ∈ p.content (.pending a) ∧
        ∀ y ∈ p.content (.pending a), y.accountNonce ≤ x.accountNonce → p.exceeds a y = false := by
  unfold demoteCostly at hrun
  split at hrun
  · rename_i hl
    cases hrun
    exact ⟨Demotes.refl hs a, fun _ => id, by simp [content_of_none hl]⟩
  · rename_i l hl
    have hbound : ∀ t ∈ l.flatten, t.accountNonce < 2 ^ 64 := fun t ht =>
      hsize t (hs.member (.pending a) t (by rwa [content_of_list hl])).1
    have hfilter : ∀ t, _ ∧ (t ∈ (l.filter ((view p.currentState).getBalance a)
        p.currentMaxGas).2.2.flatten ↔ _) := fun t => TxList.mem_filter (hs.strict _ l hl) hbound
    have hparts := l.parts_filter ((view p.currentState).getBalance a) p.currentMaxGas
    obtain ⟨hd, hlist, hexact⟩ := (Out.store hs hl hparts).demotes hs (SameHead.store p _ _) rfl
      (c.arrange_perm _) (c.arrange_perm _) hrun
    have hcontent := content_of_list (hlist.trans (list_store_self p _ _))
    refine ⟨hd, fun hpaid => hexact (eq_nil_iff_forall_not_mem.2 fun x hx => ?_), fun x => ?_⟩
    · obtain ⟨hx, hok, y, hy, hlt, hex⟩ := (hfilter x).1.1 hx
      rw [content_of_list hl] at hpaid
      have := hpaid x hx hok y hy (by omega)
      rw [TxPool.exceeds, hex] at this
      cases this
    · rw [hcontent, content_of_list hl]
      exact (hfilter x).2

theorem demoteGapped_demotes (hrun : E.demoteGapped a p = some p') : Demotes E a p p' ∧
      ((∀ x ∈ p.content (.pending a), ∃ y ∈ p.content (.pending a), y.accountNonce = p.nonce a) →
        Exact p → Exact p') ∧
      ∀ x, x ∈ p'.content (.pending a) ↔ x ∈ p.content (.pending a) ∧
        ∃ y ∈ p.content (.pending a), y.accountNonce = p.nonce a := by
  unfold demoteGapped at hrun
  split at hrun
  · rename_i hl
    cases hrun
    exact ⟨Demotes.refl hs a, fun _ => id, by simp [content_of_none hl]⟩
  · rename_i l hl
    rw [content_of_list hl]
    split at hrun
    · rename_i hgap
      obtain ⟨⟨out, rest⟩, hcap, hrun⟩ := bind_eq_some_iff.1 hrun
      have hnone := TxList.get_eq_none.1 (by simpa using hgap.2)
      have hrest : rest.flatten = [] := by
        cases hcap
        show (l.txs.cap 0).2.items = []
        have hlen : ¬ l.txs.items.length ≤ 0 := Nat.not_le.2 hgap.1
        rw [TxSortedMap.cap, if_neg hlen]
        rfl
      have ho := Out.store hs hl (TxList.parts_cap hcap)
      obtain ⟨hd, hlist, -⟩ := ho.demotes hs (SameHead.store p _ _) rfl (List.Perm.refl [])
        (List.Perm.refl out) hrun
      refine ⟨hd, fun hin => ?_, fun x => ?_⟩
      · obtain ⟨x, hx⟩ := exists_mem_of_length_pos hgap.1
        obtain ⟨y, hy, hn⟩ := hin x hx
        exact absurd hn (hnone y hy)
      · rw [content_of_list (hlist.trans (list_store_self p _ rest)), hrest]
        refine ⟨fun h => (by cases h), ?_⟩
        rintro ⟨-, y, hy, hn⟩
        exact absurd hn (hnone y hy)
    · rename_i hgap
      cases hrun
      refine ⟨Demotes.refl hs a, fun _ => id, fun x => ?_⟩
      rw [content_of_list hl]
      refine ⟨fun hx => ⟨hx, ?_⟩, fun h => h.1⟩
      have hsome : ¬ (l.txs.get (p.nonce a)).isNone := fun h => hgap ⟨length_pos_of_mem hx, h⟩
      obtain ⟨y, hy⟩ := ne_none_iff_exists'.1 (by simpa using hsome)
      exact ⟨y, TxList.get_eq_some.1 hy⟩

end

/-- The demotion of an account puts nothing back into the index. -/
def Unmoved (p : TxPool) (a : Address) : Prop :=
  ∀ x ∈ p.content (.pending a), p.nonce a ≤ x.accountNonce → p.exceeds a x = false → p.Kept a x

/-- **What the demotion of an account leaves.** -/
theorem demoteAccount_demotes (hs : Shaped E p) (hsize : Sized p)
    (hrun : E.demoteAccount c a p = some p') :
    Demotes E a p p' ∧ (Unmoved p a → Exact p → Exact p') ∧
      ∀ x, x ∈ p'.content (.pending a) ↔ p.Kept a x := by
  obtain ⟨p1, h1, hrun⟩ := bind_eq_some_iff.1 hrun
  obtain ⟨p2, h2, hrun⟩ := bind_eq_some_iff.1 hrun
  obtain ⟨p3, h3, rfl⟩ := map_eq_some_iff.1 hrun
  obtain ⟨hd1, he1, hc1⟩ := forward_demotes hs h1
  obtain ⟨hd2, he2, hc2⟩ := demoteCostly_demotes hd1.shaped (hsize.mono hd1.all) h2
  obtain ⟨hd3, he3, hc3⟩ := demoteGapped_demotes hd2.shaped h3
  have hstays : ∀ x, x ∈ p2.content (.pending a) ↔ p.Stays a x := by
    intro x
    rw [hc2, hc1]
    simp only [hc1, hd1.head.exceeds]
    exact ⟨fun h => ⟨h.1.1, h.1.2, fun y hy hn hle => h.2 y ⟨hy, hn⟩ hle⟩,
      fun h => ⟨⟨h.pending, h.nonce⟩, fun y hy hle => h.paid y hy.1 hy.2 hle⟩⟩
  have hkept : ∀ x, x ∈ p3.content (.pending a) ↔ p.Kept a x := by
    intro x
    rw [hc3]
    simp only [hstays, (hd1.head.trans hd2.head).nonce]
    rfl
  have hd := (hd1.trans hd2).trans hd3
  have he : Unmoved p a → Exact p → Exact p3 := by
    intro hun hexact
    refine he3 (fun x hx => ?_) (he2 (fun x hx hok y hy hle => ?_) (he1 hexact))
    · have hx := (hstays x).1 hx
      obtain ⟨-, y, hy, hn⟩ := hun x hx.pending hx.nonce (hx.paid x hx.pending hx.nonce (Nat.le_refl _))
      exact ⟨y, (hstays y).2 hy, by rw [(hd1.head.trans hd2.head).nonce, hn]⟩
    · obtain ⟨hx, hn⟩ := (hc1 x).1 hx
      obtain ⟨hy, hny⟩ := (hc1 y).1 hy
      rw [hd1.head.exceeds] at hok ⊢
      exact (hun x hx hn hok).1.paid y hy hny hle
  split
  · rename_i hempty
    have hnil : p3.content (.pending a) = [] := by
      cases hl : p3.list (.pending a) with
      | none => exact content_of_none hl
      | some =>
        rw [content_of_list hl]
        exact length_eq_zero_iff.1 (by simpa [hl, TxList.len] using hempty)
    -- the empty list goes, and nothing else
    have hcontent : ∀ pl, ({ p3.drop (.pending a) with beats := p3.beats.erase a } : TxPool).content pl
        = p3.content pl := by
      intro pl
      have hsame : ({ p3.drop (.pending a) with beats := p3.beats.erase a } : TxPool).content pl
          = (p3.drop (.pending a)).content pl := content_congr (rfl)
      rw [hsame]
      by_cases hne : pl = .pending a
      · subst hne
        rw [content_drop_self, hnil]
      · exact content_drop_of_ne hne
    have hother : ∀ pl, pl ≠ .pending a →
        ({ p3.drop (.pending a) with beats := p3.beats.erase a } : TxPool).list pl = p3.list pl :=
      fun pl hne => (rfl : _ = (p3.drop (.pending a)).list pl).trans
        (list_drop_of_ne hne)
    refine ⟨⟨?_, hd.pendingState, fun pl hne => ?_, fun pl x hx => ?_⟩, he, fun x => ?_⟩
    · refine hd.toNeat.congr rfl rfl (fun pl l hl => ?_) hcontent ⟨rfl, rfl, rfl⟩
      by_cases hne : pl = .pending a
      · subst hne
        rw [show ({ p3.drop (.pending a) with beats := p3.beats.erase a } : TxPool).list (.pending a)
          = (p3.drop (.pending a)).list (.pending a) from rfl, list_drop_self] at hl
        cases hl
      · exact (hother pl hne).symm.trans hl
    · exact (hother pl (by rintro rfl; exact hne rfl)).trans (hd.other pl hne)
    · rw [hcontent] at hx
      exact hd.held pl x hx
    · rw [hcontent]
      exact hkept x
  · exact ⟨hd, he, hkept⟩

/-! ## All accounts -/

/-- **What demotion leaves**: each list is cut as the state before says, and the rest of the pool is
not touched. -/
theorem demotes_exec {accounts : List Address} (hs : Shaped E p) (hsize : Sized p)
    (hnd : accounts.Nodup) (hrun : exec (E.demoteAccount c) accounts p = some p') :
    Neat E p p' ∧ p'.pendingState = p.pendingState ∧
      ((∀ a ∈ accounts, Unmoved p a) → Exact p → Exact p') ∧
      (∀ a ∈ accounts, ∀ x, x ∈ p'.content (.pending a) ↔ p.Kept a x) ∧
      (∀ pl : Place, pl.account ∉ accounts → p'.list pl = p.list pl) ∧
      ∀ pl : Place, ∀ x ∈ p'.content pl,
        x ∈ p.content (.pending pl.account) ∨ x ∈ p.content (.queue pl.account) := by
  induction accounts generalizing p with
  | nil =>
    cases hrun
    exact ⟨Neat.refl hs, rfl, fun _ => id, fun a ha => (nomatch ha), fun _ _ => rfl,
      fun _ _ => Place.mem_lists⟩
  | cons a accounts ih =>
    obtain ⟨hnot, hnd⟩ := nodup_cons.1 hnd
    obtain ⟨p1, h1, hrun⟩ := exec_cons_eq_some.1 hrun
    obtain ⟨hd, he, hc⟩ := demoteAccount_demotes hs hsize h1
    obtain ⟨hn', hstate', he', hc', hother', hheld'⟩ := ih hd.shaped (hsize.mono hd.all) hnd hrun
    have hsame : ∀ b ∈ accounts, p1.content (.pending b) = p.content (.pending b) := fun b hb =>
      content_congr (hd.other (.pending b) (by rintro rfl; exact hnot hb))
    refine ⟨hd.toNeat.trans hn', hstate'.trans hd.pendingState, fun hun hexact => ?_, fun b hb x => ?_,
      fun pl hpl => ?_, fun pl x hx => ?_⟩
    · refine he' (fun b hb x hx hn hok => ?_) (he (hun a mem_cons_self) hexact)
      rw [hsame b hb] at hx
      rw [hd.head.nonce] at hn
      rw [hd.head.exceeds] at hok
      exact (kept_congr hd.head (hsame b hb)).2 (hun b (mem_cons_of_mem a hb) x hx hn hok)
    · rcases mem_cons.1 hb with rfl | hb
      · rw [content_congr (hother' (.pending b) hnot)]
        exact hc x
      · rw [hc' b hb, kept_congr hd.head (hsame b hb)]
    · exact (hother' pl fun h => hpl (mem_cons_of_mem a h)).trans
        (hd.other pl fun h => hpl (h ▸ mem_cons_self))
    · rcases hheld' pl x hx with hx | hx
      · exact hd.held (.pending pl.account) x hx
      · exact hd.held (.queue pl.account) x hx

theorem mem_keys_iff : a ∈ p.pending.keys ↔ (p.list (.pending a)).isSome := by
  rw [TxPool.list, AList.lookup_isSome, AList.mem_keys]

/-- **What `demoteUnexecutables` leaves.** -/
theorem demoteUnexecutables_spec (hs : Shaped E p) (hsize : Sized p)
    (hrun : E.demoteUnexecutables c p = some p') :
    Neat E p p' ∧ p'.pendingState = p.pendingState ∧ ((∀ a, Unmoved p a) → Exact p → Exact p') ∧
      (∀ a x, x ∈ p'.content (.pending a) ↔ p.Kept a x) ∧
      ∀ pl : Place, ∀ x ∈ p'.content pl,
        x ∈ p.content (.pending pl.account) ∨ x ∈ p.content (.queue pl.account) := by
  have hperm := c.order_perm p.pending.keys
  obtain ⟨hn, hstate, he, hc, hother, hheld⟩ := demotes_exec hs hsize
    (hperm.nodup_iff.2 p.pending.nodupKeys) hrun
  refine ⟨hn, hstate, fun hun => he fun a _ => hun a, fun a x => ?_, hheld⟩
  by_cases ha : a ∈ c.order p.pending.keys
  · exact hc a ha x
  · have hnone : p.list (.pending a) = none := by
      rw [hperm.mem_iff, mem_keys_iff] at ha
      simpa using ha
    rw [content_congr (hother (.pending a) ha), content_of_none hnone]
    refine ⟨fun h => (nomatch h), fun h => ?_⟩
    have hin := h.1.pending
    rw [content_of_none hnone] at hin
    exact hin

end Demote

end GoAoa.Core
