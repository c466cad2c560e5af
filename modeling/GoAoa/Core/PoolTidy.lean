import GoAoa.Core.PoolMoves

/-!
# Promotion leaves no transaction loose

`promoteExecutables` keeps the shape of the pool, it leaves nothing loose that was not loose before,
and it keeps the index exact (`Tidy`). Every part of it does: what is taken out of a list is
forgotten, or promoted, and what is removed when there are too many is queued.
-/

namespace GoAoa.Core

open List Option Run PoolEnv TxList SameHead State VM TxPool

structure Neat (E : PoolEnv) (p p' : TxPool) : Prop where
  shaped : Shaped E p'
  loose : ∀ x, Loose p' x → Loose p x
  all : ∀ x ∈ p'.all, x ∈ p.all
  head : SameHead p p'

/-- Besides, an exact index stays exact. -/
structure Tidy (E : PoolEnv) (p p' : TxPool) : Prop extends Neat E p p' where
  exact : Exact p → Exact p'

section Tidy

variable {E : PoolEnv} {c : Choices} {p p' p1 p2 : TxPool} {pl : Place} {t x : Transaction}
  {a : Address} {out : List Transaction} {n : Nat} {l : TxList}

theorem Neat.refl (hs : Shaped E p) : Neat E p p :=
  ⟨hs, fun _ h => h, fun _ h => h, SameHead.refl p⟩

theorem Neat.trans (h1 : Neat E p p1) (h2 : Neat E p1 p2) : Neat E p p2 :=
  ⟨h2.shaped, fun x hx => h1.loose x (h2.loose x hx), fun x hx => h1.all x (h2.all x hx),
    h1.head.trans h2.head⟩

theorem Tidy.refl (hs : Shaped E p) : Tidy E p p := ⟨Neat.refl hs, id⟩

theorem Tidy.trans (h1 : Tidy E p p1) (h2 : Tidy E p1 p2) : Tidy E p p2 :=
  ⟨h1.toNeat.trans h2.toNeat, fun he => h2.exact (h1.exact he)⟩

theorem Neat.congr (h : Neat E p p1) (hall : p'.all = p1.all) (hpriced : p'.priced = p1.priced)
    (hlist : ∀ pl l, p'.list pl = some l → p1.list pl = some l)
    (hcontent : ∀ pl, p'.content pl = p1.content pl) (hhead : SameHead p1 p') : Neat E p p' where
  shaped := ⟨by rw [hall, hpriced]; exact h.shaped.records, fun pl => by
      rw [hcontent, hall]
      exact h.shaped.member pl, fun pl l hl => h.shaped.strict pl l (hlist pl l hl), fun a => by
      rw [hcontent, hcontent]
      exact h.shaped.apart a⟩
  loose x hx := h.loose x ⟨hall ▸ hx.1, fun pl hpl => hx.2 pl (by rwa [hcontent])⟩
  all x hx := h.all x (hall ▸ hx)
  head := h.head.trans hhead

theorem Tidy.congr (h : Tidy E p p1) (hall : p'.all = p1.all) (hpriced : p'.priced = p1.priced)
    (hlist : ∀ pl l, p'.list pl = some l → p1.list pl = some l)
    (hcontent : ∀ pl, p'.content pl = p1.content pl) (hhead : SameHead p1 p') : Tidy E p p' :=
  ⟨h.toNeat.congr hall hpriced hlist hcontent hhead, fun he => by
    rw [Exact, hall, hpriced]
    exact h.exact he⟩

theorem Drops.tidy (h : Drops E p p' pl out) : Tidy E p p' :=
  ⟨⟨h.shaped, fun x => (h.loose x).1, fun x hx => ((h.all x).1 hx).1, h.head⟩, h.exact⟩

theorem Drops.refl (hs : Shaped E p) (pl : Place) : Drops E p p pl [] :=
  ⟨fun _ _ => rfl, .refl _, by simp, fun _ => Iff.rfl, id, SameHead.refl p, rfl, hs⟩

theorem Drops.trans {out1 out2 : List Transaction} (h1 : Drops E p p1 pl out1)
    (h2 : Drops E p1 p2 pl out2) : Drops E p p2 pl (out1 ++ out2) where
  other pl' hne := (h2.other pl' hne).trans (h1.other pl' hne)
  perm := by
    rw [append_assoc]
    exact (h2.perm.append_left out1).trans h1.perm
  all x := by
    rw [h2.all, h1.all, mem_append]
    tauto
  loose x := (h2.loose x).trans (h1.loose x)
  exact he := h2.exact (h1.exact he)
  head := h1.head.trans h2.head
  pendingState := h2.pendingState.trans h1.pendingState
  shaped := h2.shaped

theorem tidy_exec {ℓ : Type} {step : ℓ → TxPool → Option TxPool}
    (hstep : ∀ i p p', Shaped E p → step i p = some p' → Tidy E p p') {is : List ℓ}
    (hs : Shaped E p) (hrun : exec step is p = some p') : Tidy E p p' := by
  refine invariant_all (fun i q q' hq hstep' => ?_) (Tidy.refl hs) hrun
  exact hq.trans (hstep i q q' hq.shaped hstep')

theorem trim_parts (hs : Shaped E p) (take : TxList → List Transaction × TxList)
    (f : TxList → List Transaction)
    (htake : ∀ l, p.list pl = some l → l.Parts (f l) (take l).2 ∧ (take l).1.Perm (f l))
    (hrun : E.trim pl take p = some p') :
    (∃ out, Drops E p p' pl out) ∧
      ∀ x ∈ p'.content pl, ∃ l, p.list pl = some l ∧ x ∈ (take l).2.flatten := by
  cases hl : p.list pl with
  | none =>
    rw [trim, hl] at hrun
    cases hrun
    refine ⟨⟨[], Drops.refl hs _⟩, fun x hx => ?_⟩
    rw [content_of_none hl] at hx
    cases hx
  | some l =>
    obtain ⟨q, hq, hd, hlist⟩ := trim_drops hs hl (htake l hl).1 (htake l hl).2
    rw [hrun] at hq
    cases hq
    refine ⟨⟨_, hd⟩, fun x hx => ⟨l, rfl, ?_⟩⟩
    rwa [content_of_list hlist] at hx

theorem dropEmpty_content (p : TxPool) (pl pl' : Place) :
    (dropEmpty pl p).content pl' = p.content pl' := by
  unfold dropEmpty
  split
  · rename_i hany
    by_cases hne : pl' = pl
    · subst hne
      rw [content_drop_self]
      cases hl : p.list pl' with
      | none => exact (content_of_none hl).symm
      | some =>
        rw [content_of_list hl]
        exact (length_eq_zero_iff.1 (by simpa [hl, len] using hany)).symm
    · exact content_drop_of_ne hne
  · rfl

section

variable (hs : Shaped E p)
include hs

theorem dropEmpty_tidy (pl : Place) : Tidy E p (dropEmpty pl p) := by
  have hcontent := dropEmpty_content p pl
  unfold dropEmpty at hcontent ⊢
  split
  · rename_i hany
    rw [if_pos hany] at hcontent
    refine (Tidy.refl hs).congr (all_drop p pl) (priced_drop p pl) (fun pl' l' hl' => ?_)
      hcontent (drop p pl)
    by_cases hne : pl' = pl
    · subst hne
      rw [list_drop_self] at hl'
      cases hl'
    · rwa [list_drop_of_ne hne] at hl'
  · exact Tidy.refl hs

/-! ## Promotion of an account -/

theorem Out.promoted (ho : Out p p1 pl out) (hhead : SameHead p p1)
    {pl' : Place} (hl : Lands E p1 p2 pl' out) (hexact : Exact p1 → Exact p2) : Tidy E p p2 where
  shaped := hl.shaped
  loose x hx := by
    obtain ⟨hx, hnot⟩ := hl.loose.1 hx
    exact ((ho.loose hs).1 hx).resolve_right hnot
  exact he := hexact (by rwa [Exact, ho.all, ho.priced])
  all x hx := ho.all ▸ (hl.all x).1 hx
  head := hhead.trans hl.head

theorem promoteReady_tidy (hrun : E.promoteReady c a p = some p') : Tidy E p p' := by
  unfold promoteReady at hrun
  split at hrun
  · cases hrun
    exact Tidy.refl hs
  · rename_i l hl
    have ho := Out.store hs hl (l.parts_ready (p.pendingState.getNonce a))
    have hlanding : Landing E _ a _ := ho.landing hs (fun _ hx => hx) ho.nonces.1
    obtain ⟨q, hq, hland, -, hexact⟩ := promotes_land (ho.shaped hs) hlanding
    rw [hrun] at hq
    cases hq
    exact ho.promoted hs (store p _ _) hland hexact

theorem capQueue_drops (hrun : E.capQueue a p = some p') : ∃ out, Drops E p p' (.queue a) out := by
  unfold capQueue at hrun
  split at hrun
  · cases hrun
    exact ⟨[], .refl hs _⟩
  · rename_i l hl
    obtain ⟨⟨drops, rest⟩, hcap, hrun⟩ := bind_eq_some_iff.1 hrun
    obtain ⟨q, hq, hd, -⟩ := (Out.store hs hl (parts_cap hcap)).forgets hs
      (store p _ rest) rfl (List.Perm.refl drops)
    cases hq.symm.trans hrun
    exact ⟨drops, hd⟩

end

/-- A queue is not strict, so `Filter` takes out only what exceeds the limits. -/
theorem filter_queue (hstrict : l.strict = false) (costLimit : Int) (gasLimit : Nat) :
    l.Parts (l.filter costLimit gasLimit).1 (l.filter costLimit gasLimit).2.2 := by
  have hnil : (l.filter costLimit gasLimit).2.1 = [] := by
    unfold TxList.filter
    split
    · rfl
    · dsimp only
      rw [if_neg (fun h => by simp [lower, hstrict] at h)]
  have hp := l.parts_filter costLimit gasLimit
  rwa [hnil, append_nil] at hp

section

variable (hs : Shaped E p)
include hs

theorem promoteAccount_parts (hrun : E.promoteAccount c a p = some p') :
    ∃ p2 p3 p4 out out', Drops E p p2 (.queue a) out ∧
      (∀ x ∈ p2.content (.queue a), p2.nonce a ≤ x.accountNonce ∧
        exceeds ((view p2.currentState).getBalance a) p2.currentMaxGas x = false) ∧
      E.promoteReady c a p2 = some p3 ∧ Drops E p3 p4 (.queue a) out' ∧
      p' = dropEmpty (.queue a) p4 := by
  obtain ⟨p1, h1, hrun⟩ := bind_eq_some_iff.1 hrun
  obtain ⟨p2, h2, hrun⟩ := bind_eq_some_iff.1 hrun
  obtain ⟨p3, h3, hrun⟩ := bind_eq_some_iff.1 hrun
  obtain ⟨p4, h4, rfl⟩ := map_eq_some_iff.1 hrun
  obtain ⟨⟨out1, hd1⟩, hq1⟩ := trim_parts hs (fun l => l.forward (p.nonce a))
    (fun l => (l.forward (p.nonce a)).1) (fun l _ => ⟨l.parts_forward _, .refl _⟩) h1
  obtain ⟨⟨out2, hd2⟩, hq2⟩ := trim_parts hd1.shaped (fun l =>
      (c.arrange (l.filter ((view p1.currentState).getBalance a) p1.currentMaxGas).1,
        (l.filter ((view p1.currentState).getBalance a) p1.currentMaxGas).2.2))
    (fun l => (l.filter ((view p1.currentState).getBalance a) p1.currentMaxGas).1)
    (fun l hl => ⟨filter_queue (hd1.shaped.strict _ l hl) _ _, c.arrange_perm _⟩) h2
  have hd := hd1.trans hd2
  have hs3 := (promoteReady_tidy hd.shaped h3).shaped
  have h4 : ∃ out, Drops E p3 p4 (.queue a) out := by
    split at h4
    · cases h4
      exact ⟨[], .refl hs3 _⟩
    · exact capQueue_drops hs3 h4
  obtain ⟨out', hd4⟩ := h4
  refine ⟨p2, p3, p4, _, out', hd, fun x hx => ⟨?_, ?_⟩, h3, hd4, rfl⟩
  · obtain ⟨l, -, hx⟩ := hq1 x (hd2.perm.mem_iff.1 (mem_append_right _ hx))
    have hlow : ¬ x.accountNonce < p.nonce a := by simpa using (mem_filter.1 hx).2
    rw [TxPool.nonce, hd.head.currentState]
    exact Nat.le_of_not_lt hlow
  · obtain ⟨l, -, hx⟩ := hq2 x hx
    rw [hd2.head.currentState, hd2.head.currentMaxGas]
    exact filter_paid hx

theorem promoteAccount_tidy (hrun : E.promoteAccount c a p = some p') : Tidy E p p' := by
  obtain ⟨p2, p3, p4, out, out', hd, -, h3, hd', rfl⟩ := promoteAccount_parts hs hrun
  have ht := (hd.tidy.trans (promoteReady_tidy hd.shaped h3)).trans hd'.tidy
  exact ht.trans (dropEmpty_tidy ht.shaped _)

/-! ## Too many pending transactions -/

theorem lowerNonce_tidy (a : Address) (n : Nat) : Tidy E p (p.lowerNonce a n) := by
  obtain ⟨hall, hpriced, hhead⟩ := records_lowerNonce p a n
  exact (Tidy.refl hs).congr hall hpriced (fun pl l hl => (list_lowerNonce p a n pl).symm.trans hl)
    (content_lowerNonce p a n) hhead

theorem dropLast_drops (hrun : E.dropLast a p = some p') :
    ∃ p1 t, Drops E p p1 (.pending a) [t] ∧ (∀ x ∈ p1.content (.pending a),
      x.accountNonce < t.accountNonce) ∧ p' = p1.lowerNonce a t.accountNonce := by
  obtain ⟨l, hl, hrun⟩ := bind_eq_some_iff.1 hrun
  obtain ⟨⟨drops, rest⟩, hcap, hrun⟩ := bind_eq_some_iff.1 hrun
  obtain ⟨t, hdrops, hlast⟩ := cap_last hcap
  subst hdrops
  obtain ⟨p1, hforget, hd, hlist⟩ := (Out.store hs hl (parts_cap hcap)).forgets hs
    (store p _ rest) rfl (List.Perm.refl [t])
  obtain ⟨q, hq, hend⟩ := exec_cons_eq_some.1 hforget
  cases hend
  obtain ⟨q', hq', hend⟩ := exec_cons_eq_some.1 hrun
  cases hend
  rw [hq] at hq'
  cases hq'
  refine ⟨p1, t, hd, fun x hx => ?_, rfl⟩
  rw [content_of_list (hlist.trans (list_store_self p _ rest))] at hx
  exact hlast x hx

theorem dropLast_tidy (hrun : E.dropLast a p = some p') : Tidy E p p' := by
  obtain ⟨p1, t, hd, -, rfl⟩ := dropLast_drops hs hrun
  exact hd.tidy.trans (lowerNonce_tidy hd.shaped a t.accountNonce)

end

variable {I : TxPool → Prop}

section

variable (hstep : ∀ a q q', I q → E.dropLast a q = some q' → I q')
include hstep

theorem equalize_invariant {offenders : List Address} {last : Address} {threshold fuel m : Nat}
    (hI : I p) (hrun : E.equalize offenders last threshold fuel n p = some (m, p')) : I p' := by
  induction fuel generalizing n p with
  | zero =>
    cases hrun
    exact hI
  | succ fuel ih =>
    unfold equalize at hrun
    split at hrun
    · obtain ⟨q, hq, hrun⟩ := bind_eq_some_iff.1 hrun
      exact ih (invariant_all hstep hI hq) hrun
    · cases hrun
      exact hI

theorem penalize_invariant {spammers offenders offenders' : List Address} {m : Nat} (hI : I p)
    (hrun : E.penalize spammers offenders n p = some (offenders', m, p')) : I p' := by
  induction spammers generalizing offenders n p with
  | nil =>
    cases hrun
    exact hI
  | cons a spammers ih =>
    unfold penalize at hrun
    split at hrun
    · cases hrun
      exact hI
    · obtain ⟨⟨k, q⟩, hq, hrun⟩ := bind_eq_some_iff.1 hrun
      refine ih ?_ hrun
      split at hq
      · cases hq
        exact hI
      · exact equalize_invariant hstep hI hq

/-- **The equalisation keeps what each drop keeps.** -/
theorem truncatePending_invariant (hI : I p) (hrun : E.truncatePending c p = some p') : I p' := by
  unfold truncatePending at hrun
  dsimp only at hrun
  split at hrun
  · cases hrun
    exact hI
  · obtain ⟨⟨offenders, m, q⟩, hq, hrun⟩ := bind_eq_some_iff.1 hrun
    have hIq := penalize_invariant hstep hI hq
    split at hrun
    · cases hrun
      exact hIq
    · obtain ⟨⟨k, q'⟩, hq', rfl⟩ := map_eq_some_iff.1 hrun
      exact equalize_invariant hstep hIq hq'

end

theorem truncatePending_tidy (hs : Shaped E p) (hrun : E.truncatePending c p = some p') :
    Tidy E p p' :=
  truncatePending_invariant
    (fun _ _ _ hq hq' => hq.trans (dropLast_tidy hq.shaped hq')) (Tidy.refl hs) hrun

/-! ## Too many queued transactions -/

theorem removeTx_queued (hs : Shaped E p) (ht : t ∈ p.content (.queue a)) :
    ∃ p', E.removeTx c (E.hash t) p = some p' ∧ Drops E p p' (.queue a) [t] := by
  have hall := (hs.member _ t ht).1
  obtain ⟨p', hrun, hr⟩ := removeTx_removal hs hall
  have ha := senderOf_of_mem hs ht
  have hnone : ∀ o ∈ p.content (.pending a), o.accountNonce ≠ t.accountNonce := fun o ho =>
    hs.apart a o ho t ht
  refine ⟨p', hrun, ?_⟩
  cases hr with
  | cut hn _ ho | clear hn _ ho =>
    rw [ha] at ho
    exact absurd hn (hnone _ (ho.mem.2 (.inl mem_cons_self)))
  | queued hnot hn ho hgone hf hhead hstate =>
    rename_i out p1
    rw [ha] at ho hgone
    have hout : out = [t] := by
      have htout := (ho.mem.1 ht).resolve_right fun hin => hgone t hin rfl
      exact eq_singleton_of_nonces ho.nonces.1 hn htout
    subst hout
    exact Drops.of_forgets hs ho hf (.refl _) hhead hstate

theorem removes_queued (hs : Shaped E p) {ts : List Transaction}
    (hts : ∀ t ∈ ts, t ∈ p.content (.queue a)) (hnd : ts.Nodup) :
    ∃ p', exec (E.removeTx c) (ts.map E.hash) p = some p' ∧ Drops E p p' (.queue a) ts := by
  induction ts generalizing p with
  | nil => exact ⟨p, rfl, Drops.refl hs _⟩
  | cons t ts ih =>
    obtain ⟨hnot, hnd⟩ := nodup_cons.1 hnd
    obtain ⟨p1, hrun1, hd1⟩ := removeTx_queued hs (hts t mem_cons_self)
    have hts1 : ∀ x ∈ ts, x ∈ p1.content (.queue a) := by
      intro x hx
      have hin := hd1.perm.mem_iff.2 (hts x (mem_cons_of_mem t hx))
      rcases mem_append.1 hin with hxt | hin
      · exact absurd (mem_singleton.1 hxt ▸ hx) hnot
      · exact hin
    obtain ⟨p2, hrun2, hd2⟩ := ih hd1.shaped hts1 hnd
    refine ⟨p2, exec_cons_eq_some.2 ⟨p1, hrun1, hrun2⟩, hd1.trans hd2⟩

theorem dropQueued_invariant (hI : I p) (hshape : ∀ q, I q → Shaped E q)
    (hstep : ∀ a q q' ts, I q → Drops E q q' (.queue a) ts → I q') {accounts : List Address} {k : Nat}
    (hrun : E.dropQueued c accounts k p = some p') : I p' := by
  induction accounts generalizing k p with
  | nil =>
    cases hrun
    exact hI
  | cons a accounts ih =>
    unfold dropQueued at hrun
    split at hrun
    · cases hrun
      exact hI
    · obtain ⟨l, hl, hrun⟩ := bind_eq_some_iff.1 hrun
      have hin : ∀ t ∈ l.flatten, t ∈ p.content (.queue a) := fun t ht => by
        rwa [content_of_list hl]
      have hnd := l.nodup_nonces.of_map
      split at hrun
      · obtain ⟨q, hq, hrun⟩ := bind_eq_some_iff.1 hrun
        obtain ⟨q', hq', hd⟩ := removes_queued (hshape p hI) hin hnd
        rw [hq] at hq'
        cases hq'
        exact ih (hstep a p q _ hI hd) hrun
      · have hsub : ∀ t ∈ l.flatten.reverse.take k, t ∈ p.content (.queue a) := fun t ht =>
          hin t (mem_reverse.1 (mem_of_mem_take ht))
        obtain ⟨q', hq', hd⟩ := removes_queued (hshape p hI) hsub
          ((nodup_reverse.2 hnd).sublist (take_sublist _ _))
        rw [hrun] at hq'
        cases hq'
        exact hstep a p p' _ hI hd

/-- **The limit of the queue is kept by dropping queued transactions.** -/
theorem truncateQueue_invariant (hI : I p) (hshape : ∀ q, I q → Shaped E q)
    (hstep : ∀ a q q' ts, I q → Drops E q q' (.queue a) ts → I q')
    (hrun : E.truncateQueue c p = some p') : I p' := by
  unfold truncateQueue at hrun
  dsimp only at hrun
  split at hrun
  · cases hrun
    exact hI
  · exact dropQueued_invariant hI hshape hstep hrun

theorem truncateQueue_tidy (hs : Shaped E p) (hrun : E.truncateQueue c p = some p') : Tidy E p p' :=
  truncateQueue_invariant (Tidy.refl hs) (fun _ hq => hq.shaped)
    (fun _ _ _ _ hq hd => hq.trans hd.tidy) hrun

/-- **Promotion is tidy.** -/
theorem promoteExecutables_tidy {accounts : List Address} (hs : Shaped E p)
    (hrun : E.promoteExecutables c accounts p = some p') : Tidy E p p' := by
  obtain ⟨p1, h1, hrun⟩ := bind_eq_some_iff.1 hrun
  obtain ⟨p2, h2, h3⟩ := bind_eq_some_iff.1 hrun
  have ht1 := tidy_exec (fun _ _ _ => promoteAccount_tidy) hs h1
  have ht2 := truncatePending_tidy ht1.shaped h2
  exact (ht1.trans ht2).trans (truncateQueue_tidy ht2.shaped h3)

end Tidy

end GoAoa.Core
