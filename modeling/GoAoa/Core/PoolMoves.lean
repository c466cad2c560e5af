import GoAoa.Core.PoolShape

/-!
# The procedures of the pool, move by move

What the procedures do to a pool of the right shape, as moves: transactions are taken out of a list
(`Out`), forgotten (`Forgets`) or put into another list (`Lands`).
-/

namespace GoAoa.Core

open List Option PoolEnv State VM TxPool

/-! ## Removing a transaction -/

section Remove

variable {E : PoolEnv} {c : Choices} {p p' p₁ p₂ : TxPool} {pl : Place} {t x : Transaction}
  {a : Address} {h : Hash} {out : List Transaction} {n : Nat}

theorem known_eq_some (hs : Shaped E p) : E.known p h = some t ↔ t ∈ p.all ∧ E.hash t = h := by
  constructor
  · intro hk
    exact ⟨mem_of_find?_eq_some hk, by simpa using find?_some hk⟩
  · rintro ⟨ht, rfl⟩
    cases hk : E.known p (E.hash t) with
    | none => exact absurd rfl (known_eq_none.1 hk t ht)
    | some x =>
      have hx := mem_of_find?_eq_some hk
      have heq : E.hash x = E.hash t := by simpa using find?_some hk
      rw [hs.records.eq_of_hash hx ht heq]

theorem senderOf_of_mem (hs : Shaped E p) (ht : t ∈ p.content pl) : E.senderOf t = pl.account := by
  rw [senderOf, (hs.member pl t ht).2, getD_some]

theorem Out.refl (hs : Shaped E p) (pl : Place) : Out p p pl [] :=
  ⟨rfl, rfl, fun _ _ => rfl, .refl _, hs.strict pl⟩

theorem Out.congr (ho : Out p p₁ pl out) (hall : p'.all = p₁.all) (hpriced : p'.priced = p₁.priced)
    (hlist : ∀ pl, p'.list pl = p₁.list pl) : Out p p' pl out where
  all := hall.trans ho.all
  priced := hpriced.trans ho.priced
  other pl' hne := (hlist pl').trans (ho.other pl' hne)
  perm := by
    rw [content_congr (hlist pl)]
    exact ho.perm
  strict l hl := ho.strict l ((hlist pl).symm.trans hl)

theorem list_lowerNonce (p : TxPool) (a : Address) (n : Nat) (pl : Place) :
    (p.lowerNonce a n).list pl = p.list pl := by
  unfold lowerNonce
  split
  · cases pl <;> rfl
  · rfl

theorem content_lowerNonce (p : TxPool) (a : Address) (n : Nat) (pl : Place) :
    (p.lowerNonce a n).content pl = p.content pl :=
  content_congr (list_lowerNonce p a n pl)

theorem records_lowerNonce (p : TxPool) (a : Address) (n : Nat) :
    (p.lowerNonce a n).all = p.all ∧ (p.lowerNonce a n).priced = p.priced ∧
      SameHead p (p.lowerNonce a n) := by
  unfold lowerNonce
  split <;> exact ⟨rfl, rfl, rfl, rfl, rfl⟩

theorem Out.loose_nonce (ho : Out p p₁ pl out) (hs : Shaped E p) (ht : t ∈ p.all)
    (hpl : pl.account = E.senderOf t) (hgone : ∀ x ∈ p₁.content pl, x.accountNonce ≠ t.accountNonce)
    (hother : ∀ pl', pl' ≠ pl → pl'.account = pl.account → t ∉ p.content pl') : Loose p₁ t := by
  refine ⟨by rw [ho.all]; exact ht, fun pl' htp => ?_⟩
  by_cases hne : pl' = pl
  · subst hne
    exact hgone t htp rfl
  · have hin := ho.sub htp
    exact hother pl' hne ((senderOf_of_mem hs hin).symm.trans hpl.symm) hin

/-- How `removeTx` of a transaction of the pool ends. The nonce is taken out of the pending list,
with those after it. If something is left, those after it are queued; if not, nothing is done with
them. Where the nonce is not pending, it is taken out of the queue. -/
inductive Removal (E : PoolEnv) (c : Choices) (p : TxPool) (t : Transaction) : TxPool → Prop
  | cut {o : Transaction} {invalids : List Transaction} {p₁ p₂ p₃ : TxPool}
      (hnonce : o.accountNonce = t.accountNonce)
      (hinv : ∀ x, x ∈ invalids ↔ x ∈ p.content (.pending (E.senderOf t)) ∧
        t.accountNonce < x.accountNonce)
      (hout : Out p p₁ (.pending (E.senderOf t)) (o :: invalids))
      (hleft : p₁.content (.pending (E.senderOf t)) ≠ [])
      (hforget : Forgets E p₁ p₂ [t])
      (hland : Lands E p₂ p₃ (.queue (E.senderOf t)) (c.arrange invalids))
      (hentries : p₃.priced.entries.Perm (c.arrange invalids ++ p₂.priced.entries))
      (hhead : SameHead p p₃) (hstate : p₃.pendingState = p.pendingState) :
      Removal E c p t (p₃.lowerNonce (E.senderOf t) t.accountNonce)
  | clear {o : Transaction} {invalids : List Transaction} {p₁ p₂ : TxPool}
      (hnonce : o.accountNonce = t.accountNonce)
      (hinv : ∀ x, x ∈ invalids ↔ x ∈ p.content (.pending (E.senderOf t)) ∧
        t.accountNonce < x.accountNonce)
      (hout : Out p p₁ (.pending (E.senderOf t)) (o :: invalids))
      (hempty : p₁.content (.pending (E.senderOf t)) = [])
      (hforget : Forgets E p₁ p₂ [t])
      (hhead : SameHead p p₂) (hstate : p₂.pendingState = p.pendingState) :
      Removal E c p t (p₂.lowerNonce (E.senderOf t) t.accountNonce)
  | queued {out : List Transaction} {p₁ p₂ : TxPool}
      (hnot : ∀ x ∈ p.content (.pending (E.senderOf t)), x.accountNonce ≠ t.accountNonce)
      (hnonce : ∀ x ∈ out, x.accountNonce = t.accountNonce)
      (hout : Out p p₁ (.queue (E.senderOf t)) out)
      (hgone : ∀ x ∈ p₁.content (.queue (E.senderOf t)), x.accountNonce ≠ t.accountNonce)
      (hforget : Forgets E p₁ p₂ [t])
      (hhead : SameHead p p₂) (hstate : p₂.pendingState = p.pendingState) :
      Removal E c p t p₂

section

variable (hs : Shaped E p)
include hs

variable {all : List Transaction} {priced : TxTypeList}

theorem forgets_of_records (ho : Out p p₁ pl out)
    (hrun : E.forget t p₁ = some { p₁ with all := all, priced := priced })
    (hloose : Loose p₁ t) : Forgets E p₁ { p₁ with all := all, priced := priced } [t] := by
  obtain ⟨p₂, hrun2, hf⟩ := forget_loose (ho.shaped hs) hloose
  rw [hrun] at hrun2
  cases hrun2
  exact hf

theorem unlist_pending (ht : t ∈ p.all) (hrun : ∀ q : TxPool, q.all = p.all → q.priced = p.priced →
      E.forget t q = some { q with all := all, priced := priced }) {l rest : TxList}
    {invalids : List Transaction} (hl : p.list (.pending (E.senderOf t)) = some l)
    (hrem : l.remove t = some (invalids, rest)) :
    ∃ p', E.unlist c t { p with all := all, priced := priced } = some p' ∧ Removal E c p t p' := by
  obtain ⟨a, ha⟩ : ∃ a, E.senderOf t = a := ⟨_, rfl⟩
  rw [ha] at hl
  obtain ⟨o, hn, hparts, hinv⟩ := TxList.parts_remove hrem
  rw [hs.strict _ l hl, show (Place.pending a).isPending = true from rfl, if_pos rfl] at hinv
  have hinv' : ∀ x, x ∈ invalids ↔ x ∈ p.content (.pending a) ∧
      t.accountNonce < x.accountNonce := by
    intro x
    rw [hinv, content_of_list hl, mem_filter, decide_eq_true_eq]
  have hqueue : ∀ pl', pl' ≠ .pending a → pl'.account = a → t ∉ p.content pl' := by
    intro pl' hne hacc htq
    cases pl' with
    | pending => exact hne (by rw [← hacc]; rfl)
    | queue b =>
      obtain rfl : b = a := hacc
      refine hs.apart b o ?_ t htq hn
      rw [content_of_list hl]
      exact hparts.mem.2 (.inl mem_cons_self)
  have hne : ∀ x ∈ invalids, x ≠ t := by
    rintro x hx rfl
    exact absurd ((hinv' x).1 hx).2 (Nat.lt_irrefl _)
  simp only [unlist, ha, list_records, hl, bind_some, hrem]
  by_cases hempty : rest.len = 0
  · have ho : Out p { p.drop (.pending a) with beats := p.beats.erase a } (.pending a)
        (o :: invalids) :=
      (Out.drop hl hparts hempty).congr rfl rfl fun _ => rfl
    have hcontent : ({ p.drop (.pending a) with beats := p.beats.erase a } : TxPool).content
        (.pending a) = [] := content_drop_self p (.pending a)
    have hloose := ho.loose_nonce hs ht ha.symm (by rw [hcontent]; simp) hqueue
    have hf := forgets_of_records hs ho (hrun _ rfl rfl) hloose
    rw [if_pos hempty]
    refine ⟨_, rfl, ?_⟩
    subst ha
    exact .clear hn hinv' ho hcontent hf ⟨rfl, rfl, rfl⟩ rfl
  · have ho := Out.store hs hl hparts
    have hcontent := content_store_self p (.pending a) rest
    have hgone : ∀ x ∈ (p.store (.pending a) rest).content (.pending a),
        x.accountNonce ≠ t.accountNonce := by
      intro x hx heq
      exact ho.nonces.2 o mem_cons_self x hx (hn.trans heq.symm)
    have hloose := ho.loose_nonce hs ht ha.symm hgone hqueue
    have hf := forgets_of_records hs ho (hrun _ rfl rfl) hloose
    have hlanding := ho.landing hs (fun x hx => mem_cons_of_mem o hx) (nodup_cons.1 ho.nonces.1).2
    have hback := (hlanding.forgets hf fun x hx hxt => hne x hx (mem_singleton.1 hxt)).perm
      (c.arrange_perm invalids)
    obtain ⟨p3, hreq, hland, hstate, hentries⟩ := requeues_land hf.shaped hback
    rw [if_neg hempty]
    refine ⟨p3.lowerNonce a t.accountNonce, ?_, ?_⟩
    · rw [show ({ p with all := all, priced := priced } : TxPool).store (.pending a) rest =
        { p.store (.pending a) rest with all := all, priced := priced } from rfl, hreq]
      rfl
    · subst ha
      refine .cut hn hinv' ho (fun hnil => hempty ?_) hf hland hentries
        (((SameHead.store p _ rest).trans hf.head).trans hland.head) (hstate.trans rfl)
      rw [hcontent] at hnil
      exact length_eq_zero_iff.2 hnil

theorem unlist_queued (ht : t ∈ p.all) (hrun : ∀ q : TxPool, q.all = p.all → q.priced = p.priced →
      E.forget t q = some { q with all := all, priced := priced })
    (hnone : ((p.list (.pending (E.senderOf t))).bind fun l => l.remove t) = none) :
    ∃ p', E.unlist c t { p with all := all, priced := priced } = some p' ∧ Removal E c p t p' := by
  obtain ⟨a, ha⟩ : ∃ a, E.senderOf t = a := ⟨_, rfl⟩
  rw [ha] at hnone
  have hnot : ∀ x ∈ p.content (.pending a), x.accountNonce ≠ t.accountNonce := by
    intro x hx
    cases hl : p.list (.pending a) with
    | none => simp [content_of_none hl] at hx
    | some =>
      rw [hl, bind_some] at hnone
      rw [content_of_list hl] at hx
      exact TxList.remove_eq_none.1 hnone x hx
  have hpending : ∀ pl', pl' ≠ .queue a → pl'.account = a → t ∉ p.content pl' := by
    intro pl' hne hacc htp
    cases pl' with
    | pending b =>
      obtain rfl : b = a := hacc
      exact hnot t htp rfl
    | queue => exact hne (by rw [← hacc]; rfl)
  -- whatever is left of the queue, the nonce is not there
  obtain ⟨p₁, out, ho, hnonce, hgone, hhead, hstate, hend⟩ : ∃ p₁ out,
      Out p p₁ (.queue a) out ∧ (∀ x ∈ out, x.accountNonce = t.accountNonce) ∧
      (∀ x ∈ p₁.content (.queue a), x.accountNonce ≠ t.accountNonce) ∧ SameHead p p₁ ∧
      p₁.pendingState = p.pendingState ∧
      E.unlist c t { p with all := all, priced := priced } =
        some { p₁ with all := all, priced := priced } := by
    simp only [unlist, ha, list_records, hnone]
    cases hl : p.list (.queue a) with
    | none =>
      exact ⟨p, [], Out.refl hs _, by simp, by simp [content_of_none hl], SameHead.refl p, rfl, rfl⟩
    | some l =>
      obtain ⟨rest, out, hrest, hparts, hnonce⟩ : ∃ rest out,
          ((l.remove t).map Prod.snd).getD l = rest ∧ l.Parts out rest ∧
          (∀ x ∈ out, x.accountNonce = t.accountNonce) ∧
          ∀ x ∈ rest.flatten, x.accountNonce ≠ t.accountNonce := by
        cases hrem : l.remove t with
        | none => exact ⟨l, [], rfl, ⟨List.Perm.refl _, rfl⟩, by simp, TxList.remove_eq_none.1 hrem⟩
        | some r =>
          obtain ⟨invalids, rest⟩ := r
          obtain ⟨o, hn, hparts, hinv⟩ := TxList.parts_remove hrem
          rw [hs.strict _ l hl, show (Place.queue a).isPending = false from rfl,
            if_neg Bool.false_ne_true] at hinv
          subst hinv
          refine ⟨rest, [o], rfl, hparts, fun x hx => ?_, fun x hx heq => ?_⟩
          · rw [mem_singleton.1 hx]
            exact hn
          · exact hparts.nodup_nonces.2 o mem_cons_self x hx (hn.trans heq.symm)
      dsimp only
      rw [hrest]
      by_cases hempty : rest.len = 0
      · rw [if_pos hempty]
        refine ⟨p.drop (.queue a), out, Out.drop hl hparts hempty, hnonce.1, ?_,
          SameHead.drop p _, rfl, rfl⟩
        rw [content_drop_self]
        simp
      · rw [if_neg hempty]
        refine ⟨p.store (.queue a) rest, out, Out.store hs hl hparts, hnonce.1, ?_,
          SameHead.store p _ rest, rfl, rfl⟩
        rw [content_store_self]
        exact hnonce.2
  have hloose := ho.loose_nonce hs ht ha.symm hgone hpending
  have hf := forgets_of_records hs ho (hrun p₁ ho.all ho.priced) hloose
  refine ⟨_, hend, ?_⟩
  subst ha
  exact .queued hnot hnonce ho hgone hf (hhead.trans hf.head) hstate

/-- **Removing a transaction of the pool never fails.** -/
theorem removeTx_removal (ht : t ∈ p.all) :
    ∃ p', E.removeTx c (E.hash t) p = some p' ∧ Removal E c p t p' := by
  obtain ⟨all, priced, hrun, -⟩ := hs.records.forget ht
  have hremove : E.removeTx c (E.hash t) p =
      E.unlist c t { p with all := all, priced := priced } := by
    rw [removeTx, (known_eq_some hs).2 ⟨ht, rfl⟩]
    dsimp only
    rw [hrun p rfl rfl, bind_some]
  rw [hremove]
  cases hpend : (p.list (.pending (E.senderOf t))).bind fun l => l.remove t with
  | some =>
    obtain ⟨l, hl, hrem⟩ := bind_eq_some_iff.1 hpend
    exact unlist_pending hs ht hrun hl hrem
  | none => exact unlist_queued hs ht hrun hpend

end

namespace Removal

theorem shaped (hr : Removal E c p t p') : Shaped E p' := by
  cases hr with
  | cut _ _ _ _ _ hf | clear _ _ _ _ hf =>
    exact hf.shaped.congr (records_lowerNonce _ _ _).1 (records_lowerNonce _ _ _).2.1
      (list_lowerNonce _ _ _)
  | queued _ _ _ _ hf => exact hf.shaped

theorem head (hr : Removal E c p t p') : SameHead p p' := by
  cases hr with
  | cut _ _ _ _ _ _ _ hhead | clear _ _ _ _ _ hhead =>
    exact hhead.trans (records_lowerNonce _ _ _).2.2
  | queued _ _ _ _ _ hhead => exact hhead

theorem all (hr : Removal E c p t p') : x ∈ p'.all ↔ x ∈ p.all ∧ x ≠ t := by
  cases hr with
  | cut _ _ ho _ hf hland _ _ _ =>
    rw [(records_lowerNonce _ _ _).1, hland.all, hf.all, ho.all, mem_singleton]
  | clear _ _ ho _ hf _ _ =>
    rw [(records_lowerNonce _ _ _).1, hf.all, ho.all, mem_singleton]
  | queued _ _ ho _ hf => rw [hf.all, ho.all, mem_singleton]

end Removal

end Remove

end GoAoa.Core
