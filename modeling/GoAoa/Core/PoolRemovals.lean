import GoAoa.Core.PoolRun

/-!
# Lists of removals

`SetGasPrice` and `evict` remove transactions one after the other, and `add` to a full pool removes
one. What becomes of an account's pending list depends on the order in which its nonces have their
`turn`: a nonce takes those after it out of the list, and the first takes out all.

A list of removals spares the transactions of the pool (`SparesRest`) if those that the first of a
pending list leaves without a list have a turn themselves. It is quiet (`Quiet`) if none of them
puts transactions back into the queue.
-/

namespace GoAoa.Core

open List Option Run PoolEnv State VM TxPool

/-! ## What one removal leaves of the pending lists -/

section Removal

variable {E : PoolEnv} {c : Choices} {p p' : TxPool} {t x o : Transaction} {a b : Address} {n : Nat}
  {h : Hash} {hashes : List Hash}

namespace Removal

variable (hr : Removal E c p t p')
include hr

theorem pending_other (hb : b ≠ E.senderOf t) :
    p'.content (.pending b) = p.content (.pending b) := by
  have hne : Place.pending b ≠ .pending (E.senderOf t) := fun heq => hb (Place.pending.inj heq)
  cases hr with
  | cut _ _ ho _ hf hland =>
    rw [content_lowerNonce, hland.content_other (by simp), hf.content, ho.content_other hne]
  | clear _ _ ho _ hf =>
    rw [content_lowerNonce, hf.content, ho.content_other hne]
  | queued _ _ ho _ hf => rw [hf.content, ho.content_other (by simp)]

theorem pending_same
    (hnot : ∀ o ∈ p.content (.pending (E.senderOf t)), o.accountNonce ≠ t.accountNonce) :
    p'.content (.pending (E.senderOf t)) = p.content (.pending (E.senderOf t)) := by
  cases hr with
  | cut hn _ ho | clear hn _ ho => exact absurd hn (hnot _ (ho.mem.2 (.inl mem_cons_self)))
  | queued _ _ ho _ hf => rw [hf.content, ho.content_other (by simp)]

theorem pending_below (ho : o ∈ p.content (.pending (E.senderOf t)))
    (hn : o.accountNonce = t.accountNonce) :
    x ∈ p'.content (.pending (E.senderOf t)) ↔
      x ∈ p.content (.pending (E.senderOf t)) ∧ x.accountNonce < t.accountNonce := by
  have hout : ∀ {o' : Transaction} {invalids : List Transaction} {p1 : TxPool},
      o'.accountNonce = t.accountNonce →
      (∀ y, y ∈ invalids ↔ y ∈ p.content (.pending (E.senderOf t)) ∧
        t.accountNonce < y.accountNonce) →
      Out p p1 (.pending (E.senderOf t)) (o' :: invalids) →
      (x ∈ p1.content (.pending (E.senderOf t)) ↔
        x ∈ p.content (.pending (E.senderOf t)) ∧ x.accountNonce < t.accountNonce) := by
    intro o' invalids p1 hn' hinv hout
    constructor
    · intro hx
      have hne := hout.nonces.2 o' mem_cons_self x hx
      have hin := hout.sub hx
      refine ⟨hin, Nat.lt_of_not_le fun hle => ?_⟩
      have hlt : t.accountNonce < x.accountNonce := by omega
      exact hout.nonces.2 x (mem_cons_of_mem o' ((hinv x).2 ⟨hin, hlt⟩)) x hx rfl
    · rintro ⟨hx, hlt⟩
      refine (hout.mem.1 hx).resolve_left fun hin => ?_
      rcases mem_cons.1 hin with rfl | hin
      · omega
      · have := ((hinv x).1 hin).2
        omega
  cases hr with
  | cut hn' hinv ho' _ hf hland =>
    rw [content_lowerNonce, hland.content_other (by simp), hf.content]
    exact hout hn' hinv ho'
  | clear hn' hinv ho' _ hf =>
    rw [content_lowerNonce, hf.content]
    exact hout hn' hinv ho'
  | queued hnot => exact absurd hn (hnot o ho)

theorem pending_sub (hx : x ∈ p'.content (.pending a)) :
    x ∈ p.content (.pending a) ∧ ¬ (E.senderOf t = a ∧ x.accountNonce = t.accountNonce) := by
  by_cases ha : a = E.senderOf t
  · subst ha
    by_cases hex : ∃ o ∈ p.content (.pending (E.senderOf t)), o.accountNonce = t.accountNonce
    · obtain ⟨o, ho, hn⟩ := hex
      obtain ⟨hx, hlt⟩ := (hr.pending_below ho hn).1 hx
      exact ⟨hx, fun h => by omega⟩
    · push Not at hex
      rw [hr.pending_same hex] at hx
      exact ⟨hx, fun h => hex x hx h.2⟩
  · rw [hr.pending_other ha] at hx
    exact ⟨hx, fun h => ha h.1.symm⟩

theorem held (pl : Place) :
    ∀ x ∈ p'.content pl, x ∈ p.content (.pending pl.account) ∨ x ∈ p.content (.queue pl.account) := by
  intro x hx
  cases hr with
  | cut hn hinv ho hleft hf hland hentries hhead hstate =>
    rename_i o invalids p1 p2 p3
    rw [content_lowerNonce] at hx
    by_cases hpl : pl = .queue (E.senderOf t)
    · subst hpl
      rcases (hland.content x).1 hx with hx | hx
      · exact .inl ((hinv x).1 ((c.arrange_perm invalids).mem_iff.1 hx)).1
      · rw [hf.content] at hx
        exact .inr (ho.sub hx)
    · rw [hland.content_other hpl, hf.content] at hx
      exact Place.mem_lists (ho.sub hx)
  | clear _ _ ho _ hf =>
    rw [content_lowerNonce, hf.content] at hx
    exact Place.mem_lists (ho.sub hx)
  | queued _ _ ho _ hf =>
    rw [hf.content] at hx
    exact Place.mem_lists (ho.sub hx)

theorem known (hs : Shaped E p) : E.known p' h = some x ↔ E.known p h = some x ∧ x ≠ t := by
  rw [known_eq_some hr.shaped, known_eq_some hs, hr.all]
  tauto

end Removal

/-! ## Turns -/

/-- Where in the list the first transaction of the account with the nonce is; the length of the list
if there is none. -/
def PoolEnv.turn (E : PoolEnv) (p : TxPool) (hashes : List Hash) (a : Address) (n : Nat) : Nat :=
  hashes.findIdx fun h => (E.known p h).any fun t => E.senderOf t = a ∧ t.accountNonce = n

theorem turn_lt : E.turn p hashes a n < hashes.length ↔
    ∃ h ∈ hashes, ∃ t, E.known p h = some t ∧ E.senderOf t = a ∧ t.accountNonce = n := by
  rw [turn, findIdx_lt_length]
  simp only [Option.any_eq_true, decide_eq_true_eq]

theorem turn_hash (hs : Shaped E p) (ht : t ∈ p.all) :
    E.turn p (E.hash t :: hashes) (E.senderOf t) t.accountNonce = 0 := by
  rw [turn, findIdx_cons, (known_eq_some hs).2 ⟨ht, rfl⟩]
  simp

theorem turn_cons (hs : Shaped E p) (hstep : E.removeTx c h p = some p')
    (hx : x ∈ p'.content (.pending a)) :
    E.turn p (h :: hashes) a x.accountNonce = E.turn p' hashes a x.accountNonce + 1 := by
  unfold turn
  rw [findIdx_cons]
  rcases removeTx_cases hs hstep with ⟨hk, rfl⟩ | ⟨t, hk, ht, hr⟩
  · rw [hk]
    rfl
  · have hnot := (hr.pending_sub hx).2
    have hsame : (fun h' => (E.known p h').any fun t =>
        E.senderOf t = a ∧ t.accountNonce = x.accountNonce) =
        fun h' => (E.known p' h').any fun t =>
          E.senderOf t = a ∧ t.accountNonce = x.accountNonce := by
      funext h'
      rw [Bool.eq_iff_iff]
      simp only [Option.any_eq_true, decide_eq_true_eq]
      constructor
      · rintro ⟨d, hd, hda, hdn⟩
        refine ⟨d, (hr.known hs).2 ⟨hd, ?_⟩, hda, hdn⟩
        rintro rfl
        exact hnot ⟨hda, hdn.symm⟩
      · rintro ⟨d, hd, hda, hdn⟩
        exact ⟨d, ((hr.known hs).1 hd).1, hda, hdn⟩
    rw [hsame, hk]
    have hfalse : ((some t).any fun t => decide (E.senderOf t = a ∧ t.accountNonce = x.accountNonce))
        = false := by
      rw [any_some, decide_eq_false_iff_not]
      exact fun h => hnot ⟨h.1, h.2.symm⟩
    rw [hfalse]
    rfl

/-! ## Removals that strand nothing -/

/-- Where the first pending transaction of an account has a turn, the others have one as well, or are
taken out of the list before, with one that comes before them. -/
def SparesRest (E : PoolEnv) (p : TxPool) (hashes : List Hash) : Prop :=
  ∀ a, ∀ t ∈ p.content (.pending a),
    (∀ y ∈ p.content (.pending a), t.accountNonce ≤ y.accountNonce) →
    E.turn p hashes a t.accountNonce < hashes.length →
    ∀ x ∈ p.content (.pending a), x ≠ t → E.turn p hashes a x.accountNonce < hashes.length ∨
      ∃ y ∈ p.content (.pending a), y ≠ t ∧ y.accountNonce ≤ x.accountNonce ∧
        E.turn p hashes a y.accountNonce < E.turn p hashes a t.accountNonce

/-- What is loose has its turn to come, and its account has no other transaction with the nonce. -/
structure CoveredBy (E : PoolEnv) (p : TxPool) (hashes : List Hash) : Prop where
  shaped : Shaped E p
  loose : ∀ x, Loose p x → E.hash x ∈ hashes ∧ p.content (.pending (E.senderOf x)) = [] ∧
    ∀ y ∈ p.content (.queue (E.senderOf x)), y.accountNonce ≠ x.accountNonce
  spares : SparesRest E p hashes

theorem removeTx_pending (hs : Shaped E p) (hstep : E.removeTx c h p = some p') (a : Address) :
    (∀ z ∈ p'.content (.pending a), z ∈ p.content (.pending a)) ∧
      ∀ y ∈ p.content (.pending a), y ∉ p'.content (.pending a) →
        ∀ z ∈ p'.content (.pending a), z.accountNonce < y.accountNonce := by
  rcases removeTx_cases hs hstep with ⟨-, rfl⟩ | ⟨d, -, -, hr⟩
  · exact ⟨fun _ hz => hz, fun y hy hyn => absurd hy hyn⟩
  · refine ⟨fun z hz => (hr.pending_sub hz).1, fun y hy hyn z hz => ?_⟩
    by_cases ha : a = E.senderOf d
    · subst ha
      by_cases hex : ∃ o ∈ p.content (.pending (E.senderOf d)), o.accountNonce = d.accountNonce
      · obtain ⟨o, ho, hn⟩ := hex
        refine Nat.lt_of_lt_of_le ((hr.pending_below ho hn).1 hz).2 (Nat.le_of_not_lt fun hlt => ?_)
        exact hyn ((hr.pending_below ho hn).2 ⟨hy, hlt⟩)
      · push Not at hex
        rw [hr.pending_same hex] at hyn
        exact absurd hy hyn
    · rw [hr.pending_other ha] at hyn
      exact absurd hy hyn

theorem removeTx_first (hs : Shaped E p) (hstep : E.removeTx c h p = some p')
    (ht : t ∈ p'.content (.pending a))
    (hfirst : ∀ y ∈ p'.content (.pending a), t.accountNonce ≤ y.accountNonce) :
    ∀ y ∈ p.content (.pending a), t.accountNonce ≤ y.accountNonce := by
  intro y hy
  by_cases hyn : y ∈ p'.content (.pending a)
  · exact hfirst y hyn
  · exact Nat.le_of_lt ((removeTx_pending hs hstep a).2 y hy hyn t ht)

theorem SparesRest.tail (hs : Shaped E p) (hstep : E.removeTx c h p = some p')
    (hspares : SparesRest E p (h :: hashes)) : SparesRest E p' hashes := by
  intro a t ht hfirst hturn x hx hne
  obtain ⟨hin, hgone⟩ := removeTx_pending hs hstep a
  have hcase := hspares a t (hin t ht) (removeTx_first hs hstep ht hfirst)
    (by rw [turn_cons hs hstep ht, length_cons]; omega) x (hin x hx) hne
  rw [turn_cons hs hstep hx, turn_cons hs hstep ht, length_cons] at hcase
  refine hcase.imp (fun hlt => by omega) ?_
  rintro ⟨y, hy, hyt, hle, hlt⟩
  by_cases hyn : y ∈ p'.content (.pending a)
  · rw [turn_cons hs hstep hyn] at hlt
    exact ⟨y, hyn, hyt, hle, by omega⟩
  · have := hgone y hy hyn x hx
    omega

namespace CoveredBy

theorem eq_of_nonce (hc : CoveredBy E p hashes) (ht : t ∈ p.all) (pl : Place)
    (hpl : pl.account = E.senderOf t) (ho : o ∈ p.content pl)
    (hn : o.accountNonce = t.accountNonce) : o = t := by
  have hs := hc.shaped
  by_cases hl : Loose p t
  · obtain ⟨-, hpend, hfree⟩ := hc.loose t hl
    cases pl with
    | pending =>
      obtain rfl := hpl
      rw [hpend] at ho
      cases ho
    | queue =>
      obtain rfl := hpl
      exact absurd hn (hfree o ho)
  · obtain ⟨pl', htp⟩ : ∃ pl', t ∈ p.content pl' := by
      by_contra hno
      exact hl ⟨ht, fun pl' htp => hno ⟨pl', htp⟩⟩
    have hpl' := (senderOf_of_mem hs htp).symm
    have hplace : pl = pl' := by
      cases pl <;> cases pl' <;> simp only [Place.account] at hpl hpl' <;> subst hpl hpl'
      · rfl
      · exact absurd hn (hs.apart _ o ho t htp)
      · exact absurd hn.symm (hs.apart _ t htp o ho)
      · rfl
    subst hplace
    exact inj_on_of_nodup_map (p.nodup_content pl) ho htp hn

theorem stays (hc : CoveredBy E p (E.hash t :: hashes)) (ht : t ∈ p.all) (hr : Removal E c p t p')
    (hx : Loose p x) (hxt : x ≠ t) (hqueue : ∀ y ∈ p'.content (.queue (E.senderOf x)),
      y ∈ p.content (.pending (E.senderOf x)) ∨ y ∈ p.content (.queue (E.senderOf x))) :
    E.hash x ∈ hashes ∧ p'.content (.pending (E.senderOf x)) = [] ∧
      ∀ y ∈ p'.content (.queue (E.senderOf x)), y.accountNonce ≠ x.accountNonce := by
  obtain ⟨hmem, hpend, hfree⟩ := hc.loose x hx
  rw [hpend] at hqueue
  refine ⟨(mem_cons.1 hmem).resolve_left fun heq => ?_, ?_, fun y hy => ?_⟩
  · exact hxt (hc.shaped.records.eq_of_hash hx.1 ht heq)
  · refine eq_nil_iff_forall_not_mem.2 fun y hy => ?_
    have hin := (hr.pending_sub hy).1
    rw [hpend] at hin
    cases hin
  · exact hfree y ((hqueue y hy).resolve_left fun hin => (nomatch hin))

theorem stranded (hc : CoveredBy E p (E.hash t :: hashes)) (ht : t ∈ p.content (.pending a))
    (hfirst : ∀ y ∈ p.content (.pending a), t.accountNonce ≤ y.accountNonce)
    (hx : x ∈ p.content (.pending a)) (hxt : x ≠ t) : E.hash x ∈ hashes := by
  have hs := hc.shaped
  have hall := (hs.member _ t ht).1
  have hta : E.senderOf t = a := senderOf_of_mem hs ht
  have hzero : E.turn p (E.hash t :: hashes) a t.accountNonce = 0 := hta ▸ turn_hash hs hall
  have hturn : E.turn p (E.hash t :: hashes) a x.accountNonce < (E.hash t :: hashes).length := by
    refine (hc.spares a t ht hfirst (by rw [hzero]; simp) x hx hxt).resolve_right ?_
    rintro ⟨y, -, -, -, hlt⟩
    rw [hzero] at hlt
    omega
  obtain ⟨h, hh, d, hd, hda, hdn⟩ := turn_lt.1 hturn
  obtain ⟨hdall, rfl⟩ := (known_eq_some hs).1 hd
  -- only the transaction itself can have that turn
  obtain rfl := hc.eq_of_nonce hdall (.pending a) hda.symm hx hdn.symm
  exact (mem_cons.1 hh).resolve_left fun heq => hxt (hs.records.eq_of_hash hdall hall heq)

/-- What a removal makes loose are the successors of the first of a pending list. -/
theorem loose_of_removal (hc : CoveredBy E p hashes) (ht : t ∈ p.all) (hr : Removal E c p t p')
    (hx : Loose p' x) :
    Loose p x ∨ (t ∈ p.content (.pending (E.senderOf t)) ∧ x ∈ p.content (.pending (E.senderOf t)) ∧
      p'.content (.pending (E.senderOf t)) = [] ∧
      (∀ y ∈ p.content (.pending (E.senderOf t)), t.accountNonce ≤ y.accountNonce) ∧
      ∀ b, p'.content (.queue b) = p.content (.queue b)) := by
  have hs := hc.shaped
  have hxt : x ≠ t := (hr.all.1 hx.1).2
  have hlower : ∀ {q : TxPool} {b : Address} {n : Nat}, Loose (q.lowerNonce b n) x → Loose q x :=
    fun {q b n} hx => ⟨(records_lowerNonce q b n).1 ▸ hx.1, fun pl hpl => hx.2 pl (by
      rwa [content_lowerNonce])⟩
  cases hr with
  | cut hn hinv ho hleft hf hland hentries hhead hstate =>
    rename_i o invalids p1 p2 p3
    have hot := hc.eq_of_nonce ht (.pending (E.senderOf t)) rfl (ho.mem.2 (.inl mem_cons_self)) hn
    obtain ⟨hx, hnot⟩ := hland.loose.1 (hlower hx)
    refine .inl (((ho.loose hs).1 (hf.loose.1 hx).1).resolve_right fun hin => ?_)
    rcases mem_cons.1 hin with heq | hin
    · exact hxt (heq.trans hot)
    · exact hnot ((c.arrange_perm invalids).mem_iff.2 hin)
  | clear hn hinv ho hempty hf =>
    have hop := ho.mem.2 (.inl mem_cons_self)
    obtain rfl := hc.eq_of_nonce ht (.pending (E.senderOf t)) rfl hop hn
    refine ((ho.loose hs).1 (hf.loose.1 (hlower hx)).1).imp_right fun hin =>
      ⟨hop, ho.mem.2 (.inl hin), ?_, fun y hy => ?_, fun b => ?_⟩
    · rw [content_lowerNonce, hf.content, hempty]
    · rcases ho.mem.1 hy with hy | hy
      · rcases mem_cons.1 hy with rfl | hy
        · exact Nat.le_refl _
        · exact Nat.le_of_lt ((hinv y).1 hy).2
      · rw [hempty] at hy
        cases hy
    · rw [content_lowerNonce, hf.content, ho.content_other (by simp)]
  | queued hnot hn ho hgone hf =>
    refine .inl (((ho.loose hs).1 (hf.loose.1 hx).1).resolve_right fun hin => ?_)
    exact hxt (hc.eq_of_nonce ht (.queue (E.senderOf t)) rfl (ho.mem.2 (.inl hin)) (hn x hin))

/-- **One removal of a list that spares the rest.** -/
theorem tail (hc : CoveredBy E p (h :: hashes)) (hstep : E.removeTx c h p = some p') :
    CoveredBy E p' hashes := by
  have hs := hc.shaped
  have hspares := hc.spares.tail hs hstep
  rcases removeTx_cases hs hstep with ⟨hk, rfl⟩ | ⟨t, hk, ht, hr⟩
  · refine ⟨hs, fun x hx => ?_, hspares⟩
    obtain ⟨hmem, hrest⟩ := hc.loose x hx
    exact ⟨(mem_cons.1 hmem).resolve_left (known_eq_none.1 hk x hx.1), hrest⟩
  · obtain ⟨-, rfl⟩ := (known_eq_some hs).1 hk
    refine ⟨hr.shaped, fun x hx => ?_, hspares⟩
    have hxt : x ≠ t := (hr.all.1 hx.1).2
    rcases hc.loose_of_removal ht hr hx with hold | ⟨htp, hxp, hempty, hfirst, hqueue⟩
    · exact hc.stays ht hr hold hxt fun y hy => hr.held (.queue (E.senderOf x)) y hy
    · have hsx := senderOf_of_mem hs hxp
      refine ⟨hc.stranded htp hfirst hxp hxt, hsx ▸ hempty, fun y hy => ?_⟩
      rw [hsx, hqueue] at hy
      exact (hs.apart _ x hxp y hy).symm

end CoveredBy

/-- **A list of removals that spares the rest leaves nothing loose.** -/
theorem removes_spare (hs : Shaped E p) (hloose : ∀ x, ¬ Loose p x) (hspares : SparesRest E p hashes)
    (hrun : exec (E.removeTx c) hashes p = some p') : Shaped E p' ∧ ∀ x, ¬ Loose p' x := by
  have hc : CoveredBy E p hashes := ⟨hs, fun x hx => absurd hx (hloose x), hspares⟩
  clear hs hloose hspares
  induction hashes generalizing p with
  | nil =>
    cases hrun
    exact ⟨hc.shaped, fun x hx => (nomatch (hc.loose x hx).1)⟩
  | cons h hashes ih =>
    obtain ⟨p1, hstep, hrun⟩ := exec_cons_eq_some.1 hrun
    exact ih hrun (hc.tail hstep)

theorem place_of_turn (hs : Shaped E p) {pl : Place} (ht : t ∈ p.content (.pending a))
    (hturn : E.turn p ((p.content pl).map E.hash) a t.accountNonce <
      ((p.content pl).map E.hash).length) : pl = .pending a := by
  obtain ⟨h, hh, d, hd, rfl, hdn⟩ := turn_lt.1 hturn
  obtain ⟨y, hy, rfl⟩ := mem_map.1 hh
  obtain ⟨hdall, hhash⟩ := (known_eq_some hs).1 hd
  obtain rfl := hs.records.eq_of_hash hdall (hs.member pl y hy).1 hhash
  have hacc := senderOf_of_mem hs hy
  cases pl with
  | pending => exact congrArg Place.pending hacc.symm
  | queue b =>
    obtain rfl : _ = b := hacc
    exact absurd hdn.symm (hs.apart _ t ht d hy)

theorem spares_content (hs : Shaped E p) (pl : Place) : SparesRest E p ((p.content pl).map E.hash) := by
  intro a t ht _ hturn x hx _
  obtain rfl := place_of_turn hs ht hturn
  refine .inl (turn_lt.2 ⟨E.hash x, mem_map_of_mem hx, x, ?_, senderOf_of_mem hs hx, rfl⟩)
  exact (known_eq_some hs).2 ⟨(hs.member _ x hx).1, rfl⟩

/-! ## Removals that put nothing back -/

/-- A transaction between others of its pending list has its turn after those that follow it, or after
the first. -/
def Quiet (E : PoolEnv) (p : TxPool) (hashes : List Hash) : Prop :=
  ∀ a, ∀ t ∈ p.content (.pending a),
    (∃ y ∈ p.content (.pending a), y.accountNonce < t.accountNonce) →
    E.turn p hashes a t.accountNonce < hashes.length →
    ∀ x ∈ p.content (.pending a), t.accountNonce < x.accountNonce →
      E.turn p hashes a x.accountNonce < E.turn p hashes a t.accountNonce ∨
      ∃ f ∈ p.content (.pending a),
        (∀ z ∈ p.content (.pending a), f.accountNonce ≤ z.accountNonce) ∧
        E.turn p hashes a f.accountNonce < E.turn p hashes a t.accountNonce

theorem Quiet.tail (hs : Shaped E p) (hstep : E.removeTx c h p = some p')
    (hquiet : Quiet E p (h :: hashes)) : Quiet E p' hashes := by
  rintro a t ht ⟨y, hy, hyt⟩ hturn x hx hlt
  obtain ⟨hin, hgone⟩ := removeTx_pending hs hstep a
  have hcase := hquiet a t (hin t ht) ⟨y, hin y hy, hyt⟩
    (by rw [turn_cons hs hstep ht, length_cons]; omega) x (hin x hx) hlt
  rw [turn_cons hs hstep hx, turn_cons hs hstep ht] at hcase
  refine hcase.imp (fun hlt => by omega) ?_
  rintro ⟨f, hf, hfirst, hlt⟩
  -- a first transaction that is gone would come after those that are left
  have hfin : f ∈ p'.content (.pending a) := by
    by_contra hfn
    have hft := hgone f hf hfn t ht
    have := hfirst t (hin t ht)
    omega
  rw [turn_cons hs hstep hfin] at hlt
  exact ⟨f, hfin, fun z hz => hfirst z (hin z hz), by omega⟩

theorem Quiet.removal (hs : Shaped E p) (hquiet : Quiet E p (E.hash t :: hashes)) (ht : t ∈ p.all)
    (ho : o ∈ p.content (.pending (E.senderOf t))) (hn : o.accountNonce = t.accountNonce)
    (hlow : ∃ y ∈ p.content (.pending (E.senderOf t)), y.accountNonce < t.accountNonce)
    (hx : x ∈ p.content (.pending (E.senderOf t))) : x.accountNonce ≤ t.accountNonce := by
  have hzero : E.turn p (E.hash t :: hashes) (E.senderOf t) o.accountNonce = 0 :=
    hn ▸ turn_hash hs ht
  refine Nat.le_of_not_lt fun hlt => ?_
  rcases hquiet _ o ho (by rwa [hn]) (by rw [hzero]; simp) x hx (by rwa [hn]) with h | ⟨f, -, -, h⟩
  all_goals
    rw [hzero] at h
    omega

theorem Lands.exact_nil {pl : Place} (hland : Lands E p p' pl []) (hs : Shaped E p)
    (hentries : p'.priced.entries.Perm p.priced.entries) (he : Exact p) : Exact p' := by
  refine hentries.trans (he.trans ?_)
  exact (perm_ext_iff_of_nodup hs.records.hashes.of_map hland.shaped.records.hashes.of_map).2
    fun y => (hland.all y).symm

/-- **One removal that puts nothing back keeps the index exact.** -/
theorem Quiet.exact (hs : Shaped E p) (hstep : E.removeTx c h p = some p')
    (hquiet : Quiet E p (h :: hashes)) (he : Exact p) : Exact p' := by
  rcases removeTx_cases hs hstep with ⟨-, rfl⟩ | ⟨t, hk, ht, hr⟩
  · exact he
  · obtain ⟨-, rfl⟩ := (known_eq_some hs).1 hk
    cases hr with
    | cut hn hinv ho hleft hf hland hentries hhead hstate =>
      rename_i o invalids p1 p2 p3
      have hop := ho.mem.2 (.inl mem_cons_self)
      obtain ⟨y, hy⟩ := exists_mem_of_ne_nil _ hleft
      have hyt : y.accountNonce < t.accountNonce := by
        have hne := ho.nonces.2 o mem_cons_self y hy
        refine Nat.lt_of_not_le fun hle => ?_
        have hyinv := (hinv y).2 ⟨ho.sub hy, by omega⟩
        exact ho.nonces.2 y (mem_cons_of_mem o hyinv) y hy rfl
      have hnil : invalids = [] := by
        refine eq_nil_iff_forall_not_mem.2 fun x hx => ?_
        obtain ⟨hxp, hlt⟩ := (hinv x).1 hx
        exact absurd (hquiet.removal hs ht hop hn ⟨y, ho.sub hy, hyt⟩ hxp) (by omega)
      subst hnil
      rw [perm_nil.1 (c.arrange_perm [])] at hland hentries
      have he2 := hf.exact (by rwa [Exact, ho.all, ho.priced])
      rw [Exact, (records_lowerNonce p3 _ _).1, (records_lowerNonce p3 _ _).2.1]
      exact hland.exact_nil hf.shaped hentries he2
    | clear hn hinv ho hempty hf hhead hstate =>
      rename_i o invalids p1 p2
      rw [Exact, (records_lowerNonce p2 _ _).1, (records_lowerNonce p2 _ _).2.1]
      exact hf.exact (by rwa [Exact, ho.all, ho.priced])
    | queued hnot hn ho hgone hf => exact hf.exact (by rwa [Exact, ho.all, ho.priced])

/-- **A quiet list of removals keeps the index exact.** -/
theorem removes_quiet (hs : Shaped E p) (hquiet : Quiet E p hashes) (he : Exact p)
    (hrun : exec (E.removeTx c) hashes p = some p') : Shaped E p' ∧ Exact p' := by
  induction hashes generalizing p with
  | nil =>
    cases hrun
    exact ⟨hs, he⟩
  | cons h hashes ih =>
    obtain ⟨p1, hstep, hrun⟩ := exec_cons_eq_some.1 hrun
    have hs1 : Shaped E p1 := by
      rcases removeTx_cases hs hstep with ⟨-, rfl⟩ | ⟨t, -, -, hr⟩
      · exact hs
      · exact hr.shaped
    exact ih hs1 (hquiet.tail hs hstep) (hquiet.exact hs hstep he) hrun

theorem quiet_content (hs : Shaped E p) (pl : Place) : Quiet E p ((p.content pl).map E.hash) := by
  rintro a t ht ⟨y, hy, hyt⟩ hturn x hx -
  obtain rfl := place_of_turn hs ht hturn
  have hsorted := p.content_sorted (.pending a)
  obtain ⟨f, rest, hc⟩ := exists_cons_of_ne_nil (ne_nil_of_mem ht)
  have hf : f ∈ p.content (.pending a) := by
    rw [hc]
    exact mem_cons_self
  rw [hc] at hsorted hy ⊢
  have hfirst : ∀ z ∈ f :: rest, f.accountNonce ≤ z.accountNonce := by
    intro z hz
    rcases mem_cons.1 hz with rfl | hz
    · exact Nat.le_refl _
    · exact Nat.le_of_lt ((pairwise_cons.1 hsorted).1 z hz)
  have hknown := (known_eq_some hs).2 ⟨(hs.member _ f hf).1, rfl⟩
  have hfa : E.senderOf f = a := senderOf_of_mem hs hf
  have hft : f.accountNonce ≠ t.accountNonce := by
    have := hfirst y hy
    omega
  refine .inr ⟨f, mem_cons_self, hfirst, ?_⟩
  unfold turn
  simp only [map_cons, findIdx_cons, hknown, any_some, hfa]
  simp [hft]

end Removal

end GoAoa.Core
