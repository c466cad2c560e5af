import GoAoa.Aoa.LockManager
import GoAoa.Lib.Run

/-!
# Collecting signatures

`aoa/dpos_lock.go`: every signature message has a handler of its own, which checks the signature
against the record of its hash and then queues it; one collector takes the queue and files what it
finds. Between the check and the queue anything can happen, so the same signature may be queued
several times. The commit callback still starts once for a record, with a certificate that the
check of a block accepts (`commit_once`).
-/

namespace GoAoa.Aoa

open List Option Function Run Prod LockManager GoAoa.Dpos

/-- The lock manager, the handlers that have checked a signature and not queued it yet, and the
commit callbacks that were started. -/
structure Collector where
  lock : LockManager
  handlers : List StoreSigns
  started : List (Hash × List VoteSign)

/-- What can happen next: a handler checks a signature; a handler queues the one it checked; the
collector takes one, and ranges over its record in the given order if the callback starts; the
pending block changes; a record expires. -/
inductive Move where
  | check (h : Hash) (s : VoteSign)
  | queue (i : Nat)
  | store (order : List (Address × VoteSign))
  | pending (b : Block)
  | unlock
  | expire (h : Hash)
  deriving DecidableEq

namespace Collector

def init : Collector := ⟨.init, [], []⟩

/-- One move, under the shuffle list `round`. `none` is a move that cannot happen. -/
def step (C : Crypto) (amount : Nat) (round : ShuffleList) : Move → Collector → Option Collector
  | .check h s, c =>
    match c.lock.checkSign C h s round with
    | .error _ => some c
    | .ok st => some { c with handlers := c.handlers ++ [st] }
  | .queue i, c =>
    (c.handlers[i]?).map fun st =>
      { c with
        lock := { c.lock with storeChan := c.lock.storeChan ++ [st] }
        handlers := c.handlers.eraseIdx i }
  | .store order, c =>
    match c.lock.storeChan with
    | [] => none
    | st :: rest =>
      match dealBlockSign amount { c.lock with storeChan := rest } st with
      | (l, none) => some { c with lock := l }
      | (l, some m) =>
        if order.Perm m.data then
          some { c with
            lock := l
            started := c.started ++
              [(st.blockHash, ((approvalsOf order).map snd).take (amount + 1))] }
        else none
  | .pending b, c =>
    match c.lock.addPendingBlock b with
    | .error _ => some c
    | .ok l => some { c with lock := l }
  | .unlock, c => some { c with lock := c.lock.unlock }
  | .expire h, c =>
    some { c with lock := { c.lock with signMap := Function.update c.lock.signMap h none } }

/-! ## What is filed was signed -/

/-- The signature is one that `a`, a member of the list, made on `h`. -/
def Signed (C : Crypto) (round : ShuffleList) (h : Hash) (a : Address) (s : VoteSign) : Prop :=
  C.recover h s.sign = some a ∧ a ∈ round.addresses

/-- Whatever is on its way to the records or in them was signed by a member. -/
structure Sound (C : Crypto) (round : ShuffleList) (c : Collector) : Prop where
  handlers : ∀ st ∈ c.handlers, Signed C round st.blockHash st.address ⟨st.sign, st.action⟩
  queued : ∀ st ∈ c.lock.storeChan, Signed C round st.blockHash st.address ⟨st.sign, st.action⟩
  filed : ∀ h m, c.lock.signMap h = some m → ∀ e ∈ m.data, Signed C round h e.1 e.2

variable {C : Crypto} {amount : Nat} {round : ShuffleList} {c c' : Collector}

variable {h : Hash}

theorem signed_of_checkSign {l : LockManager} {s : VoteSign} {st : StoreSigns}
    (hc : l.checkSign C h s round = .ok st) :
    Signed C round st.blockHash st.address ⟨st.sign, st.action⟩ := by
  unfold checkSign at hc
  split at hc
  · cases hc
  rename_i a ha
  split at hc
  · cases hc
  rename_i hmember
  split at hc
  · cases hc
  · cases hc
    exact ⟨ha, ShuffleList.contains_iff.1 (by simpa using hmember)⟩

/-- What a `store` move does: the first of the queue is filed, and the callback starts if the
record has become large enough. -/
theorem step_store {order : List (Address × VoteSign)}
    (h : step C amount round (.store order) c = some c') :
    ∃ st rest, c.lock.storeChan = st :: rest ∧
      c'.lock = (dealBlockSign amount { c.lock with storeChan := rest } st).1 ∧
      c'.handlers = c.handlers ∧
      ((dealBlockSign amount { c.lock with storeChan := rest } st).2 = none ∧
          c'.started = c.started ∨
        ∃ m, (dealBlockSign amount { c.lock with storeChan := rest } st).2 = some m ∧
          order.Perm m.data ∧ c'.started = c.started ++
            [(st.blockHash, ((approvalsOf order).map snd).take (amount + 1))]) := by
  unfold step at h
  dsimp only at h
  split at h
  · cases h
  rename_i st rest hchan
  refine ⟨st, rest, hchan, ?_⟩
  split at h
  · rename_i l hdeal
    cases h
    exact ⟨by rw [hdeal], rfl, .inl ⟨by rw [hdeal], rfl⟩⟩
  · rename_i l m hdeal
    split at h
    · rename_i hperm
      cases h
      exact ⟨by rw [hdeal], rfl, .inr ⟨m, by rw [hdeal], hperm, rfl⟩⟩
    · cases h

/-- **Every move keeps the signatures sound.** -/
theorem Sound.step {m : Move} (hs : Sound C round c) (h : step C amount round m c = some c') :
    Sound C round c' := by
  cases m with
  | check =>
    unfold Collector.step at h
    dsimp only at h
    split at h
    · cases h
      exact hs
    · rename_i st hst
      cases h
      refine ⟨fun st' hmem => ?_, hs.queued, hs.filed⟩
      rcases mem_append.1 hmem with hmem | hmem
      · exact hs.handlers st' hmem
      · rw [mem_singleton.1 hmem]
        exact signed_of_checkSign hst
  | queue =>
    obtain ⟨st, hst, rfl⟩ := map_eq_some_iff.1 h
    refine ⟨fun st' hmem => hs.handlers st' (mem_of_mem_eraseIdx hmem), fun st' hmem => ?_,
      hs.filed⟩
    rcases mem_append.1 hmem with hmem | hmem
    · exact hs.queued st' hmem
    · rw [mem_singleton.1 hmem]
      exact hs.handlers st (mem_of_getElem? hst)
  | store =>
    obtain ⟨st, rest, hchan, hlock, hhandlers, -⟩ := step_store h
    have hqueued := hchan ▸ hs.queued
    refine ⟨hhandlers ▸ hs.handlers, fun st' hmem => ?_, fun hash m hm e he => ?_⟩
    · rw [hlock, dealBlockSign_storeChan] at hmem
      exact hqueued st' (mem_cons_of_mem st hmem)
    · rw [hlock] at hm
      rcases mem_dealBlockSign hm he with ⟨m0, hm0, he0⟩ | ⟨rfl, rfl⟩
      · exact hs.filed hash m0 hm0 e he0
      · exact hqueued st mem_cons_self
  | pending =>
    unfold Collector.step addPendingBlock at h
    dsimp only at h
    split at h
    · cases h
      exact hs
    · rename_i l hl
      cases h
      split at hl
      · cases hl
      · cases hl
        exact ⟨hs.handlers, hs.queued, hs.filed⟩
  | unlock =>
    cases h
    exact ⟨hs.handlers, hs.queued, hs.filed⟩
  | expire =>
    cases h
    refine ⟨hs.handlers, hs.queued, fun hash' m hm => ?_⟩
    dsimp only at hm
    rw [update_apply] at hm
    split at hm
    · cases hm
    · exact hs.filed hash' m hm

/-! ## The callback starts once -/

/-- The certificate is made of the first `amount + 1` approvals of the record, in some order. -/
def FromRecord (amount : Nat) (m : BlockSignMap) (signs : List VoteSign) : Prop :=
  ∃ order : List (Address × VoteSign), order.Perm m.data ∧
    signs = ((approvalsOf order).map snd).take (amount + 1)

/-- The callback has not started for `h` and the record is too small; or it has started once, and
the record is large enough. -/
def Once (amount : Nat) (h : Hash) (c : Collector) : Prop :=
  (c.started.filter fun p => p.1 == h) = [] ∧
      (∀ m, c.lock.signMap h = some m → m.approveVotes ≤ amount) ∨
    ∃ signs m, (c.started.filter fun p => p.1 == h) = [(h, signs)] ∧
      c.lock.signMap h = some m ∧ amount < m.approveVotes ∧ FromRecord amount m signs

theorem Once.of_same (ho : Once amount h c) (hstarted : c'.started = c.started)
    (hmap : c'.lock.signMap h = c.lock.signMap h) : Once amount h c' := by
  unfold Once
  rw [hstarted, hmap]
  exact ho

/-- What the collector does to a record: nothing if it was large enough, and otherwise it hands the
new record on if and only if that is large enough. -/
theorem dealBlockSign_record {l : LockManager} {st : StoreSigns} :
    (∃ m, l.signMap st.blockHash = some m ∧ amount < m.approveVotes ∧
      (dealBlockSign amount l st).1.signMap = l.signMap ∧
      (dealBlockSign amount l st).2 = none) ∨
    ((∀ m, l.signMap st.blockHash = some m → m.approveVotes ≤ amount) ∧
      ∃ m, (dealBlockSign amount l st).1.signMap =
          Function.update l.signMap st.blockHash (some m) ∧
        (dealBlockSign amount l st).2 =
          if amount < m.approveVotes then some m else none) := by
  unfold dealBlockSign
  cases hm : l.signMap st.blockHash with
  | none => exact .inr ⟨fun m h => (nomatch h), _, rfl, rfl⟩
  | some m =>
    dsimp only
    by_cases hlarge : amount < m.countApproveVote
    · rw [if_pos hlarge]
      exact .inl ⟨m, rfl, hlarge, rfl, rfl⟩
    · rw [if_neg hlarge]
      refine .inr ⟨fun m' h => ?_, _, rfl, rfl⟩
      cases h
      exact Nat.le_of_not_lt hlarge

theorem Once.store {order : List (Address × VoteSign)} (ho : Once amount h c)
    (hstep : Collector.step C amount round (.store order) c = some c') : Once amount h c' := by
  obtain ⟨st, rest, -, hlock, -, hcase⟩ := step_store hstep
  by_cases hh : st.blockHash = h
  · subst hh
    rcases @dealBlockSign_record amount { c.lock with storeChan := rest } st
      with ⟨m, -, -, hmap, hnone⟩ | ⟨hsmall, m, hmap, hsome⟩
    · rcases hcase with ⟨-, hstarted⟩ | ⟨m', hm', -⟩
      · exact ho.of_same hstarted (by rw [hlock, hmap])
      · rw [hnone] at hm'
        cases hm'
    · -- the record was too small, so the callback has not started
      have hnone : (c.started.filter fun p => p.1 == st.blockHash) = [] := by
        rcases ho with ⟨hnone, -⟩ | ⟨signs, m0, -, hm0, hlarge, -⟩
        · exact hnone
        · have := hsmall m0 hm0
          omega
      have hrecord : c'.lock.signMap st.blockHash = some m := by
        rw [hlock, hmap, update_self]
      rcases hcase with ⟨hdeal, hstarted⟩ | ⟨m', hdeal, hperm, hstarted⟩
      · refine .inl ⟨by rw [hstarted, hnone], fun m' hm' => ?_⟩
        obtain rfl : m = m' := some.inj (hrecord.symm.trans hm')
        rw [hsome] at hdeal
        exact Nat.le_of_not_lt fun hlt => by simp [hlt] at hdeal
      · rw [hsome] at hdeal
        split at hdeal
        · rename_i hlarge
          cases hdeal
          refine .inr ⟨_, m, ?_, hrecord, hlarge, order, hperm, rfl⟩
          rw [hstarted, filter_append, hnone]
          simp
        · cases hdeal
  · have hmap : c'.lock.signMap h = c.lock.signMap h := by
      rw [hlock]
      rcases @dealBlockSign_record amount { c.lock with storeChan := rest } st
        with ⟨m, -, -, hmap, -⟩ | ⟨-, m, hmap, -⟩
      · rw [hmap]
      · rw [hmap, update_of_ne (Ne.symm hh)]
    have hfilter : (c'.started.filter fun p => p.1 == h) = c.started.filter fun p => p.1 == h := by
      rcases hcase with ⟨-, hstarted⟩ | ⟨m, -, -, hstarted⟩
      · rw [hstarted]
      · rw [hstarted, filter_append]
        simp [hh]
    unfold Once
    rw [hfilter, hmap]
    exact ho

/-- **A move keeps the count of callbacks**, unless it lets the record expire. -/
theorem Once.step {m : Move} (ho : Once amount h c) (hexp : m ≠ .expire h)
    (hstep : Collector.step C amount round m c = some c') : Once amount h c' := by
  cases m with
  | check =>
    unfold Collector.step at hstep
    dsimp only at hstep
    split at hstep <;> cases hstep <;> exact ho.of_same rfl rfl
  | queue =>
    obtain ⟨-, -, rfl⟩ := map_eq_some_iff.1 hstep
    exact ho.of_same rfl rfl
  | store => exact ho.store hstep
  | pending =>
    unfold Collector.step addPendingBlock at hstep
    dsimp only at hstep
    split at hstep
    · cases hstep
      exact ho
    · rename_i l hl
      cases hstep
      split at hl <;> cases hl
      exact ho.of_same rfl rfl
  | unlock =>
    cases hstep
    exact ho.of_same rfl rfl
  | expire =>
    cases hstep
    refine ho.of_same rfl (update_of_ne (fun heq => hexp ?_) _ _)
    rw [heq]

/-! ## The certificate -/

/-- A certificate for `h`: valid signatures, filed as approvals, of distinct members of the list,
and enough of them for `VerifyBlockGenerate`. -/
structure Commits (C : Crypto) (maxElectDelegate : Nat) (round : ShuffleList) (m : BlockSignMap)
    (h : Hash) (signs : List VoteSign) : Prop where
  entries : ∃ entries : List (Address × VoteSign), signs = entries.map snd ∧
    (entries.map fst).Nodup ∧ ∀ e ∈ entries, e ∈ m.data ∧
      e.2.voteAction = approveVote ∧ C.recover h e.2.sign = some e.1 ∧ e.1 ∈ round.addresses
  accepted : ∀ (chain : ChainReader) (now blockInterval : Int) (b : Block),
    chain.maxElectDelegate = maxElectDelegate → b.hash C = h →
    verifyHeaderAndSign C chain now b round blockInterval = .ok () →
    verifyBlockGenerate C chain now { b with rlpEncodeSigns := some signs } round blockInterval =
      .ok ()

theorem FromRecord.commits {n : Nat} {m : BlockSignMap} {signs : List VoteSign}
    (hfrom : FromRecord (delegateAmount n) m signs) (hlarge : delegateAmount n < m.approveVotes)
    (hsigned : ∀ e ∈ m.data, Signed C round h e.1 e.2) : Commits C n round m h signs := by
  obtain ⟨order, hperm, rfl⟩ := hfrom
  have hentries : ∀ e ∈ (approvalsOf order).take (delegateAmount n + 1), e ∈ m.data ∧
      e.2.voteAction = approveVote ∧ C.recover h e.2.sign = some e.1 ∧ e.1 ∈ round.addresses := by
    intro e he
    have hmem := mem_filter.1 (mem_of_mem_take he)
    have hdata := hperm.mem_iff.1 hmem.1
    obtain ⟨hrec, hround⟩ := hsigned e hdata
    exact ⟨hdata, by simpa using hmem.2, hrec, hround⟩
  have hnodup : (((approvalsOf order).take (delegateAmount n + 1)).map fst).Nodup := by
    have horder := (hperm.map fst).nodup_iff.2 m.nodup
    exact horder.sublist (((take_sublist _ _).trans filter_sublist).map fst)
  have hlength : ((approvalsOf order).take (delegateAmount n + 1)).length =
      delegateAmount n + 1 := by
    have hcount : (approvalsOf order).length = m.approveVotes := by
      rw [m.count]
      exact (hperm.filter _).length_eq
    rw [length_take]
    omega
  rw [← map_take]
  refine ⟨⟨_, rfl, hnodup, hentries⟩, fun chain now interval b hn hb hv => ?_⟩
  refine verifyBlockGenerate_of_signers ?_ rfl (fun s hs => ?_) ?_
  · rw [← hv]
    exact verifyHeaderAndSign_congr rfl rfl
  · obtain ⟨e, he, rfl⟩ := mem_map.1 hs
    have hrec := (hentries e he).2.2.1
    show (C.recover (b.hash C) e.2.sign).isSome
    rw [hb, hrec]
    rfl
  · have hsub : (((approvalsOf order).take (delegateAmount n + 1)).map fst).toFinset ⊆
        signers C (b.hash C) round (((approvalsOf order).take (delegateAmount n + 1)).map snd) := by
      intro a ha
      obtain ⟨e, he, rfl⟩ := mem_map.1 (mem_toFinset.1 ha)
      obtain ⟨-, -, hrec, hround⟩ := hentries e he
      exact mem_signers.2 ⟨hround, e.2, mem_map_of_mem he, hb ▸ hrec⟩
    have hcard := Finset.card_le_card hsub
    rw [toFinset_card_of_nodup hnodup, length_map, hlength] at hcard
    show delegateAmount chain.maxElectDelegate < (signers C (b.hash C) round _).card
    rw [hn]
    omega

theorem sound_init : Sound C round init :=
  ⟨fun _ h => (nomatch h), fun _ h => (nomatch h), fun _ _ h => (nomatch h)⟩

theorem once_init (h : Hash) : Once amount h init := .inl ⟨rfl, fun _ hm => nomatch hm⟩

/-- **A block is committed once.** Under one shuffle list, in whatever order signatures are
checked, queued and filed, the commit callback of a hash whose record has not expired starts at
most once, and with a certificate that commits the block. -/
theorem commit_once {n : Nat} {ms : List Move} {h : Hash}
    (hrun : Run.exec (Collector.step C (delegateAmount n) round) ms init = some c)
    (hexp : Move.expire h ∉ ms) :
    (c.started.filter fun p => p.1 == h).length ≤ 1 ∧ ∀ signs, (h, signs) ∈ c.started →
        ∃ m, c.lock.signMap h = some m ∧ Commits C n round m h signs := by
  have hsound := invariant_all (fun _ _ _ hs hstep => hs.step hstep) sound_init hrun
  have hkept : Along (Collector.step C (delegateAmount n) round) (fun m _ => m ≠ .expire h) ms
      init := by
    refine Along.of_forall ?_ init
    rintro m hm - rfl
    exact hexp hm
  have honce := invariant (fun _ _ _ hm ho hstep => ho.step hm hstep) hkept (once_init h) hrun
  rcases honce with ⟨hnone, -⟩ | ⟨signs, m, hone, hm, hlarge, hfrom⟩
  · refine ⟨by rw [hnone]; exact Nat.zero_le 1, fun signs hmem => ?_⟩
    have hmem : (h, signs) ∈ c.started.filter fun p => p.1 == h := mem_filter.2 ⟨hmem, by simp⟩
    rw [hnone] at hmem
    cases hmem
  · refine ⟨by rw [hone]; exact Nat.le_refl 1, fun signs' hmem => ⟨m, hm, ?_⟩⟩
    have hmem : (h, signs') ∈ c.started.filter fun p => p.1 == h := mem_filter.2 ⟨hmem, by simp⟩
    rw [hone] at hmem
    obtain rfl := (Prod.mk.inj (mem_singleton.1 hmem)).2
    exact hfrom.commits hlarge (hsound.filed h m hm)

def approval (a : Address) : VoteSign := singleSign extraCrypto 0 approveVote a

/-- Three of four delegates approve, and the signature of the first is checked twice before it is
filed. -/
def threeApprovals : List Move :=
  [.check 0 (approval 1), .check 0 (approval 1), .check 0 (approval 2), .check 0 (approval 3),
    .queue 0, .queue 0, .queue 0, .queue 0, .store [], .store [], .store [],
    .store [(2, approval 2), (1, approval 1), (3, approval 3)]]

theorem commit_once_three :
    ∃ c, Run.exec (Collector.step extraCrypto (delegateAmount 4) (slotList [1, 2, 3, 4]))
        threeApprovals init = some c ∧
      c.started = [(0, [approval 2, approval 1, approval 3])] ∧
      ∃ m, c.lock.signMap 0 = some m ∧
        Commits extraCrypto 4 (slotList [1, 2, 3, 4]) m 0 [approval 2, approval 1, approval 3] := by
  refine exists_of_check (fun c => c.started = [(0, [approval 2, approval 1, approval 3])])
    (by decide +kernel) fun c h hstarted => ⟨hstarted, ?_⟩
  exact (commit_once h (h := 0) (by decide)).2 _ (by rw [hstarted]; exact mem_singleton_self _)

end Collector

end GoAoa.Aoa
