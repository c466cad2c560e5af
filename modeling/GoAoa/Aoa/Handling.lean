import GoAoa.Aoa.Node
import GoAoa.Core.Provenance

/-!
# What a node does with an event

The handlers are made of a few changes of the node. `Handled` says of each part of the node what
can be in it after the event that was not in it before, and where that came from; every handler
keeps to it (`handled_step`), and the invariants of a node are read off from it.
-/

namespace GoAoa.Aoa

open List Option Outcome LockManager GoAoa.Dpos GoAoa.Core

/-- A signature on `h` that the node accepted from a delegate of its round. -/
def Accepted (C : Crypto) (log : List Record) (h : Hash) (a : Address) (s : VoteSign) : Prop :=
  ∃ round, .accepted h s round ∈ log ∧ C.recover h s.sign = some a ∧ a ∈ round.addresses

theorem Accepted.mono {C : Crypto} {log log' : List Record} (hl : log ⊆ log') {h : Hash}
    {a : Address} {s : VoteSign} (ha : Accepted C log h a s) : Accepted C log' h a s := by
  obtain ⟨round, hr, hs⟩ := ha
  exact ⟨round, hl hr, hs⟩

/-- An entry of a signature map: it was there, or on its way to the collector. -/
def Came (n₀ : Node) (h : Hash) (e : Address × VoteSign) : Prop :=
  (∃ m, n₀.lock.signMap h = some m ∧ e ∈ m.data) ∨
    ∃ st ∈ n₀.lock.storeChan, st.blockHash = h ∧ e = (st.address, ⟨st.sign, st.action⟩)

def Spawned (E : ChainEnv) (ev : Event) (n₀ : Node) (log : List Record) : Task → Prop
  | .signLocal b _ => ev.input = .preBlock b ∨ ev.input = .produce b
  | .signOne a b action => a ∈ n₀.wallets ∧ .signLocal b action ∈ n₀.tasks
  | .addSign h s => ∃ signs, ev.input = .signatures h signs ∧ s ∈ signs
  | .commit _ h => ∃ m, .collected h m ∈ log ∧
      delegateAmount E.maxElectDelegate < m.approvers.card ∧ ∀ e ∈ m.data, Came n₀ h e

def Recorded (ev : Event) (n₀ : Node) : Record → Prop
  | .signed a b => (ev.input = .produce b ∧ a = b.header.coinbase) ∨
      ∃ action, .signOne a b action ∈ n₀.tasks
  | .collected h m => ∀ e ∈ m.data, Came n₀ h e
  | _ => True

structure Filed (C : Crypto) (n₀ : Node) (log : List Record) (st : StoreSigns) : Prop where
  accepted : Accepted C log st.blockHash st.address ⟨st.sign, st.action⟩
  source : .addSign st.blockHash ⟨st.sign, st.action⟩ ∈ n₀.tasks ∨
    ∃ b, .signed st.address b ∈ log ∧ st.blockHash = b.hash C

/-- A block that has no signature, or a certificate that the node has verified. -/
def Enqueued (E : ChainEnv) (log : List Record) (b : Block) : Prop :=
  b.signature = [] ∨ ∃ list signs, .verified (b.hash E.crypto) list signs ∈ log ∧
    delegateAmount E.maxElectDelegate < (signers E.crypto (b.hash E.crypto) list signs).card

/-- The chain is fed with blocks of the queue, with one that the collector has a certificate for,
or by the downloader. -/
def Fed (E : ChainEnv) (ev : Event) (n₀ : Node) (bc : BlockChain) : Prop :=
  ∀ G : Hash → Prop, (∀ b ∈ n₀.queue, G (b.hash E.crypto) ∨ b.signature = []) →
    (∀ signs h, .commit signs h ∈ n₀.tasks → G h) →
    (∀ blocks, ev.input = .synchronise blocks →
      ∀ x ∈ blocks, G ((Block.withBody x.1 x.2).hash E.crypto)) →
    Provenance E.crypto G n₀.chain → Provenance E.crypto G bc

/-- What the node `n₀` may become by handling `ev`. -/
structure Handled (E : ChainEnv) (ev : Event) (n₀ n : Node) : Prop where
  wallets : n.wallets = n₀.wallets
  grows : n₀.log ⊆ n.log
  chain : Fed E ev n₀ n.chain
  queue : ∀ b ∈ n.queue, b ∈ n₀.queue ∨ Enqueued E n.log b
  tasks : ∀ t ∈ n.tasks, t ∈ n₀.tasks ∨ Spawned E ev n₀ n.log t
  log : ∀ r ∈ n.log, r ∈ n₀.log ∨ Recorded ev n₀ r
  store : ∀ st ∈ n.lock.storeChan, st ∈ n₀.lock.storeChan ∨ Filed E.crypto n₀ n.log st
  signMap : ∀ h m, n.lock.signMap h = some m → ∀ e ∈ m.data, Came n₀ h e

variable {E : ChainEnv} {ev : Event} {n₀ n n' : Node} {b : Block}

namespace Handled

theorem start (n : Node) : Handled E ev n n where
  wallets := rfl
  grows := List.Subset.refl _
  chain _ _ _ _ hp := hp
  queue _ := .inl
  tasks _ := .inl
  log _ := .inl
  store _ := .inl
  signMap _ m hm _ he := .inl ⟨m, hm, he⟩

section

variable (hn : Handled E ev n₀ n)
include hn

theorem setRound (round : ShuffleList) : Handled E ev n₀ { n with round := round } := { hn with }

theorem setLockBlock (b : Option Block) :
    Handled E ev n₀ { n with lock := { n.lock with lockBlock := b } } := { hn with }

theorem setChain {bc : BlockChain} (hbc : Fed E ev n₀ bc) :
    Handled E ev n₀ { n with chain := bc } := { hn with chain := hbc }

theorem eraseTask (i : Nat) : Handled E ev n₀ { n with tasks := n.tasks.eraseIdx i } :=
  { hn with tasks := fun t ht => hn.tasks t (eraseIdx_subset ht) }

theorem addTasks {ts : List Task}
    (hts : ∀ t ∈ ts, Spawned E ev n₀ n.log t) : Handled E ev n₀ { n with tasks := n.tasks ++ ts } :=
  { hn with tasks := fun t ht => (mem_append.1 ht).elim (hn.tasks t) fun ht => .inr (hts t ht) }

theorem record {r : Record} (hr : Recorded ev n₀ r) : Handled E ev n₀ (n.record r) := by
  have hl : n.log ⊆ (n.record r).log := subset_append_left _ _
  refine { hn with grows := List.Subset.trans hn.grows hl, queue := fun b hb => ?_,
                   tasks := fun t ht => ?_, log := fun x hx => ?_, store := fun st hst => ?_ }
  · refine (hn.queue b hb).imp_right fun hb => hb.imp_right ?_
    rintro ⟨list, signs, hv, hcard⟩
    exact ⟨list, signs, hl hv, hcard⟩
  · refine (hn.tasks t ht).imp_right fun ht => ?_
    cases t with
    | commit =>
      obtain ⟨m, hm, hdata⟩ := ht
      exact ⟨m, hl hm, hdata⟩
    | signLocal | signOne | addSign => exact ht
  · rcases mem_append.1 hx with hx | hx
    · exact hn.log x hx
    · rw [mem_singleton.1 hx]
      exact .inr hr
  · refine (hn.store st hst).imp_right fun hf => ⟨hf.accepted.mono hl, hf.source.imp_right ?_⟩
    rintro ⟨b, hb, hhash⟩
    exact ⟨b, hl hb, hhash⟩

theorem enqueue (hb : Enqueued E n.log b) : Handled E ev n₀ (n.enqueue E.crypto b) := by
  unfold Node.enqueue
  dsimp only
  split
  · exact hn
  · split
    · exact hn
    · refine { hn with queue := fun x hx => ?_ }
      rcases mem_append.1 hx with hx | hx
      · exact hn.queue x hx
      · rw [mem_singleton.1 hx]
        exact .inr hb

/-! ## Blocks -/

theorem adopt (hin : ev.input = .preBlock b ∨ ev.input = .produce b) :
    Handled E ev n₀ (n.adopt b) :=
  (hn.setLockBlock (some b)).addTasks (forall_mem_singleton.2 hin)

end

theorem dealPreBlockMsg (hin : ev.input = .preBlock b) (hs : n.dealPreBlockMsg E ev b = some n') :
    Handled E ev n n' := by
  unfold Node.dealPreBlockMsg at hs
  split at hs
  · cases hs; exact start n
  · split at hs
    · cases hs; exact start n
    · cases hv : verifyHeaderAndSign E.crypto (n.chain.reader E) ev.now b n.round
          E.blockInterval with
      | panic => rw [hv, fold_panic] at hs; cases hs
      | ok => rw [hv, fold_ok] at hs; cases hs; exact (start n).adopt (.inl hin)
      | err =>
        rw [hv, fold_err] at hs
        cases hs
        exact (start n).addTasks (forall_mem_singleton.2 (.inl hin))

theorem acceptNewBlock (hn : Handled E ev n₀ n)
    (hv : verifyBlockGenerate E.crypto (n.chain.reader E) ev.now b n.round E.blockInterval =
      .ok ()) :
    Handled E ev n₀ (n.acceptNewBlock E.crypto b) := by
  obtain ⟨-, signs, hb, hcard⟩ := verifyBlockGenerate_ok hv
  have hr := hn.record (r := .verified (b.hash E.crypto) n.round signs) trivial
  have hlog : .verified (b.hash E.crypto) n.round signs ∈
      (n.record (.verified (b.hash E.crypto) n.round signs)).log := by simp [Node.record]
  unfold Node.acceptNewBlock Node.unlockPending
  rw [hb, getD_some]
  split
  · split
    · exact (hr.setLockBlock none).enqueue (.inr ⟨_, signs, hlog, hcard⟩)
    · exact hr.enqueue (.inr ⟨_, signs, hlog, hcard⟩)
  · exact hr.enqueue (.inr ⟨_, signs, hlog, hcard⟩)

theorem retryNewBlock (hn : Handled E ev n₀ n) (hs : n.retryNewBlock E ev b = some n') :
    Handled E ev n₀ n' := by
  unfold Node.retryNewBlock at hs
  cases hv : verifyBlockGenerate E.crypto (n.chain.reader E) ev.now b n.round E.blockInterval with
  | panic => rw [hv, fold_panic] at hs; cases hs
  | ok => rw [hv, fold_ok] at hs; cases hs; exact hn.acceptNewBlock hv
  | err => rw [hv, fold_err] at hs; cases hs; exact hn

theorem dealNewBlockMsg (hs : n.dealNewBlockMsg E ev b = some n') : Handled E ev n n' := by
  unfold Node.dealNewBlockMsg at hs
  split at hs
  · cases hs; exact start n
  · split at hs
    · cases hs; exact start n
    · cases hv : verifyBlockGenerate E.crypto (n.chain.reader E) ev.now b n.round
          E.blockInterval with
      | panic => rw [hv, fold_panic] at hs; cases hs
      | ok => rw [hv, fold_ok] at hs; cases hs; exact (start n).acceptNewBlock hv
      | err =>
        rw [hv, fold_err] at hs
        exact ((start n).setRound ev.reshuffled).retryNewBlock hs

theorem insertBlockFunc (hn : Handled E ev n₀ n)
    (hfed : ∀ bc e, n.chain.insertChain E ev.now ev.coin [b] = some (bc, e) → Fed E ev n₀ bc)
    (hs : n.insertBlockFunc E ev b = some n') : Handled E ev n₀ n' := by
  unfold Node.insertBlockFunc at hs
  split at hs
  · cases hs; exact hn
  · obtain ⟨⟨bc, e⟩, hbc, rfl⟩ := map_eq_some_iff.1 hs
    exact hn.setChain (hfed bc e hbc)

theorem fetcherImport (hn : Handled E ev n₀ n) (hb : b ∈ n₀.queue)
    (hs : n.fetcherImport E ev b = some n') : Handled E ev n₀ n' := by
  unfold Node.fetcherImport at hs
  split at hs
  · cases hs; exact hn
  · obtain ⟨round, hr⟩ := n.validator_eq E ev b
    simp only [hr] at hs
    cases hv : verifyHeaderAndSign E.crypto (n.chain.reader E) ev.now b round E.blockInterval with
    | panic => rw [hv, fold_panic] at hs; cases hs
    | ok =>
      rw [hv, fold_ok] at hs
      refine (hn.setRound round).insertBlockFunc (fun bc e hi G hq ht hd hp => ?_) hs
      refine (hn.chain G hq ht hd hp).insertChain (forall_mem_singleton.2 ?_) hi
      exact (hq b hb).resolve_right fun hsig => verifyHeaderAndSign_unsigned hsig hv
    | err e =>
      rw [hv, fold_err] at hs
      split at hs
      · subst e
        -- the fetcher passes on blocks that look like future ones, but the chain drops them
        refine (hn.setRound round).insertBlockFunc (fun bc e hi => ?_) hs
        obtain ⟨hslot, parent, hp, hh⟩ := verifyHeaderAndSign_errFutureBlock hv
        have ht := far_future E.blockInterval_range hslot (errFutureBlock_of_verifyHeader hh)
        rw [show bc = n.chain from BlockChain.insertChain_far_future hp hh ht hi]
        exact hn.chain
      · cases hs; exact hn.setRound round

theorem fetcherInsert {i : Nat} (hs : n.fetcherInsert E ev i = some n') : Handled E ev n n' := by
  unfold Node.fetcherInsert at hs
  split at hs
  · cases hs; exact start n
  · rename_i b hb
    have hn : Handled E ev n { n with queue := n.queue.eraseIdx i } :=
      { start n with queue := fun x hx => .inl (eraseIdx_subset hx) }
    split at hs
    · cases hs; exact start n
    · simp only at hs
      split at hs
      · cases hs; exact hn
      · exact hn.fetcherImport (mem_of_getElem? hb) hs

/-! ## Signatures -/

theorem addSign (hn : Handled E ev n₀ n) {h : Hash} {s : VoteSign}
    (hsource : .addSign h s ∈ n₀.tasks ∨
      ∃ a b, E.crypto.recover h s.sign = some a ∧ .signed a b ∈ n.log ∧ h = b.hash E.crypto) :
    Handled E ev n₀ (n.addSign E.crypto h s) := by
  unfold Node.addSign
  split
  · exact hn
  · rename_i lock hl
    unfold addSignToPendingBlock checkSign at hl
    split at hl
    · cases hl
    rename_i a ha
    split at hl
    · cases hl
    rename_i hround
    split at hl
    · cases hl
    cases hl
    have hr := hn.record (r := .accepted h s n.round) trivial
    refine { hr with store := fun st hst => ?_ }
    rcases mem_append.1 hst with hst | hst
    · exact hr.store st hst
    · rw [mem_singleton.1 hst]
      refine .inr ⟨⟨n.round, by simp [Node.record], ha, ?_⟩, hsource.imp_right ?_⟩
      · rw [← ShuffleList.contains_iff]
        simpa using hround
      · rintro ⟨a', b, ha', hb, hhash⟩
        cases ha.symm.trans ha'
        exact ⟨b, by simp [Node.record, hb], hhash⟩

theorem blockGenerateCallback {signs : List VoteSign} {h : Hash} (hn : Handled E ev n₀ n)
    (hmem : .commit signs h ∈ n₀.tasks) (hs : n.blockGenerateCallback E ev signs h = some n') :
    Handled E ev n₀ n' := by
  unfold Node.blockGenerateCallback at hs
  split at hs
  · cases hs; exact hn
  · split at hs
    · rename_i hb
      obtain ⟨n1, h1, rfl⟩ := map_eq_some_iff.1 hs
      refine (hn.insertBlockFunc (fun bc e hi G hq ht hd hp => ?_) h1).setLockBlock none
      refine (hn.chain G hq ht hd hp).insertChain (forall_mem_singleton.2 ?_) hi
      rw [← hb] at hmem
      exact ht signs _ hmem
    · cases hs; exact hn

theorem runTask {i : Nat} {t : Task} (ht : n.tasks[i]? = some t)
    (hs : { n with tasks := n.tasks.eraseIdx i }.runTask E ev t = some n') : Handled E ev n n' := by
  have hn : Handled E ev n { n with tasks := n.tasks.eraseIdx i } := (start n).eraseTask i
  have hmem := mem_of_getElem? ht
  cases t with
  | signLocal =>
    cases hs
    refine hn.addTasks fun t ht => ?_
    obtain ⟨a, ha, rfl⟩ := mem_map.1 ht
    exact ⟨by simpa using (mem_filter.1 ha).2, hmem⟩
  | signOne a b action =>
    cases hs
    have hr := hn.record (r := .signed a b) (.inr ⟨action, hmem⟩)
    refine hr.addSign (.inr ⟨a, b, ?_, by simp [Node.record], rfl⟩)
    rw [singleSign, E.crypto.recover_sign]
  | addSign => cases hs; exact hn.addSign (.inl hmem)
  | commit => exact hn.blockGenerateCallback hmem hs

theorem storeSign (n : Node) : Handled E ev n (n.storeSign E) := by
  unfold Node.storeSign
  split
  · exact start n
  · rename_i st rest hst
    have hd : Handled E ev n { n with
        lock := ({ n.lock with storeChan := rest }.dealBlockSign
          (delegateAmount E.maxElectDelegate) st).1 } := by
      refine { start n with store := fun x hx => .inl ?_, signMap := fun h m hm e he => ?_ }
      · rw [dealBlockSign_storeChan] at hx
        rw [hst]
        exact mem_cons_of_mem _ hx
      · rcases mem_dealBlockSign hm he with hold | ⟨rfl, rfl⟩
        · exact .inl hold
        · exact .inr ⟨st, by rw [hst]; exact mem_cons_self, rfl, rfl⟩
    simp only
    split
    · rename_i lock hlock
      rw [hlock] at hd
      exact hd
    · rename_i lock m hlock
      obtain ⟨hcard, hm⟩ := dealBlockSign_some (by rw [hlock])
      rw [hlock] at hd hm
      have hdata := hd.signMap _ m hm
      have hr := hd.record (r := .collected st.blockHash m) hdata
      exact hr.addTasks (forall_mem_singleton.2 ⟨m, by simp [Node.record], hcard, hdata⟩)

end Handled

/-- **What one step can do.** -/
theorem handled_step (hs : n.step E ev = some n') : Handled E ev n n' := by
  have hn : Handled E ev n n := .start n
  unfold Node.step at hs
  split at hs
  · rename_i hin; exact .dealPreBlockMsg hin hs
  · rename_i h signs hin
    cases hs
    unfold Node.dealSignaturesBlockMsg
    split
    · refine hn.addTasks fun t ht => ?_
      obtain ⟨s, hmem, rfl⟩ := mem_map.1 ht
      exact ⟨signs, hin, hmem⟩
    · exact hn
  · exact .dealNewBlockMsg hs
  · cases hs; exact hn.enqueue (.inl rfl)
  · rename_i blocks hin
    obtain ⟨⟨bc, e⟩, hbc, rfl⟩ := map_eq_some_iff.1 hs
    refine hn.setChain fun G _ _ hd hp => hp.insertChain (fun x hx => ?_) hbc
    obtain ⟨y, hy, rfl⟩ := mem_map.1 hx
    exact hd blocks hin y hy
  · rename_i b hin
    cases hs
    have hr := hn.record (r := .signed b.header.coinbase b) (.inl ⟨hin, rfl⟩)
    exact hr.adopt (.inr hin)
  · split at hs
    · cases hs; exact hn
    · rename_i t ht; exact .runTask ht hs
  · cases hs; exact .storeSign n
  · exact .fetcherInsert hs
  · obtain ⟨bc, hbc, rfl⟩ := map_eq_some_iff.1 hs
    exact hn.setChain fun _ _ _ _ hp => hp.procFutureBlocks hbc
  · split at hs
    · cases hs; exact hn.setLockBlock none
    · cases hs; exact hn
  · cases hs
    refine { hn with signMap := fun h m hm => hn.signMap h m ?_ }
    simp only [Function.update_apply] at hm
    split at hm
    · cases hm
    · exact hm
  · cases hs; exact hn.setRound _

end GoAoa.Aoa
