import GoAoa.Aoa.Handling

/-!
# Which blocks become canonical

Every path into the chain except the downloader's goes through a certificate: the new-block
handler checks one, and the commit callback runs after one was collected. Blocks fetched after
an announcement carry no producer signature and are refused. So in a run without downloader
imports every canonical block was certified to the node.
-/

namespace GoAoa.Aoa

open GoAoa.Dpos GoAoa.Core Option Node

/-- The node accepted a certificate for `h`, or collected one. -/
def Certified (E : ChainEnv) (log : List Record) (h : Hash) : Prop :=
  (∃ list signs, .verified h list signs ∈ log ∧
    delegateAmount E.maxElectDelegate < (signers E.crypto h list signs).card) ∨
  (∃ m, .collected h m ∈ log ∧ delegateAmount E.maxElectDelegate < m.approvers.card ∧
    ∀ e ∈ m.data, Accepted E.crypto log h e.1 e.2)

def Good (E : ChainEnv) (genesis : Block) (log : List Record) (h : Hash) : Prop :=
  h = genesis.hash E.crypto ∨ Certified E log h

variable {E : ChainEnv} {genesis : Block} {log log' : List Record} {h : Hash} {n n' : Node}
  {ev : Event} {b : Block}

theorem Certified.mono (hl : log ⊆ log') (hc : Certified E log h) : Certified E log' h := by
  rcases hc with ⟨list, signs, hm, hn⟩ | ⟨m, hm, hn, ha⟩
  · exact .inl ⟨list, signs, hl hm, hn⟩
  · exact .inr ⟨m, hl hm, hn, fun e he => (ha e he).mono hl⟩

theorem Good.mono (hl : log ⊆ log') (hg : Good E genesis log h) : Good E genesis log' h :=
  hg.imp_right (Certified.mono hl)

/-- What holds of a node none of whose blocks came from the downloader. -/
structure NodeInv (E : ChainEnv) (genesis : Block) (n : Node) : Prop where
  chain : Provenance E.crypto (Good E genesis n.log) n.chain
  queue : ∀ b ∈ n.queue, Good E genesis n.log (b.hash E.crypto) ∨ b.signature = []
  store : ∀ st ∈ n.lock.storeChan,
    Accepted E.crypto n.log st.blockHash st.address ⟨st.sign, st.action⟩
  signMap : ∀ h m, n.lock.signMap h = some m → ∀ e ∈ m.data, Accepted E.crypto n.log h e.1 e.2
  commit : ∀ signs h, .commit signs h ∈ n.tasks → Certified E n.log h

/-! ## Runs -/

/-- The blocks a downloader import hands to the chain were certified before. -/
def SyncCertified (E : ChainEnv) (genesis : Block) (ev : Event) (n : Node) : Prop :=
  ∀ blocks, ev.input = .synchronise blocks →
    ∀ x ∈ blocks, Good E genesis n.log ((Block.withBody x.1 x.2).hash E.crypto)

theorem NodeInv.step (hc : SyncCertified E genesis ev n) (hi : NodeInv E genesis n)
    (hs : n.step E ev = some n') : NodeInv E genesis n' := by
  have h := handled_step hs
  have hl := h.grows
  have hqueue : ∀ b ∈ n.queue, Good E genesis n'.log (b.hash E.crypto) ∨ b.signature = [] :=
    fun b hb => (hi.queue b hb).imp_left (Good.mono hl)
  have hcame : ∀ {k e}, Came n k e → Accepted E.crypto n'.log k e.1 e.2 := by
    rintro k e (⟨m, hm, he⟩ | ⟨st, hst, rfl, rfl⟩)
    · exact (hi.signMap k m hm e he).mono hl
    · exact (hi.store st hst).mono hl
  refine ⟨?_, fun b hb => ?_, fun st hst => ?_, fun k m hm e he => hcame (h.signMap k m hm e he),
    fun signs k hk => ?_⟩
  · exact h.chain _ hqueue (fun signs k hk => .inr ((hi.commit signs k hk).mono hl))
      (fun blocks hin x hx => (hc blocks hin x hx).mono hl) (hi.chain.mono fun _ => Good.mono hl)
  · rcases h.queue b hb with hb | hsig | hverified
    · exact hqueue b hb
    · exact .inr hsig
    · exact .inl (.inr (.inl hverified))
  · rcases h.store st hst with hst | hf
    · exact (hi.store st hst).mono hl
    · exact hf.accepted
  · rcases h.tasks _ hk with hk | ⟨m, hm, hcard, hdata⟩
    · exact (hi.commit signs k hk).mono hl
    · exact .inr ⟨m, hm, hcard, fun e he => hcame (hdata e he)⟩

theorem NodeInv.initial (hn : n.Initial E genesis) : NodeInv E genesis n where
  chain := by
    refine { blocks := fun h b hb => ?_, canonical := fun k h hh => ?_, future := fun b hb => ?_ }
    · rw [hn.blocks, Function.update_apply] at hb
      split at hb
      · rename_i hh
        rw [← some.inj hb]
        exact ⟨hh.symm, .inl hh⟩
      · cases hb
    · rw [hn.canonical, Function.update_apply] at hh
      split at hh
      · exact .inl (some.inj hh).symm
      · cases hh
    · rw [hn.futureBlocks] at hb; cases hb
  queue b hb := by rw [hn.queue] at hb; cases hb
  store st hst := by rw [hn.lock] at hst; cases hst
  signMap h m hm := by rw [hn.lock] at hm; cases hm
  commit signs h hh := by rw [hn.tasks] at hh; cases hh

/-- **Only certified blocks become canonical**, in every run in which the downloader imports no
block that was not certified to the node before. -/
theorem canonical_certified {evs : List Event} (hn : n.Initial E genesis)
    (ha : Run.Along (Node.step E) (SyncCertified E genesis) evs n)
    (hr : Run.exec (Node.step E) evs n = some n') {k : Nat} {h : Hash}
    (hk : n'.chain.canonical k = some h) :
    h = genesis.hash E.crypto ∨ Certified E n'.log h := by
  have hi := Run.invariant (fun _ _ _ hc hi hs => NodeInv.step hc hi hs) ha (.initial hn) hr
  exact hi.chain.canonical k h hk

open Node in
def newBlockRun : List Event :=
  let signs := [2, 3, 4].map (singleSign extraCrypto 1 approveVote)
  [smallEvent (.newBlock (slotBlock extraCrypto 1 [0] signs)), smallEvent (.fetcherInsert 0)]

theorem canonical_certified_newBlock :
    ∃ n', Run.exec (Node.step Node.smallEnv) newBlockRun (Node.smallNode []) = some n' ∧
      n'.chain.canonical 1 = some 1 ∧
      (1 = Node.smallGenesis.hash extraCrypto ∨ Certified Node.smallEnv n'.log 1) := by
  refine exists_of_check (fun n => n.chain.canonical 1 = some 1) (by decide +kernel)
    fun n' hr hk => ⟨hk, canonical_certified (start_initial _ _ _ _) ?_ hr hk⟩
  exact ⟨nofun, fun _ _ => ⟨nofun, fun _ _ => trivial⟩⟩

open Node in
def syncRun : List Event := [smallEvent (.synchronise [(slotHeader 1 [0], [])])]

/-- The block becomes canonical although the node has seen no signature at all. -/
theorem not_canonical_certified_sync :
    ∃ n', Run.exec (Node.step Node.smallEnv) syncRun (Node.smallNode []) = some n' ∧
      n'.chain.canonical 1 = some 1 ∧
      ¬ (1 = Node.smallGenesis.hash extraCrypto ∨ Certified Node.smallEnv n'.log 1) := by
  refine exists_of_check (fun n => n.chain.canonical 1 = some 1 ∧ n.log.length = 0)
    (by decide +kernel) fun n' _ ⟨hk, hl⟩ => ⟨hk, ?_⟩
  rw [List.length_eq_zero_iff.1 hl]
  rintro (h | ⟨list, signs, h, -⟩ | ⟨m, h, -⟩)
  · exact absurd h (by decide)
  · cases h
  · cases h

end GoAoa.Aoa
