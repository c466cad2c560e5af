import GoAoa.Aoa.Signing

/-!
# Agreement

A network of honest nodes that run the handlers, and delegates whose keys an adversary holds.
Signatures of honest delegates cannot be forged: a node receives one only after some node made
it. Two blocks of one height can both collect a quorum, because a delegate signs every verified
pre-block of the next height. They cannot in a run in which no node takes up a block of a
height at which it has taken up another.
-/

namespace GoAoa.Aoa

open List Option Function GoAoa.Dpos GoAoa.Core

variable {ι : Type}

def netStep [DecidableEq ι] (E : ChainEnv) (x : ι × Event) (net : ι → Node) : Option (ι → Node) :=
  ((net x.1).step E x.2).map (Function.update net x.1)

/-- The delegate's key is in the wrong hands, or an honest node made the signature with it. -/
def Signable (C : Crypto) (byz : Finset Address) (net : ι → Node) (a : Address) (h : Hash) : Prop :=
  a ∈ byz ∨ ∃ i b, .signed a b ∈ (net i).log ∧ b.hash C = h

/-- What the environment may do: deliver signatures that exist, and let a node produce with its
own keys. -/
structure Admissible (E : ChainEnv) (byz : Finset Address) (x : ι × Event) (net : ι → Node) :
    Prop where
  unforged : ∀ h signs, x.2.input = .signatures h signs →
    ∀ s ∈ signs, ∀ a, E.crypto.recover h s.sign = some a → Signable E.crypto byz net a h
  own : ∀ b, x.2.input = .produce b → b.header.coinbase ∈ (net x.1).wallets

/-- A pre-block handed to a node, or produced by it, is the only one of its height that the node
has taken up. -/
def Guarded (E : ChainEnv) (x : ι × Event) (net : ι → Node) : Prop :=
  ∀ b, x.2.input = .preBlock b ∨ x.2.input = .produce b → (net x.1).Fresh E.crypto b

/-- The blocks signed under the hash of `b` have its number. -/
def NumberBound (C : Crypto) (net : ι → Node) (b : Block) : Prop :=
  ∀ i a b', .signed a b' ∈ (net i).log → b'.hash C = b.hash C → b'.numberU64 = b.numberU64

/-- No two blocks of one height have each collected more than `(n / 3) * 2` approvals from the
delegates `round`. -/
def Agreement (E : ChainEnv) (round : Finset Address) (net : ι → Node) : Prop :=
  ∀ i j b₁ b₂ m₁ m₂, .collected (b₁.hash E.crypto) m₁ ∈ (net i).log →
    .collected (b₂.hash E.crypto) m₂ ∈ (net j).log →
    NumberBound E.crypto net b₁ → NumberBound E.crypto net b₂ →
    b₁.numberU64 = b₂.numberU64 →
    delegateAmount E.maxElectDelegate < (m₁.approvers ∩ round).card →
    delegateAmount E.maxElectDelegate < (m₂.approvers ∩ round).card →
    b₁.hash E.crypto = b₂.hash E.crypto

/-- Each honest key is held by one node, and each node keeps the signing invariant. -/
structure NetInv (E : ChainEnv) (byz : Finset Address) (net : ι → Node) : Prop where
  keys : ∀ a, a ∉ byz → ∀ i j, a ∈ (net i).wallets → a ∈ (net j).wallets → i = j
  node : ∀ i, SignInv E.crypto (Signable E.crypto byz net) (net i)

variable {E : ChainEnv} {byz round : Finset Address} {net net' : ι → Node} {x : ι × Event}

theorem Signable.mono {C : Crypto} (hlog : ∀ i, (net i).log ⊆ (net' i).log) {a : Address} {h : Hash}
    (hs : Signable C byz net a h) : Signable C byz net' a h := by
  rcases hs with hs | ⟨i, b, hb, rfl⟩
  · exact .inl hs
  · exact .inr ⟨i, b, hlog i hb, rfl⟩

theorem NetInv.signable_unique (hi : NetInv E byz net) {a : Address} (ha : a ∉ byz) {b1 b2 : Block}
    (hb1 : NumberBound E.crypto net b1) (hb2 : NumberBound E.crypto net b2)
    (hn : b1.numberU64 = b2.numberU64) (h1 : Signable E.crypto byz net a (b1.hash E.crypto))
    (h2 : Signable E.crypto byz net a (b2.hash E.crypto)) :
    b1.hash E.crypto = b2.hash E.crypto := by
  obtain ⟨i, c1, hc1, e1⟩ := h1.resolve_left ha
  obtain ⟨j, c2, hc2, e2⟩ := h2.resolve_left ha
  obtain rfl : i = j := hi.keys a ha i j ((hi.node i).own a c1 hc1) ((hi.node j).own a c2 hc2)
  have hnum : c2.numberU64 = c1.numberU64 := by
    rw [hb1 i a c1 hc1 e1, hb2 i a c2 hc2 e2, hn]
  rw [← e1, ← e2]
  exact ((hi.node i).once c1 (.inr (.inr ⟨a, hc1⟩)) c2 (.inr (.inr ⟨a, hc2⟩)) hnum).symm

theorem NetInv.agreement {f : Nat} (hE : E.maxElectDelegate = 3 * f + 1)
    (hround : round.card = 3 * f + 1) (hbyz : (byz ∩ round).card ≤ f) (hi : NetInv E byz net) :
    Agreement E round net := by
  intro i j b1 b2 m1 m2 hm1 hm2 hb1 hb2 hn hq1 hq2
  -- Two quorums of the round overlap in more than `f` delegates, so in an honest one.
  have hamount : delegateAmount E.maxElectDelegate = 2 * f := by
    rw [hE]; unfold delegateAmount; omega
  have hover := Quorum.card_add_card_le (S := m1.approvers ∩ round) (T := m2.approvers ∩ round)
    Finset.inter_subset_right Finset.inter_subset_right
  obtain ⟨a, ha1, ha2, hab⟩ := Quorum.exists_correct (B := byz ∩ round)
    (S := m1.approvers ∩ round) (T := m2.approvers ∩ round) (by omega)
  rw [Finset.mem_inter] at ha1 ha2 hab
  have honest : a ∉ byz := fun h => hab ⟨h, ha1.2⟩
  obtain ⟨s1, hs1, -⟩ := BlockSignMap.mem_approvers.1 ha1.1
  obtain ⟨s2, hs2, -⟩ := BlockSignMap.mem_approvers.1 ha2.1
  exact hi.signable_unique honest hb1 hb2 hn ((hi.node i).collected _ m1 hm1 _ hs1)
    ((hi.node j).collected _ m2 hm2 _ hs2)

/-! ## Runs -/

variable [DecidableEq ι]

theorem netStep_grows (hs : netStep E x net = some net') (i : ι) : (net i).Grows (net' i) := by
  obtain ⟨n', hn, rfl⟩ := map_eq_some_iff.1 hs
  by_cases hi : i = x.1
  · subst hi
    rw [update_self]
    exact .step hn
  · rw [update_of_ne hi]
    exact ⟨rfl, List.Subset.refl _⟩

theorem NetInv.step (ha : Admissible E byz x net) (hg : Guarded E x net) (hi : NetInv E byz net)
    (hs : netStep E x net = some net') : NetInv E byz net' := by
  have hgrow := netStep_grows hs
  have hmono : ∀ a h, Signable E.crypto byz net a h → Signable E.crypto byz net' a h :=
    fun a h => Signable.mono fun i => (hgrow i).log
  refine ⟨fun a hb i j h1 h2 => ?_, fun i => ?_⟩
  · rw [(hgrow i).wallets] at h1
    rw [(hgrow j).wallets] at h2
    exact hi.keys a hb i j h1 h2
  · have hsigned : ∀ a b, .signed a b ∈ (net' i).log →
        Signable E.crypto byz net' a (b.hash E.crypto) := fun a b hb => .inr ⟨i, b, hb, rfl⟩
    obtain ⟨n', hn, rfl⟩ := map_eq_some_iff.1 hs
    have hold := (hi.node i).mono hmono
    by_cases hix : i = x.1
    · subst hix
      rw [update_self] at hsigned ⊢
      exact hold.step (fun h signs hin s hs a hr => hmono a h (ha.unforged h signs hin s hs a hr))
        ha.own hg hn hsigned
    · rw [update_of_ne hix]
      exact hold

/-- **Agreement** in every guarded run: with `3 f + 1` delegates of which at most `f` are
Byzantine, no two blocks of one height collect a quorum, whatever the interleaving. -/
theorem agreement_of_guarded {genesis : Block} {f : Nat} {evs : List (ι × Event)}
    (hE : E.maxElectDelegate = 3 * f + 1) (hround : round.card = 3 * f + 1)
    (hbyz : (byz ∩ round).card ≤ f) (hinit : ∀ i, (net i).Initial E genesis)
    (hkeys : ∀ a, a ∉ byz → ∀ i j, a ∈ (net i).wallets → a ∈ (net j).wallets → i = j)
    (ha : Run.Along (netStep E) (fun x net => Admissible E byz x net ∧ Guarded E x net) evs net)
    (hr : Run.exec (netStep E) evs net = some net') : Agreement E round net' := by
  have h0 : NetInv E byz net := ⟨hkeys, fun i => .initial (hinit i)⟩
  have hi := Run.invariant (fun _ _ _ hp hi hs => hi.step hp.1 hp.2 hs) ha h0 hr
  exact hi.agreement hE hround hbyz

/-! ## Two runs of one node

The node holds the keys of delegates 2, 3 and 4 of a round of four, and delegate 1 is Byzantine.
-/

section SmallNetwork

open Node

/-- A pre-block is handled, the three delegates sign it and the collector files the signatures.
`i` is the place of the first of these tasks. -/
def signingRun (b : Block) (i : Nat) : List (Unit × Event) :=
  [.preBlock b, .runTask i, .runTask i, .runTask i, .runTask i, .storeSign, .storeSign,
    .storeSign].map fun input => ((), smallEvent input)

def collections (log : List Record) : List (Hash × Finset Address) :=
  log.filterMap fun
    | .collected h m => some (h, m.approvers)
    | _ => none

theorem mem_collections {log : List Record} {h : Hash} {S : Finset Address}
    (hm : (h, S) ∈ collections log) : ∃ m, .collected h m ∈ log ∧ m.approvers = S := by
  obtain ⟨r, hr, he⟩ := mem_filterMap.1 hm
  cases r with
  | collected h' m =>
    cases he
    exact ⟨m, hr, rfl⟩
  | _ => cases he

theorem signingRun_input {b : Block} {i : Nat} {x : Unit × Event} (hx : x ∈ signingRun b i) :
    (∀ h signs, x.2.input ≠ .signatures h signs) ∧ (∀ b, x.2.input ≠ .produce b) := by
  simp only [signingRun, List.mem_map] at hx
  obtain ⟨input, hin, rfl⟩ := hx
  simp only [mem_cons, not_mem_nil, or_false] at hin
  rcases hin with rfl | rfl | rfl | rfl | rfl | rfl | rfl | rfl <;>
    exact ⟨fun _ _ h => Input.noConfusion h, fun _ h => Input.noConfusion h⟩

theorem signingRun_admissible {b : Block} {i : Nat} {x : Unit × Event} (hx : x ∈ signingRun b i)
    (net : Unit → Node) : Admissible smallEnv {1} x net where
  unforged h signs hin := absurd hin ((signingRun_input hx).1 h signs)
  own b hb := absurd hb ((signingRun_input hx).2 b)

def signedFirst (log : List Record) : Bool :=
  log.all fun
    | .signed _ b => b.numberU64 == 1
    | _ => true

theorem numberBound_of_signedFirst {net : Unit → Node} {b : Block}
    (hs : signedFirst (net ()).log = true) (hb : b.numberU64 = 1) :
    NumberBound smallEnv.crypto net b := by
  intro _ a b' hb' _
  have := all_eq_true.1 hs _ hb'
  rw [hb]
  simpa using this

def firstBlock : Block := slotBlock extraCrypto 1 [0] []

def secondBlock : Block := slotBlock extraCrypto 1 [0, 0] []

theorem agreement_of_guarded_small :
    ∃ net', Run.exec (netStep smallEnv) (signingRun firstBlock 0) (fun _ => smallNode [2, 3, 4]) =
        some net' ∧ (∃ m, .collected (firstBlock.hash extraCrypto) m ∈ (net' ()).log) ∧
      Agreement smallEnv {1, 2, 3, 4} net' := by
  refine exists_of_check (fun net => collections (net ()).log =
    [(firstBlock.hash extraCrypto, {2, 3, 4})]) (by decide +kernel) fun net' hr hc => ?_
  obtain ⟨m, hm, -⟩ := mem_collections (by rw [hc]; exact mem_singleton_self _)
  refine ⟨⟨m, hm⟩, ?_⟩
  have hbyz : (({1} : Finset Address) ∩ {1, 2, 3, 4}).card ≤ 1 := by decide
  refine agreement_of_guarded rfl (by decide) hbyz (fun _ => start_initial _ _ _ _)
    (fun _ _ _ _ _ _ => rfl) ?_ hr
  refine ⟨⟨signingRun_admissible (b := firstBlock) (i := 0) (by simp [signingRun]) _, ?_⟩,
    fun _ _ => .of_forall (fun x hx net => ?_) _⟩
  · intro b _ b' hb'
    simp [Claims, start] at hb'
  · refine ⟨signingRun_admissible (b := firstBlock) (mem_cons_of_mem _ hx) _, ?_⟩
    intro b hb
    simp only [List.mem_map, mem_cons, not_mem_nil, or_false] at hx
    obtain ⟨input, hin, rfl⟩ := hx
    rcases hin with rfl | rfl | rfl | rfl | rfl | rfl | rfl <;>
      simp [smallEvent] at hb

/-- Both blocks of a Byzantine producer collect a quorum: the node signs the second one after
it has signed the first. -/
theorem not_agreement_equivocation : Run.Along (netStep smallEnv) (Admissible smallEnv {1})
        (signingRun firstBlock 0 ++ signingRun secondBlock 1) (fun _ => smallNode [2, 3, 4]) ∧
      ∃ net', Run.exec (netStep smallEnv) (signingRun firstBlock 0 ++ signingRun secondBlock 1)
          (fun _ => smallNode [2, 3, 4]) = some net' ∧
        ¬ Agreement smallEnv {1, 2, 3, 4} net' := by
  refine ⟨.of_forall (fun x hx net => ?_) _, ?_⟩
  · rcases mem_append.1 hx with hx | hx <;> exact signingRun_admissible hx net
  · refine exists_of_check (fun net => collections (net ()).log =
        [(firstBlock.hash extraCrypto, {2, 3, 4}), (secondBlock.hash extraCrypto, {2, 3, 4})] ∧
        signedFirst (net ()).log = true) (by decide +kernel) fun net' hr ⟨hc, hs⟩ hagree => ?_
    obtain ⟨m1, hm1, ha1⟩ := mem_collections (S := {2, 3, 4})
      (h := firstBlock.hash extraCrypto) (by rw [hc]; simp)
    obtain ⟨m2, hm2, ha2⟩ := mem_collections (S := {2, 3, 4})
      (h := secondBlock.hash extraCrypto) (by rw [hc]; simp)
    have hnum : ∀ extra, (slotBlock extraCrypto 1 extra []).numberU64 = 1 :=
      fun _ => u64_of_lt (n := 1) (by decide)
    have := hagree () () firstBlock secondBlock m1 m2 hm1 hm2
      (numberBound_of_signedFirst hs (hnum _)) (numberBound_of_signedFirst hs (hnum _))
      ((hnum _).trans (hnum _).symm) (by rw [ha1]; decide) (by rw [ha2]; decide)
    exact absurd this (by decide)

end SmallNetwork

end GoAoa.Aoa
