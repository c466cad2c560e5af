import GoAoa.Dpos.Verify
import GoAoa.Lib.Quorum

/-!
# What a commit certificate proves

A block commits when more than `(n / 3) * 2` delegates have signed its hash. Two results about
that rule: how far two accepted certificates of one round overlap, and how accepted
certificates relate to the votes the delegates cast. The division truncates, so for
`n = 3 k + 2` the threshold is one too low; and the vote is not part of what is signed.
-/

namespace GoAoa.Dpos

open List Option

/-! ## A one-block chain -/

def slotParent : Header :=
  { parentHash := 0, coinbase := 0, root := 0, txHash := 0, receiptHash := 0, bloom := 0,
    number := 0, gasLimit := 250000000, gasUsed := 0, time := 0, extra := [], agentName := [],
    delegateRoot := 0, shuffleHash := 0, shuffleBlockNumber := 0 }

def slotHeader (coinbase : Address) (extra : Bytes) : Header :=
  { slotParent with coinbase := coinbase, number := 1, time := 10, extra := extra }

def slotBlock (C : Crypto) (coinbase : Address) (extra : Bytes) (signs : List VoteSign) : Block :=
  { header := slotHeader coinbase extra, transactions := [],
    signature := C.sign coinbase (C.headerHash (slotHeader coinbase extra)),
    rlpEncodeSigns := some signs }

def slotChain (n : Nat) : ChainReader :=
  { maxElectDelegate := n, getHeader := fun _ _ => some slotParent }

def slotList (dels : List Address) : ShuffleList := ⟨dels.map fun a => ⟨10, a⟩⟩

@[simp] theorem slotList_addresses (dels : List Address) : (slotList dels).addresses = dels := by
  simp [slotList, ShuffleList.addresses, Function.comp_def]

variable {dels : List Address}

theorem slotList_find {a : Address} (ha : a ∈ dels) :
    (slotList dels).shuffleDels.find? (·.address == a) = some ⟨10, a⟩ := by
  induction dels with
  | nil => cases ha
  | cons b dels ih =>
    by_cases hb : b = a
    · simp [slotList, hb]
    · have hba : (b == a) = false := by simpa using hb
      simp only [slotList, map_cons, find?_cons, hba] at ih ⊢
      exact ih ((mem_cons.1 ha).resolve_left (Ne.symm hb))

theorem verifyHeader_slotHeader (coinbase : Address) {extra : Bytes}
    (he : extra.length ≤ maximumExtraDataSize) :
    verifyHeader 10 (slotHeader coinbase extra) slotParent = .ok () := by
  have he' : ¬ maximumExtraDataSize < extra.length := by omega
  simp [verifyHeader, slotHeader, slotParent, he', allowedFutureBlockTime, maxGasLimit,
    gasLimitBoundDivisor, minGasLimit, u64, i64]

theorem verifyHeaderAndSign_slotBlock (C : Crypto) (n : Nat)
    {coinbase : Address} (hc : coinbase ∈ dels) (extra : Bytes)
    (he : extra.length ≤ maximumExtraDataSize) (signs : List VoteSign) :
    verifyHeaderAndSign C (slotChain n) 10 (slotBlock C coinbase extra signs) (slotList dels) 10 =
      .ok () := by
  have hp : verifyProducer C (slotBlock C coinbase extra signs) (slotList dels) = .ok () := by
    have hf := slotList_find hc
    have ht : u64 10 = 10 := u64_of_lt (by decide)
    simp [verifyProducer, slotBlock, slotHeader, Block.hash, C.sign_ne_nil, hf, C.recover_sign, ht]
  have hv := verifyHeader_slotHeader coinbase he
  simp only [verifyHeaderAndSign, slotChain]
  rw [if_neg (by simp [slotBlock, slotHeader, u64, i64]), hp]
  simp [Outcome.bind, Outcome.ofExcept, slotBlock, hv]

/-! ## Signatures of a set of delegates -/

/-- The signature a delegate makes for a block (`singleSign`): over the hash only, whatever the
vote it is sent with. -/
def singleSign (C : Crypto) (h : Hash) (action : Nat) (a : Address) : VoteSign :=
  { sign := C.sign a h, voteAction := action }

/-- Signatures of the delegates in `S` on `h`, all labelled approve. -/
noncomputable def signsOf (C : Crypto) (h : Hash) (S : Finset Address) : List VoteSign :=
  S.toList.map (singleSign C h approveVote)

variable {C : Crypto} {h : Hash} {S : Finset Address}

theorem signsOf_recover {a : Address} :
    (∃ s ∈ signsOf C h S, C.recover h s.sign = some a) ↔ a ∈ S := by
  simp [signsOf, singleSign, C.recover_sign]

theorem signsOf_isSome : ∀ s ∈ signsOf C h S, (C.recover h s.sign).isSome := by
  simp [signsOf, singleSign, C.recover_sign]

variable {list : ShuffleList}

theorem signers_signsOf
    (hS : S ⊆ list.addresses.toFinset) : signers C h list (signsOf C h S) = S := by
  ext a
  rw [mem_signers, signsOf_recover]
  exact ⟨fun h => h.2, fun h => ⟨mem_toFinset.1 (hS h), h⟩⟩

theorem exists_certificate (C : Crypto) (n : Nat)
    (hS : S ⊆ dels.toFinset) (hn : delegateAmount n < S.card) (extra : Bytes)
    (he : extra.length ≤ maximumExtraDataSize) :
    ∃ (b : Block) (signs : List VoteSign), b.header.extra = extra ∧ b.rlpEncodeSigns = some signs ∧
      verifyBlockGenerate C (slotChain n) 10 b (slotList dels) 10 = .ok () ∧
      signers C (b.hash C) (slotList dels) signs = S := by
  obtain ⟨c, hc⟩ := Finset.card_pos.1 (by omega : 0 < S.card)
  let signs := signsOf C (C.headerHash (slotHeader c extra)) S
  have hs : signers C ((slotBlock C c extra signs).hash C) (slotList dels) signs = S :=
    signers_signsOf (by simpa using hS)
  refine ⟨slotBlock C c extra signs, signs, rfl, rfl, ?_, hs⟩
  have hd := mem_toFinset.1 (hS hc)
  exact verifyBlockGenerate_of_signers (verifyHeaderAndSign_slotBlock C n hd extra he signs) rfl
    signsOf_isSome (by rw [hs]; exact hn)

/-! ## Overlap of two certificates -/

/-- Two accepted certificates of the round with delegates `dels`, under `maxElectDelegate = n`,
share more than `(n - 1) / 3` signers, so an honest one when at most that many are Byzantine,
whatever the blocks, the slots and the chain. -/
def CertificatesOverlap (C : Crypto) (n : Nat) (dels : List Address) : Prop :=
  ∀ (chain₁ chain₂ : ChainReader) (list : ShuffleList) (now₁ now₂ blockInterval : Int)
    (b₁ b₂ : Block) (signs₁ signs₂ : List VoteSign),
    chain₁.maxElectDelegate = n → chain₂.maxElectDelegate = n → list.addresses = dels →
    b₁.rlpEncodeSigns = some signs₁ → b₂.rlpEncodeSigns = some signs₂ →
    verifyBlockGenerate C chain₁ now₁ b₁ list blockInterval = .ok () →
    verifyBlockGenerate C chain₂ now₂ b₂ list blockInterval = .ok () →
    (n - 1) / 3 < (signers C (b₁.hash C) list signs₁ ∩ signers C (b₂.hash C) list signs₂).card ∧
    ∀ byzantine : Finset Address, byzantine.card ≤ (n - 1) / 3 →
      ∃ a ∈ signers C (b₁.hash C) list signs₁, a ∈ signers C (b₂.hash C) list signs₂ ∧ a ∉ byzantine

theorem signers_subset (C : Crypto) (h : Hash) (list : ShuffleList) (signs : List VoteSign) :
    signers C h list signs ⊆ list.addresses.toFinset :=
  Finset.filter_subset _ _

theorem certificatesOverlap_of {n : Nat}
    (hd : dels.length ≤ n) (hok : ¬ (n % 3 = 2 ∧ dels.length = n)) :
    CertificatesOverlap C n dels := by
  intro chain1 chain2 list now1 now2 blockInterval b1 b2 signs1 signs2 hn1 hn2 hl hs1 hs2 h1 h2
  obtain ⟨-, s1, e1, c1⟩ := verifyBlockGenerate_ok h1
  obtain ⟨-, s2, e2, c2⟩ := verifyBlockGenerate_ok h2
  obtain rfl := some.inj (e1.symm.trans hs1)
  obtain rfl := some.inj (e2.symm.trans hs2)
  have hcard : list.addresses.toFinset.card ≤ dels.length := hl ▸ toFinset_card_le _
  have hq := Quorum.card_add_card_le (signers_subset C (b1.hash C) list s1)
    (signers_subset C (b2.hash C) list s2)
  unfold delegateAmount at c1 c2
  have hlt : (n - 1) / 3 <
      (signers C (b1.hash C) list s1 ∩ signers C (b2.hash C) list s2).card := by omega
  exact ⟨hlt, fun B hB => Quorum.exists_correct (by omega)⟩

/-- In the bad case two certificates share exactly `(n - 1) / 3` signers. -/
theorem exists_small_overlap (C : Crypto) {n : Nat} (hd : dels.Nodup)
    (hmod : n % 3 = 2) (hlen : dels.length = n) :
    ∃ (b1 b2 : Block) (signs1 signs2 : List VoteSign), b1.header ≠ b2.header ∧
      b1.rlpEncodeSigns = some signs1 ∧ b2.rlpEncodeSigns = some signs2 ∧
      verifyBlockGenerate C (slotChain n) 10 b1 (slotList dels) 10 = .ok () ∧
      verifyBlockGenerate C (slotChain n) 10 b2 (slotList dels) 10 = .ok () ∧
      (signers C (b1.hash C) (slotList dels) signs1 ∩
        signers C (b2.hash C) (slotList dels) signs2).card = (n - 1) / 3 := by
  have hU : dels.toFinset.card = n := by rw [toFinset_card_of_nodup hd, hlen]
  obtain ⟨S, T, hS, hT, cS, cT, cI⟩ := Quorum.exists_card_inter_eq (U := dels.toFinset)
    (k := delegateAmount n + 1) (by unfold delegateAmount; omega) (by unfold delegateAmount; omega)
  obtain ⟨b1, signs1, x1, e1, v1, s1⟩ := exists_certificate C n hS (by omega) [] (by decide)
  obtain ⟨b2, signs2, x2, e2, v2, s2⟩ := exists_certificate C n hT (by omega) [1] (by decide)
  refine ⟨b1, b2, signs1, signs2, fun h => ?_, e1, e2, v1, v2, ?_⟩
  · simp [h, x2] at x1
  · rw [s1, s2, cI, hU]; unfold delegateAmount; omega

/-- **When certificates overlap enough.** For `n` elected delegates and a round of at most `n`
of them, two accepted certificates always share more than `(n - 1) / 3` signers exactly when
the round is not full or `n` is not of the form `3 k + 2`. -/
theorem certificatesOverlap_iff (C : Crypto) (n : Nat) (dels : List Address) (hd : dels.Nodup)
    (hlen : dels.length ≤ n) :
    CertificatesOverlap C n dels ↔ ¬ (n % 3 = 2 ∧ dels.length = n) := by
  refine ⟨fun hall ⟨hmod, hfull⟩ => ?_, certificatesOverlap_of hlen⟩
  obtain ⟨b1, b2, signs1, signs2, -, e1, e2, v1, v2, hc⟩ := exists_small_overlap C hd hmod hfull
  have := hall (slotChain n) (slotChain n) (slotList dels) 10 10 10 b1 b2 signs1 signs2 rfl rfl
    (slotList_addresses dels) e1 e2 v1 v2
  omega

def extraCrypto : Crypto := Crypto.plain fun h => BitVec.ofNat 256 h.extra.length

theorem certificatesOverlap_four :
    [1, 2, 3, 4].Nodup ∧ CertificatesOverlap extraCrypto 4 [1, 2, 3, 4] :=
  ⟨by decide, (certificatesOverlap_iff extraCrypto 4 [1, 2, 3, 4] (by decide) (by decide)).2
    (by decide)⟩

def mainnetRound : List Address := (List.range 101).map (BitVec.ofNat 160 ·)

theorem mainnetRound_nodup : mainnetRound.Nodup := by
  refine List.Nodup.map_on (fun x hx y hy hxy => ?_) nodup_range
  have := congrArg BitVec.toNat hxy
  simp only [BitVec.toNat_ofNat, mem_range] at *
  omega

theorem not_certificatesOverlap_mainnet : ¬ CertificatesOverlap extraCrypto 101 mainnetRound := by
  intro hall
  obtain ⟨b1, b2, signs1, signs2, -, e1, e2, v1, v2, hc⟩ :=
    exists_small_overlap extraCrypto mainnetRound_nodup (n := 101) rfl (by simp [mainnetRound])
  have := (hall _ _ _ 10 10 10 b1 b2 signs1 signs2 rfl rfl (slotList_addresses _) e1 e2 v1 v2).1
  omega

/-! ## Certificates and the votes cast -/

/-- A vote a delegate has cast: the vote and the block hash it signed with it. -/
structure CastVote where
  voter : Address
  hash : Hash
  action : Nat
  deriving DecidableEq, Repr

def voters (list : ShuffleList) (votes : List CastVote) (h : Hash) : Finset Address :=
  list.addresses.toFinset.filter fun a => ∃ v ∈ votes, v.voter = a ∧ v.hash = h

def approvers (list : ShuffleList) (votes : List CastVote) (h : Hash) : Finset Address :=
  list.addresses.toFinset.filter fun a =>
    ∃ v ∈ votes, v.voter = a ∧ v.hash = h ∧ v.action = approveVote

/-- Signatures cannot be forged: one that recovers to a delegate on `h` was made by it when it
voted on `h`. -/
def Unforged (C : Crypto) (list : ShuffleList) (votes : List CastVote) (h : Hash)
    (signs : List VoteSign) : Prop :=
  ∀ s ∈ signs, ∀ a ∈ list.addresses, C.recover h s.sign = some a →
    ∃ v ∈ votes, v.voter = a ∧ v.hash = h

/-- Every certificate that can be put together from the votes cast and that the check accepts
for `b` shows more than `(n / 3) * 2` approvals. -/
def CertificatesSound (C : Crypto) (chain : ChainReader) (now : Int) (list : ShuffleList)
    (blockInterval : Int) (votes : List CastVote) (b : Block) : Prop :=
  ∀ signs, Unforged C list votes (b.hash C) signs →
    verifyBlockGenerate C chain now { b with rlpEncodeSigns := some signs } list blockInterval =
      .ok () →
    delegateAmount chain.maxElectDelegate < (approvers list votes (b.hash C)).card

theorem signers_subset_voters {votes : List CastVote}
    {signs : List VoteSign} (hu : Unforged C list votes h signs) :
    signers C h list signs ⊆ voters list votes h := by
  intro a ha
  obtain ⟨hl, s, hs, hr⟩ := mem_signers.1 ha
  obtain ⟨v, hv, he⟩ := hu s hs a hl hr
  simp only [voters, Finset.mem_filter, List.mem_toFinset]
  exact ⟨hl, v, hv, he⟩

theorem unforged_signsOf_voters (C : Crypto) (list : ShuffleList) (votes : List CastVote)
    (h : Hash) : Unforged C list votes h (signsOf C h (voters list votes h)) := by
  intro s hs a _ hr
  have ha := signsOf_recover.1 ⟨s, hs, hr⟩
  exact (Finset.mem_filter.1 ha).2

/-- The signatures of more than `(n / 3) * 2` voters commit a block whose header passes, however
they voted. -/
theorem verifyBlockGenerate_voters {chain : ChainReader} {now : Int}
    {blockInterval : Int} (votes : List CastVote) {b : Block}
    (hv : verifyHeaderAndSign C chain now b list blockInterval = .ok ())
    (hn : delegateAmount chain.maxElectDelegate < (voters list votes (b.hash C)).card) :
    verifyBlockGenerate C chain now
      { b with rlpEncodeSigns := some (signsOf C (b.hash C) (voters list votes (b.hash C))) }
      list blockInterval = .ok () := by
  refine verifyBlockGenerate_of_signers ?_ rfl signsOf_isSome ?_
  · rw [← hv]; exact verifyHeaderAndSign_congr rfl rfl
  · show _ < (signers C (b.hash C) list _).card
    rw [signers_signsOf (S := voters list votes (b.hash C)) (Finset.filter_subset _ _)]
    exact hn

/-- **When certificates are sound.** An accepted certificate proves enough approvals exactly when
the header does not pass, too few delegates voted at all, or enough of them did approve. -/
theorem certificatesSound_iff (C : Crypto) (chain : ChainReader) (now : Int) (list : ShuffleList)
    (blockInterval : Int) (votes : List CastVote) (b : Block) :
    CertificatesSound C chain now list blockInterval votes b ↔
      verifyHeaderAndSign C chain now b list blockInterval ≠ .ok () ∨
      (voters list votes (b.hash C)).card ≤ delegateAmount chain.maxElectDelegate ∨
      delegateAmount chain.maxElectDelegate < (approvers list votes (b.hash C)).card := by
  constructor
  · intro hall
    by_contra! hcon
    obtain ⟨hv, hvot, happ⟩ := hcon
    have := hall _ (unforged_signsOf_voters C list votes (b.hash C))
      (verifyBlockGenerate_voters votes hv hvot)
    omega
  · rintro hor signs hu hok
    obtain ⟨hv, signs', he, hc⟩ := verifyBlockGenerate_ok hok
    obtain rfl := some.inj he
    have hsub := Finset.card_le_card (signers_subset_voters hu)
    rcases hor with hne | hle | happ
    · refine absurd ?_ hne
      rw [← hv]; exact verifyHeaderAndSign_congr rfl rfl
    · have : delegateAmount chain.maxElectDelegate < (signers C (b.hash C) list signs).card := hc
      omega
    · exact happ

def opposedVotes : List CastVote :=
  [1, 2, 3, 4].map fun a =>
    { voter := a, hash := extraCrypto.headerHash (slotHeader 1 []), action := opposeVote }

theorem not_certificatesSound_opposed :
    ¬ CertificatesSound extraCrypto (slotChain 4) 10 (slotList [1, 2, 3, 4]) 10 opposedVotes
      (slotBlock extraCrypto 1 [] []) := by
  intro hall
  have hv := verifyHeaderAndSign_slotBlock extraCrypto 4 (show 1 ∈ [1, 2, 3, 4] by decide) []
    (by decide) []
  have := hall _ (unforged_signsOf_voters _ _ _ _)
    (verifyBlockGenerate_voters opposedVotes hv (by decide))
  revert this
  decide

end GoAoa.Dpos
