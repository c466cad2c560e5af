import GoAoa.Core.Chain

/-!
# Where the blocks of a chain come from

If every block handed to the chain has a property of its hash, so has every block it stores,
makes canonical or keeps for the future. Reorganisations only move blocks that are stored.
-/

namespace GoAoa.Core

open List Option Function BlockChain GoAoa.Dpos

/-- Every block the chain knows has a good hash. -/
structure Provenance (C : Crypto) (G : Hash → Prop) (bc : BlockChain) : Prop where
  blocks : ∀ h b, bc.blocks h = some b → b.hash C = h ∧ G h
  canonical : ∀ k h, bc.canonical k = some h → G h
  future : ∀ b ∈ bc.futureBlocks, G (b.hash C)

namespace Provenance

variable {C : Crypto} {G G' : Hash → Prop} {bc bc' : BlockChain} {b : Block}

theorem mono (hG : ∀ h, G h → G' h) (h : Provenance C G bc) : Provenance C G' bc :=
  { blocks := fun k b hb => ⟨(h.blocks k b hb).1, hG k (h.blocks k b hb).2⟩
    canonical := fun k x hx => hG x (h.canonical k x hx)
    future := fun b hb => hG _ (h.future b hb) }

section

variable (h : Provenance C G bc)
include h

theorem of_getBlock {k : Hash} {number : Nat}
    (hb : bc.getBlock k number = some b) : G (b.hash C) := by
  obtain ⟨hb, -⟩ := filter_eq_some_iff.1 hb
  obtain ⟨rfl, hg⟩ := h.blocks k b hb
  exact hg

theorem of_parentOf {p : Block} (hp : bc.parentOf b = some p) : G (p.hash C) := h.of_getBlock hp

theorem addFuture (hb : G (b.hash C)) : Provenance C G (bc.addFuture C b) := by
  refine { blocks := h.blocks, canonical := h.canonical, future := fun x hx => ?_ }
  have hx := mem_of_mem_take hx
  rcases mem_cons.1 hx with rfl | hx
  · exact hb
  · exact h.future x (mem_filter.1 hx).1

theorem removeFuture (k : Hash) : Provenance C G (bc.removeFuture C k) :=
  { blocks := h.blocks
    canonical := h.canonical
    future := fun x hx => h.future x (mem_filter.1 hx).1 }

theorem insert (hb : G (b.hash C)) : Provenance C G (bc.insert C b) := by
  refine { blocks := h.blocks, canonical := fun k x hx => ?_, future := h.future }
  simp only [BlockChain.insert, update_apply] at hx
  split at hx
  · rw [← some.inj hx]; exact hb
  · exact h.canonical k x hx

theorem insertAll {bs : List Block} (hb : ∀ b ∈ bs, G (b.hash C)) :
    Provenance C G (bs.foldl (BlockChain.insert C) bc) := by
  induction bs generalizing bc with
  | nil => exact h
  | cons b bs ih =>
    exact ih (h.insert (hb b mem_cons_self)) fun x hx => hb x (mem_cons_of_mem _ hx)

theorem storeBlock (hb : G (b.hash C)) :
    Provenance C G { bc with blocks := Function.update bc.blocks (b.hash C) (some b) } := by
  refine { blocks := fun k x hx => ?_, canonical := h.canonical, future := h.future }
  simp only [update_apply] at hx
  split at hx
  · rename_i hk
    cases hx
    exact ⟨hk.symm, hk ▸ hb⟩
  · exact h.blocks k x hx

theorem writeTd (k : Hash) (number d : Nat) : Provenance C G (bc.writeTd k number d) :=
  { blocks := h.blocks, canonical := h.canonical, future := h.future }

/-! ## Reorganisation -/

theorem climb_good {target fuel : Nat} {acc acc' : List Block} {b' : Block}
    (hb : G (b.hash C)) (hacc : ∀ x ∈ acc, G (x.hash C))
    (hc : bc.climb target fuel b acc = some (b', acc')) :
    G (b'.hash C) ∧ ∀ x ∈ acc', G (x.hash C) := by
  induction fuel generalizing b acc with
  | zero =>
    simp only [climb] at hc
    split at hc
    · cases hc; exact ⟨hb, hacc⟩
    · cases hc
  | succ fuel ih =>
    simp only [climb] at hc
    split at hc
    · cases hc; exact ⟨hb, hacc⟩
    · obtain ⟨p, hp, hc⟩ := bind_eq_some_iff.1 hc
      refine ih (h.of_parentOf hp) (fun x hx => ?_) hc
      rcases mem_cons.1 hx with rfl | hx
      · exact hb
      · exact hacc x hx

theorem findCommon_good {fuel : Nat} {old new : Block}
    {acc acc' : List Block} (hnew : G (new.hash C)) (hacc : ∀ x ∈ acc, G (x.hash C))
    (hc : bc.findCommon C fuel old new acc = .ok acc') : ∀ x ∈ acc', G (x.hash C) := by
  induction fuel generalizing old new acc with
  | zero =>
    simp only [findCommon] at hc
    split at hc
    · cases hc; exact hacc
    · cases hc
  | succ fuel ih =>
    simp only [findCommon] at hc
    split at hc
    · cases hc; exact hacc
    · split at hc
      · cases hc
      · cases hc
      · rename_i old' new' _ hn
        refine ih (h.of_parentOf hn) (fun x hx => ?_) hc
        rcases mem_cons.1 hx with rfl | hx
        · exact hnew
        · exact hacc x hx

theorem newChain_good {old new : Block} {bs : List Block}
    (hnew : G (new.hash C)) (hc : bc.newChain C old new = .ok bs) : ∀ x ∈ bs, G (x.hash C) := by
  simp only [newChain] at hc
  split at hc
  · split at hc
    · cases hc
    · exact h.findCommon_good hnew (by simp) hc
  · split at hc
    · cases hc
    · rename_i new' acc hcl
      obtain ⟨h1, h2⟩ := h.climb_good hnew (by simp) hcl
      exact h.findCommon_good h1 h2 hc

theorem reorg {old new : Block} (hnew : G (new.hash C))
    (hr : bc.reorg C old new = .ok bc') : Provenance C G bc' := by
  unfold BlockChain.reorg at hr
  cases hc : bc.newChain C old new with
  | error => rw [hc] at hr; cases hr
  | ok =>
    rw [hc] at hr
    cases hr
    exact h.insertAll (h.newChain_good hnew hc)

/-! ## Insertion -/

theorem writeBlockAndState {coin : Hash → Bool} {e : Option ChainErr}
    (hb : G (b.hash C)) (hw : bc.writeBlockAndState C coin b = some (bc', e)) :
    Provenance C G bc' := by
  unfold BlockChain.writeBlockAndState at hw
  dsimp only at hw
  split at hw
  · cases hw; exact h
  · split at hw
    · cases hw
    · split at hw
      · split at hw
        · cases hw; exact h.writeTd _ _ _
        · rename_i bc2 hbc
          have h2 : Provenance C G bc2 := by
            split at hbc
            · exact (h.writeTd _ _ _).reorg hb hbc
            · cases hbc; exact h.writeTd _ _ _
          cases hw
          exact ((h2.storeBlock hb).insert hb).removeFuture _
      · cases hw
        exact ((h.storeBlock hb).writeTd _ _ _).removeFuture _

end

variable {E : ChainEnv} {now : Int} {coin : Hash → Bool} {e : Option ChainErr}

variable (h : Provenance E.crypto G bc)
include h

theorem insertBlock {prev : Option Block}
    (hb : G (b.hash E.crypto)) (hi : bc.insertBlock E now coin prev b = some (bc', e)) :
    Provenance E.crypto G bc' := by
  unfold BlockChain.insertBlock at hi
  split at hi
  · cases hi; exact h
  · split at hi
    · cases hi; exact h
    · split at hi
      · cases hi; exact h
      · cases hi; exact h.addFuture hb
    · split at hi
      · cases hi; exact h.addFuture hb
      · cases hi; exact h
    · cases hi; exact h
    · split at hi
      · cases hi
      · split at hi
        · cases hi
        · cases hi; exact h
        · exact h.writeBlockAndState hb hi

theorem insertLoop {prev : Option Block} {chain : List Block}
    (hb : ∀ b ∈ chain, G (b.hash E.crypto))
    (hi : bc.insertLoop E now coin prev chain = some (bc', e)) : Provenance E.crypto G bc' := by
  induction chain generalizing prev bc with
  | nil => simp only [insertLoop] at hi; cases hi; exact h
  | cons b bs ih =>
    simp only [insertLoop] at hi
    have hg := hb b mem_cons_self
    split at hi
    · cases hi
    · rename_i hi1
      cases hi
      exact h.insertBlock hg hi1
    · rename_i hi1
      exact ih (h.insertBlock hg hi1) (fun x hx => hb x (mem_cons_of_mem _ hx)) hi

/-- **A chain fed with good blocks is good.** -/
theorem insertChain {chain : List Block} (hb : ∀ b ∈ chain, G (b.hash E.crypto))
    (hi : bc.insertChain E now coin chain = some (bc', e)) : Provenance E.crypto G bc' := by
  unfold BlockChain.insertChain at hi
  split at hi
  · exact h.insertLoop hb hi
  · cases hi; exact h

theorem procFutureBlocks
    (hp : bc.procFutureBlocks E now coin = some bc') : Provenance E.crypto G bc' := by
  unfold BlockChain.procFutureBlocks at hp
  have hall : ∀ b ∈ bc.futureBlocks.mergeSort fun a b => a.header.number ≤ b.header.number,
      G (b.hash E.crypto) := fun b hb => h.future b ((mergeSort_perm _ _).mem_iff.1 hb)
  generalize bc.futureBlocks.mergeSort _ = bs at hp hall
  induction bs generalizing bc with
  | nil => simp only [foldlM_nil] at hp; cases hp; exact h
  | cons b bs ih =>
    obtain ⟨bc1, h1, hp⟩ := bind_eq_some_iff.1 hp
    obtain ⟨⟨bc2, e⟩, h2, rfl⟩ := map_eq_some_iff.1 h1
    refine ih (h.insertChain (fun x hx => ?_) h2) hp fun x hx => hall x (mem_cons_of_mem _ hx)
    rw [mem_singleton.1 hx]
    exact hall b mem_cons_self

end Provenance

theorem BlockChain.insertChain_far_future {E : ChainEnv} {now : Int} {coin : Hash → Bool}
    {bc bc' : BlockChain} {b : Block} {parent : Header} {e : Option ChainErr}
    (hp : bc.getHeader b.header.parentHash (u64 (b.numberU64 - 1)) = some parent)
    (hv : verifyHeader now b.header parent = .error .errFutureBlock)
    (ht : now + maxTimeFutureBlocks < b.header.time)
    (hi : bc.insertChain E now coin [b] = some (bc', e)) : bc' = bc := by
  have hp' : (bc.parentOf b).map Block.header = some parent := hp
  simp only [insertChain, contiguous, if_true, insertLoop, insertBlock] at hi
  by_cases hbad : b.hash E.crypto ∈ E.badHashes
  · simp only [hbad, if_true] at hi
    cases hi; rfl
  · by_cases hk : (bc.getHeader (b.hash E.crypto) b.numberU64).isSome
    · have hblk : bc.hasBlockAndState (b.hash E.crypto) = true := by
        unfold getHeader getBlock at hk
        unfold hasBlockAndState
        cases hx : bc.blocks (b.hash E.crypto) with
        | none => simp [hx] at hk
        | some => rfl
      simp only [hbad, if_false, verifyHeaders, hp', hk, if_true, Except.bind, validateBody,
        hblk] at hi
      cases hi; rfl
    · simp only [hbad, if_false, verifyHeaders, hp', hk, Except.bind, hv, Except.mapError,
        Bool.false_eq_true, ht, if_true] at hi
      cases hi; rfl

end GoAoa.Core
