import GoAoa.Core.Provenance
import GoAoa.Dpos.Certificate
import GoAoa.Lib.Run

/-!
# Integrity of the canonical chain

A block weighs one unit of difficulty, so the total difficulty of a stored block is its number
above that of genesis, and the head is never replaced by a lower block. A reorganisation walks
both branches to a block they share and writes the new branch upwards from there: the number
index stays a parent-linked chain that ends at the head. Only the headers of blocks matter; the
headers written are assumed to have distinct hashes.
-/

namespace GoAoa.Core

open List Option Function GoAoa.Dpos

namespace BlockChain

/-! ## The tree of stored blocks -/

variable {C : Crypto} {S : Set Header} {g : Header} {T : Nat} {bc : BlockChain}

/-- A block that hangs in the tree of stored blocks: it is genesis, or its parent is stored. -/
def Placed (S : Set Header) (g : Header) (bc : BlockChain) (b : Block) : Prop :=
  b.header ∈ S ∧ (b.numberU64 = 0 ∧ b.header = g ∨
    ∃ p, bc.blocks b.header.parentHash = some p ∧ b.numberU64 = p.numberU64 + 1)

/-- Blocks are stored under their hashes and hang in the tree. -/
structure Rooted (C : Crypto) (S : Set Header) (g : Header) (bc : BlockChain) : Prop where
  own : ∀ h b, bc.blocks h = some b → b.hash C = h
  placed : ∀ h b, bc.blocks h = some b → Placed S g bc b

/-- The stored blocks have the difficulty of their number; `T` is the difficulty of genesis. -/
structure Tree (C : Crypto) (S : Set Header) (g : Header) (T : Nat) (bc : BlockChain) : Prop
    extends Rooted C S g bc where
  td : ∀ h n d, bc.td h n = some d ↔ ∃ b, bc.blocks h = some b ∧ b.numberU64 = n ∧ d = T + n

theorem u64_pred {n : Nat} (h : n + 1 < 2 ^ 64) : u64 ((n + 1 : Nat) - 1) = n := by
  unfold u64; omega

theorem numberU64_lt (b : Block) : b.numberU64 < 2 ^ 64 := u64_lt _

theorem parentOf_eq {b p : Block} (hp : bc.blocks b.header.parentHash = some p)
    (hn : b.numberU64 = p.numberU64 + 1) : bc.parentOf b = some p := by
  have hlt := numberU64_lt b
  rw [hn] at hlt
  unfold parentOf getBlock
  rw [hn, u64_pred hlt, hp]
  simp

theorem Rooted.parent (ht : Rooted C S g bc) {b : Block} (hb : Placed S g bc b)
    (hn : b.numberU64 ≠ 0) : ∃ p, bc.parentOf b = some p ∧ Placed S g bc p ∧
      b.header.parentHash = C.headerHash p.header ∧ b.numberU64 = p.numberU64 + 1 := by
  rcases hb.2 with ⟨h0, -⟩ | ⟨p, hp, hnum⟩
  · exact absurd h0 hn
  · exact ⟨p, parentOf_eq hp hnum, ht.placed _ p hp, (ht.own _ p hp).symm, hnum⟩

/-! ## Branches -/

/-- `bs` leads from `x`, one parent link after the other, up to `y`. -/
inductive Path (C : Crypto) (S : Set Header) (x : Header) : List Block → Header → Prop where
  | nil : Path C S x [] x
  | snoc {bs : List Block} {y : Header} {b : Block} : Path C S x bs y → y ∈ S → b.header ∈ S →
      b.header.parentHash = C.headerHash y → b.numberU64 = u64 y.number + 1 →
      Path C S x (bs ++ [b]) b.header

theorem Path.trans {x y z : Header} {bs cs : List Block} (h : Path C S x bs y)
    (h' : Path C S y cs z) : Path C S x (bs ++ cs) z := by
  induction h' with
  | nil => simpa using h
  | snoc _ hy hb hhash hn ih =>
    rw [← append_assoc]
    exact ih.snoc hy hb hhash hn

/-- Walking down from a block that hangs in the tree reaches every number below it. -/
theorem Rooted.climb (ht : Rooted C S g bc) {target : Nat} (fuel : Nat) {b : Block}
    (acc : List Block) (hb : Placed S g bc b) (hle : target ≤ b.numberU64)
    (hfuel : b.numberU64 ≤ target + fuel) :
    ∃ c bs, bc.climb target fuel b acc = some (c, bs ++ acc) ∧ Placed S g bc c ∧
      c.numberU64 = target ∧ Path C S c.header bs b.header := by
  induction fuel generalizing b acc with
  | zero =>
    have heq : b.numberU64 = target := by omega
    exact ⟨b, [], by simp [BlockChain.climb, heq], hb, heq, .nil⟩
  | succ fuel ih =>
    by_cases heq : b.numberU64 = target
    · exact ⟨b, [], by simp [BlockChain.climb, heq], hb, heq, .nil⟩
    · obtain ⟨p, hp, hplaced, hhash, hnum⟩ := ht.parent hb (by omega)
      obtain ⟨c, bs, hc, hcp, hcn, hpath⟩ := ih (b :: acc) hplaced (by omega) (by omega)
      refine ⟨c, bs ++ [b], ?_, hcp, hcn, hpath.snoc hplaced.1 hb.1 hhash hnum⟩
      rw [BlockChain.climb, if_neg heq, hp, bind_some, hc]
      simp

theorem Placed.number_ne_zero {old new : Block} (hold : Placed S g bc old)
    (hnew : Placed S g bc new) (hnum : old.numberU64 = new.numberU64)
    (hne : old.hash C ≠ new.hash C) : old.numberU64 ≠ 0 := by
  intro h0
  rcases hold.2 with ⟨-, ho⟩ | ⟨p, -, hp⟩
  · rcases hnew.2 with ⟨-, hn⟩ | ⟨p, -, hp⟩
    · exact hne (congrArg C.headerHash (ho.trans hn.symm))
    · omega
  · omega

theorem Rooted.findCommon (ht : Rooted C S g bc) (hinj : S.InjOn C.headerHash) (fuel : Nat)
    {old new : Block} (acc : List Block) (hold : Placed S g bc old) (hnew : Placed S g bc new)
    (hnum : old.numberU64 = new.numberU64) (hfuel : old.numberU64 ≤ fuel) :
    ∃ c bs cs, bc.findCommon C fuel old new acc = .ok (bs ++ acc) ∧ c ∈ S ∧
      Path C S c bs new.header ∧ Path C S c cs old.header := by
  induction fuel generalizing old new acc with
  | zero =>
    have heq : old.hash C = new.hash C := by
      by_contra hne
      exact hold.number_ne_zero hnew hnum hne (by omega)
    have hh := hinj hold.1 hnew.1 heq
    exact ⟨new.header, [], [], by simp [BlockChain.findCommon, heq], hnew.1, .nil, hh ▸ .nil⟩
  | succ fuel ih =>
    by_cases heq : old.hash C = new.hash C
    · have hh := hinj hold.1 hnew.1 heq
      exact ⟨new.header, [], [], by simp [BlockChain.findCommon, heq], hnew.1, .nil, hh ▸ .nil⟩
    · have hpos := hold.number_ne_zero hnew hnum heq
      obtain ⟨p, hp, hpp, hph, hpn⟩ := ht.parent hold hpos
      obtain ⟨q, hq, hqp, hqh, hqn⟩ := ht.parent hnew (by omega)
      obtain ⟨c, bs, cs, hrun, hc, hbs, hcs⟩ := ih (new :: acc) hpp hqp (by omega) (by omega)
      refine ⟨c, bs ++ [new], cs ++ [old], ?_, hc, hbs.snoc hqp.1 hnew.1 hqh hqn,
        hcs.snoc hpp.1 hold.1 hph hpn⟩
      rw [BlockChain.findCommon, if_neg heq, hp, hq]
      simpa using hrun

theorem Rooted.newChain (ht : Rooted C S g bc) (hinj : S.InjOn C.headerHash) {old new : Block}
    (hold : Placed S g bc old) (hnew : Placed S g bc new) (hle : old.numberU64 ≤ new.numberU64) :
    ∃ c bs cs, bc.newChain C old new = .ok bs ∧ c ∈ S ∧
      Path C S c bs new.header ∧ Path C S c cs old.header := by
  obtain ⟨m, up, hclimb, hm, hmn, hup⟩ := ht.climb (new.numberU64 + 1) [] hnew hle (by omega)
  obtain ⟨c, bs, cs, hrun, hc, hbs, hcs⟩ :=
    ht.findCommon hinj (old.numberU64 + 1) up hold hm hmn.symm (by omega)
  rw [append_nil] at hclimb
  refine ⟨c, bs ++ up, cs, ?_, hc, hbs.trans hup, hcs⟩
  unfold BlockChain.newChain
  rw [if_neg (by omega), hclimb]
  exact hrun

/-! ## The number index -/

section Spine

variable {canonical canonical' : Nat → Option Hash}

/-- The index holds `x` and its ancestors down to genesis, each under its number. -/
inductive Spine (C : Crypto) (S : Set Header) (g : Header) (canonical : Nat → Option Hash) :
    Header → Prop where
  | genesis : canonical 0 = some (C.headerHash g) → Spine C S g canonical g
  | child {p x : Header} : Spine C S g canonical p → p ∈ S → x.parentHash = C.headerHash p →
      u64 x.number = u64 p.number + 1 → canonical (u64 x.number) = some (C.headerHash x) →
      Spine C S g canonical x

theorem Spine.at_number (hg : u64 g.number = 0) {x : Header} (h : Spine C S g canonical x) :
    canonical (u64 x.number) = some (C.headerHash x) := by
  cases h with
  | genesis h => rw [hg, h]
  | child _ _ _ _ h => exact h

theorem Spine.congr {x : Header} (h : Spine C S g canonical x)
    (hc : ∀ n, n ≤ u64 x.number → canonical' n = canonical n) : Spine C S g canonical' x := by
  induction h with
  | genesis h => exact .genesis ((hc 0 (Nat.zero_le _)).trans h)
  | child _ hp hhash hn h ih =>
    exact .child (ih fun n hle => hc n (by omega)) hp hhash hn ((hc _ (Nat.le_refl _)).trans h)

theorem Spine.of_path (hinj : S.InjOn C.headerHash) (hg : u64 g.number = 0) {x y : Header}
    {bs : List Block} (hp : Path C S x bs y) (h : Spine C S g canonical y) :
    Spine C S g canonical x := by
  induction hp with
  | nil => exact h
  | snoc hpath hy hb hhash hn ih =>
    unfold Block.numberU64 at hn
    refine ih ?_
    cases h with
    | genesis => omega
    | child hs hp hph =>
      rw [hinj hy hp (hhash.symm.trans hph)]
      exact hs

theorem inserts_spine {x y : Header} {bs : List Block}
    (hp : Path C S x bs y) (h : Spine C S g bc.canonical x) :
    Spine C S g (bs.foldl (insert C) bc).canonical y ∧
      (∀ n, u64 y.number < n → (bs.foldl (insert C) bc).canonical n = bc.canonical n) := by
  induction hp with
  | nil => exact ⟨h, fun n _ => rfl⟩
  | @snoc bs y b hpath hy hb hhash hn ih =>
    obtain ⟨hs, habove⟩ := ih
    have hn' : u64 b.header.number = u64 y.number + 1 := hn
    rw [foldl_append, foldl_cons, foldl_nil]
    refine ⟨.child (hs.congr fun n hle => ?_) hy hhash hn' ?_, fun n hlt => ?_⟩
    · exact update_of_ne (by omega) _ _
    · exact update_self _ _ _
    · exact (update_of_ne (by omega) _ _).trans (habove n (by omega))

end Spine

/-! ## Writing a block -/

section Write

/-- The index leads from genesis to the head, which is stored, and ends there. -/
structure Upright (C : Crypto) (S : Set Header) (g : Header) (T : Nat) (bc : BlockChain) : Prop
    extends Tree C S g T bc where
  head : (bc.blocks (bc.currentBlock.hash C)).isSome
  head_mem : bc.currentBlock.header ∈ S
  spine : Spine C S g bc.canonical bc.currentBlock.header
  above : ∀ n, bc.currentBlock.numberU64 < n → bc.canonical n = none

variable {b : Block}

theorem Rooted.header_eq (hr : Rooted C S g bc) (hinj : S.InjOn C.headerHash) {x : Block}
    (hb : b.header ∈ S) (hx : bc.blocks (b.hash C) = some x) : x.header = b.header :=
  hinj (hr.placed _ x hx).1 hb (hr.own _ x hx)

theorem Upright.placed_head (h : Upright C S g T bc) (hinj : S.InjOn C.headerHash) :
    Placed S g bc bc.currentBlock := by
  obtain ⟨x, hx⟩ := isSome_iff_exists.1 h.head
  have hh := h.header_eq hinj h.head_mem hx
  have hp := h.placed _ x hx
  unfold Placed Block.numberU64 at hp ⊢
  rwa [hh] at hp

theorem Upright.td_head (h : Upright C S g T bc) (hinj : S.InjOn C.headerHash) :
    bc.td (bc.currentBlock.hash C) bc.currentBlock.numberU64 =
      some (T + bc.currentBlock.numberU64) := by
  obtain ⟨x, hx⟩ := isSome_iff_exists.1 h.head
  have hh := h.header_eq hinj h.head_mem hx
  exact (h.td _ _ _).2 ⟨x, hx, by unfold Block.numberU64; rw [hh], rfl⟩

theorem Tree.parent_of_td (ht : Tree C S g T bc) {ptd : Nat} (hn : b.numberU64 ≠ 0)
    (htd : bc.td b.header.parentHash (u64 (b.numberU64 - 1)) = some ptd) :
    ∃ p, bc.blocks b.header.parentHash = some p ∧ b.numberU64 = p.numberU64 + 1 ∧
      ptd + 1 = T + b.numberU64 := by
  obtain ⟨p, hp, hpn, rfl⟩ := (ht.td _ _ _).1 htd
  have hlt := numberU64_lt b
  have hpred : u64 (b.numberU64 - 1) + 1 = b.numberU64 := by unfold u64; omega
  exact ⟨p, hp, by omega, by omega⟩

def store (C : Crypto) (T : Nat) (bc : BlockChain) (b : Block) : BlockChain :=
  { bc.writeTd (b.hash C) b.numberU64 (T + b.numberU64) with
    blocks := update bc.blocks (b.hash C) (some b) }

theorem Placed.store (hr : Rooted C S g bc) (hinj : S.InjOn C.headerHash) {x : Block}
    (hb : b.header ∈ S) (hx : Placed S g bc x) : Placed S g (bc.store C T b) x := by
  refine ⟨hx.1, hx.2.imp id ?_⟩
  rintro ⟨p, hp, hn⟩
  by_cases hk : x.header.parentHash = b.hash C
  · have hh := hr.header_eq hinj hb (hk ▸ hp)
    refine ⟨b, ?_, ?_⟩
    · simp [BlockChain.store, hk]
    · rw [hn]; unfold Block.numberU64; rw [hh]
  · exact ⟨p, by simpa [BlockChain.store, hk] using hp, hn⟩

theorem Tree.store (ht : Tree C S g T bc) (hinj : S.InjOn C.headerHash)
    (hb : Placed S g bc b) : Tree C S g T (bc.store C T b) where
  own h x hx := by
    simp only [BlockChain.store, update_apply] at hx
    split at hx
    · rename_i hk; rw [← some.inj hx, hk]
    · exact ht.own h x hx
  placed h x hx := by
    simp only [BlockChain.store, update_apply] at hx
    split at hx
    · rw [← some.inj hx]; exact hb.store ht.toRooted hinj hb.1
    · exact (ht.placed h x hx).store ht.toRooted hinj hb.1
  td h n d := by
    by_cases hk : h = b.hash C
    · subst hk
      by_cases hn : n = b.numberU64
      · subst hn
        simp [BlockChain.store, writeTd, eq_comm]
      · have hnone : bc.td (b.hash C) n = none := by
          by_contra hsome
          obtain ⟨d, hd⟩ := ne_none_iff_exists'.1 hsome
          obtain ⟨x, hx, hxn, -⟩ := (ht.td _ _ _).1 hd
          have hh := ht.header_eq hinj hb.1 hx
          exact hn (by rw [← hxn]; unfold Block.numberU64; rw [hh])
        simp only [BlockChain.store, writeTd, update_self, update_of_ne hn, hnone,
          some.injEq, exists_eq_left']
        simp [Ne.symm hn]
    · simp only [BlockChain.store, writeTd, update_of_ne hk]
      exact ht.td h n d

theorem Tree.congr {bc' : BlockChain} (ht : Tree C S g T bc) (hb : bc'.blocks = bc.blocks)
    (htd : bc'.td = bc.td) : Tree C S g T bc' where
  own h b hx := ht.own h b (hb ▸ hx)
  placed h b hx := by
    have hp := ht.placed h b (hb ▸ hx)
    unfold Placed at hp ⊢
    rwa [hb]
  td h n d := by rw [htd, hb]; exact ht.td h n d

theorem inserts_stored (bs : List Block) (bc : BlockChain) :
    (bs.foldl (insert C) bc).blocks = bc.blocks ∧ (bs.foldl (insert C) bc).td = bc.td := by
  induction bs generalizing bc with
  | nil => exact ⟨rfl, rfl⟩
  | cons b bs ih => exact ih (bc.insert C b)

section

variable (h : Upright C S g T bc)
include h

variable (hinj : S.InjOn C.headerHash)
include hinj

/-- **The new head.** The branch of `b` has been written from a block of the old chain on, the
index above is as before, and `b` is stored and becomes the head. -/
theorem Upright.head_moved {bc' : BlockChain}
    (hb : Placed S g bc b) (hblocks : bc'.blocks = (bc.store C T b).blocks)
    (htd : bc'.td = (bc.store C T b).td) (hspine : Spine C S g bc'.canonical b.header)
    (habove : ∀ n, b.numberU64 < n → bc'.canonical n = bc.canonical n)
    (hle : bc.currentBlock.numberU64 ≤ b.numberU64) (hcur : bc'.currentBlock = b) :
    Upright C S g T bc' where
  toTree := (h.toTree.store hinj hb).congr hblocks htd
  head := by rw [hcur, hblocks]; simp [BlockChain.store]
  head_mem := by rw [hcur]; exact hb.1
  spine := by rw [hcur]; exact hspine
  above n hn := by
    rw [hcur] at hn
    rw [habove n hn]
    exact h.above n (by omega)

theorem Upright.side_block
    (hb : Placed S g bc b) (k : Hash) : Upright C S g T ((bc.store C T b).removeFuture C k) where
  toTree := (h.toTree.store hinj hb).congr rfl rfl
  head := by
    change (update bc.blocks (b.hash C) (some b) (bc.currentBlock.hash C)).isSome
    rw [update_apply]
    split
    · rfl
    · exact h.head
  head_mem := h.head_mem
  spine := h.spine
  above := h.above

theorem Upright.reorg (hg : u64 g.number = 0) (hb : Placed S g bc b)
    (hle : bc.currentBlock.numberU64 ≤ b.numberU64) (d : Nat) :
    ∃ bc', (bc.writeTd (b.hash C) b.numberU64 d).reorg C bc.currentBlock b = .ok bc' ∧
      bc'.blocks = bc.blocks ∧ bc'.td = (bc.writeTd (b.hash C) b.numberU64 d).td ∧
      Spine C S g bc'.canonical b.header ∧
      ∀ n, b.numberU64 < n → bc'.canonical n = bc.canonical n := by
  have hr : Rooted C S g (bc.writeTd (b.hash C) b.numberU64 d) := ⟨h.own, h.placed⟩
  obtain ⟨c, bs, cs, hrun, -, hbs, hcs⟩ := hr.newChain hinj (h.placed_head hinj) hb hle
  have hc : Spine C S g (bc.writeTd (b.hash C) b.numberU64 d).canonical c :=
    .of_path hinj hg hcs h.spine
  obtain ⟨hs, habove⟩ := inserts_spine hbs hc
  obtain ⟨hblocks, htd⟩ := inserts_stored bs (bc.writeTd (b.hash C) b.numberU64 d)
  refine ⟨_, ?_, hblocks, htd, hs, habove⟩
  rw [BlockChain.reorg, hrun]
  rfl

theorem Upright.extend {p : Block}
    (hp : bc.blocks b.header.parentHash = some p) (hpn : b.numberU64 = p.numberU64 + 1)
    (hparent : b.header.parentHash = bc.currentBlock.hash C) :
    Spine C S g (bc.insert C b).canonical b.header := by
  have hh := h.header_eq hinj h.head_mem (hparent ▸ hp)
  have hn : u64 b.header.number = u64 bc.currentBlock.header.number + 1 := by
    rw [← hh]; exact hpn
  refine .child (h.spine.congr fun n hle => ?_) h.head_mem hparent hn (update_self _ _ _)
  refine update_of_ne ?_ _ _
  unfold Block.numberU64
  omega

end

theorem Spine.insert (hg : u64 g.number = 0)
    (hs : Spine C S g bc.canonical b.header) : Spine C S g (bc.insert C b).canonical b.header := by
  refine hs.congr fun n _ => ?_
  change update bc.canonical b.numberU64 (some (b.hash C)) n = bc.canonical n
  rw [update_apply]
  split
  · rename_i hn; rw [hn]; exact (hs.at_number hg).symm
  · rfl

/-- **Step lemma.** Writing a block keeps the canonical chain and never lowers the head. -/
theorem Upright.writeBlock (h : Upright C S g T bc) (hinj : S.InjOn C.headerHash)
    (hg : u64 g.number = 0) (coin : Hash → Bool) (hmem : b.header ∈ S) (hn : b.numberU64 ≠ 0) :
    ∃ bc' e, bc.writeBlockAndState C coin b = some (bc', e) ∧
      ((bc.td b.header.parentHash (u64 (b.numberU64 - 1))).isSome → e = none) ∧
      Upright C S g T bc' ∧ bc.currentBlock.numberU64 ≤ bc'.currentBlock.numberU64 := by
  unfold writeBlockAndState
  dsimp only
  cases htd : bc.td b.header.parentHash (u64 (b.numberU64 - 1)) with
  | none => exact ⟨bc, _, rfl, (nomatch ·), h, Nat.le_refl _⟩
  | some =>
    obtain ⟨p, hp, hpn, hw⟩ := h.parent_of_td hn htd
    have hb : Placed S g bc b := ⟨hmem, .inr ⟨p, hp, hpn⟩⟩
    dsimp only
    rw [h.td_head hinj, hw]
    dsimp only
    split
    · rename_i hbetter
      have hle : bc.currentBlock.numberU64 ≤ b.numberU64 := by
        simp only [Bool.or_eq_true, Bool.and_eq_true, decide_eq_true_eq, beq_iff_eq] at hbetter
        omega
      -- both arms end by storing `b` and making it the head
      split
      · rename_i e hreorg
        obtain ⟨bc', hok, -⟩ := h.reorg hinj hg hb hle (T + b.numberU64)
        split at hreorg
        · rw [hok] at hreorg; cases hreorg
        · cases hreorg
      · rename_i bc1 hreorg
        have hbc1 : bc1.blocks = bc.blocks ∧
            bc1.td = (bc.writeTd (b.hash C) b.numberU64 (T + b.numberU64)).td ∧
            Spine C S g (bc1.insert C b).canonical b.header ∧
            ∀ n, b.numberU64 < n → bc1.canonical n = bc.canonical n := by
          split at hreorg
          · obtain ⟨bc', hok, hblocks, htd', hs, habove⟩ := h.reorg hinj hg hb hle (T + b.numberU64)
            rw [hok] at hreorg
            cases hreorg
            exact ⟨hblocks, htd', hs.insert hg, habove⟩
          · rename_i hparent
            cases hreorg
            exact ⟨rfl, rfl, h.extend hinj hp hpn (not_not.1 hparent), fun _ _ => rfl⟩
        obtain ⟨hblocks, htd', hs, habove⟩ := hbc1
        refine ⟨_, _, rfl, fun _ => rfl, h.head_moved hinj hb ?_ htd' hs ?_ hle rfl, hle⟩
        · change update bc1.blocks _ _ = _
          rw [hblocks]; rfl
        · intro n hlt
          exact (update_of_ne (by omega) _ _).trans (habove n hlt)
    · exact ⟨_, _, rfl, fun _ => rfl, h.side_block hinj hb _, Nat.le_refl _⟩

end Write

/-! ## Runs -/

def ofGenesis (C : Crypto) (g : Block) (T : Nat) : BlockChain where
  blocks := update (fun _ => none) (g.hash C) (some g)
  td h n := if h = g.hash C ∧ n = g.numberU64 then some T else none
  canonical := update (fun _ => none) 0 (some (g.hash C))
  currentBlock := g
  futureBlocks := []

structure Write where
  block : Block
  coin : Hash → Bool

def write (C : Crypto) (w : Write) (bc : BlockChain) : Option BlockChain :=
  (bc.writeBlockAndState C w.coin w.block).map Prod.fst

def headTd (C : Crypto) (bc : BlockChain) : Option Nat :=
  bc.td (bc.currentBlock.hash C) bc.currentBlock.numberU64

/-- The index is a parent-linked chain of stored blocks from genesis to the head. -/
structure Integrity (C : Crypto) (g : Block) (bc : BlockChain) : Prop where
  genesis : bc.canonical 0 = some (g.hash C)
  head : bc.canonical bc.currentBlock.numberU64 = some (bc.currentBlock.hash C)
  linked : ∀ n, n < bc.currentBlock.numberU64 → ∃ b, bc.canonical (n + 1) = some (b.hash C) ∧
    bc.getBlock (b.hash C) (n + 1) = some b ∧ bc.canonical n = some b.header.parentHash
  above : ∀ n, bc.currentBlock.numberU64 < n → bc.canonical n = none

def headers (g : Block) (ws : List Write) : Set Header :=
  {x | x = g.header ∨ ∃ w ∈ ws, x = w.block.header}

section Runs

variable {g : Block}

theorem ofGenesis_upright (hg : g.numberU64 = 0) (hmem : g.header ∈ S) :
    Upright C S g.header T (ofGenesis C g T) where
  own h b hb := by
    simp only [ofGenesis, update_apply] at hb
    split at hb
    · rename_i hk; rw [← some.inj hb, hk]
    · cases hb
  placed h b hb := by
    simp only [ofGenesis, update_apply] at hb
    split at hb
    · rw [← some.inj hb]; exact ⟨hmem, .inl ⟨hg, rfl⟩⟩
    · cases hb
  td h n d := by
    by_cases hk : h = g.hash C
    · subst hk
      simp only [ofGenesis, true_and, update_self, some.injEq, exists_eq_left', hg]
      split
      · rename_i hn; subst hn; simp [eq_comm]
      · rename_i hn; simp [Ne.symm hn]
    · simp [ofGenesis, hk]
  head := by simp [ofGenesis]
  head_mem := hmem
  spine := .genesis (by simp [ofGenesis, Block.hash])
  above n hn := by
    have hne : n ≠ 0 := by omega
    simp [ofGenesis, hne]

theorem Spine.genesis_eq {canonical : Nat → Option Hash} {g x : Header}
    (h : Spine C S g canonical x) : canonical 0 = some (C.headerHash g) := by
  induction h with
  | genesis h => exact h
  | child _ _ _ _ _ ih => exact ih

theorem Rooted.linked {g x : Header} (hr : Rooted C S g bc) (hinj : S.InjOn C.headerHash)
    (hg : u64 g.number = 0) (h : Spine C S g bc.canonical x) {b : Block}
    (hb : bc.blocks (C.headerHash x) = some b) (hx : b.header = x) {n : Nat}
    (hn : n < u64 x.number) : ∃ b, bc.canonical (n + 1) = some (b.hash C) ∧
      bc.getBlock (b.hash C) (n + 1) = some b ∧ bc.canonical n = some b.header.parentHash := by
  induction h generalizing b with
  | genesis => omega
  | @child p x hs hp hhash hnum hcan ih =>
    subst hx
    by_cases heq : n = u64 p.number
    · subst heq
      refine ⟨b, by rw [← hnum]; exact hcan, ?_, by rw [hhash]; exact hs.at_number hg⟩
      exact filter_eq_some_iff.2 ⟨hb, by simp [Block.numberU64, hnum]⟩
    · obtain ⟨q, hq, -⟩ : ∃ q, bc.blocks b.header.parentHash = some q ∧
          b.numberU64 = q.numberU64 + 1 := by
        rcases (hr.placed _ b hb).2 with ⟨h0, -⟩ | h
        · unfold Block.numberU64 at h0; omega
        · exact h
      have hqp := hinj (hr.placed _ q hq).1 hp ((hr.own _ q hq).trans hhash)
      exact ih (hhash ▸ hq) hqp (by omega)

theorem Upright.integrity (h : Upright C S g.header T bc) (hinj : S.InjOn C.headerHash)
    (hg : g.numberU64 = 0) : Integrity C g bc where
  genesis := h.spine.genesis_eq
  head := h.spine.at_number hg
  linked n hn := by
    obtain ⟨b, hb⟩ := isSome_iff_exists.1 h.head
    exact h.linked hinj hg h.spine hb (h.header_eq hinj h.head_mem hb) hn
  above := h.above

theorem Upright.run (hinj : S.InjOn C.headerHash) (hg : g.numberU64 = 0) {ws : List Write}
    (hmem : ∀ w ∈ ws, w.block.header ∈ S ∧ w.block.numberU64 ≠ 0) (h : Upright C S g.header T bc) :
    ∃ bc', Run.exec (write C) ws bc = some bc' ∧ Upright C S g.header T bc' := by
  refine Run.progress ?_ (Run.Along.of_forall (fun w hw _ => hmem w hw) bc) h
  intro w bc hw h
  obtain ⟨bc', e, hrun, -, h', -⟩ := h.writeBlock hinj hg w.coin hw.1 hw.2
  exact ⟨bc', by rw [write, hrun]; rfl, h'⟩

/-- **Canonical chain integrity.** From genesis, whatever blocks are written in whatever order and
however ties fall out, the index is a parent-linked chain from genesis to the head before and
after every call, and the head's total difficulty does not decrease. -/
theorem canonical_integrity (C : Crypto) (g : Block) (T : Nat) (ws : List Write) (w : Write)
    (hg : g.numberU64 = 0) (hnum : ∀ x ∈ w :: ws, x.block.numberU64 ≠ 0)
    (hinj : (headers g (w :: ws)).InjOn C.headerHash) :
    ∃ bc bc' e d d', Run.exec (write C) ws (ofGenesis C g T) = some bc ∧
      bc.writeBlockAndState C w.coin w.block = some (bc', e) ∧
      ((bc.td w.block.header.parentHash (u64 (w.block.numberU64 - 1))).isSome → e = none) ∧
      Integrity C g bc ∧ Integrity C g bc' ∧
      bc.headTd C = some d ∧ bc'.headTd C = some d' ∧ d ≤ d' := by
  have hgen : g.header ∈ headers g (w :: ws) := Or.inl rfl
  have hmem : ∀ x ∈ w :: ws, x.block.header ∈ headers g (w :: ws) ∧ x.block.numberU64 ≠ 0 :=
    fun x hx => ⟨Or.inr ⟨x, hx, rfl⟩, hnum x hx⟩
  obtain ⟨bc, hrun, h⟩ := (ofGenesis_upright hg hgen).run hinj hg
    fun x hx => hmem x (mem_cons_of_mem w hx)
  obtain ⟨hw, hwn⟩ := hmem w mem_cons_self
  obtain ⟨bc', e, hwrite, herr, h', hle⟩ := h.writeBlock hinj hg w.coin hw hwn
  exact ⟨bc, bc', e, _, _, hrun, hwrite, herr, h.integrity hinj hg, h'.integrity hinj hg,
    h.td_head hinj, h'.td_head hinj, Nat.add_le_add_left hle T⟩

/-! ### A reorganisation -/

def plainBlock (parent : Hash) (number : Nat) (extra : Bytes) : Block :=
  .withBody { slotParent with parentHash := parent, number := number, extra := extra } []

/-- Two blocks on genesis, of which the first becomes the head; then a child of the second. -/
def forkWrites : List Write :=
  [⟨plainBlock 0 1 [0], fun _ => false⟩, ⟨plainBlock 0 1 [0, 0], fun _ => false⟩]

def forkChild : Write := ⟨plainBlock 2 2 [0, 0, 0], fun _ => false⟩

theorem canonical_integrity_fork : ∃ bc bc' e d d',
    Run.exec (write extraCrypto) forkWrites (ofGenesis extraCrypto (plainBlock 0 0 []) 1) =
        some bc ∧
      bc.writeBlockAndState extraCrypto forkChild.coin forkChild.block = some (bc', e) ∧
      ((bc.td forkChild.block.header.parentHash (u64 (forkChild.block.numberU64 - 1))).isSome →
        e = none) ∧
      Integrity extraCrypto (plainBlock 0 0 []) bc ∧ Integrity extraCrypto (plainBlock 0 0 []) bc' ∧
      bc.headTd extraCrypto = some d ∧ bc'.headTd extraCrypto = some d' ∧ d ≤ d' := by
  refine canonical_integrity extraCrypto (plainBlock 0 0 []) 1 forkWrites forkChild
    (by decide +kernel) (by decide +kernel) ?_
  rintro x (rfl | ⟨v, hv, rfl⟩) y (rfl | ⟨w, hw, rfl⟩)
  all_goals
    simp only [forkWrites, mem_cons, not_mem_nil, or_false] at *
  · decide +kernel
  · rcases hw with rfl | rfl | rfl <;> decide +kernel
  · rcases hv with rfl | rfl | rfl <;> decide +kernel
  · rcases hv with rfl | rfl | rfl <;> rcases hw with rfl | rfl | rfl <;> decide +kernel

end Runs

end BlockChain

end GoAoa.Core
