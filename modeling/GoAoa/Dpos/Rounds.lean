import GoAoa.Dpos.Shuffle
import GoAoa.Lib.Binary64
import Mathlib.Data.Rat.Floor

/-!
# The order of a round as a schedule

Whatever the hash, the order that `Shuffle` gives is a permutation, and `ShuffleNewRound` deals
the slots of the round out along it. Which order it is comes from the seed, and the seed is a
float: above `2 ^ 53` rounds it is not always the number of the round (`schedule_iff`).
-/

namespace GoAoa.Dpos

open List Option Nat Binary64 DelegateState

/-! ## The loops of `Shuffle` -/

section Loops

variable (currentSend : Nat → Nat) (delCount : Nat)

/-- The inner loop: it goes on with the counter of the outer one. -/
def innerLoop : Nat → Nat → Nat → List Nat → Nat × List Nat
  | 0, _, i, l => (i, l)
  | fuel + 1, x, i, l =>
    if x < 4 ∧ i < delCount then
      innerLoop fuel (x + 1) (i + 1) (swap l (currentSend x % delCount) i)
    else (i, l)

def outerLoop : Nat → Nat → List Nat → Option (List Nat)
  | 0, _, _ => none
  | fuel + 1, i, l =>
    if i < delCount then
      outerLoop fuel ((innerLoop currentSend delCount 4 0 i l).1 + 1)
        (innerLoop currentSend delCount 4 0 i l).2
    else some l

/-- What the loops do at index `i`. -/
def turn (l : List Nat) (i : Nat) : List Nat :=
  if i % 5 < 4 then swap l (currentSend (i % 5) % delCount) i else l

theorem innerLoop_eq {fuel x i : Nat} (l : List Nat) (hfuel : fuel + x = 4) (hx : i % 5 = x)
    (hi : i ≤ delCount) :
    innerLoop currentSend delCount fuel x i l = (min (i + fuel) delCount,
        (range' i (min fuel (delCount - i))).foldl (turn currentSend delCount) l) := by
  induction fuel generalizing x i l with
  | zero => simp [innerLoop, Nat.min_eq_left hi]
  | succ fuel ih =>
    unfold innerLoop
    by_cases hend : i < delCount
    · rw [if_pos ⟨by omega, hend⟩, ih _ (by omega) (by omega) (by omega)]
      have hmin : min (fuel + 1) (delCount - i) = min fuel (delCount - (i + 1)) + 1 := by omega
      rw [hmin, range'_succ, foldl_cons, turn, hx, if_pos (by omega)]
      congr 1
      omega
    · have hmin : min (fuel + 1) (delCount - i) = 0 := by omega
      rw [if_neg (fun h => hend h.2), hmin]
      simp only [range'_zero, foldl_nil, Prod.mk.injEq, and_true]
      omega

/-- The outer loop ends, and has taken a turn at every index. -/
theorem outerLoop_eq {fuel i : Nat} (l : List Nat) (hpos : 0 < fuel) (hfuel : delCount < fuel + i)
    (hi : delCount ≤ i ∨ i % 5 = 0) :
    outerLoop currentSend delCount fuel i l =
      some ((range' i (delCount - i)).foldl (turn currentSend delCount) l) := by
  induction fuel generalizing i l with
  | zero => omega
  | succ fuel ih =>
    unfold outerLoop
    by_cases hend : i < delCount
    · rw [if_pos hend, innerLoop_eq _ _ l (by omega) (by omega) (by omega)]
      rw [ih _ (by omega) (by omega) (by omega)]
      by_cases hlast : delCount ≤ i + 4
      · have hmin : min 4 (delCount - i) = delCount - i := by omega
        have hnone : delCount - (min (i + 4) delCount + 1) = 0 := by omega
        rw [hmin, hnone]
        rfl
      · -- the fifth index is passed over
        have hmin : min 4 (delCount - i) = 4 := by omega
        have hrest : delCount - i = 4 + ((delCount - (i + 4 + 1)) + 1) := by omega
        have hfifth : range' (i + 4) (delCount - (i + 4 + 1) + 1) =
            (i + 4) :: range' (i + 4 + 1) (delCount - (i + 4 + 1)) := range'_succ
        have hpass : ∀ l, turn currentSend delCount l (i + 4) = l := fun l =>
          if_neg (by omega)
        rw [hmin, Nat.min_eq_left (by omega), hrest, ← range'_append_1, foldl_append,
          hfifth, foldl_cons, hpass]
    · rw [if_neg hend, Nat.sub_eq_zero_of_le (by omega)]
      rfl

end Loops

/-- **The fold of `shuffle` is the two loops of the source**, which end. -/
theorem shuffle_eq_loops (digest : Int → Bool → Nat → Nat) (height : Int) {delegateNumber : Nat}
    (h : delegateNumber ≠ 0) :
    shuffle digest height delegateNumber =
      outerLoop (digest (height.tdiv delegateNumber) (0 < height.tmod delegateNumber))
        delegateNumber (delegateNumber + 1) 0 (range delegateNumber) := by
  rw [outerLoop_eq _ _ _ (by omega) (by omega) (.inr rfl), shuffle, if_neg h, Nat.sub_zero,
    ← range_eq_range']
  rfl

theorem shuffle_eq_loops_three : shuffle (fun _ _ i => i) 4 3 =
    outerLoop (fun i => i) 3 4 0 (range 3) := shuffle_eq_loops _ _ (by decide)

/-! ## Every order is a permutation -/

variable {l : List Nat}

theorem swap_perm {i j : Nat} (hi : i < l.length) (hj : j < l.length) : (swap l i j).Perm l := by
  unfold swap
  rw [← getElem_eq_getD 0 (h := hi), ← getElem_eq_getD 0]
  exact set_set_perm hi hj

theorem getElem?_swap_left {i j : Nat} (hi : i < l.length) (hj : j < l.length) :
    (swap l i j)[i]? = l[j]? := by
  unfold swap
  by_cases h : j = i
  · subst h
    simp [hi]
  · simp [h, hi, hj]

theorem getElem?_swap_of_ne {i j k : Nat} (hi : i ≠ k) (hj : j ≠ k) : (swap l i j)[k]? = l[k]? := by
  unfold swap
  rw [getElem?_set_ne hj, getElem?_set_ne hi]

section Turns

variable {currentSend : Nat → Nat} {delCount : Nat} {l : List Nat}

theorem turn_perm {i : Nat} (hl : l.length = delCount) (hi : i < delCount) :
    (turn currentSend delCount l i).Perm l := by
  unfold turn
  split
  · have hpos := lt_of_le_of_lt (zero_le i) hi
    exact swap_perm (by rw [hl]; exact mod_lt _ hpos) (by omega)
  · exact Perm.refl l

variable {is : List Nat}

theorem turns_perm (hl : l.length = delCount) (his : ∀ i ∈ is, i < delCount) :
    (is.foldl (turn currentSend delCount) l).Perm l := by
  induction is generalizing l with
  | nil => exact Perm.refl l
  | cons i is ih =>
    have hone : (turn currentSend delCount l i).Perm l := turn_perm hl (his i mem_cons_self)
    have hrest := ih (hone.length_eq.trans hl) fun j hj => his j (mem_cons_of_mem i hj)
    exact hrest.trans hone

theorem turns_untouched {k : Nat}
    (h : ∀ i ∈ is, i ≠ k ∧ (i % 5 < 4 → currentSend (i % 5) % delCount ≠ k)) :
    (is.foldl (turn currentSend delCount) l)[k]? = l[k]? := by
  induction is generalizing l with
  | nil => rfl
  | cons i is ih =>
    obtain ⟨hi, hsend⟩ := h i mem_cons_self
    rw [foldl_cons, ih fun j hj => h j (mem_cons_of_mem i hj), turn]
    split
    · rename_i hx
      exact getElem?_swap_of_ne (hsend hx) hi
    · rfl

theorem turns_passed (h : ∀ i ∈ is, ¬ i % 5 < 4) : is.foldl (turn currentSend delCount) l = l := by
  induction is with
  | nil => rfl
  | cons i is ih =>
    rw [foldl_cons, turn, if_neg (h i mem_cons_self)]
    exact ih fun j hj => h j (mem_cons_of_mem i hj)

end Turns

/-! ## The seed -/

/-- The seed of `Shuffle` from the quotient and whether it is rounded up. -/
def floatSeed (quotient : Int) (up : Bool) : Int :=
  if up then ofInt (ofInt quotient + 1) else ofInt quotient

/-- The characters of the hash of the seed. -/
def digestOf (hash : Int → Nat → Nat) (quotient : Int) (up : Bool) : Nat → Nat :=
  hash (floatSeed quotient up)

def IsHex (c : Nat) : Prop := (48 ≤ c ∧ c ≤ 57) ∨ (97 ≤ c ∧ c ≤ 102)

def order (currentSend : Nat → Nat) (n : Nat) : List Nat :=
  (range n).foldl (turn currentSend n) (range n)

def roundNumber (beginTime : Int) (k : Nat) : Int := ⌈((beginTime + 1 : Int) : ℚ) / (k : ℚ)⌉

def seed (height : Int) (k : Nat) : Int := floatSeed (height.tdiv k) (0 < height.tmod k)

theorem shuffle_eq (hash : Int → Nat → Nat) (height : Int) {k : Nat} (hk : 0 < k) :
    shuffle (digestOf hash) height k = some (order (hash (seed height k)) k) := by
  rw [shuffle, if_neg (ne_of_gt hk)]
  rfl

theorem order_perm (currentSend : Nat → Nat) (n : Nat) : (order currentSend n).Perm (range n) :=
  turns_perm length_range fun _ hi => mem_range.1 hi

theorem order_one (currentSend : Nat → Nat) : order currentSend 1 = [0] := by
  simp [order, turn, swap, mod_one]

theorem roundNumber_eq (b : Int) (k : Nat) : roundNumber b k = -(-(b + 1) / (k : Int)) :=
  Rat.ceil_intCast_div_natCast (b + 1) k

variable {b : Int} {k : Nat}

theorem i64_succ (hlow : -2 ^ 63 ≤ b) (hhigh : b < 2 ^ 63 - 1) : i64 (b + 1) = b + 1 :=
  i64_of_range (by omega) (by omega)

theorem i64_last : i64 ((2 ^ 63 - 1 : Int) + 1) = -2 ^ 63 := by
  unfold i64
  rfl

theorem roundNumber_pos_iff (hk : 0 < k) : 0 < roundNumber b k ↔ 0 < b + 1 := by
  rw [roundNumber_eq]
  constructor
  · intro h
    by_contra hneg
    have := Int.ediv_nonneg (a := -(b + 1)) (b := k) (by omega) (by omega)
    omega
  · intro h
    have := Int.ediv_neg_of_neg_of_pos (a := -(b + 1)) (b := k) (by omega) (by omega)
    omega

/-- Up to round zero the seed is the number of the round. -/
theorem seed_of_nonpos (hk : 0 < k) (h : roundNumber b k ≤ 0) :
    seed (b + 1) k = ofInt (roundNumber b k) := by
  have hb : b + 1 ≤ 0 := by
    by_contra hpos
    have := (roundNumber_pos_iff (b := b) hk).2 (by omega)
    omega
  obtain ⟨n, hn⟩ := Int.eq_ofNat_of_zero_le (a := -(b + 1)) (by omega)
  have hh : b + 1 = -(n : Int) := by omega
  have hmod : ¬ 0 < (b + 1).tmod k := by
    have := Int.tmod_nonneg k (Int.natCast_nonneg n)
    rw [hh, Int.neg_tmod]
    omega
  have hdiv : (b + 1).tdiv k = roundNumber b k := by
    rw [roundNumber_eq, hn, hh, Int.neg_tdiv, Int.tdiv_eq_ediv_of_nonneg (by omega)]
  rw [seed, floatSeed, if_neg (by simpa using hmod), hdiv]

theorem seed_of_dvd (hk : 0 < k) (hpos : 0 < roundNumber b k) (hdvd : (k : Int) ∣ b + 1) :
    seed (b + 1) k = ofInt (roundNumber b k) := by
  have hb := (roundNumber_pos_iff hk).1 hpos
  obtain ⟨q, hq⟩ := hdvd
  have hk' : (k : Int) ≠ 0 := by omega
  have hmod : (b + 1).tmod k = 0 := by
    rw [hq, Int.mul_tmod_right]
  have hdiv : (b + 1).tdiv k = roundNumber b k := by
    rw [roundNumber_eq, hq, Int.mul_tdiv_cancel_left _ hk', ← Int.mul_neg,
      Int.mul_ediv_cancel_left _ hk', Int.neg_neg]
  rw [seed, floatSeed, hmod, if_neg (by simp), hdiv]

/-- Where the quotient is rounded up, the seed is a sum of floats. -/
theorem seed_of_not_dvd (hk : 0 < k) (hpos : 0 < roundNumber b k) (hdvd : ¬ (k : Int) ∣ b + 1) :
    seed (b + 1) k = ofInt (ofInt (roundNumber b k - 1) + 1) := by
  have hb := (roundNumber_pos_iff hk).1 hpos
  have hne : (b + 1) % k ≠ 0 := fun h => hdvd (Int.dvd_of_emod_eq_zero h)
  have hmod : 0 < (b + 1).tmod k := by
    rw [Int.tmod_eq_emod_of_nonneg (by omega)]
    omega
  have hdiv : (b + 1).tdiv k = roundNumber b k - 1 := by
    rw [roundNumber_eq, Int.tdiv_eq_ediv_of_nonneg (by omega), Int.neg_ediv, if_neg hdvd,
      Int.sign_eq_one_of_pos (by omega)]
    omega
  rw [seed, floatSeed, if_pos (by simpa using hmod), hdiv]

/-! ## Two hashes that order differently -/

def lastSwapped (n : Nat) : Nat := if (n - 1) % 5 < 4 then n - 1 else n - 2

/-- The characters `0000`, and the same with a `1` where the last swap reads. -/
def zeros (_ : Nat) : Nat := 48

def zerosBut (n x : Nat) : Nat := if x = lastSwapped n % 5 then 49 else 48

/-- The index of the last swap ends at the position that the last swap reads. -/
theorem order_last {currentSend : Nat → Nat} {n : Nat} (hn : 2 ≤ n)
    (hfree : ∀ x, currentSend x % n < lastSwapped n) :
    (order currentSend n)[currentSend (lastSwapped n % 5) % n]? = some (lastSwapped n) := by
  have hswap : lastSwapped n % 5 < 4 := by
    unfold lastSwapped
    split <;> omega
  have hlast : lastSwapped n < n := by
    unfold lastSwapped
    split <;> omega
  have hpass : ∀ i, lastSwapped n < i → i < n → ¬ i % 5 < 4 := by
    unfold lastSwapped
    split <;> omega
  have hsplit : n = lastSwapped n + ((n - (lastSwapped n + 1)) + 1) := by omega
  have hrange : range n = range (lastSwapped n) ++
      lastSwapped n :: range' (lastSwapped n + 1) (n - (lastSwapped n + 1)) := by
    have hcons : range' (lastSwapped n) ((n - (lastSwapped n + 1)) + 1) =
        lastSwapped n :: range' (lastSwapped n + 1) (n - (lastSwapped n + 1)) :=
      range'_succ
    have happ := @List.range'_append_1 0 (lastSwapped n) ((n - (lastSwapped n + 1)) + 1)
    rw [zero_add, ← hsplit, hcons] at happ
    rw [range_eq_range', range_eq_range', ← happ]
  have hbefore : ((range (lastSwapped n)).foldl (turn currentSend n)
      (range n))[lastSwapped n]? = some (lastSwapped n) := by
    rw [turns_untouched, getElem?_range hlast]
    intro i hi
    exact ⟨Nat.ne_of_lt (mem_range.1 hi), fun _ => Nat.ne_of_lt (hfree _)⟩
  have hlength : ((range (lastSwapped n)).foldl (turn currentSend n) (range n)).length = n := by
    have hperm : ((range (lastSwapped n)).foldl (turn currentSend n) (range n)).Perm (range n) :=
      turns_perm length_range fun i hi => lt_trans (mem_range.1 hi) hlast
    rw [hperm.length_eq, length_range]
  have hafter : ∀ l, (range' (lastSwapped n + 1) (n - (lastSwapped n + 1))).foldl
      (turn currentSend n) l = l := by
    intro l
    refine turns_passed fun i hi => hpass i ?_ ?_ <;> simp only [mem_range'_1] at hi <;> omega
  unfold order
  rw [show (range n).foldl (turn currentSend n) (range n) = _ from
    congrArg (fun is => foldl (turn currentSend n) (range n) is) hrange]
  rw [foldl_append, foldl_cons, hafter, turn, if_pos hswap,
    getElem?_swap_left (by rw [hlength]; exact mod_lt _ (by omega)) (by omega)]
  exact hbefore

theorem order_ne {n : Nat} (hn : 2 ≤ n) : order zeros n ≠ order (zerosBut n) n := by
  rcases lt_or_ge n 52 with hsmall | hbig
  · revert n
    decide +kernel
  · intro heq
    have hlast : 50 ≤ lastSwapped n := by
      unfold lastSwapped
      split <;> omega
    have hzero := @order_last zeros n hn fun x => by
      rw [zeros, mod_eq_of_lt (by omega)]
      omega
    have hone := @order_last (zerosBut n) n hn fun x => by
      unfold zerosBut
      split <;> rw [mod_eq_of_lt (by omega)] <;> omega
    rw [zeros, mod_eq_of_lt (by omega), heq] at hzero
    rw [zerosBut, if_pos rfl, mod_eq_of_lt (by omega)] at hone
    have hnodup : (order (zerosBut n) n).Nodup := (order_perm _ n).nodup_iff.2 nodup_range
    have hlen : (order (zerosBut n) n).length = n := by
      rw [(order_perm _ n).length_eq, length_range]
    have := (getElem?_inj (by omega) hnodup).1 (hzero.trans hone.symm)
    omega

/-! ## The schedule -/

def slot (beginTime blockInterval : Int) (i : Nat) (c : Candidate) : RoundDel :=
  { workTime := u64 (beginTime + i * blockInterval), address := c.address
    vote := c.vote, nickname := c.nickname }

/-- What the entries of a round keep of a candidate. -/
def RoundDel.info (d : RoundDel) : Address × Nat × Bytes := (d.address, d.vote, d.nickname)

def infoOf (c : Candidate) : Address × Nat × Bytes := (c.address, c.vote, c.nickname)

/-- The round is dealt out in the order `σ`: the slots follow each other from the begin time on,
and each of the first candidates has one. -/
structure Schedule (hash : Int → Nat → Nat) (beginTime : Int) (maxElectDelegate : Nat)
    (currentDposList : List Candidate) (blockInterval : Int) (σ : List Nat) : Prop where
  shuffled : shuffle (digestOf hash) (i64 (beginTime + 1))
    (min currentDposList.length maxElectDelegate) = some σ
  perm : σ.Perm (range (min currentDposList.length maxElectDelegate))
  dealt : ∃ out, shuffleNewRound (digestOf hash) beginTime maxElectDelegate currentDposList
      blockInterval = some out ∧
    (∀ i : Nat, out[i]? =
      (σ[i]?.bind fun j => currentDposList[j]?).map (slot beginTime blockInterval i)) ∧
    (out.map RoundDel.info).Perm
      ((currentDposList.take (min currentDposList.length maxElectDelegate)).map infoOf)

theorem mapM_eq_some_map {α β : Type} {f : α → Option β} {g : α → β} {l : List α}
    (h : ∀ x ∈ l, f x = some (g x)) : l.mapM f = some (l.map g) := by
  induction l with
  | nil => rfl
  | cons x l ih =>
    rw [mapM_cons, h x mem_cons_self, ih fun y hy => h y (mem_cons_of_mem x hy)]
    rfl

section Schedule

variable {hash : Int → Nat → Nat} {m : Nat} {l : List Candidate} {interval : Int}

/-- **Every round is a schedule**, whatever the hash of its seed. -/
theorem schedule_order (hm : 1 ≤ m) (hl : l ≠ []) : Schedule hash b m l interval
      (order (hash (seed (i64 (b + 1)) (min l.length m))) (min l.length m)) := by
  have hk : 0 < min l.length m := by
    have := length_pos_iff.2 hl
    omega
  generalize hcs : hash (seed (i64 (b + 1)) (min l.length m)) = currentSend
  have hshuffled : shuffle (digestOf hash) (i64 (b + 1)) (min l.length m) =
      some (order currentSend (min l.length m)) := by rw [shuffle_eq hash _ hk, hcs]
  have hperm := order_perm currentSend (min l.length m)
  generalize order currentSend (min l.length m) = σ at hshuffled hperm ⊢
  have hlength : σ.length = min l.length m := by rw [hperm.length_eq, length_range]
  have hentry : ∀ i (hi : i < min l.length m), ∃ hj : σ[i] < l.length,
      (σ[i]?.bind fun j => l[j]?) = some l[σ[i]] := by
    intro i hi
    have hj : σ[i] < min l.length m := mem_range.1 (hperm.mem_iff.1 (getElem_mem _))
    exact ⟨by omega, by simp [hlength, hi]⟩
  -- a candidate for the positions outside, which no slot reads
  let entry (j : Nat) : Candidate := l.getD j (l.head hl)
  have hread : ∀ i < min l.length m, (σ[i]?.bind fun j => l[j]?) = some (entry (σ.getD i 0)) := by
    intro i hi
    obtain ⟨hj, heq⟩ := hentry i hi
    rw [heq]
    simp [entry, hlength, hi, hj]
  have hrun : shuffleNewRound (digestOf hash) b m l interval =
      some ((range (min l.length m)).map fun i => slot b interval i (entry (σ.getD i 0))) := by
    unfold shuffleNewRound
    dsimp only
    rw [hshuffled, bind_some]
    refine mapM_eq_some_map fun i hi => ?_
    rw [hread i (mem_range.1 hi)]
    rfl
  refine ⟨hshuffled, hperm, _, hrun, fun i => ?_, ?_⟩
  · rcases lt_or_ge i (min l.length m) with hi | hi
    · rw [hread i hi, getElem?_map, getElem?_range hi]
      rfl
    · rw [getElem?_eq_none (by simpa using hi), getElem?_eq_none (by omega)]
      rfl
  · have hinfo : ((range (min l.length m)).map fun i =>
        slot b interval i (entry (σ.getD i 0))).map RoundDel.info =
        σ.map fun j => infoOf (entry j) := by
      refine ext_getElem (by simp [hlength]) fun i hi hi' => ?_
      have hi : i < σ.length := by simpa using hi'
      simp [hi, slot, RoundDel.info, infoOf]
    have htake : (range (min l.length m)).map (fun j => infoOf (entry j)) =
        (l.take (min l.length m)).map infoOf := by
      refine ext_getElem (by simp) fun i hi hi' => ?_
      have hi : i < min l.length m := by simpa using hi
      have hlt : i < l.length := by omega
      simp [entry, hlt]
    rw [hinfo, ← htake]
    exact hperm.map _

end Schedule

/-- The two begin times of a round give one seed: there is one slot, or the number of the round is
not positive, or the quotient is rounded up for both or for none, or the float of the number is
reached from the float before it. At the last time of 64 bits the sum with one overflows. -/
def Steady (b₁ b₂ : Int) (k : Nat) : Prop :=
  k = 1 ∨ ((b₁ = 2 ^ 63 - 1 ↔ b₂ = 2 ^ 63 - 1) ∧
    (roundNumber b₁ k ≤ 0 ∨ ((k : Int) ∣ b₁ + 1 ↔ (k : Int) ∣ b₂ + 1) ∨
      ofInt (ofInt (roundNumber b₁ k - 1) + 1) =
        ofInt (roundNumber b₁ k)))

section Steady

variable {b₁ b₂ : Int}

/-- The seed of a begin time whose sum with one does not overflow. -/
theorem seed_cases (hk : 0 < k) (hlow : -2 ^ 63 ≤ b) (hhigh : b < 2 ^ 63 - 1) :
    seed (i64 (b + 1)) k =
      if 0 < roundNumber b k ∧ ¬ (k : Int) ∣ b + 1 then
        ofInt (ofInt (roundNumber b k - 1) + 1)
      else ofInt (roundNumber b k) := by
  rw [i64_succ hlow hhigh]
  split
  · rename_i h
    exact seed_of_not_dvd hk h.1 h.2
  · rename_i h
    rcases Int.lt_or_le 0 (roundNumber b k) with hpos | hneg
    · exact seed_of_dvd hk hpos (Classical.not_not.1 fun hdvd => h ⟨hpos, hdvd⟩)
    · exact seed_of_nonpos hk hneg

theorem seed_last_neg (hk : 0 < k) (hhigh : k < 2 ^ 63) :
    seed (i64 ((2 ^ 63 - 1 : Int) + 1)) k < 0 := by
  have hnone : ¬ 0 < (-2 ^ 63 : Int).tmod k := by
    have := Int.tmod_nonneg k (show (0 : Int) ≤ 2 ^ 63 by decide)
    rw [Int.neg_tmod]
    omega
  have hdiv : (-2 ^ 63 : Int).tdiv k < 0 := by
    have : (1 : Int) ≤ 2 ^ 63 / k := Int.le_ediv_of_mul_le (by omega) (by omega)
    rw [Int.neg_tdiv, Int.tdiv_eq_ediv_of_nonneg (by decide)]
    omega
  rw [i64_last, seed, floatSeed, if_neg (by simpa using hnone)]
  exact ofInt_neg hdiv

theorem seed_nonneg (hk : 0 < k) (hlow : -2 ^ 63 ≤ b) (hhigh : b < 2 ^ 63 - 1)
    (hpos : 0 < roundNumber b k) : 0 ≤ seed (i64 (b + 1)) k := by
  rw [seed_cases hk hlow hhigh]
  split
  · have := ofInt_nonneg (x := roundNumber b k - 1) (by omega)
    exact ofInt_nonneg (by omega)
  · exact ofInt_nonneg (by omega)

theorem steady_iff (hk : 0 < k) (hkhigh : k < 2 ^ 63) (hlow1 : -2 ^ 63 ≤ b₁) (hhigh1 : b₁ < 2 ^ 63)
    (hlow2 : -2 ^ 63 ≤ b₂) (hhigh2 : b₂ < 2 ^ 63) (hround : roundNumber b₁ k = roundNumber b₂ k) :
    Steady b₁ b₂ k ↔ k = 1 ∨ seed (i64 (b₁ + 1)) k = seed (i64 (b₂ + 1)) k := by
  have hlast : ∀ {b}, b = 2 ^ 63 - 1 → 0 < roundNumber b k := fun h =>
    (roundNumber_pos_iff hk).2 (by omega)
  refine or_congr_right ?_
  by_cases h1 : b₁ = 2 ^ 63 - 1 <;> by_cases h2 : b₂ = 2 ^ 63 - 1
  · rw [h1, h2]
    simp
  · have hneg := seed_last_neg hk hkhigh
    have hnonneg := seed_nonneg hk hlow2 (by omega) (hround ▸ hlast h1)
    rw [h1]
    exact ⟨fun h => absurd (h.1.1 rfl) h2, fun h => by omega⟩
  · have hneg := seed_last_neg hk hkhigh
    have hnonneg := seed_nonneg hk hlow1 (by omega) (hround ▸ hlast h2)
    rw [h2]
    exact ⟨fun h => absurd (h.1.2 rfl) h1, fun h => by omega⟩
  · rw [seed_cases hk hlow1 (by omega), seed_cases hk hlow2 (by omega), ← hround]
    by_cases hpos : 0 < roundNumber b₁ k <;> by_cases hd1 : (k : Int) ∣ b₁ + 1 <;>
      by_cases hd2 : (k : Int) ∣ b₂ + 1 <;> simp [hpos, hd1, hd2, eq_comm] <;> omega

theorem steady_of_le (hlast : b₁ = 2 ^ 63 - 1 ↔ b₂ = 2 ^ 63 - 1) (h : roundNumber b₁ k ≤ 2 ^ 53) :
    Steady b₁ b₂ k := by
  refine .inr ⟨hlast, ?_⟩
  rcases Int.lt_or_le 0 (roundNumber b₁ k) with hpos | hneg
  · refine .inr (.inr ?_)
    rw [ofInt_of_le (x := roundNumber b₁ k - 1) (by omega), Int.sub_add_cancel]
  · exact .inl hneg

end Steady

/-- **Rounds of one number are in one order.** Whatever the hash, the candidates are dealt out in a
permutation; that two begin times of a round give the same permutation under every hash holds if
and only if they are steady. -/
theorem schedule_iff {b₁ b₂ : Int} {m₁ m₂ : Nat} {l₁ l₂ : List Candidate} (interval₁ interval₂ : Int)
    (hlow₁ : -2 ^ 63 ≤ b₁) (hhigh₁ : b₁ < 2 ^ 63) (hlow₂ : -2 ^ 63 ≤ b₂) (hhigh₂ : b₂ < 2 ^ 63)
    (hm₁ : 1 ≤ m₁) (hm₂ : 1 ≤ m₂) (hint : m₁ < 2 ^ 63) (hl₁ : l₁ ≠ []) (hl₂ : l₂ ≠ [])
    (hlength : min l₁.length m₁ = min l₂.length m₂)
    (hround : ⌈((b₁ + 1 : Int) : ℚ) / (min l₁.length m₁ : Nat)⌉ =
      ⌈((b₂ + 1 : Int) : ℚ) / (min l₁.length m₁ : Nat)⌉) :
    (∀ hash : Int → Nat → Nat, (∀ s x, IsHex (hash s x)) →
      ∃ σ, Schedule hash b₁ m₁ l₁ interval₁ σ ∧ Schedule hash b₂ m₂ l₂ interval₂ σ) ↔
    Steady b₁ b₂ (min l₁.length m₁) := by
  have hk : 0 < min l₁.length m₁ := by
    have := length_pos_iff.2 hl₁
    omega
  rw [steady_iff hk (by omega) hlow₁ hhigh₁ hlow₂ hhigh₂ hround]
  constructor
  · intro hall
    by_contra hne
    obtain ⟨-, hseed⟩ := not_or.1 hne
    let hash (s : Int) : Nat → Nat :=
      if s = seed (i64 (b₁ + 1)) (min l₁.length m₁) then zeros else zerosBut (min l₁.length m₁)
    have hhex : ∀ s x, IsHex (hash s x) := by
      intro s x
      simp only [hash]
      split
      · exact .inl (by unfold zeros; decide)
      · unfold zerosBut
        split <;> exact .inl (by decide)
    obtain ⟨σ, h1, h2⟩ := hall hash hhex
    have hσ1 := h1.shuffled
    have hσ2 := h2.shuffled
    rw [shuffle_eq _ _ hk] at hσ1
    rw [← hlength, shuffle_eq _ _ hk] at hσ2
    have heq := some.inj (hσ1.trans hσ2.symm)
    simp only [hash, if_pos, if_neg (Ne.symm hseed)] at heq
    exact order_ne (by omega) heq
  · intro hsame hash _
    refine ⟨_, schedule_order hm₁ hl₁, ?_⟩
    have h2 : Schedule hash b₂ m₂ l₂ interval₂
        (order (hash (seed (i64 (b₂ + 1)) (min l₂.length m₂))) (min l₂.length m₂)) :=
      schedule_order hm₂ hl₂
    rw [← hlength] at h2
    rcases hsame with hone | hseed
    · rw [hone, order_one] at h2 ⊢
      exact h2
    · rw [hseed]
      exact h2

def threeCandidates : List Candidate := [⟨1, 30, [], 0⟩, ⟨2, 20, [], 0⟩, ⟨3, 10, [], 0⟩]

/-- The first characters of the SHA-256 hashes of the floats `2 ^ 53` and `2 ^ 53 + 2`, in the
notation of `FormatFloat`. -/
def sha256 (s : Int) (x : Nat) : Nat :=
  if s = 2 ^ 53 then [53, 54, 101, 102].getD x 48 else [101, 50, 99, 100].getD x 48

theorem isHex_sha256 (s : Int) (x : Nat) : IsHex (sha256 s x) := by
  have hget : ∀ l : List Nat, (∀ y ∈ l, IsHex y) → IsHex (l.getD x 48) := by
    intro l hl
    rw [getD_eq_getElem?_getD]
    cases hx : l[x]? with
    | none => exact .inl (by decide)
    | some y => exact hl y (mem_of_getElem? hx)
  unfold sha256
  split <;> exact hget _ (by unfold IsHex; decide)

theorem schedule_small :
    ∃ σ, Schedule sha256 9 3 threeCandidates 10 σ ∧ Schedule sha256 10 3 threeCandidates 10 σ := by
  have hround : roundNumber 9 3 = roundNumber 10 3 := by
    rw [roundNumber_eq, roundNumber_eq]
    decide
  have hle : roundNumber 9 3 ≤ 2 ^ 53 := by
    rw [roundNumber_eq]
    decide
  have hiff := @schedule_iff 9 10 3 3 threeCandidates threeCandidates 10 10 (by decide) (by decide)
    (by decide) (by decide) (by decide) (by decide) (by decide) (by decide) (by decide) rfl hround
  exact hiff.2 (steady_of_le (by decide) hle) sha256 isHex_sha256

/-- **Two begin times of one round give two orders.** The quotient of the first is `2 ^ 53 + 1`,
which is no float. -/
theorem not_schedule_far : ⌈(((3 * (2 ^ 53 + 1) : Int) + 1 : Int) : ℚ) / (3 : Nat)⌉ =
      ⌈(((3 * (2 ^ 53 + 2) - 1 : Int) + 1 : Int) : ℚ) / (3 : Nat)⌉ ∧
    (shuffleNewRound (digestOf sha256) (3 * (2 ^ 53 + 1)) 3 threeCandidates 10).map
      (List.map fun d => d.address) = some [2, 3, 1] ∧
    (shuffleNewRound (digestOf sha256) (3 * (2 ^ 53 + 2) - 1) 3 threeCandidates 10).map
      (List.map fun d => d.address) = some [2, 1, 3] ∧
    ¬ ∃ σ, Schedule sha256 (3 * (2 ^ 53 + 1)) 3 threeCandidates 10 σ ∧
      Schedule sha256 (3 * (2 ^ 53 + 2) - 1) 3 threeCandidates 10 σ := by
  refine ⟨?_, by decide +kernel, by decide +kernel, ?_⟩
  · have hround : roundNumber (3 * (2 ^ 53 + 1)) 3 = roundNumber (3 * (2 ^ 53 + 2) - 1) 3 := by
      rw [roundNumber_eq, roundNumber_eq]
      decide
    exact hround
  · rintro ⟨σ, h1, h2⟩
    have hσ1 : shuffle (digestOf sha256) (i64 (3 * (2 ^ 53 + 1) + 1)) 3 = some [1, 2, 0] := by
      decide +kernel
    have hσ2 : shuffle (digestOf sha256) (i64 (3 * (2 ^ 53 + 2) - 1 + 1)) 3 = some [1, 0, 2] := by
      decide +kernel
    have heq1 := hσ1.symm.trans h1.shuffled
    have heq2 := hσ2.symm.trans h2.shuffled
    exact absurd (heq1.trans heq2.symm) (by decide)

end GoAoa.Dpos
