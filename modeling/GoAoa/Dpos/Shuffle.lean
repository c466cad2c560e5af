import GoAoa.DelegateState.DB
import GoAoa.Lib.Run

/-!
# Rounds

`util/shuffle.go`: the order of the delegates in a round, and the round a block time belongs to.
Rounds follow each other from the genesis time on, `maxElectDelegate * blockInterval` seconds each.
A node knows the begin of one later round, from which `CalShuffleTimeByHeaderTime` counts rounds
forwards or backwards. The sums are those of 64-bit integers: with times far from `2 ^ 63` they do
not wrap, and the search has a closed form (`calShuffleTime_eq`).
-/

namespace GoAoa.Dpos

open DelegateState Run Int Nat

/-! ## The order of a round -/

structure RoundDel extends ShuffleDel where
  vote : Nat
  nickname : Bytes
  deriving DecidableEq, Repr

def swap (l : List Nat) (i j : Nat) : List Nat := (l.set i (l.getD j 0)).set j (l.getD i 0)

/-- `Shuffle`. The digest gives the characters of the hexadecimal hash of the seed, which is
`height / delegateNumber`, rounded up. Four indices in a row are swapped and the fifth is passed
over. -/
def shuffle (digest : Int → Bool → Nat → Nat) (height : Int) (delegateNumber : Nat) :
    Option (List Nat) :=
  if delegateNumber = 0 then none
  else
    let currentSend := digest (height.tdiv delegateNumber) (0 < height.tmod delegateNumber)
    some ((List.range delegateNumber).foldl
      (fun l i => if i % 5 < 4 then swap l (currentSend (i % 5) % delegateNumber) i else l)
      (List.range delegateNumber))

def shuffleNewRound (digest : Int → Bool → Nat → Nat) (beginTime : Int) (maxElectDelegate : Nat)
    (currentDposList : List Candidate) (blockInterval : Int) : Option (List RoundDel) :=
  let maxElectDelegate := min currentDposList.length maxElectDelegate
  (shuffle digest (i64 (beginTime + 1)) maxElectDelegate).bind fun truncDelegateList =>
    (List.range maxElectDelegate).mapM fun index : Nat =>
      (truncDelegateList[index]?.bind fun delegateIndex => currentDposList[delegateIndex]?).map
        fun c =>
          { workTime := u64 (beginTime + index * blockInterval), address := c.address
            vote := c.vote, nickname := c.nickname }

/-! ## The round of a block time -/

/-- `CalShuffleTimeByHeaderTime`, each loop followed for `fuel` turns. Behind a `break` it
returns zero. -/
def calShuffleTimeByHeaderTime (fuel : Nat)
    (nowUnix nextRoundBeginTime blockTime blockInterval maxElectDelegate : Int) : Option Int :=
  if nextRoundBeginTime = blockTime then some nextRoundBeginTime
  else if nextRoundBeginTime < blockTime then
    count (fun count =>
      let shuffleTime := i64 (nextRoundBeginTime + count * maxElectDelegate * blockInterval)
      if shuffleTime ≤ blockTime ∧
          blockTime < i64 (shuffleTime + maxElectDelegate * blockInterval) then
        some shuffleTime
      else if nowUnix ≤ shuffleTime then some 0
      else none) fuel 0
  else
    count (fun count =>
      let shuffleTime := i64 (nextRoundBeginTime - count * maxElectDelegate * blockInterval)
      if shuffleTime ≤ blockTime then some shuffleTime
      else if shuffleTime ≤ 0 then some 0
      else none) fuel 0

def generateNextRoundBeginTime (currentTime genesisBlockTime maxElectDelegate blockInterval : Int) :
    Int :=
  let roundTime := i64 (maxElectDelegate * blockInterval)
  let finishTime := (i64 (currentTime - genesisBlockTime)).tmod roundTime
  i64 (currentTime + (roundTime - finishTime))

/-- The begin of the round of time `t`, with rounds of `r` seconds from `genesis` on. -/
def roundOf (genesis t r : Int) : Int := genesis + (t - genesis) / r * r

/-- What the search for the round of time `t` finds from the begin `s` of a round on: the begin of
the round, or zero if the search stops before it, at the present time or at time zero. -/
def searchedRound (now s t r : Int) : Int :=
  if s ≤ t ∧ (t < s + r ∨ roundOf s t r - r < now) ∨ t < s ∧ 0 < roundOf s t r + r then
    roundOf s t r
  else 0

section Rounds

/-- The first turn up to `n` that a search does not pass. -/
theorem first_turn (n : Nat) (stop : Nat → Prop) :
    ∃ j, (j = n ∨ j < n ∧ stop j) ∧ ∀ i < j, i < n ∧ ¬ stop i := by
  classical
  have hex : ∃ j, j = n ∨ j < n ∧ stop j := ⟨n, .inl rfl⟩
  refine ⟨Nat.find hex, Nat.find_spec hex, fun i hi => ?_⟩
  have hnot := Nat.find_min hex hi
  have hlt := Nat.lt_of_lt_of_le hi (Nat.find_min' hex (.inl rfl))
  exact ⟨hlt, fun hstop => hnot (.inr ⟨hlt, hstop⟩)⟩


variable {genesis t r s now m b k : Int}

theorem eq_roundOf (hr : 0 < r) (hs : s = genesis + k * r) (hle : s ≤ t)
    (hlt : t < s + r) : s = roundOf genesis t r := by
  have hdiv : (t - genesis) / r = k := by
    rw [ediv_eq_iff_of_pos hr]
    constructor <;> omega
  rw [hs, roundOf, hdiv]

theorem roundOf_le (hr : 0 < r) : roundOf genesis t r ≤ t := by
  have := Int.ediv_mul_le (t - genesis) (Int.ne_of_gt hr)
  unfold roundOf
  omega

theorem lt_roundOf_add (hr : 0 < r) : t < roundOf genesis t r + r := by
  have := lt_ediv_add_one_mul_self (t - genesis) hr
  rw [Int.add_mul] at this
  unfold roundOf
  omega

theorem roundOf_round (hr : 0 < r) (hs : s = genesis + k * r) :
    roundOf s t r = roundOf genesis t r := by
  refine eq_roundOf (k := k + (t - s) / r) hr ?_ (roundOf_le hr) (lt_roundOf_add hr)
  rw [roundOf, hs, Int.add_mul]
  omega

theorem generateNextRoundBeginTime_eq (hr : 0 < m * b) (hg : 0 ≤ genesis) (hboot : genesis ≤ s)
    (hs : s + m * b < 2 ^ 63) :
    ∃ k, generateNextRoundBeginTime s genesis m b = genesis + k * (m * b) ∧
      s < generateNextRoundBeginTime s genesis m b ∧
      generateNextRoundBeginTime s genesis m b ≤ s + m * b := by
  have hdiv := mul_ediv_add_emod (s - genesis) (m * b)
  have hlow := emod_nonneg (s - genesis) (Int.ne_of_gt hr)
  have hhigh := emod_lt_of_pos (s - genesis) hr
  have heq : generateNextRoundBeginTime s genesis m b =
      s + (m * b - (s - genesis) % (m * b)) := by
    unfold generateNextRoundBeginTime
    dsimp only
    rw [i64_of_range (x := m * b) (by omega) (by omega),
      i64_of_range (x := s - genesis) (by omega) (by omega), tmod_eq_emod_of_nonneg (by omega),
      i64_of_range (by omega) (by omega)]
  refine ⟨(s - genesis) / (m * b) + 1, ?_, by omega, by omega⟩
  rw [heq, Int.add_mul, mul_comm (_ / _)]
  omega

/-- **The search for a round.** Where no sum wraps, the search ends, whatever time it is for. -/
theorem calShuffleTime_eq (hr : 0 < m * b) (hlow : -2 ^ 63 ≤ s) (hs : s + m * b < 2 ^ 63)
    (hnow : now + 2 * (m * b) < 2 ^ 63) :
    ∃ n, ∀ fuel, n ≤ fuel →
      calShuffleTimeByHeaderTime fuel now s t b m = some (searchedRound now s t (m * b)) := by
  unfold calShuffleTimeByHeaderTime searchedRound
  simp only [mul_assoc]
  generalize m * b = r at hr hs hnow
  have hle := @roundOf_le s t r hr
  have hlt := @lt_roundOf_add s t r hr
  have hmul {i n : Nat} (hi : i < n) : 0 ≤ (i : Int) * r ∧ (i : Int) * r + r ≤ n * r := by
    have := Int.mul_le_mul_of_nonneg_right (by omega : (i + 1 : Int) ≤ n) (Int.le_of_lt hr)
    rw [Int.add_mul, Int.one_mul] at this
    exact ⟨Int.mul_nonneg (natCast_nonneg i) (Int.le_of_lt hr), this⟩
  have hsucc (i : Nat) : ((i + 1 : Nat) : Int) * r = i * r + r := by
    rw [natCast_succ, Int.add_mul, Int.one_mul]
  -- `n` is the number of rounds to the one of `t`, and `j` the turn that ends the search
  rcases lt_trichotomy s t with hst | heq | hst
  · obtain ⟨n, hn⟩ : ∃ n : Nat, roundOf s t r = s + n * r :=
      ⟨((t - s) / r).toNat, by
        rw [Int.toNat_of_nonneg (ediv_nonneg (by omega) (Int.le_of_lt hr)), roundOf]⟩
    obtain ⟨j, hj, hmin⟩ := first_turn n fun i => now ≤ s + i * r
    have hturn (i : Nat) (hi : i ≤ j) : i64 (s + i * r) = s + i * r ∧
        i64 (s + i * r + r) = s + i * r + r := by
      have := hmul (Nat.lt_succ_self i)
      have : s + i * r + r < 2 ^ 63 := by
        cases i with
        | zero => omega
        | succ i =>
          have := hmin i hi
          rw [hsucc]
          omega
      exact ⟨i64_of_range (by omega) (by omega), i64_of_range (by omega) this⟩
    simp only [if_neg (Int.ne_of_lt hst), if_pos hst]
    refine ⟨j + 1, fun fuel hfuel => count_eq_some (n := j) ?_ (fun i hi => ?_) (by omega)⟩
    · rw [Nat.zero_add, (hturn j (Nat.le_refl j)).1, (hturn j (Nat.le_refl j)).2]
      rcases hj with rfl | ⟨hjn, hstop⟩
      · rw [if_pos (by omega), if_pos, hn]
        refine .inl ⟨Int.le_of_lt hst, ?_⟩
        cases j with
        | zero => omega
        | succ i =>
          have := hmin i (Nat.lt_succ_self i)
          rw [hsucc] at hn
          omega
      · have := hmul hjn
        rw [if_neg (by omega), if_pos hstop, if_neg (by omega)]
    · have := hmin i hi
      have := hmul this.1
      rw [Nat.zero_add, (hturn i (Nat.le_of_lt hi)).1, (hturn i (Nat.le_of_lt hi)).2,
        if_neg (by omega), if_neg (by omega)]
  · refine ⟨0, fun fuel _ => ?_⟩
    rw [if_pos heq, if_pos (.inl ⟨by omega, .inl (by omega)⟩), heq]
    simp [roundOf]
  · obtain ⟨n, hn⟩ : ∃ n : Nat, roundOf s t r = s - n * r := by
      have hneg : (t - s) / r < 0 := Int.ediv_neg_of_neg_of_pos (by omega) hr
      refine ⟨(-((t - s) / r)).toNat, ?_⟩
      rw [Int.toNat_of_nonneg (by omega), roundOf, Int.neg_mul]
      omega
    obtain ⟨j, hj, hmin⟩ := first_turn n fun i => s - i * r ≤ 0
    have hturn (i : Nat) (hi : i ≤ j) : i64 (s - i * r) = s - i * r := by
      have := hmul (Nat.lt_succ_self i)
      refine i64_of_range ?_ (by omega)
      cases i with
      | zero => omega
      | succ i =>
        have := hmul (hmin i hi).1
        have := hmin i hi
        rw [hsucc]
        omega
    simp only [if_neg (Int.ne_of_gt hst), if_neg (Int.lt_asymm hst)]
    refine ⟨j + 1, fun fuel hfuel => count_eq_some (n := j) ?_ (fun i hi => ?_) (by omega)⟩
    · rw [Nat.zero_add, hturn j (Nat.le_refl j)]
      rcases hj with rfl | ⟨hjn, hstop⟩
      · rw [if_pos (by omega), if_pos, hn]
        refine .inr ⟨hst, ?_⟩
        cases j with
        | zero => omega
        | succ i =>
          have := hmin i (Nat.lt_succ_self i)
          rw [hsucc] at hn
          omega
      · have := hmul hjn
        rw [if_neg (by omega), if_pos hstop, if_neg (by omega)]
    · have := hmin i hi
      have := hmul this.1
      rw [Nat.zero_add, hturn i (Nat.le_of_lt hi), if_neg (by omega), if_neg (by omega)]

theorem calShuffleTime_mono {fuel fuel' : Nat} {x : Int} (hle : fuel ≤ fuel')
    (h : calShuffleTimeByHeaderTime fuel now s t b m = some x) :
    calShuffleTimeByHeaderTime fuel' now s t b m = some x := by
  unfold calShuffleTimeByHeaderTime at h ⊢
  by_cases heq : s = t
  · rwa [if_pos heq] at h ⊢
  rw [if_neg heq] at h ⊢
  by_cases hlt : s < t
  · rw [if_pos hlt] at h ⊢
    exact count_mono h hle
  · rw [if_neg hlt] at h ⊢
    exact count_mono h hle

theorem calShuffleTime_of_round (hr : 0 < m * b) (hg : 0 ≤ genesis) (hboot : genesis ≤ s)
    (hs : s + 2 * (m * b) < 2 ^ 63) (hgt : genesis ≤ t) (hnow : t ≤ now)
    (hfar : now + 2 * (m * b) < 2 ^ 63) :
    ∃ n, ∀ fuel, n ≤ fuel → calShuffleTimeByHeaderTime fuel now
        (generateNextRoundBeginTime s genesis m b) t b m = some (roundOf genesis t (m * b)) := by
  obtain ⟨k, hk, hlow, hhigh⟩ := generateNextRoundBeginTime_eq hr hg hboot (by omega)
  obtain ⟨n, hn⟩ := calShuffleTime_eq (s := generateNextRoundBeginTime s genesis m b) (t := t) hr
    (by omega) (by omega) hfar
  have hround := roundOf_round (t := t) hr hk
  have hle := @roundOf_le genesis t _ hr
  have hlt := @lt_roundOf_add genesis t _ hr
  refine ⟨n, fun fuel hfuel => ?_⟩
  rw [hn fuel hfuel, searchedRound, hround, if_pos (by omega)]

end Rounds

/-- **Nodes agree on the rounds.** Whenever two nodes were started, they find the same round for a
block time that has passed, and it is the one counted from the genesis time, as long as the times
are two rounds away from the largest 64-bit integer. -/
theorem calShuffleTime_agree {genesis t : Nat} {boot₁ boot₂ now₁ now₂ blockInterval
    maxElectDelegate : Int} (hr : 0 < maxElectDelegate * blockInterval) (h₁ : genesis ≤ boot₁)
    (h₂ : genesis ≤ boot₂) (hg : genesis ≤ t) (hnow₁ : t ≤ now₁) (hnow₂ : t ≤ now₂)
    (hfar : ∀ time ∈ [boot₁, boot₂, now₁, now₂],
      time + 2 * (maxElectDelegate * blockInterval) < 2 ^ 63) :
    ∃ n, ∀ fuel, n ≤ fuel → calShuffleTimeByHeaderTime fuel now₁
          (generateNextRoundBeginTime boot₁ genesis maxElectDelegate blockInterval) t blockInterval
          maxElectDelegate =
        some (genesis + ((t - genesis : Nat) : Int) / (maxElectDelegate * blockInterval) *
          (maxElectDelegate * blockInterval)) ∧
      calShuffleTimeByHeaderTime fuel now₂
          (generateNextRoundBeginTime boot₂ genesis maxElectDelegate blockInterval) t blockInterval
          maxElectDelegate =
        some (genesis + ((t - genesis : Nat) : Int) / (maxElectDelegate * blockInterval) *
          (maxElectDelegate * blockInterval)) := by
  rw [ofNat_sub hg]
  have hgen := natCast_nonneg genesis
  have hgt := Int.ofNat_le.2 hg
  obtain ⟨n1, hn1⟩ := calShuffleTime_of_round hr hgen h₁ (hfar _ (by simp)) hgt hnow₁
    (hfar _ (by simp))
  obtain ⟨n2, hn2⟩ := calShuffleTime_of_round hr hgen h₂ (hfar _ (by simp)) hgt hnow₂
    (hfar _ (by simp))
  refine ⟨n1 + n2, fun fuel hfuel => ⟨hn1 fuel (by omega), hn2 fuel (by omega)⟩⟩

theorem calShuffleTime_agree_small : ∃ n, ∀ fuel, n ≤ fuel →
      calShuffleTimeByHeaderTime fuel 5000 (generateNextRoundBeginTime 1200 100 101 10) 2500 10 101 =
        some 2120 ∧
      calShuffleTimeByHeaderTime fuel 5000 (generateNextRoundBeginTime 4900 100 101 10) 2500 10 101 =
        some 2120 :=
  @calShuffleTime_agree 100 2500 1200 4900 5000 5000 10 101 (by decide) (by decide) (by decide)
    (by decide) (by decide) (by decide) (by decide)

/-- **Sums wrap.** With rounds of `2 ^ 62` seconds the next round begins at `-2 ^ 63`, and no
round is found: every one that has begun ends, wrapped, before the block time. -/
theorem not_calShuffleTime_agree : ¬ ∃ fuel t, calShuffleTimeByHeaderTime fuel (2 ^ 62 + 1)
    (generateNextRoundBeginTime (2 ^ 62 + 1) 0 (2 ^ 62) 1) (2 ^ 62 + 1) 1 (2 ^ 62) = some t := by
  rintro ⟨fuel, t, h⟩
  refine Option.some_ne_none t (h.symm.trans ?_)
  have hnext : generateNextRoundBeginTime (2 ^ 62 + 1) 0 (2 ^ 62) 1 = -2 ^ 63 := by decide +kernel
  rw [hnext, calShuffleTimeByHeaderTime, if_neg (by decide), if_pos (by decide)]
  refine count_eq_none (fun i => ?_) fuel 0
  have hturn : ∃ k : Int, (k = 0 ∨ k = 1 ∨ k = 2 ∨ k = 3) ∧
      i64 (-2 ^ 63 + i * 2 ^ 62 * 1) = -2 ^ 63 + k * 2 ^ 62 := by
    refine ⟨(i % 4 : Nat), by omega, ?_⟩
    unfold i64
    rw [Int.bmod_def]
    split <;> omega
  obtain ⟨k, hk, heq⟩ := hturn
  dsimp only
  rw [heq]
  rcases hk with rfl | rfl | rfl | rfl <;> decide +kernel

end GoAoa.Dpos
