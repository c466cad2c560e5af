import Mathlib.Data.List.Perm.Basic
import Mathlib.Order.Lattice

/-!
# Binary heaps in lists

The heap operations of Go's `container/heap` on a list, with the largest `key` first. Every
operation permutes the elements whatever their order (`push_perm`, `pop_perm`, `remove_perm`), and
on an ordered heap `pop` and `fix` keep the order.
-/

namespace GoAoa.Heap

open List Option

variable {α κ : Type} [LinearOrder κ] (key : α → κ)

def swap (l : List α) (i j : Nat) : List α :=
  match l[i]?, l[j]? with
  | some x, some y => (l.set i y).set j x
  | _, _ => l

/-- `Less(i, j)`: the element at `i` belongs above the one at `j`. -/
def above (l : List α) (i j : Nat) : Bool :=
  match l[i]?, l[j]? with
  | some x, some y => key y < key x
  | _, _ => false

def parent (j : Nat) : Nat := (j - 1) / 2

def up : Nat → List α → Nat → List α
  | 0, l, _ => l
  | fuel + 1, l, j =>
    if parent j = j ∨ above key l j (parent j) = false then l
    else up fuel (swap l (parent j) j) (parent j)

/-- The child of `i` that belongs above the other one. -/
def child (l : List α) (i n : Nat) : Nat :=
  if 2 * i + 2 < n ∧ above key l (2 * i + 2) (2 * i + 1) = true then 2 * i + 2 else 2 * i + 1

def down : Nat → List α → Nat → Nat → List α
  | 0, l, _, _ => l
  | fuel + 1, l, i, n =>
    if n ≤ 2 * i + 1 ∨ above key l (child key l i n) i = false then l
    else down fuel (swap l i (child key l i n)) (child key l i n) n

section

variable (l : List α)

def push (x : α) : List α := up key (l.length + 1) (l ++ [x]) l.length

def popLast : Option (α × List α) :=
  (l[l.length - 1]?).map fun x => (x, l.take (l.length - 1))

/-- `none` is a panic, as in `remove`. -/
def pop : Option (α × List α) :=
  popLast (down key l.length (swap l 0 (l.length - 1)) 0 (l.length - 1))

/-- Sift the element at `i` down in the first `n` positions; one that stays where it is may belong
further up. -/
def sift (i n : Nat) : List α :=
  if 2 * i + 1 < n ∧ above key l (child key l i n) i = true then down key l.length l i n
  else up key l.length l i

/-- Restore the order after the element at `i` has changed. -/
def fix (i : Nat) : List α := sift key l i l.length

def remove (i : Nat) : Option (α × List α) :=
  if l.length ≤ i then none
  else if l.length - 1 = i then popLast l
  else popLast (sift key (swap l i (l.length - 1)) i (l.length - 1))

end

def drain : Nat → List α → List α
  | 0, _ => []
  | fuel + 1, l =>
    match pop key l with
    | none => []
    | some (x, r) => x :: drain fuel r

/-! ## Permutations -/

section Perm

variable {key} {l : List α}

theorem swap_eq {i j : Nat} (hi : i < l.length) (hj : j < l.length) :
    swap l i j = (l.set i l[j]).set j l[i] := by
  simp [swap, hi, hj]

theorem swap_perm (l : List α) (i j : Nat) : (swap l i j).Perm l := by
  by_cases hi : i < l.length
  · by_cases hj : j < l.length
    · rw [swap_eq hi hj]
      exact set_set_perm hi hj
    · simp [swap, getElem?_eq_none (Nat.le_of_not_lt hj)]
  · simp [swap, getElem?_eq_none (Nat.le_of_not_lt hi)]

@[simp] theorem length_swap (l : List α) (i j : Nat) : (swap l i j).length = l.length :=
  (swap_perm l i j).length_eq

theorem getElem?_swap {i j k : Nat} (hi : i < l.length) (hj : j < l.length) :
    (swap l i j)[k]? = if k = j then l[i]? else if k = i then l[j]? else l[k]? := by
  rw [swap_eq hi hj, getElem?_set, getElem?_set]
  by_cases hkj : j = k
  · subst hkj
    simp [hj, hi]
  · by_cases hki : i = k
    · subst hki
      simp [hkj, Ne.symm hkj, hi, hj]
    · simp [hkj, hki, Ne.symm hkj, Ne.symm hki]

theorem getElem?_swap_of_ne {i j k : Nat} (hi : k ≠ i) (hj : k ≠ j) : (swap l i j)[k]? = l[k]? := by
  by_cases hil : i < l.length
  · by_cases hjl : j < l.length
    · rw [getElem?_swap hil hjl, if_neg hj, if_neg hi]
    · simp [swap, getElem?_eq_none (Nat.le_of_not_lt hjl)]
  · simp [swap, getElem?_eq_none (Nat.le_of_not_lt hil)]

theorem up_perm (fuel : Nat) (l : List α) (j : Nat) : (up key fuel l j).Perm l := by
  induction fuel generalizing l j with
  | zero => exact Perm.refl l
  | succ fuel ih =>
    unfold up
    split
    · exact Perm.refl l
    · exact (ih _ _).trans (swap_perm _ _ _)

theorem down_perm (fuel : Nat) (l : List α) (i n : Nat) : (down key fuel l i n).Perm l := by
  induction fuel generalizing l i with
  | zero => exact Perm.refl l
  | succ fuel ih =>
    unfold down
    split
    · exact Perm.refl l
    · exact (ih _ _).trans (swap_perm _ _ _)

theorem parent_le (j : Nat) : parent j ≤ j := by
  unfold parent
  omega

theorem getElem?_up_of_lt (fuel : Nat) (l : List α) {j k : Nat} (h : j < k) :
    (up key fuel l j)[k]? = l[k]? := by
  induction fuel generalizing l j with
  | zero => rfl
  | succ fuel ih =>
    have hp := parent_le j
    unfold up
    split
    · rfl
    · rw [ih _ (by omega), getElem?_swap_of_ne (by omega) (by omega)]

theorem child_lt {i n : Nat} (l : List α) (h : 2 * i + 1 < n) : child key l i n < n := by
  unfold child
  split <;> omega

theorem child_gt (l : List α) (i n : Nat) : i < child key l i n := by
  unfold child
  split <;> omega

theorem getElem?_down_of_le (fuel : Nat) (l : List α) {i n k : Nat} (hi : i < n) (h : n ≤ k) :
    (down key fuel l i n)[k]? = l[k]? := by
  induction fuel generalizing l i with
  | zero => rfl
  | succ fuel ih =>
    unfold down
    split
    · rfl
    · rename_i hgo
      have hc : child key l i n < n := child_lt l (by omega)
      rw [ih _ hc, getElem?_swap_of_ne (by omega) (by omega)]

theorem push_perm (l : List α) (x : α) : (push key l x).Perm (x :: l) :=
  (up_perm _ _ _).trans (perm_append_singleton x l)

theorem foldl_push_perm (l xs : List α) : (xs.foldl (push key) l).Perm (xs ++ l) := by
  induction xs generalizing l with
  | nil => exact Perm.refl l
  | cons x xs ih =>
    have hmiddle : (xs ++ x :: l).Perm (x :: xs ++ l) := perm_middle
    exact ((ih _).trans ((push_perm l x).append_left xs)).trans hmiddle

variable {x : α} {r : List α}

theorem popLast_perm (h : popLast l = some (x, r)) : l.Perm (x :: r) := by
  obtain ⟨y, hy, heq⟩ := map_eq_some_iff.1 h
  cases heq
  obtain ⟨hlt, rfl⟩ := List.getElem?_eq_some_iff.1 hy
  have hdrop : l.drop (l.length - 1) = [l[l.length - 1]] := by
    rw [drop_eq_getElem_cons hlt, drop_eq_nil_of_le (by omega)]
  have happ := take_append_drop (l.length - 1) l
  rw [hdrop] at happ
  exact (Perm.of_eq happ.symm).trans (perm_append_singleton _ _)

theorem popLast_of_ne_nil (h : l ≠ []) : ∃ x r, popLast l = some (x, r) := by
  have hlt : l.length - 1 < l.length := by
    have := length_pos_iff.2 h
    omega
  exact ⟨_, _, by rw [popLast, getElem?_eq_getElem hlt]; rfl⟩

theorem pop_perm (h : pop key l = some (x, r)) : l.Perm (x :: r) :=
  ((down_perm _ _ _ _).trans (swap_perm _ _ _)).symm.trans (popLast_perm h)

theorem pop_of_ne_nil (h : l ≠ []) : ∃ x r, pop key l = some (x, r) := by
  refine popLast_of_ne_nil fun hnil => h ?_
  have hperm : (down key l.length (swap l 0 (l.length - 1)) 0 (l.length - 1)).Perm l :=
    (down_perm _ _ _ _).trans (swap_perm l 0 (l.length - 1))
  rw [hnil] at hperm
  exact perm_nil.1 hperm.symm

theorem pop_head (h : pop key l = some (x, r)) : l[0]? = some x := by
  obtain ⟨y, hy, heq⟩ := map_eq_some_iff.1 h
  cases heq
  have hlen : (down key l.length (swap l 0 (l.length - 1)) 0 (l.length - 1)).length = l.length :=
    ((down_perm _ _ _ _).trans (swap_perm _ _ _)).length_eq
  rw [hlen] at hy
  rcases Nat.lt_or_ge 1 l.length with hlong | hshort
  · rw [getElem?_down_of_le _ _ (by omega) (Nat.le_refl _),
      getElem?_swap (by omega) (by omega), if_pos rfl] at hy
    exact hy
  · have hzero : l.length - 1 = 0 := by omega
    have hstay : down key l.length (swap l 0 0) 0 0 = swap l 0 0 := by
      cases l.length with
      | zero => rfl
      | succ => rw [down, if_pos (.inl (by omega))]
    rw [hzero, hstay] at hy
    rcases Nat.eq_zero_or_pos l.length with hnil | hone
    · rw [getElem?_eq_none (by simp [hnil])] at hy
      cases hy
    · rw [getElem?_swap hone hone, if_pos rfl] at hy
      exact hy

theorem sift_perm (l : List α) (i n : Nat) : (sift key l i n).Perm l := by
  unfold sift
  split
  · exact down_perm _ _ _ _
  · exact up_perm _ _ _

theorem getElem?_sift_of_le (l : List α) {i n k : Nat} (hi : i < n) (h : n ≤ k) :
    (sift key l i n)[k]? = l[k]? := by
  unfold sift
  split
  · exact getElem?_down_of_le _ _ hi h
  · exact getElem?_up_of_lt _ _ (by omega)

theorem remove_perm {i : Nat} (h : remove key l i = some (x, r)) :
    l[i]? = some x ∧ l.Perm (x :: r) := by
  unfold remove at h
  split at h
  · cases h
  rename_i hi
  have hi := Nat.lt_of_not_le hi
  split at h
  · rename_i hlast
    refine ⟨?_, popLast_perm h⟩
    obtain ⟨y, hy, heq⟩ := map_eq_some_iff.1 h
    cases heq
    exact hlast ▸ hy
  · have hperm : (sift key (swap l i (l.length - 1)) i (l.length - 1)).Perm l :=
      (sift_perm _ _ _).trans (swap_perm _ _ _)
    refine ⟨?_, hperm.symm.trans (popLast_perm h)⟩
    obtain ⟨y, hy, heq⟩ := map_eq_some_iff.1 h
    cases heq
    rw [hperm.length_eq, getElem?_sift_of_le _ (by omega) (Nat.le_refl _),
      getElem?_swap hi (by omega), if_pos rfl] at hy
    exact hy

theorem remove_of_lt {i : Nat} (hi : i < l.length) : ∃ x r, remove key l i = some (x, r) := by
  have hne : l ≠ [] := fun h => by simp [h] at hi
  unfold remove
  rw [if_neg (by omega)]
  split
  · exact popLast_of_ne_nil hne
  · refine popLast_of_ne_nil fun hnil => hne ?_
    have hperm : (sift key (swap l i (l.length - 1)) i (l.length - 1)).Perm l :=
      (sift_perm _ _ _).trans (swap_perm _ _ _)
    rw [hnil] at hperm
    exact perm_nil.1 hperm.symm

theorem drain_perm {fuel : Nat} (h : l.length ≤ fuel) : (drain key fuel l).Perm l := by
  induction fuel generalizing l with
  | zero =>
    rw [length_eq_zero_iff.1 (Nat.le_zero.1 h)]
    exact Perm.refl []
  | succ fuel ih =>
    unfold drain
    split
    · rename_i hpop
      by_cases hnil : l = []
      · rw [hnil]
      · obtain ⟨x, r, hxr⟩ : ∃ x r, pop key l = some (x, r) := pop_of_ne_nil hnil
        rw [hpop] at hxr
        cases hxr
    · rename_i x r hpop
      have hperm := pop_perm hpop
      have hlen := hperm.length_eq
      rw [length_cons] at hlen
      exact ((ih (by omega)).cons x).trans hperm.symm

end Perm

/-! ## The order -/

section Order

variable {key} {l : List α}

/-- The first `n` elements are in heap order. -/
def Ordered (key : α → κ) (n : Nat) (l : List α) : Prop :=
  ∀ j, 0 < j → j < n → above key l j (parent j) = false

theorem parent_lt {j : Nat} (h : 0 < j) : parent j < j := by
  unfold parent
  omega

theorem above_false_of_above {i j : Nat} (h : above key l i j = true) : above key l j i = false := by
  unfold above at h ⊢
  split at h
  · rename_i x y hx hy
    rw [hx, hy]
    exact decide_eq_false (lt_asymm (of_decide_eq_true h))
  · cases h

theorem above_false_trans {a b c : Nat} (hb : b < l.length) (hab : above key l a b = false)
    (hbc : above key l b c = false) : above key l a c = false := by
  unfold above at hab hbc ⊢
  rw [getElem?_eq_getElem hb] at hab hbc
  split
  · rename_i x y hx hy
    rw [hx] at hab
    rw [hy] at hbc
    simp only [decide_eq_false_iff_not, not_lt] at hab hbc ⊢
    exact hab.trans hbc
  · rfl

theorem above_self (l : List α) (i : Nat) : above key l i i = false := by
  unfold above
  split
  · rename_i x y hx hy
    rw [hx] at hy
    cases hy
    exact decide_eq_false (lt_irrefl _)
  · rfl

theorem above_congr {l' : List α} {i j : Nat} (hi : l[i]? = l'[i]?) (hj : l[j]? = l'[j]?) :
    above key l i j = above key l' i j := by
  unfold above
  rw [hi, hj]

/-- What sifting down at `i` needs: the pairs that do not have `i` on top are in order, and the
children of `i` belong below its parent. -/
structure DownOrder (key : α → κ) (n : Nat) (l : List α) (i : Nat) : Prop where
  except : ∀ k, 0 < k → k < n → parent k ≠ i → above key l k (parent k) = false
  grand : 0 < i → ∀ k, 0 < k → k < n → parent k = i → above key l k (parent i) = false

theorem above_swap {i j a b : Nat} (hi : i < l.length) (hj : j < l.length) :
    above key (swap l i j) a b = above key l (if a = j then i else if a = i then j else a)
        (if b = j then i else if b = i then j else b) := by
  have hread : ∀ k, (swap l i j)[k]? = l[if k = j then i else if k = i then j else k]? := by
    intro k
    rw [getElem?_swap hi hj]
    split
    · rfl
    · split <;> rfl
  unfold above
  rw [hread, hread]

theorem above_child {i n k : Nat} (hk : 0 < k) (hkn : k < n) (hpar : parent k = i) :
    above key l k (child key l i n) = false := by
  have hcases : k = 2 * i + 1 ∨ k = 2 * i + 2 := by
    unfold parent at hpar
    omega
  unfold child
  split
  · rename_i hright
    rcases hcases with rfl | rfl
    · exact above_false_of_above hright.2
    · exact above_self l _
  · rename_i hleft
    rcases hcases with rfl | rfl
    · exact above_self l _
    · exact Bool.eq_false_iff.2 fun htrue => hleft ⟨hkn, htrue⟩

theorem parent_child (l : List α) (i n : Nat) : parent (child key l i n) = i := by
  unfold child parent
  split <;> omega

theorem DownOrder.swap {n i : Nat} (h : DownOrder key n l i) (hn : n ≤ l.length)
    (hi : 2 * i + 1 < n) (habove : above key l (child key l i n) i = true) :
    DownOrder key n (swap l i (child key l i n)) (child key l i n) := by
  have hc : child key l i n < n := child_lt l hi
  have hgt : i < child key l i n := child_gt l i n
  have hpar : parent (child key l i n) = i := parent_child l i n
  have hfalse := above_false_of_above habove
  have hsib : ∀ k, 0 < k → k < n → parent k = i → above key l k (child key l i n) = false :=
    fun k hk hkn hp => above_child hk hkn hp
  generalize child key l i n = c at *
  refine ⟨fun k hk hkn hne => ?_, fun hpos k hk hkn hk' => ?_⟩
  · have hkp := parent_lt hk
    rw [above_swap (by omega) (by omega), if_neg hne]
    by_cases hkc : k = c
    · subst hkc
      rw [if_pos rfl, if_pos hpar]
      exact hfalse
    · rw [if_neg hkc]
      by_cases hki : k = i
      · subst hki
        rw [if_pos rfl, if_neg (by omega)]
        exact h.grand hk c (by omega) hc hpar
      · rw [if_neg hki]
        split
        · rename_i hpi
          exact hsib k hk hkn hpi
        · rename_i hpi
          exact h.except k hk hkn hpi
  · have hkp := parent_lt hk
    rw [above_swap (by omega) (by omega), if_neg (by omega), if_neg (by omega), hpar,
      if_neg (by omega), if_pos rfl, ← hk']
    exact h.except k hk hkn (by omega)

theorem down_ordered {n fuel i : Nat} (h : DownOrder key n l i) (hn : n ≤ l.length)
    (hfuel : n ≤ fuel + i) : Ordered key n (down key fuel l i n) := by
  induction fuel generalizing l i with
  | zero =>
    intro k hk hkn
    refine h.except k hk hkn fun hpar => ?_
    unfold parent at hpar
    omega
  | succ fuel ih =>
    unfold down
    split
    · rename_i hstop
      intro k hk hkn
      by_cases hpar : parent k = i
      · rcases hstop with hnone | hfalse
        · unfold parent at hpar
          omega
        · have hi : 2 * i + 1 < n := by
            unfold parent at hpar
            omega
          have hc : child key l i n < n := child_lt l hi
          rw [hpar]
          exact above_false_trans (by omega) (above_child hk hkn hpar) hfalse
      · exact h.except k hk hkn hpar
    · rename_i hgo
      obtain ⟨-, habove⟩ := not_or.1 hgo
      have hgt : i < child key l i n := child_gt l i n
      exact ih (h.swap hn (by omega) (by simpa using habove)) (by simpa using hn) (by omega)

theorem pop_ordered (h : Ordered key l.length l) {x : α} {r : List α}
    (hpop : pop key l = some (x, r)) : Ordered key r.length r := by
  obtain ⟨y, -, heq⟩ := map_eq_some_iff.1 hpop
  cases heq
  have hperm : (down key l.length (swap l 0 (l.length - 1)) 0 (l.length - 1)).Perm l :=
    (down_perm _ _ _ _).trans (swap_perm l 0 (l.length - 1))
  have hdown : DownOrder key (l.length - 1) (swap l 0 (l.length - 1)) 0 := by
    refine ⟨fun k hk hkn hne => ?_, fun h0 => absurd h0 (Nat.lt_irrefl 0)⟩
    have hp := parent_lt hk
    rw [above_congr (getElem?_swap_of_ne (by omega) (by omega))
      (getElem?_swap_of_ne hne (by omega))]
    exact h k hk (by omega)
  have hord : Ordered key (l.length - 1)
      (down key l.length (swap l 0 (l.length - 1)) 0 (l.length - 1)) :=
    down_ordered hdown (by simp) (by omega)
  intro k hk hkn
  rw [hperm.length_eq] at hkn ⊢
  have hkn : k < l.length - 1 := by
    rw [length_take] at hkn
    omega
  have hp := parent_lt hk
  rw [above_congr (getElem?_take_of_lt hkn) (getElem?_take_of_lt (by omega))]
  exact hord k hk hkn

/-- At the root there is only the way down. -/
theorem sift_zero (l : List α) (n : Nat) : sift key l 0 n = down key l.length l 0 n := by
  unfold sift
  split
  · rfl
  · rename_i hstay
    cases hlen : l.length with
    | zero => rfl
    | succ =>
      unfold up down
      rw [if_pos (.inl rfl), if_pos]
      by_contra hgo
      obtain ⟨-, habove⟩ := not_or.1 hgo
      exact hstay ⟨by omega, by simpa using habove⟩

theorem fix_ordered {t : α} {hs : List α} (h : Ordered key (t :: hs).length (t :: hs)) (x : α) :
    Ordered key (fix key (x :: hs) 0).length (fix key (x :: hs) 0) := by
  have hlen : (fix key (x :: hs) 0).length = (x :: hs).length := (sift_perm _ _ _).length_eq
  rw [hlen, fix, sift_zero]
  refine down_ordered ⟨fun k hk hkn hpar => ?_, fun h0 => absurd h0 (Nat.lt_irrefl 0)⟩
    (Nat.le_refl _) (by omega)
  have hread : ∀ i, i ≠ 0 → (x :: hs)[i]? = (t :: hs)[i]? := by
    intro i hi
    obtain ⟨i, rfl⟩ := Nat.exists_eq_succ_of_ne_zero hi
    rfl
  rw [above_congr (hread k (by omega)) (hread _ hpar)]
  exact h k hk hkn

theorem fix_of_le {x : α} {hs : List α} (h : ∀ y ∈ hs, key y ≤ key x) :
    fix key (x :: hs) 0 = x :: hs := by
  rw [fix, sift_zero, length_cons, down, if_pos]
  refine or_iff_not_imp_left.2 fun hlt => ?_
  have hchild : child key (x :: hs) 0 (hs.length + 1) < hs.length + 1 := child_lt _ (by omega)
  have hpos : 0 < child key (x :: hs) 0 (hs.length + 1) := child_gt _ _ _
  obtain ⟨i, hi⟩ := Nat.exists_eq_succ_of_ne_zero (Nat.ne_of_gt hpos)
  have hlow : i < hs.length := by omega
  rw [hi]
  unfold above
  rw [getElem?_cons_succ, getElem?_eq_getElem hlow, getElem?_cons_zero]
  exact decide_eq_false (not_lt.2 (h _ (getElem_mem hlow)))

theorem Ordered.le_head (h : Ordered key l.length l) {x y : α} (hx : l[0]? = some x) (hy : y ∈ l) :
    key y ≤ key x := by
  obtain ⟨k, hk⟩ := getElem?_of_mem hy
  have hfalse : above key l k 0 = false := by
    obtain ⟨hlt, -⟩ := List.getElem?_eq_some_iff.1 hk
    clear hk
    induction k using Nat.strongRecOn with
    | ind k ih =>
      rcases Nat.eq_zero_or_pos k with rfl | hpos
      · exact above_self l 0
      · have hp := parent_lt hpos
        exact above_false_trans (by omega) (h k hpos hlt) (ih _ hp (by omega))
  unfold above at hfalse
  rw [hk, hx] at hfalse
  simpa using hfalse

end Order

end GoAoa.Heap
