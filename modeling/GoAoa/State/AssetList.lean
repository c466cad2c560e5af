import GoAoa.Types
import Mathlib.Data.List.Pairwise

/-!
# How an asset list is searched and edited

`core/types/asset.go` on the plain list: `indexOf` finds the place of an asset by binary search, and
`AddAsset` and `SubAsset` edit the list there. A sorted list splits at the place of an asset
(`Split`), and the search finds where. The amounts are values: every caller hands over a number of
its own.
-/

namespace GoAoa.State

structure Asset where
  id : Address
  balance : Int
  deriving DecidableEq, Repr

namespace AssetList

open List Option Function

/-- `sort.Search` from `i` up to `j`. -/
def search (p : Nat → Bool) (i j : Nat) : Nat :=
  if i < j then
    if p ((i + j) / 2) then search p i ((i + j) / 2) else search p ((i + j) / 2 + 1) j
  else i
termination_by j - i

section

variable (l : List Asset)

/-- `indexOf`: where the asset is or should be, and whether it is there. -/
def indexOf (id : Address) : Nat × Bool :=
  let i := search (fun i => (l[i]?).all fun a => id ≤ a.id) 0 l.length
  (i, (l[i]?).any fun a => a.id = id)

/-- `AddAsset`. -/
def addAsset (a : Asset) : List Asset :=
  let (i, isContain) := indexOf l a.id
  if isContain then l.modify i fun b => { b with balance := b.balance + a.balance }
  else l.take i ++ a :: l.drop i

/-- `SubAsset`: whether it succeeded, and the list. -/
def subAsset (a : Asset) : Bool × List Asset :=
  let (i, isContain) := indexOf l a.id
  match isContain, l[i]? with
  | true, some dest =>
    if a.balance ≤ dest.balance then
      let balance := dest.balance - a.balance
      (true, if balance = 0 then l.take i ++ l.drop (i + 1) else l.set i { dest with balance })
    else (false, l)
  | _, _ => (false, l)

/-- `BalanceOf`. -/
def balanceOf (id : Address) : Int :=
  let (i, isContain) := indexOf l id
  if isContain then ((l[i]?).map Asset.balance).getD 0 else 0

end

abbrev Sorted (l : List Asset) : Prop := l.Pairwise fun a b => a.id < b.id

/-! ## The search -/

theorem search_eq {p : Nat → Bool} {i j k : Nat} (hbelow : ∀ m < k, p m = false)
    (habove : ∀ m ≥ k, p m = true) (hik : i ≤ k) (hkj : k ≤ j) : search p i j = k := by
  fun_induction search p i j with
  | case1 i j hlt hp ih =>
    have hk : k ≤ (i + j) / 2 := Nat.le_of_not_lt fun h => by simp [hbelow _ h] at hp
    exact ih hik hk
  | case2 i j hlt hp ih =>
    have hk := Nat.lt_of_not_le fun h => hp (habove _ h)
    exact ih hk hkj
  | case3 => omega

/-- The list before the place of an asset, its entry and the list behind. -/
structure Split (l : List Asset) (id : Address) (lo : List Asset) (mid : Option Asset)
    (hi : List Asset) : Prop where
  list : l = lo ++ (mid.toList ++ hi)
  below : ∀ c ∈ lo, c.id < id
  entry : ∀ c ∈ mid, c.id = id
  above : ∀ c ∈ hi, id < c.id

variable {l lo hi : List Asset} {mid : Option Asset} {id : Address} {a : Asset}

theorem exists_split (h : Sorted l) (id : Address) : ∃ lo mid hi, Split l id lo mid hi := by
  induction l with
  | nil => exact ⟨[], none, [], rfl, nofun, nofun, nofun⟩
  | cons c l ih =>
    obtain ⟨hc, hl⟩ := pairwise_cons.1 h
    obtain ⟨lo, mid, hi, rfl, hlo, hmid, hhi⟩ := ih hl
    rcases BitVec.lt_trichotomy c.id id with hlt | rfl | hgt
    · exact ⟨c :: lo, mid, hi, rfl, forall_mem_cons.2 ⟨hlt, hlo⟩, hmid, hhi⟩
    · exact ⟨[], some c, _, rfl, nofun, fun _ h => (some.inj h) ▸ rfl, hc⟩
    · exact ⟨[], none, _, rfl, nofun, nofun,
        forall_mem_cons.2 ⟨hgt, fun b hb => BitVec.lt_trans hgt (hc b hb)⟩⟩

/-- **The binary search finds the place of the asset.** -/
theorem indexOf_split (h : Split l id lo mid hi) : indexOf l id = (lo.length, mid.isSome) := by
  obtain ⟨rfl, hlo, hmid, hhi⟩ := h
  have hsearch : search (fun i => ((lo ++ (mid.toList ++ hi))[i]?).all fun a => id ≤ a.id) 0
      (lo ++ (mid.toList ++ hi)).length = lo.length := by
    refine search_eq (fun m hm => ?_) (fun m hm => ?_) (Nat.zero_le _) (by simp)
    · rw [getElem?_append_left hm, getElem?_eq_getElem hm]
      simpa [BitVec.not_le] using hlo _ (getElem_mem hm)
    · rw [getElem?_append_right hm]
      cases hc : (mid.toList ++ hi)[m - lo.length]? with
      | none => rfl
      | some c =>
        rcases mem_append.1 (mem_of_getElem? hc) with hc | hc
        · simpa using BitVec.le_of_eq (hmid c (mem_toList.1 hc)).symm
        · simpa using BitVec.le_of_lt (hhi c hc)
  unfold indexOf
  dsimp only
  rw [hsearch, getElem?_append_right (Nat.le_refl _), Nat.sub_self]
  cases mid with
  | some b => simp [hmid b rfl]
  | none =>
    cases hi with
    | nil => rfl
    | cons c => simpa using fun heq : c.id = id => BitVec.lt_irrefl _ (heq ▸ hhi c mem_cons_self)

/-! ## The edits -/

theorem balanceOf_split (h : Split l id lo mid hi) :
    balanceOf l id = (mid.map Asset.balance).getD 0 := by
  unfold balanceOf
  rw [indexOf_split h, h.list]
  cases mid <;> simp

theorem addAsset_split (h : Split l a.id lo mid hi) :
    Split (addAsset l a) a.id lo (some ⟨a.id, balanceOf l a.id + a.balance⟩) hi := by
  refine ⟨?_, h.below, fun c hc => some.inj hc ▸ rfl, h.above⟩
  rw [balanceOf_split h]
  unfold addAsset
  rw [indexOf_split h]
  obtain ⟨rfl, -, hmid, -⟩ := h
  cases mid with
  | none => simp
  | some b => simp [modify_eq_take_cons_drop, hmid b rfl]

theorem subAsset_split (h : Split l a.id lo mid hi) :
    (subAsset l a = (false, l) ∧ ¬ ∃ b, mid = some b ∧ a.balance ≤ b.balance) ∨
    ∃ b l', mid = some b ∧ a.balance ≤ b.balance ∧ subAsset l a = (true, l') ∧ Split l' a.id lo
      (if b.balance = a.balance then none else some ⟨a.id, b.balance - a.balance⟩) hi := by
  unfold subAsset
  rw [indexOf_split h]
  obtain ⟨rfl, hlo, hmid, hhi⟩ := h
  cases mid with
  | none => simp
  | some b =>
    have hid := hmid b rfl
    simp only [isSome_some, toList_some, singleton_append, getElem?_append_right, Nat.le_refl,
      Nat.sub_self, getElem?_cons_zero]
    split
    · rename_i hle
      refine .inr ⟨b, _, rfl, hle, rfl, ?_, hlo, ?_, hhi⟩
      · by_cases heq : b.balance = a.balance
        · simp [heq]
        · simp [heq, show b.balance - a.balance ≠ 0 by omega, hid]
      · split <;> simp
    · rename_i hlt
      exact .inl ⟨rfl, fun ⟨c, hc, hle⟩ => hlt (some.inj hc ▸ hle)⟩

theorem find_split (h : Split l id lo mid hi) (j : Address) : l.find? (·.id == j) =
    if j = id then mid else (lo.find? (·.id == j)).or (hi.find? (·.id == j)) := by
  obtain ⟨rfl, hlo, hmid, hhi⟩ := h
  rw [find?_append, find?_append]
  split
  · rename_i hj
    subst hj
    have hnone : lo.find? (·.id == j) = none ∧ hi.find? (·.id == j) = none :=
      ⟨find?_eq_none.2 fun c hc heq => BitVec.lt_irrefl _ (eq_of_beq heq ▸ hlo c hc),
        find?_eq_none.2 fun c hc heq => BitVec.lt_irrefl _ (eq_of_beq heq ▸ hhi c hc)⟩
    rw [hnone.1, hnone.2]
    cases mid with
    | none => rfl
    | some b => simp [hmid b rfl]
  · rename_i hj
    cases mid with
    | none => rfl
    | some b => simp [hmid b rfl, Ne.symm hj]

/-- What is searched for is what is found from the start. -/
theorem balanceOf_eq (hl : Sorted l) (id : Address) :
    balanceOf l id = ((l.find? (·.id == id)).map Asset.balance).getD 0 := by
  obtain ⟨lo, mid, hi, h⟩ := exists_split hl id
  rw [balanceOf_split h, find_split h, if_pos rfl]

theorem replaced_split {l' : List Asset} {mid' : Option Asset}
    (hl : Sorted l) (h : Split l id lo mid hi) (h' : Split l' id lo mid' hi) :
    Sorted l' ∧
      ∀ j, l'.find? (·.id == j) = if j = id then mid' else l.find? (·.id == j) := by
  refine ⟨?_, fun j => ?_⟩
  · rw [h.list, Sorted, pairwise_append, pairwise_append] at hl
    obtain ⟨hlo, ⟨-, hhi, -⟩, hcross⟩ := hl
    rw [h'.list, Sorted, pairwise_append, pairwise_append]
    refine ⟨hlo, ⟨by cases mid' <;> simp, hhi, fun b hb c hc => ?_⟩, fun b hb c hc => ?_⟩
    · rw [h'.entry b (mem_toList.1 hb)]
      exact h.above c hc
    · rcases mem_append.1 hc with hc | hc
      · rw [h'.entry c (mem_toList.1 hc)]
        exact h.below b hb
      · exact BitVec.lt_trans (h.below b hb) (h.above c hc)
  · rw [find_split h', find_split h]
    split <;> rfl

theorem addAsset_sorted (hl : Sorted l) (a : Asset) : Sorted (addAsset l a) ∧
    ∀ j, (addAsset l a).find? (·.id == j) =
      if j = a.id then some ⟨a.id, balanceOf l a.id + a.balance⟩ else l.find? (·.id == j) := by
  obtain ⟨lo, mid, hi, h⟩ := exists_split hl a.id
  exact replaced_split hl h (addAsset_split h)

theorem subAsset_sorted (hl : Sorted l) (a : Asset) : Sorted (subAsset l a).2 := by
  obtain ⟨lo, mid, hi, h⟩ := exists_split hl a.id
  rcases subAsset_split h with ⟨hs, -⟩ | ⟨b, l', -, -, hs, h'⟩
  · rw [hs]; exact hl
  · rw [hs]; exact (replaced_split hl h h').1

/-! ## Sequences of calls -/

inductive Call where
  | add (id : Address) (amount : Nat)
  | sub (id : Address) (amount : Nat)

def call (l : List Asset) : Call → List Asset
  | .add id amount => addAsset l ⟨id, amount⟩
  | .sub id amount => (subAsset l ⟨id, amount⟩).2

/-- The calls on a map in which what is not there counts as zero. -/
def tally (m : Address → Int) : Call → Address → Int
  | .add id amount => update m id (m id + amount)
  | .sub id amount => if amount ≤ m id then update m id (m id - amount) else m

theorem call_tally (hl : Sorted l) (c : Call) :
    Sorted (call l c) ∧ balanceOf (call l c) = tally (balanceOf l) c := by
  -- it is enough to look at the entry itself
  have hentry : ∀ {l' id lo mid mid' hi n}, Split l id lo mid hi → Split l' id lo mid' hi →
      (mid'.map Asset.balance).getD 0 = n → Sorted l' ∧
        balanceOf l' = update (balanceOf l) id n := by
    rintro l' id lo mid mid' hi n h h' rfl
    obtain ⟨hsorted, hfind⟩ := replaced_split hl h h'
    refine ⟨hsorted, funext fun j => ?_⟩
    rw [balanceOf_eq hsorted, hfind]
    by_cases hj : j = id
    · rw [if_pos hj, hj, update_self]
    · rw [if_neg hj, update_of_ne hj, balanceOf_eq hl]
  cases c with
  | add id amount =>
    obtain ⟨lo, mid, hi, h⟩ := exists_split hl id
    exact hentry h (addAsset_split (a := ⟨id, amount⟩) h) rfl
  | sub id amount =>
    obtain ⟨lo, mid, hi, h⟩ := exists_split hl id
    have hbal := balanceOf_split h
    unfold call tally
    dsimp only
    rcases subAsset_split (a := ⟨id, amount⟩) h with ⟨hs, hlow⟩ | ⟨b, l', rfl, hle, hs, h'⟩
    · rw [hs]
      refine ⟨hl, ?_⟩
      split
      · rename_i hle
        have hzero : (amount : Int) = 0 := by
          cases mid with
          | some b => exact absurd ⟨b, rfl, hle.trans (Int.le_of_eq hbal)⟩ hlow
          | none =>
            have hnone : balanceOf l id = 0 := hbal
            omega
        rw [hzero, Int.sub_zero, update_eq_self]
      · rfl
    · have hbal : balanceOf l id = b.balance := hbal
      rw [hs, hbal, if_pos hle]
      refine hentry h h' ?_
      split
      · simp_all
      · rfl

/-- **Every list that calls lead to is sorted and has the balances of the map**, and a `SubAsset`
that fails leaves it as it is. -/
theorem calls_refine (calls : List Call) : Sorted (calls.foldl call []) ∧
    balanceOf (calls.foldl call []) = calls.foldl tally (fun _ => 0) ∧
    ∀ a, (subAsset (calls.foldl call []) a).1 = false →
      (subAsset (calls.foldl call []) a).2 = calls.foldl call [] := by
  have hrun : ∀ l, Sorted l → Sorted (calls.foldl call l) ∧
        balanceOf (calls.foldl call l) = calls.foldl tally (balanceOf l) := by
    induction calls with
    | nil => exact fun l hl => ⟨hl, rfl⟩
    | cons c calls ih =>
      intro l hl
      obtain ⟨hsorted, hmap⟩ := call_tally hl c
      rw [foldl_cons, foldl_cons, ← hmap]
      exact ih _ hsorted
  have hempty : balanceOf [] = fun _ => 0 := by
    funext id
    exact balanceOf_eq Pairwise.nil id
  obtain ⟨hsorted, hmap⟩ := hrun [] .nil
  refine ⟨hsorted, hempty ▸ hmap, fun a hfail => ?_⟩
  obtain ⟨lo, mid, hi, h⟩ := exists_split hsorted a.id
  rcases subAsset_split h with ⟨hs, -⟩ | ⟨b, l', -, -, hs, -⟩
  · rw [hs]
  · rw [hs] at hfail
    cases hfail

end AssetList

end GoAoa.State
