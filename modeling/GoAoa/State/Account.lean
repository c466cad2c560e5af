import GoAoa.Lib.Slice
import GoAoa.State.AssetList

/-!
# Accounts

The records of `core/state` and the asset lists of `core/types`. `Account` is an account in
memory: its `big.Int` fields may hold any integer and its vote list is a slice. `StoredAccount`
is what a trie entry can hold, and RLP has no negative integers. The storage and code tries of
an account and the database of asset descriptions are represented by their contents.
-/

namespace GoAoa.State

open List Option Int

/-! ## Assets -/

/-- `Assets`: at most one entry for an asset, in ascending order. -/
structure Assets where
  assetList : List Asset
  sorted : assetList.Pairwise fun a b => a.id < b.id
  deriving DecidableEq, Repr

namespace Assets

def empty : Assets := ⟨[], List.Pairwise.nil⟩

def isEmpty (as : Assets) : Bool := as.assetList.isEmpty

def find (as : Assets) (id : Address) : Option Asset := as.assetList.find? (·.id == id)

def balanceOf (as : Assets) (id : Address) : Int := ((as.find id).map Asset.balance).getD 0

def addAsset (as : Assets) (a : Asset) : Assets :=
  ⟨AssetList.addAsset as.assetList a, (AssetList.addAsset_sorted as.sorted a).1⟩

/-- `SubAsset`: an asset that is used up loses its entry. `none` if there is not enough. -/
def subAsset (as : Assets) (a : Asset) : Option Assets :=
  if (AssetList.subAsset as.assetList a).1 then
    some ⟨(AssetList.subAsset as.assetList a).2, AssetList.subAsset_sorted as.sorted a⟩
  else none

/-! ### What the entries are afterwards -/

variable {as as' : Assets} {a : Asset} {id : Address}

theorem find_id {b : Asset} (h : as.find id = some b) : b.id = id :=
  eq_of_beq (find?_some (p := fun c : Asset => c.id == id) h)

theorem balanceOf_of_find {b : Asset} (h : as.find id = some b) : as.balanceOf id = b.balance := by
  unfold balanceOf
  rw [h]
  rfl

theorem balanceOf_of_none (h : as.find id = none) : as.balanceOf id = 0 := by
  unfold balanceOf
  rw [h]
  rfl

theorem find_addAsset (as : Assets) (a : Asset) (id : Address) : (as.addAsset a).find id =
      if id = a.id then some ⟨a.id, as.balanceOf a.id + a.balance⟩ else as.find id := by
  have hbal : AssetList.balanceOf as.assetList a.id = as.balanceOf a.id :=
    AssetList.balanceOf_eq as.sorted a.id
  rw [← hbal]
  exact (AssetList.addAsset_sorted as.sorted a).2 id

theorem balanceOf_addAsset (as : Assets) (a : Asset) (id : Address) :
    (as.addAsset a).balanceOf id = as.balanceOf id + if id = a.id then a.balance else 0 := by
  by_cases hid : id = a.id
  · rw [if_pos hid, hid]
    exact balanceOf_of_find ((find_addAsset as a a.id).trans (if_pos rfl))
  · rw [if_neg hid, add_zero]
    unfold balanceOf
    rw [find_addAsset, if_neg hid]

/-- How `SubAsset` ends. -/
theorem subAsset_cases (as : Assets) (a : Asset) :
    (as.subAsset a = none ∧ ¬ ∃ b, as.find a.id = some b ∧ a.balance ≤ b.balance) ∨
    ∃ b as', as.find a.id = some b ∧ a.balance ≤ b.balance ∧ as.subAsset a = some as' ∧
      ∀ id, as'.find id = if id = a.id then
        if b.balance = a.balance then none else some ⟨a.id, b.balance - a.balance⟩
      else as.find id := by
  obtain ⟨lo, mid, hi, h⟩ := AssetList.exists_split as.sorted a.id
  have hfind : as.find a.id = mid := (AssetList.find_split h a.id).trans (if_pos rfl)
  unfold subAsset
  rw [hfind]
  rcases AssetList.subAsset_split h with ⟨hs, hno⟩ | ⟨b, l', hmid, hle, hs, h'⟩
  · exact .inl ⟨if_neg (by simp [hs]), hno⟩
  · refine .inr ⟨b, _, hmid, hle, if_pos (by rw [hs]), fun id => ?_⟩
    show (AssetList.subAsset as.assetList a).2.find? _ = _
    rw [hs]
    exact (AssetList.replaced_split as.sorted h h').2 id

theorem subAsset_isSome (as : Assets) (a : Asset) :
    (as.subAsset a).isSome = true ↔ ∃ b, as.find a.id = some b ∧ a.balance ≤ b.balance := by
  rcases as.subAsset_cases a with ⟨hs, hno⟩ | ⟨b, as', hb, hle, hs, -⟩
  · simp only [hs, isSome_none, Bool.false_eq_true, false_iff]
    exact hno
  · exact iff_of_true (by rw [hs]; rfl) ⟨b, hb, hle⟩

theorem lt_of_subAsset_none (ha : 0 ≤ a.balance) (h : as.subAsset a = none) :
    as.balanceOf a.id < a.balance ∨ a.balance = 0 := by
  have hnone : ¬ (as.subAsset a).isSome = true := by rw [h]; exact Bool.false_ne_true
  rw [subAsset_isSome] at hnone
  cases hf : as.find a.id with
  | none =>
    rw [balanceOf_of_none hf]
    omega
  | some b =>
    rw [balanceOf_of_find hf]
    exact .inl (not_le.1 fun hle => hnone ⟨b, hf, hle⟩)

theorem find_subAsset (h : as.subAsset a = some as') (id : Address) :
    as'.find id =
      if id = a.id then
        if as.balanceOf a.id = a.balance then none else some ⟨a.id, as.balanceOf a.id - a.balance⟩
      else as.find id := by
  rcases as.subAsset_cases a with ⟨hs, -⟩ | ⟨b, l, hb, -, hs, hfind⟩
  · cases hs.symm.trans h
  · cases hs.symm.trans h
    rw [hfind, balanceOf_of_find hb]

theorem balanceOf_subAsset (h : as.subAsset a = some as')
    (id : Address) : as'.balanceOf id = as.balanceOf id - if id = a.id then a.balance else 0 := by
  by_cases hid : id = a.id
  · rw [if_pos hid, hid]
    have hfind := find_subAsset h a.id
    rw [if_pos rfl] at hfind
    split at hfind
    · rw [balanceOf_of_none hfind]; omega
    · exact balanceOf_of_find hfind
  · rw [if_neg hid, sub_zero]
    unfold balanceOf
    rw [find_subAsset h, if_neg hid]

theorem mem_iff_find (as : Assets) (a : Asset) : a ∈ as.assetList ↔ as.find a.id = some a := by
  refine ⟨fun h => ?_, fun h => mem_of_find?_eq_some h⟩
  have hsorted := as.sorted
  unfold find
  generalize as.assetList = l at h hsorted
  induction l with
  | nil => cases h
  | cons c l ih =>
    obtain ⟨hc, hl⟩ := pairwise_cons.1 hsorted
    rw [find?_cons]
    rcases mem_cons.1 h with rfl | h
    · simp
    · rw [beq_eq_false_iff_ne.2 fun heq => BitVec.lt_irrefl _ (heq ▸ hc a h)]
      exact ih h hl

/-- **Lists with the same entries are the same.** -/
theorem ext_find (h : ∀ id, as.find id = as'.find id) : as = as' := by
  have hmem : ∀ a, a ∈ as.assetList ↔ a ∈ as'.assetList := fun a => by
    rw [mem_iff_find, mem_iff_find, h]
  have hnodup : ∀ l : Assets, l.assetList.Nodup := fun l => by
    refine nodup_iff_pairwise_ne.2 (l.sorted.imp ?_)
    rintro a b hlt rfl
    exact BitVec.lt_irrefl _ hlt
  have hperm := (perm_ext_iff_of_nodup (hnodup as) (hnodup as')).2 hmem
  have heq := hperm.eq_of_pairwise (fun a b _ _ hab hba => absurd (BitVec.lt_trans hab hba)
    (BitVec.lt_irrefl _)) as.sorted as'.sorted
  cases as; cases as'
  cases heq
  rfl

def Nonneg (as : Assets) : Prop := ∀ a ∈ as.assetList, 0 ≤ a.balance

instance (as : Assets) : Decidable as.Nonneg := by unfold Nonneg; infer_instance

theorem Nonneg.empty : Nonneg empty := fun _ h => by cases h

theorem Nonneg.balanceOf (h : as.Nonneg) (id : Address) : 0 ≤ as.balanceOf id := by
  unfold Assets.balanceOf find
  cases hf : as.assetList.find? (·.id == id) with
  | none => exact le_refl 0
  | some a => exact h a (mem_of_find?_eq_some hf)

theorem Nonneg.addAsset (h : as.Nonneg) (ha : 0 ≤ a.balance) : (as.addAsset a).Nonneg := by
  intro b hb
  rw [mem_iff_find, find_addAsset] at hb
  split at hb
  · cases hb
    exact add_nonneg (h.balanceOf a.id) ha
  · exact h b ((mem_iff_find as b).2 hb)

theorem Nonneg.subAsset (h : as.Nonneg) (hs : as.subAsset a = some as') : as'.Nonneg := by
  intro c hc
  rcases as.subAsset_cases a with ⟨hnone, -⟩ | ⟨b, l, -, hle, hl, hfind⟩
  · cases hnone.symm.trans hs
  · cases hl.symm.trans hs
    rw [mem_iff_find, hfind] at hc
    split at hc
    · split at hc
      · cases hc
      · cases hc
        exact sub_nonneg.2 hle
    · exact h c ((mem_iff_find as c).2 hc)

end Assets

/-! ## Accounts in memory and in the trie -/

/-- `Account`, with the contents its hashes stand for. A lock balance of `none` is the nil
pointer of an account that was never decoded. -/
structure Account where
  nonce : Nat
  balance : Int
  storage : Hash → Hash
  code : Bytes
  lockBalance : Option Int
  voteList : Slice Address
  assetList : Assets
  assetData : Bytes

namespace Account

/-- `newObject(db, address, Account{}, …)`. -/
def blank : Account where
  nonce := 0
  balance := 0
  storage := fun _ => 0
  code := []
  lockBalance := none
  voteList := Slice.ofList [] 0 0
  assetList := Assets.empty
  assetData := []

/-- `empty`: the lock balance and the vote list do not count. -/
def isEmpty (a : Account) : Bool :=
  a.nonce == 0 && a.balance == 0 && a.code.isEmpty && a.assetList.isEmpty

end Account

structure StoredAccount where
  nonce : Nat
  balance : Nat
  storage : Hash → Hash
  code : Bytes
  lockBalance : Nat
  voteList : List Address
  assetList : Assets
  nonneg : assetList.Nonneg
  assetData : Bytes

/-- The trie of the accounts, by its contents. -/
abbrev Trie :=
  Address → Option StoredAccount

def plainAccount (nonce balance : Nat) : StoredAccount :=
  ⟨nonce, balance, fun _ => 0, [], 0, [], Assets.empty, Assets.Nonneg.empty, []⟩

/-- The capacity `decodeSliceElems` ends with for a list of `n` elements. -/
def decodeCap (n : Nat) : Nat :=
  if n = 0 then 0
  else (List.range (n + 1)).foldl (fun cap i => if cap ≤ i then max 4 (cap + cap / 2) else cap) 0

def StoredAccount.decode (s : StoredAccount) : Account where
  nonce := s.nonce
  balance := s.balance
  storage := s.storage
  code := s.code
  lockBalance := some s.lockBalance
  voteList := Slice.ofList s.voteList 0 (decodeCap s.voteList.length - s.voteList.length)
  assetList := s.assetList
  assetData := s.assetData

/-- RLP encodes a nil pointer as zero and refuses negative integers. -/
def Account.encode (a : Account) : Option StoredAccount :=
  if h : a.assetList.Nonneg then
    if 0 ≤ a.balance ∧ 0 ≤ a.lockBalance.getD 0 then
      some
        { nonce := a.nonce, balance := a.balance.toNat, storage := a.storage, code := a.code
          lockBalance := (a.lockBalance.getD 0).toNat, voteList := a.voteList.view
          assetList := a.assetList, nonneg := h, assetData := a.assetData }
    else none
  else none

end GoAoa.State
