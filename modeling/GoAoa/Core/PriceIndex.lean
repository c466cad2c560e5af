import GoAoa.Types
import GoAoa.Lib.Heap
import Mathlib.Data.List.DropRight
import Mathlib.Data.List.Nodup
import Mathlib.Data.List.Perm.Subperm

/-!
# The price index of the pool

`txTypeList` of `core/tx_list.go`: the transactions of the pool by their type, each type with a heap
of its transactions, the highest price first, in a heap of types, the largest first. An operation
changes the entries of one type; what it does to the index is said about all entries together
(`entries`), in any order. `none` is a panic.

Whether a type is that of a contract is not kept.
-/

namespace GoAoa

/-- `StringToAddress` of a short ASCII text. -/
def stringToAddress (s : String) : Address :=
  BitVec.ofNat 160 (s.toList.foldl (fun n c => 256 * n + c.toNat) 0)

/-- `GetTransactionType`. A call without a recipient panics. -/
def Transaction.getTransactionType (tx : Transaction) : Option Address :=
  match tx.action with
  | 0 => some (tx.asset.getD (stringToAddress "aoa"))
  | 1 => some (stringToAddress "Register Agent")
  | 2 => some (stringToAddress "Vote Agent")
  | 3 => some (stringToAddress "Vote Agent")
  | 5 => some (stringToAddress "Create Contract")
  | 6 => tx.recipient
  | _ => some (stringToAddress "Publish Asset")

end GoAoa

namespace GoAoa.Core

open List Option

/-- `KV`. -/
structure KV where
  key : Address
  value : List Transaction
  deriving DecidableEq

/-- The items of a `txTypeList`. -/
abbrev TxTypeList := List KV

namespace TxTypeList

variable (hash : Transaction → Hash) (sortByPrice : List Transaction → List Transaction)

/-- `txPoolSorter.Less` compares it. -/
def size (kv : KV) : Nat := kv.value.length

def get (items : TxTypeList) (txType : Address) : Option (Nat × List Transaction) :=
  (items.findIdx? fun kv => kv.key == txType).bind fun i => items[i]?.map fun kv => (i, kv.value)

def put (items : TxTypeList) (tx : Transaction) : Option TxTypeList :=
  tx.getTransactionType.map fun txType =>
    match items.get txType with
    | none => Heap.push size items ⟨txType, Heap.push Transaction.price [] tx⟩
    | some (i, txList) => items.set i ⟨txType, Heap.push Transaction.price txList tx⟩

/-- `Underpriced`, of a transaction of the type: the stale transactions at the end go, then the
last one is the cheapest. -/
def underpriced (live : Transaction → Bool) (items : TxTypeList) (txType : Address) (price : Nat) :
    Option (Bool × TxTypeList) :=
  (items.get txType).bind fun (i, txList) =>
    let txList := (sortByPrice txList).rdropWhile fun tx => !live tx
    txList.getLast?.map fun cheapest =>
      (decide (price ≤ cheapest.price), items.set i ⟨txType, txList⟩)

def entries (items : TxTypeList) : List Transaction := items.flatMap KV.value

/-- `GetTransactionList`: all of them in one heap. -/
def getTransactionList (items : TxTypeList) : List Transaction :=
  items.entries.foldl (Heap.push Transaction.price) []

/-- The loop of `Cap` over the transactions in the order in which they are popped: those to drop and
those to put back. -/
def capLoop (live isLocal : Transaction → Bool) (threshold : Nat) :
    List Transaction → List Transaction × List Transaction
  | [] => ([], [])
  | tx :: txs =>
    let (drop, save) := capLoop live isLocal threshold txs
    if !live tx then (drop, save)
    else if threshold ≤ tx.price then ([], [tx])
    else if isLocal tx then (drop, tx :: save)
    else (tx :: drop, save)

/-- The transactions of the index in the order in which `Cap` pops them. -/
def popped (items : TxTypeList) : List Transaction :=
  Heap.drain Transaction.price items.entries.length items.getTransactionList

/-- `Cap`: what is saved is put into the index it was never taken out of. -/
def cap (live isLocal : Transaction → Bool) (threshold : Nat) (items : TxTypeList) :
    Option (List Transaction × TxTypeList) :=
  let (drop, save) := capLoop live isLocal threshold items.popped
  (save.foldlM put items).map fun items => (drop, items)

section

variable (items : TxTypeList)

def removeByHash (txType : Address) (h : Hash) : Option TxTypeList :=
  (items.get txType).bind fun (i, txList) =>
    (txList.findIdx? fun tx => hash tx == h).bind fun j =>
      (Heap.remove Transaction.price txList j).bind fun (_, rest) =>
        if rest = [] then (Heap.remove size (items.set i ⟨txType, rest⟩) i).map Prod.snd
        else some (items.set i ⟨txType, rest⟩)

/-- The transactions of the item at `i` are sorted, and the last of them is returned. -/
def cheapest (i : Nat) : Option (Transaction × TxTypeList) :=
  items[i]?.bind fun kv =>
    (sortByPrice kv.value).getLast?.map fun tx =>
      (tx, items.set i ⟨kv.key, sortByPrice kv.value⟩)

/-- `RemoveTx`: the cheapest transaction of the first type, which stays where it is. -/
def removeTx : Option (Transaction × TxTypeList) :=
  cheapest sortByPrice items 0

end

/-! ## Entries in any order -/

/-- Types are there once, with at least one transaction, and each transaction stands under its own
type. -/
structure Indexed (items : TxTypeList) : Prop where
  keys : (items.map KV.key).Nodup
  value_ne_nil : ∀ kv ∈ items, kv.value ≠ []
  typed : ∀ kv ∈ items, ∀ tx ∈ kv.value, tx.getTransactionType = some kv.key

section

variable {hash} {sortByPrice} {items items' : TxTypeList} {kv : KV} {txType : Address}
  {txList : List Transaction} {tx t : Transaction} {i : Nat} {live isLocal : Transaction → Bool}

theorem indexed_nil : Indexed [] := ⟨nodup_nil, fun _ h => (nomatch h), fun _ h => (nomatch h)⟩

theorem Indexed.perm (h : Indexed items) (hp : items.Perm items') : Indexed items' :=
  ⟨(hp.map _).nodup_iff.1 h.keys, fun kv hkv => h.value_ne_nil kv (hp.mem_iff.2 hkv),
    fun kv hkv => h.typed kv (hp.mem_iff.2 hkv)⟩

theorem indexed_cons : Indexed (kv :: items) ↔ (kv.key ∉ items.map KV.key ∧ kv.value ≠ [] ∧
      ∀ tx ∈ kv.value, tx.getTransactionType = some kv.key) ∧ Indexed items := by
  constructor
  · intro h
    have hkeys := nodup_cons.1 h.keys
    exact ⟨⟨hkeys.1, h.value_ne_nil kv mem_cons_self, h.typed kv mem_cons_self⟩, hkeys.2,
      fun x hx => h.value_ne_nil x (mem_cons_of_mem kv hx),
      fun x hx => h.typed x (mem_cons_of_mem kv hx)⟩
  · rintro ⟨⟨hkey, hne, htyped⟩, h⟩
    refine ⟨nodup_cons.2 ⟨hkey, h.keys⟩, fun x hx => ?_, fun x hx => ?_⟩
    · rcases mem_cons.1 hx with rfl | hx
      · exact hne
      · exact h.value_ne_nil x hx
    · rcases mem_cons.1 hx with rfl | hx
      · exact htyped
      · exact h.typed x hx

theorem entries_perm (hp : items.Perm items') : (entries items).Perm (entries items') :=
  hp.flatMap_right _

theorem mem_entries : tx ∈ entries items ↔ ∃ kv ∈ items, tx ∈ kv.value := List.mem_flatMap

theorem perm_of_getElem? (h : items[i]? = some kv) :
    items.Perm (kv :: items.eraseIdx i) ∧ ∀ kv', (items.set i kv').Perm (kv' :: items.eraseIdx i) := by
  obtain ⟨hlt, hkv⟩ := List.getElem?_eq_some_iff.1 h
  constructor
  · have := (getElem_cons_eraseIdx_perm hlt).symm
    rwa [hkv] at this
  · intro x
    have := (getElem_cons_eraseIdx_perm (l := items.set i x) (by simpa using hlt)).symm
    rwa [getElem_set_self, eraseIdx_set_eq] at this

theorem getElem?_of_get (h : items.get txType = some (i, txList)) :
    items[i]? = some ⟨txType, txList⟩ := by
  obtain ⟨j, hj, hget⟩ := bind_eq_some_iff.1 h
  obtain ⟨kv, hkv, heq⟩ := map_eq_some_iff.1 hget
  cases heq
  obtain ⟨hlt, hkey, -⟩ := findIdx?_eq_some_iff_getElem.1 hj
  obtain ⟨_, hkv'⟩ := List.getElem?_eq_some_iff.1 hkv
  have hkey : kv.key = txType := by simpa [hkv'] using hkey
  rw [hkv, ← hkey]

theorem get_eq_none : items.get txType = none ↔ txType ∉ items.map KV.key := by
  unfold get
  constructor
  · intro h hmem
    obtain ⟨kv, hkv, rfl⟩ := mem_map.1 hmem
    cases hf : items.findIdx? fun x => x.key == kv.key with
    | none => simpa using findIdx?_eq_none_iff.1 hf kv hkv
    | some =>
      obtain ⟨hlt, -⟩ := findIdx?_eq_some_iff_getElem.1 hf
      simp [hf, getElem?_eq_getElem hlt] at h
  · intro h
    have hnone : (items.findIdx? fun kv => kv.key == txType) = none := by
      refine findIdx?_eq_none_iff.2 fun kv hkv => beq_eq_false_iff_ne.2 ?_
      rintro rfl
      exact h (mem_map_of_mem hkv)
    rw [hnone]
    rfl

theorem Indexed.get_of_mem (h : Indexed items) (ht : t ∈ entries items)
    (htype : t.getTransactionType = some txType) :
    ∃ i txList, items.get txType = some (i, txList) ∧ t ∈ txList := by
  obtain ⟨kv, hkv, ht⟩ := mem_entries.1 ht
  have hkey := some.inj ((h.typed kv hkv t ht).symm.trans htype)
  cases hg : items.get txType with
  | none => exact absurd (hkey ▸ mem_map_of_mem hkv) (get_eq_none.1 hg)
  | some r =>
    obtain ⟨i, txList⟩ := r
    have hitem := mem_of_getElem? (getElem?_of_get hg)
    have := inj_on_of_nodup_map h.keys hkv hitem hkey
    exact ⟨i, txList, rfl, by rw [this] at ht; exact ht⟩

theorem Indexed.set (h : Indexed items) (hi : items[i]? = some ⟨txType, txList⟩)
    {txList' : List Transaction} (hne : txList' ≠ [])
    (htyped : ∀ tx ∈ txList', tx.getTransactionType = some txType) :
    Indexed (items.set i ⟨txType, txList'⟩) := by
  obtain ⟨hp, hset⟩ := perm_of_getElem? hi
  obtain ⟨⟨hkey, -⟩, hrest⟩ := indexed_cons.1 (h.perm hp)
  have hcons : Indexed (⟨txType, txList'⟩ :: items.eraseIdx i) :=
    indexed_cons.2 ⟨⟨hkey, hne, htyped⟩, hrest⟩
  exact hcons.perm (hset _).symm

theorem entries_of_getElem? (hi : items[i]? = some ⟨txType, txList⟩) :
    (entries items).Perm (txList ++ entries (items.eraseIdx i)) ∧
      ∀ txList', (entries (items.set i ⟨txType, txList'⟩)).Perm
        (txList' ++ entries (items.eraseIdx i)) := by
  obtain ⟨hp, hset⟩ := perm_of_getElem? hi
  exact ⟨entries_perm hp, fun txList' => entries_perm (hset _)⟩

theorem Indexed.at (h : Indexed items) (hi : items[i]? = some ⟨txType, txList⟩) :
    txList ≠ [] ∧ ∀ tx ∈ txList, tx.getTransactionType = some txType :=
  ⟨h.value_ne_nil _ (mem_of_getElem? hi), h.typed _ (mem_of_getElem? hi)⟩

/-! ## What the operations do to the entries -/

theorem push_price (txList : List Transaction) (tx : Transaction) :
    (Heap.push Transaction.price txList tx).Perm (tx :: txList) ∧
      Heap.push Transaction.price txList tx ≠ [] := by
  have hp : (Heap.push Transaction.price txList tx).Perm (tx :: txList) := Heap.push_perm _ _
  refine ⟨hp, fun hnil => ?_⟩
  rw [hnil] at hp
  exact cons_ne_nil tx txList (nil_perm.1 hp)

theorem put_entries (h : Indexed items) (htype : tx.getTransactionType = some txType) :
    ∃ items', items.put tx = some items' ∧ Indexed items' ∧
      (entries items').Perm (tx :: entries items) := by
  unfold put
  rw [htype, map_some]
  refine ⟨_, rfl, ?_⟩
  cases hg : items.get txType with
  | none =>
    obtain ⟨hone, hne⟩ := push_price [] tx
    have hp : (Heap.push size items ⟨txType, Heap.push Transaction.price [] tx⟩).Perm
      (⟨txType, Heap.push Transaction.price [] tx⟩ :: items) := Heap.push_perm _ _
    have hcons : Indexed (⟨txType, Heap.push Transaction.price [] tx⟩ :: items) := by
      refine indexed_cons.2 ⟨⟨get_eq_none.1 hg, hne, fun t ht => ?_⟩, h⟩
      obtain rfl := mem_singleton.1 (hone.mem_iff.1 ht)
      exact htype
    exact ⟨hcons.perm hp.symm, (entries_perm hp).trans (hone.append_right (entries items))⟩
  | some r =>
    obtain ⟨i, txList⟩ := r
    have hi := getElem?_of_get hg
    obtain ⟨hp, hne⟩ := push_price txList tx
    obtain ⟨hall, hset⟩ := entries_of_getElem? hi
    have htyped : ∀ t ∈ Heap.push Transaction.price txList tx,
        t.getTransactionType = some txType := by
      intro t ht
      rcases mem_cons.1 (hp.mem_iff.1 ht) with rfl | ht
      · exact htype
      · exact (h.at hi).2 t ht
    exact ⟨h.set hi hne htyped, (hset _).trans ((hp.append_right _).trans (hall.symm.cons tx))⟩

theorem removeByHash_entries (h : Indexed items) {x : Hash} (ht : t ∈ entries items)
    (htype : t.getTransactionType = some txType) (hhash : hash t = x) :
    ∃ e items', removeByHash hash items txType x = some items' ∧ hash e = x ∧ Indexed items' ∧
      (entries items).Perm (e :: entries items') := by
  obtain ⟨i, txList, hg, ht⟩ := h.get_of_mem ht htype
  obtain ⟨j, hj⟩ : ∃ j, (txList.findIdx? fun tx => hash tx == x) = some j := by
    cases hf : txList.findIdx? fun tx => hash tx == x with
    | none => simpa [hhash] using findIdx?_eq_none_iff.1 hf t ht
    | some j => exact ⟨j, rfl⟩
  obtain ⟨hlt, hhash', -⟩ := findIdx?_eq_some_iff_getElem.1 hj
  obtain ⟨e, rest, hrem⟩ : ∃ e rest, Heap.remove Transaction.price txList j = some (e, rest) :=
    Heap.remove_of_lt hlt
  obtain ⟨hat, hperm⟩ := Heap.remove_perm hrem
  have he : hash e = x := by
    obtain ⟨_, hat⟩ := List.getElem?_eq_some_iff.1 hat
    simpa [hat] using hhash'
  have hi := getElem?_of_get hg
  obtain ⟨hall, hset⟩ := entries_of_getElem? hi
  have hentries := hall.trans (hperm.append_right _)
  have htyped : ∀ tx ∈ rest, tx.getTransactionType = some txType := fun tx htx =>
    (h.at hi).2 tx (hperm.mem_iff.2 (mem_cons_of_mem e htx))
  have hrun : removeByHash hash items txType x =
      if rest = [] then (Heap.remove size (items.set i ⟨txType, rest⟩) i).map Prod.snd
      else some (items.set i ⟨txType, rest⟩) := by
    simp only [removeByHash, hg, hj, hrem, bind_some]
  rw [hrun]
  by_cases hrest : rest = []
  · subst hrest
    have hlt := (List.getElem?_eq_some_iff.1 hi).1
    obtain ⟨kv, items', hrem'⟩ : ∃ kv items', Heap.remove size (items.set i ⟨txType, []⟩) i =
      some (kv, items') := Heap.remove_of_lt (by rwa [length_set])
    obtain ⟨hkv, hp⟩ := Heap.remove_perm hrem'
    rw [getElem?_set_self hlt] at hkv
    cases hkv
    have hp := (((perm_of_getElem? hi).2 _).symm.trans hp).cons_inv
    refine ⟨e, items', ?_, he, ?_, hentries.trans ((entries_perm hp).cons e)⟩
    · rw [if_pos rfl, hrem']
      rfl
    · exact (indexed_cons.1 (h.perm (perm_of_getElem? hi).1)).2.perm hp
  · exact ⟨e, _, if_neg hrest, he, h.set hi hrest htyped, hentries.trans ((hset rest).symm.cons e)⟩

theorem removeByHash_eq_some (h : Indexed items) {x : Hash}
    (hrun : removeByHash hash items txType x = some items') :
    ∃ e, hash e = x ∧ Indexed items' ∧ (entries items).Perm (e :: entries items') := by
  obtain ⟨⟨i, txList⟩, hg, hfind⟩ := bind_eq_some_iff.1 hrun
  obtain ⟨j, hj, -⟩ := bind_eq_some_iff.1 hfind
  obtain ⟨hlt, hhash, -⟩ := findIdx?_eq_some_iff_getElem.1 hj
  have hi := getElem?_of_get hg
  have hmem := mem_entries.2 ⟨_, mem_of_getElem? hi, getElem_mem hlt⟩
  obtain ⟨e, items1, hrun1, he, h1, hperm⟩ := removeByHash_entries h hmem
    ((h.at hi).2 _ (getElem_mem hlt)) (by simpa using hhash)
  rw [hrun] at hrun1
  cases hrun1
  exact ⟨e, he, h1, hperm⟩

section Sorting

variable (hsort : ∀ l, (sortByPrice l).Perm l)
include hsort

theorem Indexed.sort (h : Indexed items) (hi : items[i]? = some ⟨txType, txList⟩) :
    Indexed (items.set i ⟨txType, sortByPrice txList⟩) ∧
      (entries (items.set i ⟨txType, sortByPrice txList⟩)).Perm (entries items) := by
  obtain ⟨hall, hset⟩ := entries_of_getElem? hi
  obtain ⟨hne, htyped⟩ := h.at hi
  refine ⟨h.set hi (fun hnil => hne ?_) fun tx htx => htyped tx ((hsort _).mem_iff.1 htx), ?_⟩
  · have hp := hsort txList
    rw [hnil] at hp
    exact nil_perm.1 hp
  · exact (hset _).trans (((hsort _).append_right _).trans hall.symm)

theorem cheapest_entries (h : Indexed items) (hi : i < items.length) :
    ∃ tx items', cheapest sortByPrice items i = some (tx, items') ∧ Indexed items' ∧
      (entries items').Perm (entries items) ∧ tx ∈ entries items := by
  have hget := getElem?_eq_getElem hi
  obtain ⟨hindexed, hentries⟩ := h.sort hsort hget
  have hne : sortByPrice items[i].value ≠ [] := by
    have := hindexed.value_ne_nil _ (mem_of_getElem? (getElem?_set_self hi))
    exact this
  refine ⟨(sortByPrice items[i].value).getLast hne, _, ?_, hindexed, hentries, ?_⟩
  · rw [cheapest, hget, bind_some, getLast?_eq_some_getLast hne]
    rfl
  · exact mem_entries.2 ⟨items[i], getElem_mem hi, (hsort _).mem_iff.1 (getLast_mem hne)⟩

theorem underpriced_entries (h : Indexed items) {price : Nat} {cheap : Bool}
    (hu : underpriced sortByPrice live items txType price = some (cheap, items')) :
    ∃ i txList kept stale last, items.get txType = some (i, txList) ∧
      sortByPrice txList = kept ++ stale ∧ (∀ t ∈ stale, live t = false) ∧
      kept.getLast? = some last ∧ live last = true ∧ cheap = decide (price ≤ last.price) ∧
      items' = items.set i ⟨txType, kept⟩ ∧ Indexed items' ∧
      (entries items).Perm (stale ++ entries items') := by
  obtain ⟨⟨i, txList⟩, hg, hu⟩ := bind_eq_some_iff.1 hu
  obtain ⟨last, hlast, heq⟩ := map_eq_some_iff.1 hu
  cases heq
  have hi := getElem?_of_get hg
  have hsplit : sortByPrice txList = ((sortByPrice txList).rdropWhile fun tx => !live tx) ++
      (sortByPrice txList).rtakeWhile fun tx => !live tx := by
    rw [rdropWhile, rtakeWhile, ← reverse_append, takeWhile_append_dropWhile, reverse_reverse]
  have hstale : ∀ t ∈ (sortByPrice txList).rtakeWhile fun tx => !live tx, live t = false := by
    intro t ht
    simpa using mem_rtakeWhile_imp ht
  generalize (sortByPrice txList).rtakeWhile (fun tx => !live tx) = stale at *
  have hlive : live last = true := by
    have hne : (sortByPrice txList).rdropWhile (fun tx => !live tx) ≠ [] := fun hnil => by
      simp [hnil] at hlast
    rw [getLast?_eq_some_getLast hne] at hlast
    cases hlast
    simpa using rdropWhile_last_not _ _ hne
  generalize (sortByPrice txList).rdropWhile (fun tx => !live tx) = kept at *
  have hperm := perm_append_comm.trans (hsplit ▸ hsort txList)
  obtain ⟨hall, hset⟩ := entries_of_getElem? hi
  refine ⟨i, txList, kept, stale, last, hg, hsplit, hstale, hlast, hlive, rfl, rfl, ?_, ?_⟩
  · refine h.set hi (fun hnil => ?_) fun tx htx =>
      (h.at hi).2 tx (hperm.mem_iff.1 (mem_append_right _ htx))
    rw [hnil] at hlast
    cases hlast
  · refine hall.trans ((hperm.symm.append_right _).trans ?_)
    rw [append_assoc]
    exact (hset kept).symm.append_left stale

theorem underpriced_isSome (h : Indexed items) {price : Nat} :
    (underpriced sortByPrice live items txType price).isSome ↔
      ∃ t ∈ entries items, t.getTransactionType = some txType ∧ live t = true := by
  constructor
  · intro hsome
    obtain ⟨⟨cheap, items'⟩, hu⟩ := isSome_iff_exists.1 hsome
    obtain ⟨i, txList, kept, stale, last, hg, hsplit, -, hlast, hlive, -⟩ :=
      underpriced_entries hsort h hu
    have hi := getElem?_of_get hg
    have hmem : last ∈ txList := by
      rw [← (hsort txList).mem_iff, hsplit]
      exact mem_append_left _ (mem_of_getLast? hlast)
    exact ⟨last, mem_entries.2 ⟨_, mem_of_getElem? hi, hmem⟩, (h.at hi).2 last hmem, hlive⟩
  · rintro ⟨t, ht, htype, hlive⟩
    obtain ⟨i, txList, hg, ht⟩ := h.get_of_mem ht htype
    have hne : (sortByPrice txList).rdropWhile (fun tx => !live tx) ≠ [] := by
      intro hnil
      have hall := rdropWhile_eq_nil_iff.1 hnil t ((hsort txList).mem_iff.2 ht)
      simp [hlive] at hall
    simp only [underpriced, hg, bind_some, getLast?_eq_some_getLast hne, map_some, isSome_some]

end Sorting

/-! ## Raising the threshold -/

theorem getTransactionList_perm (items : TxTypeList) :
    (getTransactionList items).Perm (entries items) := by
  have h : (getTransactionList items).Perm (entries items ++ []) := Heap.foldl_push_perm _ _
  rwa [append_nil] at h

theorem popped_perm (items : TxTypeList) : (popped items).Perm (entries items) :=
  (Heap.drain_perm (getTransactionList_perm items).length_eq.le).trans (getTransactionList_perm items)

variable {threshold : Nat} {txs : List Transaction}

theorem mem_capLoop : (t ∈ (capLoop live isLocal threshold txs).1 →
      t ∈ txs ∧ live t = true ∧ isLocal t = false ∧ t.price < threshold) ∧
    (t ∈ (capLoop live isLocal threshold txs).2 → t ∈ txs ∧ live t = true) := by
  induction txs with
  | nil => exact ⟨fun h => (nomatch h), fun h => (nomatch h)⟩
  | cons tx txs ih =>
    have hlater : ∀ {p}, (t ∈ txs ∧ p) → t ∈ tx :: txs ∧ p := fun h =>
      ⟨mem_cons_of_mem tx h.1, h.2⟩
    unfold capLoop
    dsimp only
    split
    · exact ⟨fun h => hlater (ih.1 h), fun h => hlater (ih.2 h)⟩
    · rename_i hlive
      have hlive : live tx = true := by simpa using hlive
      split
      · refine ⟨fun h => (nomatch h), fun h => ?_⟩
        obtain rfl := mem_singleton.1 h
        exact ⟨mem_cons_self, hlive⟩
      · rename_i hprice
        split
        · refine ⟨fun h => hlater (ih.1 h), fun h => ?_⟩
          rcases mem_cons.1 h with rfl | h
          · exact ⟨mem_cons_self, hlive⟩
          · exact hlater (ih.2 h)
        · rename_i hlocal
          refine ⟨fun h => ?_, fun h => hlater (ih.2 h)⟩
          rcases mem_cons.1 h with rfl | h
          · exact ⟨mem_cons_self, hlive, by simpa using hlocal, Nat.lt_of_not_le hprice⟩
          · exact hlater (ih.1 h)

theorem capLoop_save_nil (h : ∀ t ∈ txs, live t = true → t.price < threshold ∧ isLocal t = false) :
    (capLoop live isLocal threshold txs).2 = [] := by
  induction txs with
  | nil => rfl
  | cons tx txs ih =>
    have hrest := ih fun t ht => h t (mem_cons_of_mem tx ht)
    unfold capLoop
    dsimp only
    split
    · exact hrest
    · rename_i hlive
      obtain ⟨hprice, hlocal⟩ := h tx mem_cons_self (by simpa using hlive)
      rw [if_neg (by omega), if_neg (by simp [hlocal])]
      exact hrest

theorem puts_entries (h : Indexed items) (htyped : ∀ t ∈ txs, t.getTransactionType.isSome) :
    ∃ items', txs.foldlM put items = some items' ∧ Indexed items' ∧
      (entries items').Perm (txs ++ entries items) := by
  induction txs generalizing items with
  | nil => exact ⟨items, rfl, h, .refl _⟩
  | cons tx txs ih =>
    obtain ⟨txType, htype⟩ := isSome_iff_exists.1 (htyped tx mem_cons_self)
    obtain ⟨items1, hput, h1, hp1⟩ := put_entries h htype
    obtain ⟨items2, hrun, h2, hp2⟩ := ih h1 fun t ht => htyped t (mem_cons_of_mem tx ht)
    refine ⟨items2, ?_, h2, hp2.trans ((hp1.append_left txs).trans perm_middle)⟩
    rw [foldlM_cons, hput]
    exact hrun

theorem cap_entries (h : Indexed items) : ∃ items', cap live isLocal threshold items =
        some ((capLoop live isLocal threshold (popped items)).1, items') ∧ Indexed items' ∧
      (entries items').Perm
        ((capLoop live isLocal threshold (popped items)).2 ++ entries items) := by
  have htyped : ∀ t ∈ (capLoop live isLocal threshold (popped items)).2,
      t.getTransactionType.isSome := by
    intro t ht
    obtain ⟨kv, hkv, ht⟩ := mem_entries.1 ((popped_perm items).mem_iff.1 (mem_capLoop.2 ht).1)
    rw [h.typed kv hkv t ht]
    rfl
  obtain ⟨items', hputs, h', hp⟩ := puts_entries h htyped
  refine ⟨items', ?_, h', hp⟩
  show (((capLoop live isLocal threshold (popped items)).2.foldlM put items).map _) = _
  rw [hputs]
  rfl

end

end TxTypeList

end GoAoa.Core
