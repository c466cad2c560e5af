import GoAoa.Types
import Mathlib.Data.List.Dedup
import Mathlib.Data.List.Perm.Basic
import Mathlib.Data.List.Sort

/-!
# Sorting the transactions of one type by price

`SortByPriceAndNonce` of `core/types/transaction.go`: each sender's transactions are sorted by
nonce, and the sorted channels are merged pairwise by price. A channel is the list of what comes
out of it. `mergeNTxs` calls itself without end when there is no channel, so it takes fuel.
-/

namespace GoAoa.Core

open List

/-- What a call does not fix: how the senders are recovered, the sort of the Go library, and the
order in which `range` visits the map of channels. -/
structure SortEnv where
  sender : Transaction → Address
  sortByNonce : List Transaction → List Transaction
  sortByNonce_perm : ∀ l, (sortByNonce l).Perm l
  sortByNonce_sorted : ∀ l, (sortByNonce l).Pairwise fun a b => a.accountNonce ≤ b.accountNonce
  order : List Address → List Address
  order_perm : ∀ l, (order l).Perm l

def mergeTx (in1 in2 : List Transaction) : List Transaction :=
  in1.merge in2 fun v1 v2 => v2.price ≤ v1.price

def mergeNTxs : Nat → List (List Transaction) → Option (List Transaction)
  | 0, _ => none
  | _ + 1, [tx] => some tx
  | fuel + 1, txs =>
    let m := txs.length / 2
    (mergeNTxs fuel (txs.take m)).bind fun in1 =>
      (mergeNTxs fuel (txs.drop m)).map (mergeTx in1)

namespace SortEnv

variable (E : SortEnv)

/-- The channels as `range` visits them, each sorted by `inMemSort`. -/
def sortResults (txList : List Transaction) : List (List Transaction) :=
  (E.order (txList.map E.sender).dedup).map fun addr =>
    E.sortByNonce (txList.filter fun tx => E.sender tx = addr)

def sortByPriceAndNonce (fuel : Nat) (txList : List Transaction) : Option (List Transaction) :=
  mergeNTxs fuel (E.sortResults txList)

/-- No transaction comes after one of its sender with a higher nonce. -/
def InNonceOrder (txs : List Transaction) : Prop :=
  txs.Pairwise fun x y => E.sender x = E.sender y → x.accountNonce ≤ y.accountNonce

/-- The two lists have no sender in common. -/
def Apart (txs txs' : List Transaction) : Prop :=
  ∀ x ∈ txs, ∀ y ∈ txs', E.sender x ≠ E.sender y

variable {E} {l r : List Transaction} {ls : List (List Transaction)}

/-! ## The merge -/

theorem InNonceOrder.mergeTx (hl : E.InNonceOrder l) (hr : E.InNonceOrder r) (h : E.Apart l r) :
    E.InNonceOrder (mergeTx l r) := by
  unfold Core.mergeTx
  induction l generalizing r with
  | nil => rwa [nil_merge]
  | cons x l ihl =>
    induction r with
    | nil => rwa [merge_right]
    | cons y r ihr =>
      obtain ⟨hx, hl'⟩ := pairwise_cons.1 hl
      obtain ⟨hy, hr'⟩ := pairwise_cons.1 hr
      rw [cons_merge_cons]
      -- the head goes out before what is left of its own list, and shares no sender with the other
      split
      · refine pairwise_cons.2 ⟨fun z hz => ?_, ihl hl' hr fun a ha => h a (mem_cons_of_mem _ ha)⟩
        rcases mem_merge.1 hz with hz | hz
        · exact hx z hz
        · exact fun heq => absurd heq (h x mem_cons_self z hz)
      · refine pairwise_cons.2 ⟨fun z hz => ?_,
          ihr hr' fun a ha b hb => h a ha b (mem_cons_of_mem _ hb)⟩
        rcases mem_merge.1 hz with hz | hz
        · exact fun heq => absurd heq.symm (h z hz y mem_cons_self)
        · exact hy z hz

/-- **Merging channels without a common sender keeps every transaction and each sender's order.** -/
theorem mergeNTxs_spec {fuel : Nat} (hne : ls ≠ []) (hfuel : ls.length ≤ fuel)
    (hord : ∀ l ∈ ls, E.InNonceOrder l) (hapart : ls.Pairwise E.Apart) :
    ∃ txs, mergeNTxs fuel ls = some txs ∧ txs.Perm ls.flatten ∧ E.InNonceOrder txs := by
  induction fuel generalizing ls with
  | zero => exact absurd (length_eq_zero_iff.1 (Nat.le_zero.1 hfuel)) hne
  | succ fuel ih =>
    have half {half : List (List Transaction)} (hsub : half.Sublist ls) (h0 : 0 < half.length)
        (hlt : half.length < ls.length) :=
      ih (ne_nil_of_length_pos h0) (by omega) (fun l h => hord l (hsub.subset h))
        (hapart.sublist hsub)
    match ls, hne with
    | [l], _ => exact ⟨l, rfl, by rw [flatten_singleton], hord l mem_cons_self⟩
    | a :: b :: rest, _ =>
      set ls := a :: b :: rest
      set m := ls.length / 2
      have hlen : ls.length = rest.length + 2 := rfl
      have htake : (ls.take m).length = m := length_take_of_le (by omega)
      have hdrop : (ls.drop m).length = ls.length - m := length_drop
      obtain ⟨p, hp, hpperm, hpord⟩ := half (take_sublist m ls) (by omega) (by omega)
      obtain ⟨q, hq, hqperm, hqord⟩ := half (drop_sublist m ls) (by omega) (by omega)
      have hpq : E.Apart p q := by
        intro x hx y hy
        obtain ⟨l, hl, hxl⟩ := mem_flatten.1 (hpperm.mem_iff.1 hx)
        obtain ⟨r, hr, hyr⟩ := mem_flatten.1 (hqperm.mem_iff.1 hy)
        rw [← take_append_drop m ls, pairwise_append] at hapart
        exact hapart.2.2 l hl r hr x hxl y hyr
      refine ⟨Core.mergeTx p q, ?_, ?_, hpord.mergeTx hqord hpq⟩
      · show (mergeNTxs fuel (ls.take m)).bind _ = _
        rw [hp, Option.bind_some, hq, Option.map_some]
      · rw [← take_append_drop m ls, flatten_append]
        exact (merge_perm_append _).trans (hpperm.append hqperm)

/-! ## The channels -/

theorem flatMap_filter_perm {keys : List Address} (hnodup : keys.Nodup)
    (h : ∀ x ∈ l, E.sender x ∈ keys) :
    (keys.flatMap fun a => l.filter fun x => E.sender x = a).Perm l := by
  induction keys generalizing l with
  | nil => rw [eq_nil_iff_forall_not_mem.2 fun x hx => not_mem_nil (h x hx)]; rfl
  | cons k keys ih =>
    obtain ⟨hk, hkeys⟩ := nodup_cons.1 hnodup
    rw [flatMap_cons]
    have hrest := ih (l := l.filter fun x => ¬ E.sender x = k) hkeys fun x hx => by
      obtain ⟨hx, hne⟩ := mem_filter.1 hx
      exact (mem_cons.1 (h x hx)).resolve_left (of_decide_eq_true hne)
    have hsame : (keys.flatMap fun a => l.filter fun x => E.sender x = a) =
        keys.flatMap fun a => (l.filter fun x => ¬ E.sender x = k).filter
          fun x => E.sender x = a := by
      refine flatMap_congr fun a ha => ?_
      rw [filter_filter]
      refine filter_congr fun x _ => ?_
      have hak : a ≠ k := fun heq => hk (heq ▸ ha)
      grind
    rw [hsame]
    exact (hrest.append_left _).trans (by simpa using filter_append_perm _ l)

variable (E) in
/-- **The sort by price keeps nonces in order.** The result has every transaction of a list that is
not empty, each sender's in the order of the nonces: no prefix of it leaves a gap. -/
theorem sortByPriceAndNonce_spec {txList : List Transaction} (h : txList ≠ []) {fuel : Nat}
    (hfuel : txList.length ≤ fuel) :
    ∃ result, E.sortByPriceAndNonce fuel txList = some result ∧ result.Perm txList ∧
      E.InNonceOrder result ∧
      ∀ n, ∀ x ∈ result.take n, ∀ y ∈ txList, E.sender y = E.sender x →
        y.accountNonce < x.accountNonce → y ∈ result.take n := by
  have hkeys := E.order_perm (txList.map E.sender).dedup
  have hmem {x} (hx : x ∈ txList) : E.sender x ∈ E.order (txList.map E.sender).dedup :=
    hkeys.mem_iff.2 (mem_dedup.2 (mem_map_of_mem hx))
  have hnodup := hkeys.nodup_iff.2 (nodup_dedup _)
  have hsender {a x} (hx : x ∈ E.sortByNonce (txList.filter fun tx => E.sender tx = a)) :
      E.sender x = a :=
    of_decide_eq_true (mem_filter.1 ((E.sortByNonce_perm _).mem_iff.1 hx)).2
  have hne : E.sortResults txList ≠ [] := by
    obtain ⟨x, hx⟩ := exists_mem_of_ne_nil _ h
    exact ne_nil_of_mem (mem_map_of_mem (hmem hx))
  have hlen : (E.sortResults txList).length ≤ fuel := by
    rw [sortResults, length_map, hkeys.length_eq]
    exact ((dedup_sublist _).length_le).trans (by rwa [length_map])
  have hapart : (E.sortResults txList).Pairwise E.Apart := by
    refine pairwise_map.2 (hnodup.imp fun hab x hx y hy heq => hab ?_)
    rw [← hsender hx, heq, hsender hy]
  have hsorted : ∀ l ∈ E.sortResults txList, E.InNonceOrder l := by
    intro l hl
    obtain ⟨a, -, rfl⟩ := mem_map.1 hl
    refine Pairwise.imp ?_ (E.sortByNonce_sorted _)
    exact fun hle _ => hle
  obtain ⟨result, hresult, hperm, hord⟩ := mergeNTxs_spec hne hlen hsorted hapart
  have hall : result.Perm txList := by
    refine hperm.trans (.trans ?_ (flatMap_filter_perm hnodup fun x hx => hmem hx))
    exact Perm.flatMap_left _ fun a _ => E.sortByNonce_perm _
  refine ⟨result, hresult, hall, hord, fun n x hx y hy hxy hlt => ?_⟩
  rw [InNonceOrder, ← take_append_drop n result, pairwise_append] at hord
  rw [← hall.mem_iff, ← take_append_drop n result, mem_append] at hy
  refine hy.resolve_right fun hdrop => ?_
  exact Nat.not_le.2 hlt (hord.2.2 x hx y hdrop hxy.symm)

/-- The signature tells the sender, and the map is visited as it stands. -/
def bySignature : SortEnv where
  sender tx := BitVec.ofNat 160 tx.v
  sortByNonce l := l.insertionSort fun a b => a.accountNonce ≤ b.accountNonce
  sortByNonce_perm l := perm_insertionSort _ l
  sortByNonce_sorted l := pairwise_insertionSort _ l
  order l := l
  order_perm _ := .rfl

def offer (v nonce price : Nat) : Transaction :=
  ⟨nonce, price, 0, none, 0, [], 0, none, [], none, none, "", [], v, 0, 0⟩

/-- The second transaction of account 1 offers more than its first, and those of account 2 come in
the wrong order. -/
theorem sortByPriceAndNonce_two :
    let txs := [offer 1 1 9, offer 2 5 5, offer 1 0 1, offer 2 4 7]
    ∃ result, bySignature.sortByPriceAndNonce 4 txs = some result ∧
      result = [offer 2 4 7, offer 2 5 5, offer 1 0 1, offer 1 1 9] ∧ result.Perm txs ∧
      bySignature.InNonceOrder result := by
  intro txs
  have hlists : bySignature.sortResults txs =
      [[offer 1 0 1, offer 1 1 9], [offer 2 4 7, offer 2 5 5]] := by decide +kernel
  obtain ⟨result, h, hperm, hord, -⟩ :=
    @sortByPriceAndNonce_spec bySignature txs (cons_ne_nil _ _) 4 (le_refl 4)
  refine ⟨result, h, ?_, hperm, hord⟩
  rw [sortByPriceAndNonce, hlists] at h
  simpa [mergeNTxs, mergeTx, offer] using h.symm

theorem mergeNTxs_nil (fuel : Nat) : mergeNTxs fuel [] = none := by
  cases fuel with
  | zero => rfl
  | succ fuel => exact congrArg (Option.bind · _) (mergeNTxs_nil fuel)

/-- Without a transaction there is no channel, and the recursion has no end. -/
theorem not_sortByPriceAndNonce_nil :
    ¬ ∀ txList, ∃ fuel result, bySignature.sortByPriceAndNonce fuel txList = some result := by
  intro h
  obtain ⟨fuel, result, h⟩ := h []
  exact Option.some_ne_none _ (h.symm.trans (mergeNTxs_nil fuel))

end SortEnv

end GoAoa.Core
