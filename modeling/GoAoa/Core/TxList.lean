import GoAoa.Lib.Run
import GoAoa.VM.Evm
import Mathlib.Data.List.Perm.Basic

/-!
# The transactions of an account

`core/tx_list.go`: the transactions of one account by nonce. The map from nonces with its heap of
nonces is a list that carries the order of its nonces. An operation that takes transactions out
returns them with the rest, and the two together are what was there (`Parts`). `none` is a panic
where nothing else is said.
-/

namespace GoAoa

/-- `AoaCost`: the gas, and the fee of a registration or the amount of the main coin. -/
def Transaction.aoaCost (tx : Transaction) : Int :=
  let total : Int := tx.price * tx.gasLimit
  if tx.action = 1 then total + VM.registerCost
  else if (tx.asset = none ∨ tx.asset = some 0) ∧ 0 < tx.amount then total + tx.amount
  else total

end GoAoa

namespace GoAoa.Core

open List

/-- `txSortedMap`. -/
structure TxSortedMap where
  items : List Transaction
  sorted : items.Pairwise fun a b => a.accountNonce < b.accountNonce
  deriving DecidableEq

namespace TxSortedMap

def empty : TxSortedMap := ⟨[], Pairwise.nil⟩

section

variable (m : TxSortedMap)

def get (nonce : Nat) : Option Transaction :=
  m.items.find? fun t => t.accountNonce == nonce

/-- `Put`: the transaction takes the place of the one with its nonce. -/
def put (tx : Transaction) : TxSortedMap where
  items := m.items.filter (fun t => t.accountNonce < tx.accountNonce) ++
    tx :: m.items.filter fun t => tx.accountNonce < t.accountNonce
  sorted := by
    rw [pairwise_append, pairwise_cons]
    refine ⟨m.sorted.filter _, ⟨fun b hb => ?_, m.sorted.filter _⟩, fun a ha b hb => ?_⟩
    · simpa using (List.mem_filter.1 hb).2
    · have ha : a.accountNonce < tx.accountNonce := by simpa using (List.mem_filter.1 ha).2
      rcases mem_cons.1 hb with rfl | hb
      · exact ha
      · have hb : tx.accountNonce < b.accountNonce := by simpa using (List.mem_filter.1 hb).2
        omega

/-- `Filter`: what is taken out, and the rest. -/
def filter (f : Transaction → Bool) : List Transaction × TxSortedMap :=
  (m.items.filter f, ⟨m.items.filter fun t => !f t, m.sorted.filter _⟩)

/-- `Forward`: the nonces below the threshold are popped off the heap. -/
def forward (threshold : Nat) : List Transaction × TxSortedMap :=
  m.filter fun t => t.accountNonce < threshold

/-- `Cap`: the highest nonces first. -/
def cap (threshold : Nat) : List Transaction × TxSortedMap :=
  if m.items.length ≤ threshold then ([], m)
  else ((m.items.drop threshold).reverse,
    ⟨m.items.take threshold, m.sorted.sublist (take_sublist _ _)⟩)

/-- `Remove` of a nonce that is there. -/
def remove (nonce : Nat) : TxSortedMap :=
  (m.filter fun t => t.accountNonce == nonce).2

end

/-- The run of transactions whose nonces count up from `next`, and the rest. -/
def run : Nat → List Transaction → List Transaction × List Transaction
  | _, [] => ([], [])
  | next, t :: ts =>
    if t.accountNonce = next then (t :: (run (u64 (next + 1)) ts).1, (run (u64 (next + 1)) ts).2)
    else ([], t :: ts)

theorem run_append (next : Nat) (ts : List Transaction) :
    (run next ts).1 ++ (run next ts).2 = ts := by
  induction ts generalizing next with
  | nil => rfl
  | cons t ts ih =>
    unfold run
    split
    · rw [cons_append, ih]
    · rfl

/-- `Ready`: the run from the lowest nonce on, if that is not above `start`. -/
def ready (m : TxSortedMap) (start : Nat) : List Transaction × TxSortedMap :=
  match m.items.head? with
  | none => ([], m)
  | some t =>
    if start < t.accountNonce then ([], m)
    else ((run t.accountNonce m.items).1,
      ⟨(run t.accountNonce m.items).2, m.sorted.sublist (by
        have := sublist_append_right (run t.accountNonce m.items).1 (run t.accountNonce m.items).2
        rwa [run_append] at this)⟩)

theorem mem_put {m : TxSortedMap} {tx t : Transaction} :
    t ∈ (m.put tx).items ↔ t = tx ∨ t ∈ m.items ∧ t.accountNonce ≠ tx.accountNonce := by
  have hne : t.accountNonce ≠ tx.accountNonce ↔
      t.accountNonce < tx.accountNonce ∨ tx.accountNonce < t.accountNonce := by omega
  simp only [put, mem_append, mem_cons, mem_filter, decide_eq_true_eq, hne]
  tauto

end TxSortedMap

/-- `txList`: in a `strict` list a nonce that goes takes those after it along. No transaction costs
more than `costcap`, and none has more gas than `gascap`. -/
structure TxList where
  strict : Bool
  txs : TxSortedMap
  costcap : Int
  gascap : Nat
  capped : ∀ t ∈ txs.items, t.aoaCost ≤ costcap ∧ t.gasLimit ≤ gascap
  deriving DecidableEq

namespace TxList

def new (strict : Bool) : TxList := ⟨strict, .empty, 0, 0, by simp [TxSortedMap.empty]⟩

section

variable (l : TxList)

/-- The transactions of the list, as `Flatten` returns them. -/
def flatten : List Transaction := l.txs.items

def len : Nat := l.flatten.length

def keep (txs : TxSortedMap) (h : ∀ t ∈ txs.items, t ∈ l.txs.items) : TxList :=
  { l with txs := txs, capped := fun t ht => l.capped t (h t ht) }

def overlaps (tx : Transaction) : Bool := (l.txs.get tx.accountNonce).isSome

end

def tooLow (old tx : Transaction) (priceBump : Nat) : Bool :=
  tx.price ≤ old.price || (tx.price : Int) < old.price * i64 (100 + i64 priceBump) / 100

/-- `Add`: the transaction that was replaced and the list, or `none` if the new one is refused. -/
def add (l : TxList) (tx : Transaction) (priceBump : Nat) : Option (Option Transaction × TxList) :=
  let old := l.txs.get tx.accountNonce
  if old.any fun o => tooLow o tx priceBump then none
  else some (old,
    { l with
      txs := l.txs.put tx
      costcap := max l.costcap tx.aoaCost
      gascap := max l.gascap tx.gasLimit
      capped := by
        intro t ht
        rcases TxSortedMap.mem_put.1 ht with rfl | ⟨ht, -⟩
        · exact ⟨le_max_right _ _, le_max_right _ _⟩
        · exact ⟨(l.capped t ht).1.trans (le_max_left _ _),
            (l.capped t ht).2.trans (le_max_left _ _)⟩ })

def forward (l : TxList) (threshold : Nat) : List Transaction × TxList :=
  ((l.txs.forward threshold).1,
    l.keep (l.txs.forward threshold).2 fun _ ht => (List.mem_filter.1 ht).1)

def exceeds (costLimit : Int) (gasLimit : Nat) (tx : Transaction) : Bool :=
  costLimit < tx.aoaCost || gasLimit < tx.gasLimit

section

variable (l : TxList)

def lower (costLimit : Int) (gasLimit : Nat) : TxList where
  strict := l.strict
  txs := (l.txs.filter (exceeds costLimit gasLimit)).2
  costcap := costLimit
  gascap := gasLimit
  capped t ht := by
    have h : exceeds costLimit gasLimit t = false := by simpa using (List.mem_filter.1 ht).2
    simpa [exceeds] using h

/-- `Filter`: what exceeds the limits, what a strict list loses after it, and the rest. -/
def filter (costLimit : Int) (gasLimit : Nat) : List Transaction × List Transaction × TxList :=
  if l.costcap ≤ costLimit ∧ l.gascap ≤ gasLimit then ([], [], l)
  else
    let removed := (l.txs.filter (exceeds costLimit gasLimit)).1
    let l := l.lower costLimit gasLimit
    if l.strict ∧ removed ≠ [] then
      let lowest := removed.foldl (fun low tx => min low tx.accountNonce) (2 ^ 64 - 1)
      (removed, (l.txs.filter fun tx => lowest < tx.accountNonce).1,
        l.keep (l.txs.filter fun tx => lowest < tx.accountNonce).2 fun _ ht =>
          (List.mem_filter.1 ht).1)
    else (removed, [], l)

/-- `Cap`: below zero it uses an index that is not there. -/
def cap (threshold : Int) : Option (List Transaction × TxList) :=
  if threshold < 0 then none
  else some ((l.txs.cap threshold.toNat).1, l.keep (l.txs.cap threshold.toNat).2 (by
    intro t ht
    unfold TxSortedMap.cap at ht
    split at ht
    · exact ht
    · exact mem_of_mem_take ht))

/-- `Remove`: what a strict list loses with the transaction, and the rest; `none` if the nonce is not
there. -/
def remove (tx : Transaction) : Option (List Transaction × TxList) :=
  if (l.txs.get tx.accountNonce).isNone then none
  else
    let rest := l.keep (l.txs.remove tx.accountNonce) fun _ ht => (List.mem_filter.1 ht).1
    if l.strict then
      some ((rest.txs.filter fun t => tx.accountNonce < t.accountNonce).1,
        rest.keep (rest.txs.filter fun t => tx.accountNonce < t.accountNonce).2 fun _ ht =>
          (List.mem_filter.1 ht).1)
    else some ([], rest)

def ready (start : Nat) : List Transaction × TxList :=
  ((l.txs.ready start).1, l.keep (l.txs.ready start).2 (by
    intro t ht
    unfold TxSortedMap.ready at ht
    split at ht
    · exact ht
    · split at ht
      · exact ht
      · rename_i t' _ _
        rw [← TxSortedMap.run_append t'.accountNonce l.txs.items]
        exact mem_append_right _ ht))

end

/-! ## Nonces -/

section

variable {l rest : TxList} {out : List Transaction} {tx t o : Transaction} {n bump : Nat}
  {costLimit : Int} {gasLimit : Nat}

theorem nodup_nonces (l : TxList) : (l.flatten.map Transaction.accountNonce).Nodup :=
  (pairwise_map.2 l.txs.sorted).imp Nat.ne_of_lt

theorem eq_of_nonce (ht : t ∈ l.flatten) (htx : tx ∈ l.flatten)
    (h : t.accountNonce = tx.accountNonce) : t = tx :=
  inj_on_of_nodup_map l.nodup_nonces ht htx h

theorem eq_singleton_of_nonces (hnd : (out.map Transaction.accountNonce).Nodup)
    (hn : ∀ x ∈ out, x.accountNonce = t.accountNonce) (ht : t ∈ out) : out = [t] := by
  refine perm_singleton.1 ((perm_ext_iff_of_nodup hnd.of_map (nodup_singleton t)).2 ?_)
  intro x
  rw [mem_singleton]
  refine ⟨fun hx => inj_on_of_nodup_map hnd hx ht (hn x hx), ?_⟩
  rintro rfl
  exact ht

theorem get_eq_some : l.txs.get n = some t ↔ t ∈ l.flatten ∧ t.accountNonce = n := by
  unfold TxSortedMap.get
  constructor
  · intro h
    exact ⟨mem_of_find?_eq_some h, by simpa using find?_some h⟩
  · rintro ⟨hmem, rfl⟩
    have hsome : (l.txs.items.find? fun t' => t'.accountNonce == t.accountNonce).isSome :=
      find?_isSome.2 ⟨t, hmem, by simp⟩
    obtain ⟨t', ht'⟩ := Option.isSome_iff_exists.1 hsome
    have hmem' := mem_of_find?_eq_some ht'
    have hn : t'.accountNonce = t.accountNonce := by simpa using find?_some ht'
    rw [ht', eq_of_nonce hmem' hmem hn]

theorem get_eq_none : l.txs.get n = none ↔ ∀ t ∈ l.flatten, t.accountNonce ≠ n := by
  rw [Option.eq_none_iff_forall_not_mem]
  exact ⟨fun h t ht hn => h t (get_eq_some.2 ⟨ht, hn⟩), fun h t ht =>
    h t (get_eq_some.1 ht).1 (get_eq_some.1 ht).2⟩

/-! ## Putting a transaction in -/

theorem add_eq_some {old : Option Transaction} {l' : TxList} (h : l.add tx bump = some (old, l')) :
    old = l.txs.get tx.accountNonce ∧ l'.strict = l.strict ∧
      ∀ t, t ∈ l'.flatten ↔ t = tx ∨ t ∈ l.flatten ∧ t.accountNonce ≠ tx.accountNonce := by
  unfold add at h
  dsimp only at h
  split at h
  · cases h
  · cases h
    exact ⟨rfl, rfl, fun t => TxSortedMap.mem_put⟩

theorem add_of_fresh (h : ∀ t ∈ l.flatten, t.accountNonce ≠ tx.accountNonce) :
    ∃ l', l.add tx bump = some (none, l') := by
  unfold add
  rw [get_eq_none.2 h]
  exact ⟨_, rfl⟩

/-! ## Taking transactions out -/

/-- The transactions taken out and the rest are those that were there. -/
structure Parts (l : TxList) (out : List Transaction) (rest : TxList) : Prop where
  perm : (out ++ rest.flatten).Perm l.flatten
  strict : rest.strict = l.strict

theorem Parts.mem (h : Parts l out rest) : t ∈ l.flatten ↔ t ∈ out ∨ t ∈ rest.flatten := by
  rw [← h.perm.mem_iff, mem_append]

theorem Parts.nodup_nonces (h : Parts l out rest) : (out.map Transaction.accountNonce).Nodup ∧
      ∀ t ∈ out, ∀ tx ∈ rest.flatten, t.accountNonce ≠ tx.accountNonce := by
  have hn := (h.perm.map Transaction.accountNonce).nodup_iff.2 l.nodup_nonces
  rw [map_append, nodup_append] at hn
  exact ⟨hn.1, fun t ht tx htx => hn.2.2 _ (mem_map_of_mem ht) _ (mem_map_of_mem htx)⟩

theorem parts_forward (l : TxList) (threshold : Nat) :
    Parts l (l.forward threshold).1 (l.forward threshold).2 :=
  ⟨filter_append_perm _ l.flatten, rfl⟩

theorem parts_cap {threshold : Int} (h : l.cap threshold = some (out, rest)) : Parts l out rest := by
  unfold cap at h
  split at h
  · cases h
  · cases h
    refine ⟨?_, rfl⟩
    show ((l.txs.cap threshold.toNat).1 ++ (l.txs.cap threshold.toNat).2.items).Perm l.txs.items
    unfold TxSortedMap.cap
    split
    · exact Perm.refl _
    · refine ((reverse_perm _).append_right _).trans (perm_append_comm.trans ?_)
      rw [take_append_drop]

theorem cap_last (h : l.cap ((l.len : Int) - 1) = some (out, rest)) :
    ∃ t, out = [t] ∧ ∀ x ∈ rest.flatten, x.accountNonce < t.accountNonce := by
  unfold cap at h
  split at h
  · cases h
  rename_i hpos
  cases h
  rcases eq_nil_or_concat l.txs.items with hnil | ⟨init, t, hitems⟩
  · simp [len, flatten, hnil] at hpos
  have hsorted := l.txs.sorted
  rw [hitems, concat_eq_append, pairwise_append] at hsorted
  have hlen : ((l.len : Int) - 1).toNat = init.length := by
    simp [len, flatten, hitems]
  have hcap : (l.txs.cap init.length).1 = [t] ∧ (l.txs.cap init.length).2.items = init := by
    rw [TxSortedMap.cap, if_neg (by simp [hitems])]
    simp [hitems]
  rw [← hlen] at hcap
  refine ⟨t, hcap.1, fun x hx => hsorted.2.2 x ?_ t (mem_singleton_self t)⟩
  rw [← hcap.2]
  exact hx

theorem parts_ready (l : TxList) (start : Nat) : Parts l (l.ready start).1 (l.ready start).2 := by
  refine ⟨?_, rfl⟩
  show ((l.txs.ready start).1 ++ (l.txs.ready start).2.items).Perm l.txs.items
  unfold TxSortedMap.ready
  split
  · exact Perm.refl _
  · rename_i t _
    split
    · exact Perm.refl _
    · rw [TxSortedMap.run_append]

/-- The nonces are sorted, so a wrapped counter ends the run. -/
theorem run_nonces {m next : Nat} {ts : List Transaction}
    (hsorted : ts.Pairwise fun a b => a.accountNonce < b.accountNonce) (hm : m ≤ next)
    (hlow : ∀ t ∈ ts, next ≤ t.accountNonce) :
    (TxSortedMap.run m ts).1.map Transaction.accountNonce =
      range' next (TxSortedMap.run m ts).1.length := by
  induction ts generalizing m next with
  | nil => rfl
  | cons t ts ih =>
    obtain ⟨hfirst, hsorted⟩ := pairwise_cons.1 hsorted
    have hle := hlow t mem_cons_self
    unfold TxSortedMap.run
    split
    · have hsucc : u64 (m + 1) ≤ next + 1 := by
        unfold u64
        omega
      have hrest := ih hsorted hsucc fun x hx => by
        have := hfirst x hx
        omega
      rw [map_cons, length_cons, range'_succ, hrest]
      congr 1
      omega
    · rfl

theorem ready_nonces (l : TxList) (start : Nat) : ∃ first ≤ start,
    (l.ready start).1.map Transaction.accountNonce = range' first (l.ready start).1.length := by
  show ∃ first ≤ start, (l.txs.ready start).1.map Transaction.accountNonce =
    range' first (l.txs.ready start).1.length
  unfold TxSortedMap.ready
  split
  · exact ⟨start, Nat.le_refl _, rfl⟩
  · rename_i t ht
    split
    · exact ⟨start, Nat.le_refl _, rfl⟩
    · rename_i hle
      refine ⟨t.accountNonce, Nat.le_of_not_lt hle, run_nonces l.txs.sorted (Nat.le_refl _) ?_⟩
      cases hitems : l.txs.items with
      | nil => exact fun x hx => (nomatch hx)
      | cons y =>
        have hsorted := l.txs.sorted
        rw [hitems] at ht hsorted
        obtain rfl : y = t := Option.some.inj ht
        intro x hx
        rcases mem_cons.1 hx with rfl | hx
        · exact Nat.le_refl _
        · exact Nat.le_of_lt ((pairwise_cons.1 hsorted).1 x hx)

theorem not_exceeds_of_caps (h : l.costcap ≤ costLimit ∧ l.gascap ≤ gasLimit) (ht : t ∈ l.flatten) :
    exceeds costLimit gasLimit t = false := by
  have hcapped := l.capped t ht
  simp only [exceeds, Bool.or_eq_false_iff, decide_eq_false_iff_not]
  omega

theorem filter_paid
    (ht : t ∈ (l.filter costLimit gasLimit).2.2.flatten) : exceeds costLimit gasLimit t = false := by
  unfold filter at ht
  split at ht
  · rename_i hcap
    exact not_exceeds_of_caps hcap ht
  · have hlower : ∀ x ∈ (l.lower costLimit gasLimit).txs.items,
        exceeds costLimit gasLimit x = false := by
      intro x hx
      simpa using (mem_filter.1 hx).2
    dsimp only at ht
    split at ht
    · exact hlower t (mem_filter.1 ht).1
    · exact hlower t ht

theorem parts_filter (l : TxList) (costLimit : Int) (gasLimit : Nat) :
    Parts l ((l.filter costLimit gasLimit).1 ++ (l.filter costLimit gasLimit).2.1)
      (l.filter costLimit gasLimit).2.2 := by
  unfold filter
  split
  · exact ⟨Perm.refl _, rfl⟩
  · have hlower : ((l.txs.filter (exceeds costLimit gasLimit)).1 ++
        (l.lower costLimit gasLimit).flatten).Perm l.flatten :=
      filter_append_perm _ _
    dsimp only
    split
    · refine ⟨?_, rfl⟩
      rw [append_assoc]
      exact ((filter_append_perm _ _).append_left _).trans hlower
    · refine ⟨?_, rfl⟩
      rw [append_nil]
      exact hlower

theorem lt_lowest {low : Nat} : out.foldl (fun low tx => min low tx.accountNonce) low < n ↔
      low < n ∨ ∃ x ∈ out, x.accountNonce < n := by
  induction out generalizing low with
  | nil => simp
  | cons x out ih =>
    rw [foldl_cons, ih, min_lt_iff, or_assoc]
    simp only [mem_cons, exists_eq_or_imp]

/-- A transaction with a lower nonce exceeds the limits. -/
def late (costLimit : Int) (gasLimit : Nat) (l : TxList) (t : Transaction) : Bool :=
  l.flatten.any fun x => exceeds costLimit gasLimit x && decide (x.accountNonce < t.accountNonce)

/-- **`Filter` is exact**, whether it goes through the list or the caps tell it not to. -/
theorem filter_eq (l : TxList) (costLimit : Int) (gasLimit : Nat)
    (hbound : ∀ t ∈ l.flatten, t.accountNonce < 2 ^ 64) :
    (l.filter costLimit gasLimit).1 = l.flatten.filter (exceeds costLimit gasLimit) ∧
    (l.filter costLimit gasLimit).2.1 = (l.flatten.filter fun t =>
      !exceeds costLimit gasLimit t && (l.strict && late costLimit gasLimit l t)) ∧
    (l.filter costLimit gasLimit).2.2.flatten = l.flatten.filter fun t =>
      !exceeds costLimit gasLimit t && !(l.strict && late costLimit gasLimit l t) := by
  have hnone : (∀ x ∈ l.flatten, exceeds costLimit gasLimit x = false) →
      ([] = l.flatten.filter (exceeds costLimit gasLimit)) ∧
      ∀ t, late costLimit gasLimit l t = false := by
    refine fun h => ⟨(filter_eq_nil_iff.2 fun x hx => ?_).symm, fun t => any_eq_false.2 fun x hx => ?_⟩
    · simp [h x hx]
    · simp [h x hx]
  unfold filter
  split
  · rename_i hcap
    have hpaid : ∀ x ∈ l.flatten, exceeds costLimit gasLimit x = false :=
      fun x hx => not_exceeds_of_caps hcap hx
    obtain ⟨hnil, hlate⟩ := hnone hpaid
    refine ⟨hnil, (filter_eq_nil_iff.2 fun t _ => ?_).symm, (filter_eq_self.2 fun t ht => ?_).symm⟩
    · simp [hlate t]
    · simp [hlate t, hpaid t ht]
  · dsimp only
    split
    · rename_i hstrict
      have hlow : ∀ t ∈ l.flatten, decide ((l.txs.filter (exceeds costLimit gasLimit)).1.foldl
          (fun low tx => min low tx.accountNonce) (2 ^ 64 - 1) < t.accountNonce) =
            (l.strict && late costLimit gasLimit l t) := by
        intro t ht
        have hlt := hbound t ht
        have hfilter : ∀ x, x ∈ (l.txs.filter (exceeds costLimit gasLimit)).1 ↔
            x ∈ l.flatten ∧ exceeds costLimit gasLimit x = true := fun x => List.mem_filter
        rw [show l.strict = true from hstrict.1, Bool.true_and, Bool.eq_iff_iff, decide_eq_true_eq,
          lt_lowest, or_iff_right (by omega), late, any_eq_true]
        simp only [hfilter, Bool.and_eq_true, decide_eq_true_eq, and_assoc]
      refine ⟨rfl, (filter_filter ..).trans (filter_congr fun t ht => ?_),
        (filter_filter ..).trans (filter_congr fun t ht => ?_)⟩
      · rw [hlow t ht, Bool.and_comm]
      · dsimp only
        rw [hlow t ht, Bool.and_comm]
    · rename_i hnot
      have hout : ∀ t, (l.strict && late costLimit gasLimit l t) = false := by
        intro t
        cases hstrict : l.strict with
        | false => rfl
        | true =>
          have hnil : l.flatten.filter (exceeds costLimit gasLimit) = [] := by
            by_contra hne
            exact hnot ⟨hstrict, hne⟩
          exact (hnone fun x hx => Bool.eq_false_iff.2 (filter_eq_nil_iff.1 hnil x hx)).2 t
      refine ⟨rfl, (filter_eq_nil_iff.2 fun t _ => ?_).symm, filter_congr fun t _ => ?_⟩
      · simp [hout t]
      · simp [hout t]

theorem late_eq_true : late costLimit gasLimit l t = true ↔
    ∃ x ∈ l.flatten, x.accountNonce < t.accountNonce ∧ exceeds costLimit gasLimit x = true := by
  simp [late, and_comm]

theorem mem_filter (hstrict : l.strict = true) (hbound : ∀ t ∈ l.flatten, t.accountNonce < 2 ^ 64) :
    (t ∈ (l.filter costLimit gasLimit).2.1 ↔ t ∈ l.flatten ∧ exceeds costLimit gasLimit t = false ∧
      ∃ x ∈ l.flatten, x.accountNonce < t.accountNonce ∧ exceeds costLimit gasLimit x = true) ∧
    (t ∈ (l.filter costLimit gasLimit).2.2.flatten ↔ t ∈ l.flatten ∧
      ∀ x ∈ l.flatten, x.accountNonce ≤ t.accountNonce → exceeds costLimit gasLimit x = false) := by
  obtain ⟨-, hinvalid, hrest⟩ := filter_eq l costLimit gasLimit hbound
  rw [hinvalid, hrest, List.mem_filter, List.mem_filter, hstrict, Bool.true_and, Bool.and_eq_true,
    Bool.and_eq_true, Bool.not_eq_true', Bool.not_eq_true', late_eq_true,
    ← Bool.not_eq_true (late _ _ _ _), late_eq_true]
  refine ⟨Iff.rfl, and_congr_right fun ht => ⟨fun h x hx hle => ?_, fun h => ⟨?_, ?_⟩⟩⟩
  · rcases Nat.lt_or_eq_of_le hle with hlt | heq
    · exact Bool.eq_false_iff.2 fun hex => h.2 ⟨x, hx, hlt, hex⟩
    · rw [eq_of_nonce hx ht heq]
      exact h.1
  · exact h t ht (Nat.le_refl _)
  · rintro ⟨x, hx, hlt, hex⟩
    rw [h x hx (Nat.le_of_lt hlt)] at hex
    cases hex

theorem parts_remove {invalids : List Transaction} (h : l.remove tx = some (invalids, rest)) :
    ∃ o, o.accountNonce = tx.accountNonce ∧ Parts l (o :: invalids) rest ∧
      invalids = if l.strict then l.flatten.filter fun t => tx.accountNonce < t.accountNonce
        else [] := by
  unfold remove at h
  split at h
  · cases h
  rename_i hsome
  obtain ⟨o, ho⟩ := Option.ne_none_iff_exists'.1 (by simpa using hsome)
  obtain ⟨hmem, hn⟩ := get_eq_some.1 ho
  have hone : l.flatten.filter (fun t => t.accountNonce == tx.accountNonce) = [o] := by
    have hnd : (l.flatten.filter fun t => t.accountNonce == tx.accountNonce).Nodup :=
      l.nodup_nonces.of_map.filter _
    refine perm_singleton.1 ((perm_ext_iff_of_nodup hnd (nodup_singleton o)).2 ?_)
    intro t
    rw [List.mem_filter, mem_singleton, beq_iff_eq]
    refine ⟨fun ht => eq_of_nonce ht.1 hmem (ht.2.trans hn.symm), ?_⟩
    rintro rfl
    exact ⟨hmem, hn⟩
  have hrest := filter_append_perm (fun t => t.accountNonce == tx.accountNonce) l.flatten
  rw [hone] at hrest
  refine ⟨o, hn, ?_⟩
  dsimp only at h
  split at h
  · rename_i hstrict
    cases h
    rw [if_pos hstrict]
    constructor
    · exact ⟨((filter_append_perm _ _).cons o).trans hrest, rfl⟩
    · show List.filter _ (List.filter _ l.txs.items) = _
      rw [filter_filter]
      refine filter_congr fun t _ => ?_
      by_cases h : tx.accountNonce < t.accountNonce
      · have hne : t.accountNonce ≠ tx.accountNonce := by omega
        simp [h, hne]
      · simp [h]
  · rename_i hstrict
    cases h
    rw [if_neg hstrict]
    exact ⟨⟨hrest, rfl⟩, rfl⟩

theorem remove_eq_none : l.remove tx = none ↔ ∀ t ∈ l.flatten, t.accountNonce ≠ tx.accountNonce := by
  rw [← get_eq_none]
  unfold remove
  split
  · simp_all
  · dsimp only
    split <;> simp_all

/-! ## Runs -/

/-- The calls of a list. A nonce is a `uint64`. -/
inductive Call where
  | add (tx : Transaction) (hnonce : tx.accountNonce < 2 ^ 64) (priceBump : Nat)
  | forward (threshold : Nat)
  | filter (costLimit : Int) (gasLimit : Nat)
  | cap (threshold : Int)
  | remove (tx : Transaction)
  | ready (start : Nat)

/-- The list after a call. -/
def call : Call → TxList → Option TxList
  | .add tx _ priceBump, l => some (((l.add tx priceBump).map Prod.snd).getD l)
  | .forward threshold, l => some (l.forward threshold).2
  | .filter costLimit gasLimit, l => some (l.filter costLimit gasLimit).2.2
  | .cap threshold, l => (l.cap threshold).map Prod.snd
  | .remove tx, l => some (((l.remove tx).map Prod.snd).getD l)
  | .ready start, l => some (l.ready start).2

/-- The nonces of a list with this mode are those of transactions. -/
def Sound (strict : Bool) (l : TxList) : Prop :=
  l.strict = strict ∧ ∀ t ∈ l.flatten, t.accountNonce < 2 ^ 64

theorem Parts.sound {strict : Bool} (hp : Parts l out rest) (h : Sound strict l) :
    Sound strict rest :=
  ⟨hp.strict.trans h.1, fun t ht => h.2 t (hp.mem.2 (.inr ht))⟩

theorem call_sound {strict : Bool} (c : Call) (h : Sound strict l) (hc : call c l = some rest) :
    Sound strict rest := by
  cases c with
  | add tx hnonce bump =>
    cases hadd : l.add tx bump with
    | none =>
      rw [call, hadd] at hc
      cases hc
      exact h
    | some r =>
      obtain ⟨old, l'⟩ := r
      obtain ⟨-, hstrict, hmem⟩ := add_eq_some hadd
      rw [call, hadd] at hc
      cases hc
      refine ⟨hstrict.trans h.1, fun t ht => ?_⟩
      rcases (hmem t).1 ht with rfl | ⟨ht, -⟩
      · exact hnonce
      · exact h.2 t ht
  | forward threshold =>
    cases hc
    exact (l.parts_forward threshold).sound h
  | filter costLimit gasLimit =>
    cases hc
    exact (l.parts_filter costLimit gasLimit).sound h
  | cap =>
    obtain ⟨⟨out, l'⟩, hcap, rfl⟩ := Option.map_eq_some_iff.1 hc
    exact (parts_cap hcap).sound h
  | remove tx =>
    cases hrem : l.remove tx with
    | none =>
      rw [call, hrem] at hc
      cases hc
      exact h
    | some r =>
      obtain ⟨invalids, l'⟩ := r
      obtain ⟨o, -, hparts, -⟩ := parts_remove hrem
      rw [call, hrem] at hc
      cases hc
      exact hparts.sound h
  | ready start =>
    cases hc
    exact (l.parts_ready start).sound h

/-- **The caps are bounds and `Filter` can rely on them.** After any calls it takes out what exceeds
the limits, and of a strict list what comes after. -/
theorem filter_after_calls (strict : Bool) (calls : List Call) (l : TxList)
    (hrun : Run.exec call calls (.new strict) = some l) :
    (∀ t ∈ l.flatten, t.aoaCost ≤ l.costcap ∧ t.gasLimit ≤ l.gascap) ∧ ∀ costLimit gasLimit,
        (l.filter costLimit gasLimit).1 = l.flatten.filter (exceeds costLimit gasLimit) ∧
        (l.filter costLimit gasLimit).2.1 = (l.flatten.filter fun t =>
          !exceeds costLimit gasLimit t && (strict && late costLimit gasLimit l t)) ∧
        (l.filter costLimit gasLimit).2.2.flatten = l.flatten.filter fun t =>
          !exceeds costLimit gasLimit t && !(strict && late costLimit gasLimit l t) := by
  obtain ⟨rfl, hbound⟩ :=
    Run.invariant_all (fun c _ _ => call_sound c) ⟨rfl, by simp [flatten, new, TxSortedMap.empty]⟩ hrun
  exact ⟨l.capped, fun costLimit gasLimit => filter_eq l costLimit gasLimit hbound⟩

end

end TxList

def poolTx (sender nonce price : Nat) : Transaction :=
  { accountNonce := nonce, price := price, gasLimit := 30000, recipient := some 2, amount := 0
    payload := [], action := 0, vote := none, nickname := [], asset := none, assetInfo := none
    subAddress := "", abi := [], v := sender, r := 10000 * sender + 100 * nonce + price, s := 0 }

def addsTwo : List TxList.Call :=
  [.add (poolTx 1 0 5) (by decide) 10, .add (poolTx 1 1 1) (by decide) 10]

theorem TxList.filter_after_two : ∃ l, Run.exec TxList.call addsTwo (.new true) = some l ∧
    (l.filter 40000 30000).1 = [poolTx 1 0 5] ∧ (l.filter 40000 30000).2.1 = [poolTx 1 1 1] := by
  refine ⟨_, rfl, ?_⟩
  obtain ⟨hremoved, hinvalid, -⟩ := (filter_after_calls true addsTwo _ rfl).2 40000 30000
  exact ⟨hremoved.trans (by decide), hinvalid.trans (by decide)⟩

end GoAoa.Core
