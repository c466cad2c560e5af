import GoAoa.Lib.Heap
import GoAoa.Types
import Mathlib.Data.List.Sort

/-!
# Picking transactions by price and nonce

`TransactionsByPriceAndNonce` of `core/types/transaction.go`, as `NewTransactionsByPriceAndNonce2`
sets it up: every pending transaction has a slot of its own in the price heap, and is once more in
the list of its sender. A slot whose transaction is done with is filled again from the list; a slot
whose transaction comes too early is given up.

`select` is what remains of `commitTransactions` where only the nonces matter. `Course.select` is
the rule for it: what a round keeps for each sender (`KeptByRounds`) holds at the end.
-/

namespace GoAoa.Core

open List Function Heap

/-- `TransactionsByPriceAndNonce`. The lists of the senders are kept as one list in the order of
the nonces; `txs[acc]` is the part of it that `acc` has sent. -/
structure TransactionsByPriceAndNonce where
  txs : List Transaction
  heads : List Transaction
  deriving DecidableEq, Repr

/-- `NewTransactionsByPriceAndNonce2`: `price` is a heap already. -/
def newTransactionsByPriceAndNonce2 (price : List Transaction) : TransactionsByPriceAndNonce :=
  ⟨price.insertionSort fun a b => a.accountNonce ≤ b.accountNonce, price⟩

variable {sender : Transaction → Address} {q : TransactionsByPriceAndNonce}
  {slots : List Transaction}

namespace TransactionsByPriceAndNonce

def peek (q : TransactionsByPriceAndNonce) : Option Transaction := q.heads.head?

def pop (q : TransactionsByPriceAndNonce) : TransactionsByPriceAndNonce :=
  { q with heads := ((Heap.pop Transaction.price q.heads).map Prod.snd).getD [] }

def shift (sender : Transaction → Address) (q : TransactionsByPriceAndNonce) :
    TransactionsByPriceAndNonce :=
  match q.heads with
  | [] => q
  | t :: slots =>
    match q.txs.find? fun x => sender x = sender t with
    | some x =>
      { txs := q.txs.eraseP fun x => sender x = sender t
        heads := fix Transaction.price (x :: slots) 0 }
    | none => q.pop

/-- `txs[acc]`. -/
def ofAccount (sender : Transaction → Address) (q : TransactionsByPriceAndNonce) (acc : Address) :
    List Transaction :=
  q.txs.filter fun t => sender t = acc

def size (q : TransactionsByPriceAndNonce) : Nat := q.heads.length + q.txs.length

variable {t : Transaction}

section

variable (h : q.heads = t :: slots)
include h

theorem pop_perm : q.pop.txs = q.txs ∧ q.heads.Perm (t :: q.pop.heads) := by
  obtain ⟨x, r, hpop⟩ : ∃ x r, Heap.pop Transaction.price q.heads = some (x, r) :=
    Heap.pop_of_ne_nil (by rw [h]; exact cons_ne_nil _ _)
  have hroot := Heap.pop_head hpop
  rw [h] at hroot
  obtain rfl : t = x := Option.some.inj hroot
  have hheads : q.pop.heads = r := by
    unfold pop
    rw [hpop]
    rfl
  exact ⟨rfl, hheads ▸ Heap.pop_perm hpop⟩

theorem pop_ordered (hord : Ordered Transaction.price q.heads.length q.heads) :
    Ordered Transaction.price q.pop.heads.length q.pop.heads := by
  obtain ⟨x, r, hpop⟩ : ∃ x r, Heap.pop Transaction.price q.heads = some (x, r) :=
    Heap.pop_of_ne_nil (by rw [h]; exact cons_ne_nil _ _)
  have hheads : q.pop.heads = r := by
    unfold pop
    rw [hpop]
    rfl
  rw [hheads]
  exact Heap.pop_ordered hord hpop

theorem pop_size : q.pop.size < q.size := by
  obtain ⟨htxs, hperm⟩ := pop_perm h
  have hlen := hperm.length_eq
  rw [length_cons] at hlen
  unfold size
  rw [htxs]
  omega

end

/-- **`Shift` fills the slot again**, or gives it up if the sender has no more. -/
theorem shift_cases (sender : Transaction → Address) (h : q.heads = t :: slots) :
    (∃ x, q.txs.find? (fun x => sender x = sender t) = some x ∧
      q.shift sender = ⟨q.txs.eraseP fun x => sender x = sender t,
        fix Transaction.price (x :: slots) 0⟩) ∨
    (q.txs.find? (fun x => sender x = sender t) = none ∧ q.shift sender = q.pop) := by
  unfold shift
  rw [h]
  cases hfind : q.txs.find? fun x => sender x = sender t with
  | none => exact .inr ⟨rfl, by simp only [hfind]⟩
  | some x => exact .inl ⟨x, rfl, by simp only [hfind]⟩

theorem shift_size (sender : Transaction → Address) (h : q.heads = t :: slots) :
    (q.shift sender).size < q.size := by
  rcases shift_cases sender h with ⟨x, hfind, heq⟩ | ⟨-, heq⟩
  · have hsame : decide (sender x = sender t) = true := by simpa using find?_some hfind
    have herase : (q.txs.eraseP fun x => sender x = sender t).length = q.txs.length - 1 :=
      length_eraseP_of_mem (mem_of_find?_eq_some hfind) hsame
    have hpos := length_pos_of_mem (mem_of_find?_eq_some hfind)
    have hfix : (fix Transaction.price (x :: slots) 0).length = slots.length + 1 :=
      (sift_perm _ _ _).length_eq
    rw [heq]
    unfold size
    rw [h, hfix, herase, length_cons]
    omega
  · rw [heq]
    exact pop_size h

theorem filter_eraseP (sender : Transaction → Address) (l : List Transaction) (a b : Address) :
    ((l.eraseP fun x => sender x = a).filter fun x => sender x = b) =
      if b = a then (l.filter fun x => sender x = b).tail else l.filter fun x => sender x = b := by
  induction l with
  | nil => simp
  | cons y l ih =>
    by_cases hy : sender y = a
    · rw [eraseP_cons_of_pos (by simpa using hy)]
      by_cases hb : b = a
      · rw [if_pos hb, filter_cons_of_pos (by simpa [hb] using hy), tail_cons]
      · rw [if_neg hb, filter_cons_of_neg (by simpa [hy] using Ne.symm hb)]
    · rw [eraseP_cons_of_neg (by simpa using hy)]
      by_cases hyb : sender y = b
      · have hb : b ≠ a := fun h => hy (hyb.trans h)
        rw [filter_cons_of_pos (by simpa using hyb), ih, if_neg hb, if_neg hb,
          filter_cons_of_pos (by simpa using hyb)]
      · rw [filter_cons_of_neg (by simpa using hyb), ih, filter_cons_of_neg (by simpa using hyb)]

/-- What `Shift` does to the heap and to the list of a sender whose slot is at the root: the slots
that stay are `slots`. -/
inductive Shifted (slots : List Transaction) :
    List Transaction → List Transaction → List Transaction → Prop
  | filled (y : Transaction) (left : List Transaction) :
    Shifted slots (y :: left) (fix Transaction.price (y :: slots) 0) left
  | given {heads : List Transaction} (hperm : heads.Perm slots) : Shifted slots [] heads []

namespace Shifted

variable {left left' heads : List Transaction} {x : Transaction}

variable (h : Shifted slots left heads left')
include h

theorem mem_of_slot (hx : x ∈ slots) : x ∈ heads := by
  cases h with
  | filled y => exact (sift_perm _ _ _).mem_iff.2 (mem_cons_of_mem y hx)
  | given hperm => exact hperm.mem_iff.2 hx

theorem slot_or_left (hx : x ∈ heads) : x ∈ slots ∨ x ∈ left := by
  cases h with
  | filled =>
    rcases mem_cons.1 ((sift_perm _ _ _).mem_iff.1 hx) with rfl | hx
    · exact .inr mem_cons_self
    · exact .inl hx
  | given hperm => exact .inl (hperm.mem_iff.1 hx)

theorem left_suffix (hx : x ∈ left') : x ∈ left := by
  cases h with
  | filled y => exact mem_cons_of_mem y hx
  | given => exact hx

end Shifted

/-- **What `Shift` does**, for the sender of the root and for the others. -/
theorem shifted (sender : Transaction → Address) (h : q.heads = t :: slots) :
    Shifted slots (q.ofAccount sender (sender t)) (q.shift sender).heads
        ((q.shift sender).ofAccount sender (sender t)) ∧
      ∀ a, a ≠ sender t → (q.shift sender).ofAccount sender a = q.ofAccount sender a := by
  have hhead : (q.ofAccount sender (sender t)).head? = q.txs.find? fun x => sender x = sender t :=
    head?_filter
  rcases shift_cases sender h with ⟨x, hfind, heq⟩ | ⟨hfind, heq⟩
  · rw [hfind] at hhead
    have htail : (q.shift sender).ofAccount sender (sender t) =
        (q.ofAccount sender (sender t)).tail := by
      rw [heq]
      exact (filter_eraseP sender q.txs _ _).trans (if_pos rfl)
    obtain ⟨left, hleft⟩ := head?_eq_some_iff.1 hhead
    refine ⟨?_, fun a ha => ?_⟩
    · rw [htail, hleft, heq]
      exact .filled x left
    · rw [heq]
      exact (filter_eraseP sender q.txs _ _).trans (if_neg ha)
  · rw [hfind] at hhead
    obtain ⟨htxs, hperm⟩ := pop_perm h
    have hleft := head?_eq_none_iff.1 hhead
    have hsame : ∀ a, (q.shift sender).ofAccount sender a = q.ofAccount sender a := by
      intro a
      rw [heq]
      exact congrArg (filter _) htxs
    refine ⟨?_, fun a _ => hsame a⟩
    rw [hsame, hleft, heq]
    rw [h] at hperm
    exact .given (Perm.cons_inv hperm).symm

theorem shift_ordered (sender : Transaction → Address) (h : q.heads = t :: slots)
    (hord : Ordered Transaction.price q.heads.length q.heads) :
    Ordered Transaction.price (q.shift sender).heads.length (q.shift sender).heads := by
  rcases shift_cases sender h with ⟨x, -, heq⟩ | ⟨-, heq⟩
  · rw [heq]
    rw [h] at hord
    exact fix_ordered hord x
  · rw [heq]
    exact pop_ordered h hord

end TransactionsByPriceAndNonce

/-- The transactions of an account in the order of the nonces. -/
abbrev pendingOf (sender : Transaction → Address) (price : List Transaction) (a : Address) :
    List Transaction :=
  (newTransactionsByPriceAndNonce2 price).ofAccount sender a

/-! ## Picking -/

/-- What has been picked, and the nonces that are next. -/
structure Picked where
  next : Address → Nat
  txs : List Transaction

def Picked.add (sender : Transaction → Address) (p : Picked) (t : Transaction) : Picked :=
  ⟨Function.update p.next (sender t) (p.next (sender t) + 1), p.txs ++ [t]⟩

/-- A round of `commitTransactions` in which nothing but the nonce matters. -/
def pick (sender : Transaction → Address) (t : Transaction) (q : TransactionsByPriceAndNonce)
    (p : Picked) : TransactionsByPriceAndNonce × Picked :=
  if t.accountNonce = p.next (sender t) then (q.shift sender, p.add sender t)
  else if t.accountNonce < p.next (sender t) then (q.shift sender, p)
  else (q.pop, p)

def select (sender : Transaction → Address) : Nat → TransactionsByPriceAndNonce → Picked → Picked
  | 0, _, p => p
  | n + 1, q, p =>
    match q.peek with
    | none => p
    | some t => select sender n (pick sender t q p).1 (pick sender t q p).2

section Picking

variable {S : Address → List Transaction → List Transaction → List Transaction → Prop}
  {l : Address → List Transaction} {p : Picked} {x : Transaction}

open TransactionsByPriceAndNonce

/-- What `a` has still to come: the nonces go on from the next one. -/
structure Pending (a : Address) (p : Picked) (done todo : List Transaction) : Prop where
  past : ∀ t ∈ done, t.accountNonce < p.next a
  nonces : todo.map Transaction.accountNonce = range' (p.next a) todo.length

/-- What can happen to the slots of the heap, to the transactions of `a` that have not been picked
and to its list in a round: the transaction at the root is `a`'s and is picked, has been picked
before or comes too early; or it is not `a`'s. `S` is kept by all four. -/
structure KeptByRounds (sender : Transaction → Address) (a : Address)
    (S : List Transaction → List Transaction → List Transaction → Prop) : Prop where
  picked : ∀ {x slots todo left heads left'}, S (x :: slots) (x :: todo) left → sender x = a →
    (x :: todo).Nodup → (∀ y ∈ slots, y.price ≤ x.price) → (∀ y ∈ left, sender y = a) →
    Shifted slots left heads left' → S heads todo left'
  skipped : ∀ {x slots todo left heads left'}, S (x :: slots) todo left → sender x = a →
    x ∉ todo → (∀ y ∈ left, sender y = a) → Shifted slots left heads left' → S heads todo left'
  dropped : ∀ {x slots todo left heads}, S (x :: slots) todo left → x ∈ todo.tail → todo.Nodup →
    (∀ y ∈ slots, y.price ≤ x.price) → heads.Perm slots → S heads todo left
  other : ∀ {x slots todo left heads}, S (x :: slots) todo left → sender x ≠ a →
    (∀ y ∈ todo, sender y = a) →
    (heads.filter fun y => sender y = a).Perm ((x :: slots).filter fun y => sender y = a) →
    S heads todo left

/-- Between two rounds: `l a` are the transactions of `a` in the order of the nonces, and `S a` is
what is known of those that are to come. -/
structure Course (sender : Transaction → Address)
    (S : Address → List Transaction → List Transaction → List Transaction → Prop)
    (l : Address → List Transaction) (q : TransactionsByPriceAndNonce) (p : Picked) : Prop where
  ordered : Ordered Transaction.price q.heads.length q.heads
  heads : ∀ x ∈ q.heads, x ∈ l (sender x)
  lists : ∀ a, ∀ x ∈ q.ofAccount sender a, x ∈ l a
  stage : ∀ a, ∃ todo, l a = (p.txs.filter fun t => sender t = a) ++ todo ∧
    Pending a p (p.txs.filter fun t => sender t = a) todo ∧
    S a q.heads todo (q.ofAccount sender a)

variable {a : Address}

theorem Pending.nodup {done todo : List Transaction} (h : Pending a p done todo) : todo.Nodup := by
  refine Nodup.of_map Transaction.accountNonce ?_
  rw [h.nonces]
  exact nodup_range'

theorem Pending.cases {done todo : List Transaction} (h : Pending a p done todo)
    (hx : x ∈ done ++ todo) :
    (∃ rest, todo = x :: rest ∧ x.accountNonce = p.next a) ∨
    (x ∉ todo ∧ x.accountNonce < p.next a) ∨ (x ∈ todo.tail ∧ p.next a < x.accountNonce) := by
  by_cases htodo : x ∈ todo
  · cases todo with
    | nil => cases htodo
    | cons t rest =>
      have hnonces := h.nonces
      obtain ⟨hfirst, hrest⟩ := cons.inj hnonces
      rcases mem_cons.1 htodo with rfl | hin
      · exact .inl ⟨rest, rfl, hfirst⟩
      · have hmem := mem_map_of_mem (f := Transaction.accountNonce) hin
        rw [hrest, mem_range'_1] at hmem
        exact .inr (.inr ⟨hin, by omega⟩)
  · exact .inr (.inl ⟨htodo, h.past x ((mem_append.1 hx).resolve_right htodo)⟩)

theorem TransactionsByPriceAndNonce.Shifted.filter_perm {b : Address}
    {left left' heads : List Transaction} (h : Shifted slots left heads left')
    (hleft : ∀ y ∈ left, sender y = b) (hab : b ≠ a) :
    (heads.filter fun y => sender y = a).Perm (slots.filter fun y => sender y = a) := by
  cases h with
  | filled y =>
    refine ((sift_perm _ _ _).filter _).trans ?_
    rw [filter_cons_of_neg (by simpa [hleft y mem_cons_self] using hab)]
  | given hperm => exact hperm.filter _

theorem sender_of_mem_ofAccount (hx : x ∈ q.ofAccount sender a) : sender x = a := by
  simpa using (mem_filter.1 hx).2

theorem Course.wait {q' : TransactionsByPriceAndNonce} (hc : Course sender S l q p)
    (hS : KeptByRounds sender a (S a)) (hl : ∀ a, ∀ t ∈ l a, sender t = a)
    (hq : q.heads = x :: slots) (hax : sender x ≠ a)
    (hheads : (q'.heads.filter fun y => sender y = a).Perm (slots.filter fun y => sender y = a))
    (hlist : q'.ofAccount sender a = q.ofAccount sender a) : ∃ todo,
      l a = (p.txs.filter fun t => sender t = a) ++ todo ∧
      Pending a p (p.txs.filter fun t => sender t = a) todo ∧
      S a q'.heads todo (q'.ofAccount sender a) := by
  obtain ⟨todo, heq, hpend, hstage⟩ := hc.stage a
  refine ⟨todo, heq, hpend, ?_⟩
  rw [hlist]
  rw [hq] at hstage
  refine hS.other hstage hax (fun y hy => hl a y (heq ▸ mem_append_right _ hy)) ?_
  rw [filter_cons_of_neg (by simpa using hax)]
  exact hheads

/-- **A round keeps the course.** -/
theorem Course.pick (hc : Course sender S l q p) (hS : ∀ a, KeptByRounds sender a (S a))
    (hl : ∀ a, ∀ t ∈ l a, sender t = a) (hq : q.heads = x :: slots) :
    Course sender S l (pick sender x q p).1 (pick sender x q p).2 := by
  have hle : ∀ y ∈ slots, y.price ≤ x.price := fun y hy =>
    hc.ordered.le_head (by rw [hq]; rfl) (by rw [hq]; exact mem_cons_of_mem x hy)
  obtain ⟨hshift, hothers⟩ := shifted sender hq
  have hleft : ∀ y ∈ q.ofAccount sender (sender x), sender y = sender x :=
    fun y hy => sender_of_mem_ofAccount hy
  have hslot : ∀ y ∈ slots, y ∈ l (sender y) :=
    fun y hy => hc.heads y (by rw [hq]; exact mem_cons_of_mem x hy)
  have hshiftHeads : ∀ y ∈ (q.shift sender).heads, y ∈ l (sender y) := by
    intro y hy
    rcases hshift.slot_or_left hy with hy | hy
    · exact hslot y hy
    · rw [hleft y hy]
      exact hc.lists _ y hy
  have hshiftLists : ∀ a, ∀ y ∈ (q.shift sender).ofAccount sender a, y ∈ l a := by
    intro a y hy
    by_cases ha : a = sender x
    · subst ha
      exact hc.lists _ y (hshift.left_suffix hy)
    · rw [hothers a ha] at hy
      exact hc.lists a y hy
  have hshiftWait : ∀ a, a ≠ sender x → ∃ todo, l a = (p.txs.filter fun t => sender t = a) ++ todo ∧
      Pending a p (p.txs.filter fun t => sender t = a) todo ∧
      S a (q.shift sender).heads todo ((q.shift sender).ofAccount sender a) :=
    fun a ha => hc.wait (hS a) hl hq (Ne.symm ha) (hshift.filter_perm hleft (Ne.symm ha))
      (hothers a ha)
  obtain ⟨todo, heq, hpend, hstage⟩ := hc.stage (sender x)
  have hx := heq ▸ hc.heads x (by rw [hq]; exact mem_cons_self)
  rw [hq] at hstage
  rcases hpend.cases hx with ⟨rest, rfl, hnonce⟩ | ⟨hnot, hnonce⟩ | ⟨hmem, hnonce⟩
  · have hpick : Core.pick sender x q p = (q.shift sender, p.add sender x) := if_pos hnonce
    rw [hpick]
    refine ⟨shift_ordered sender hq hc.ordered, hshiftHeads, hshiftLists, fun a => ?_⟩
    by_cases ha : a = sender x
    · subst ha
      have hnext : (p.add sender x).next (sender x) = p.next (sender x) + 1 := update_self ..
      have htxs : ((p.add sender x).txs.filter fun t => sender t = sender x) =
          (p.txs.filter fun t => sender t = sender x) ++ [x] := by
        simp [Picked.add, filter_append]
      rw [htxs]
      refine ⟨rest, by rw [heq, append_assoc]; rfl, ⟨fun t ht => ?_, ?_⟩,
        (hS _).picked hstage rfl hpend.nodup hle hleft hshift⟩
      · rw [hnext]
        rcases mem_append.1 ht with ht | ht
        · exact Nat.lt_succ_of_lt (hpend.past t ht)
        · rw [mem_singleton.1 ht, hnonce]
          omega
      · have hnonces := hpend.nonces
        rw [hnext]
        exact (cons.inj hnonces).2
    · have hnext : (p.add sender x).next a = p.next a := update_of_ne ha _ _
      have htxs : ((p.add sender x).txs.filter fun t => sender t = a) =
          p.txs.filter fun t => sender t = a := by
        simp [Picked.add, filter_append, Ne.symm ha]
      obtain ⟨todo', heq', hpend', hstage'⟩ := hshiftWait a ha
      rw [htxs]
      exact ⟨todo', heq', ⟨hnext ▸ hpend'.past, hnext ▸ hpend'.nonces⟩, hstage'⟩
  · have hpick : Core.pick sender x q p = (q.shift sender, p) := by
      unfold Core.pick
      rw [if_neg (Nat.ne_of_lt hnonce), if_pos hnonce]
    rw [hpick]
    refine ⟨shift_ordered sender hq hc.ordered, hshiftHeads, hshiftLists, fun a => ?_⟩
    by_cases ha : a = sender x
    · subst ha
      exact ⟨todo, heq, hpend, (hS _).skipped hstage rfl hnot hleft hshift⟩
    · exact hshiftWait a ha
  · have hpick : Core.pick sender x q p = (q.pop, p) := by
      unfold Core.pick
      rw [if_neg (Nat.ne_of_gt hnonce), if_neg (by omega)]
    obtain ⟨htxs, hperm⟩ := pop_perm hq
    have hpop := (Perm.cons_inv (hq ▸ hperm)).symm
    have hlists : ∀ a, q.pop.ofAccount sender a = q.ofAccount sender a :=
      fun a => congrArg (filter _) htxs
    rw [hpick]
    refine ⟨pop_ordered hq hc.ordered, fun y hy => hslot y (hpop.mem_iff.1 hy), fun a y hy => ?_,
      fun a => ?_⟩
    · rw [hlists] at hy
      exact hc.lists a y hy
    · by_cases ha : a = sender x
      · subst ha
        exact ⟨todo, heq, hpend, (hS _).dropped hstage hmem hpend.nodup hle hpop⟩
      · exact hc.wait (hS a) hl hq (Ne.symm ha) (hpop.filter _) (hlists a)

theorem peek_eq_none : q.peek = none ↔ q.heads = [] := head?_eq_none_iff

theorem peek_eq_some : q.peek = some x ↔ ∃ slots, q.heads = x :: slots := head?_eq_some_iff

theorem pick_size (sender : Transaction → Address) (p : Picked) (hq : q.heads = x :: slots) :
    (pick sender x q p).1.size < q.size := by
  unfold Core.pick
  split
  · exact shift_size sender hq
  · split
    · exact shift_size sender hq
    · exact pop_size hq

theorem pick_mem {price : List Transaction} (sender : Transaction → Address) (p : Picked)
    (hq : q.heads = x :: slots) (hheads : ∀ t ∈ q.heads, t ∈ price)
    (htxs : ∀ t ∈ q.txs, t ∈ price) :
    (∀ t ∈ (pick sender x q p).1.heads, t ∈ price) ∧
      ∀ t ∈ (pick sender x q p).1.txs, t ∈ price := by
  have hpop : (∀ t ∈ q.pop.heads, t ∈ price) ∧ ∀ t ∈ q.pop.txs, t ∈ price := by
    obtain ⟨heq, hperm⟩ := pop_perm hq
    refine ⟨fun t ht => hheads t (hperm.mem_iff.2 (mem_cons_of_mem x ht)), ?_⟩
    rw [heq]
    exact htxs
  have hshift : (∀ t ∈ (q.shift sender).heads, t ∈ price) ∧
      ∀ t ∈ (q.shift sender).txs, t ∈ price := by
    rcases shift_cases sender hq with ⟨y, hfind, heq⟩ | ⟨-, heq⟩
    · rw [heq]
      refine ⟨fun t ht => ?_, fun t ht => htxs t (mem_of_mem_eraseP ht)⟩
      rcases mem_cons.1 ((sift_perm _ _ _).mem_iff.1 ht) with rfl | ht
      · exact htxs t (mem_of_find?_eq_some hfind)
      · exact hheads t (by rw [hq]; exact mem_cons_of_mem x ht)
    · rw [heq]
      exact hpop
  unfold Core.pick
  split
  · exact hshift
  · split
    · exact hshift
    · exact hpop

theorem course_new {price : List Transaction} {next : Address → Nat}
    (hord : Ordered Transaction.price price.length price)
    (hnonces : ∀ a, (pendingOf sender price a).map Transaction.accountNonce =
      range' (next a) (pendingOf sender price a).length)
    (hS : ∀ a, S a price (pendingOf sender price a) (pendingOf sender price a)) :
    Course sender S (pendingOf sender price) (newTransactionsByPriceAndNonce2 price) ⟨next, []⟩ := by
  refine ⟨hord, fun x hx => ?_, fun a x hx => hx, fun a => ?_⟩
  · simpa [newTransactionsByPriceAndNonce2, ofAccount] using hx
  · exact ⟨_, rfl, ⟨fun t ht => (not_mem_nil ht).elim, hnonces a⟩, hS a⟩

/-- **What a round keeps, the whole selection keeps**, and at its end the heap is empty. -/
theorem Course.select (hc : Course sender S l q p) (hS : ∀ a, KeptByRounds sender a (S a))
    (hl : ∀ a, ∀ t ∈ l a, sender t = a) {n : Nat} (hn : q.size ≤ n) :
    ∃ q', q'.heads = [] ∧ Course sender S l q' (select sender n q p) := by
  induction n generalizing q p with
  | zero => exact ⟨q, length_eq_zero_iff.1 (by unfold size at hn; omega), hc⟩
  | succ n ih =>
    unfold Core.select
    cases hpeek : q.peek with
    | none => exact ⟨q, peek_eq_none.1 hpeek, hc⟩
    | some =>
      obtain ⟨slots, hq⟩ := peek_eq_some.1 hpeek
      have hsize := pick_size sender p hq
      exact ih (hc.pick hS hl hq) (by omega)

end Picking

end GoAoa.Core
