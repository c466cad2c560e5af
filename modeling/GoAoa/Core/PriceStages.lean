import GoAoa.Core.Selection
import Mathlib.Data.List.Chain
import Mathlib.Data.List.TakeWhile

/-!
# Prices that lose transactions

A pending transaction has two slots over time, and is lost if both come up before its turn.
Whether that happens is a matter of the prices of its sender: for `Servable` prices everything is
picked whatever the others offer and however the heap is laid out (`select_complete`), and for
`Wasteful` prices something is lost (`select_loses`). A sender that does not offer the same price
twice has the ones or the others (`servable_or_wasteful`).
-/

namespace GoAoa.Core

open List Heap TransactionsByPriceAndNonce

/-! ## The prices of one sender -/

def Falling (l : List Transaction) : Prop := l.Pairwise fun x y => y.price < x.price

/-- Prices of at least `p`, and then prices below it that fall, of transactions with `K`. -/
def EventuallyFalls (K : Transaction → Prop) (p : Nat) (l : List Transaction) : Prop :=
  ∃ high low, l = high ++ low ∧ (∀ x ∈ high, p ≤ x.price) ∧ Falling low ∧
    ∀ x ∈ low, x.price < p ∧ K x

/-- After the first transaction the prices settle; or they are above its price until one is below
it, and settle after that one. -/
def Opening (K : Transaction → Prop) (t : Transaction) (l : List Transaction) : Prop :=
  EventuallyFalls K t.price l ∨
    ∃ high u l', l = high ++ u :: l' ∧ (∀ x ∈ high, t.price < x.price) ∧ u.price < t.price ∧ K u ∧
      EventuallyFalls K u.price l'

/-- The transactions of a sender, in the order of the nonces, of which none is lost. -/
def Servable : List Transaction → Prop
  | [] => True
  | t :: l => Opening (fun _ => True) t l

variable {l : List Transaction}

theorem EventuallyFalls.mono {K K' : Transaction → Prop} {p : Nat}
    (h : EventuallyFalls K p l) (himp : ∀ x ∈ l, x.price < p → K x → K' x) : EventuallyFalls K' p l := by
  obtain ⟨high, low, rfl, hhigh, hfall, hlow⟩ := h
  refine ⟨high, low, rfl, hhigh, hfall, fun x hx => ⟨(hlow x hx).1, ?_⟩⟩
  exact himp x (mem_append_right _ hx) (hlow x hx).1 (hlow x hx).2

theorem Opening.mono {K K' : Transaction → Prop} {t : Transaction}
    (h : Opening K t l) (himp : ∀ x ∈ l, x.price < t.price → K x → K' x) : Opening K' t l := by
  rcases h with h | ⟨high, u, l', rfl, hhigh, hu, hK, hsettles⟩
  · exact .inl (h.mono himp)
  · have hmem : ∀ x ∈ u :: l', x ∈ high ++ u :: l' := fun x hx => mem_append_right _ hx
    refine .inr ⟨high, u, l', rfl, hhigh, hu, himp u (hmem u mem_cons_self) hu hK, ?_⟩
    exact hsettles.mono fun x hx hlt =>
      himp x (hmem x (mem_cons_of_mem u hx)) (Nat.lt_trans hlt hu)

/-! ## The stages of one sender -/

variable {sender : Transaction → Address} {a : Address} {x : Transaction} {p : Nat}
  {slots heads todo left left' : List Transaction}

section Stages

variable {heads' : List Transaction}

/-- What the list of a sender has to look like while its slot stays at the root at a price of `p`
or more, and the other slots are `slots`. -/
def Plan (sender : Transaction → Address) (a : Address) (p : Nat) (slots left : List Transaction) :
    Prop :=
  EventuallyFalls (· ∈ slots) p left ∨
    ∃ high u l, left = high ++ u :: l ∧ (∀ x ∈ high, p ≤ x.price) ∧ u.price < p ∧ u ∈ slots ∧
      EventuallyFalls (· ∈ slots) u.price l ∧ ∀ y ∈ slots, sender y = a → y ∈ u :: l

/-- How far a sender has come: `todo` are the transactions that have not been picked, and `left`
is its list. -/
inductive Stage (sender : Transaction → Address) (a : Address) (heads : List Transaction) :
    List Transaction → List Transaction → Prop
  /-- The first transaction has not come up. -/
  | start {t : Transaction} {l : List Transaction}
    (own : ∀ x ∈ heads, sender x = a → x ∈ t :: l) (once : heads.count t = 1)
    (plan : Opening (· ∈ heads) t l) : Stage sender a heads (t :: l) (t :: l)
  /-- The prices have gone down once, and the list is one ahead. -/
  | again {u : Transaction} {l : List Transaction}
    (own : ∀ x ∈ heads, sender x = a → x ∈ u :: l) (here : u ∈ heads)
    (plan : EventuallyFalls (· ∈ heads) u.price l) : Stage sender a heads (u :: l) l
  /-- The sender's slot is at the root and stays there. -/
  | level {x : Transaction} {slots todo left : List Transaction} {p : Nat}
    (root : heads = x :: slots) (mine : sender x = a) (le : ∀ y ∈ slots, y.price ≤ p)
    (plan : Plan sender a p slots left) (turn : todo = x :: left ∨ todo = left ∧ x ∉ todo) :
    Stage sender a heads todo left
  /-- What is to come has its slots, and they come up in order. -/
  | falling {todo left : List Transaction} (fall : Falling todo) (all : ∀ x ∈ todo, x ∈ heads) :
    Stage sender a heads todo left

theorem Plan.advance (hplan : Plan sender a p slots left) (hle : ∀ y ∈ slots, y.price ≤ p)
    (hleft : ∀ y ∈ left, sender y = a) (hs : Shifted slots left heads left') :
    Stage sender a heads left left' := by
  have hstay : ∀ y, p ≤ y.price →
      fix Transaction.price (y :: slots) 0 = y :: slots :=
    fun y hy => fix_of_le fun z hz => Nat.le_trans (hle z hz) hy
  cases hs with
  | given => exact .falling Pairwise.nil fun x hx => (not_mem_nil hx).elim
  | filled y left' =>
    have hs : Shifted slots (y :: left') _ left' := .filled y left'
    have hy := hleft y mem_cons_self
    rcases hplan with ⟨high, low, heq, hhigh, hfall, hlow⟩ |
      ⟨high, u, l, heq, hhigh, hu, hmem, hset, hown⟩
    · cases high with
      | nil =>
        rw [heq]
        exact .falling hfall fun x hx => hs.mem_of_slot (hlow x hx).2
      | cons z high =>
        obtain ⟨rfl, rfl⟩ := cons.inj heq
        refine .level (hstay y (hhigh y mem_cons_self)) hy hle (.inl ?_) (.inl rfl)
        exact ⟨high, low, rfl, fun x hx => hhigh x (mem_cons_of_mem y hx), hfall, hlow⟩
    · cases high with
      | nil =>
        obtain ⟨rfl, rfl⟩ := cons.inj heq
        refine .again (fun x hx hax => ?_) (hs.mem_of_slot hmem)
          (hset.mono fun x _ _ hx => hs.mem_of_slot hx)
        rcases hs.slot_or_left hx with hx | hx
        · exact hown x hx hax
        · exact hx
      | cons z high =>
        obtain ⟨rfl, rfl⟩ := cons.inj heq
        refine .level (hstay y (hhigh y mem_cons_self)) hy hle (.inr ?_) (.inl rfl)
        exact ⟨high, u, l, rfl, fun x hx => hhigh x (mem_cons_of_mem y hx), hu, hmem, hset, hown⟩

variable {y : Transaction}

/-- What is cheaper than the root is in another slot. -/
theorem mem_slots_of_price_lt (hy : y ∈ x :: slots) (hlt : y.price < x.price) : y ∈ slots :=
  (mem_cons.1 hy).resolve_left fun h => Nat.lt_irrefl _ (h ▸ hlt)

theorem Opening.plan (h : Opening (· ∈ x :: slots) x l)
    (hown : ∀ y ∈ x :: slots, sender y = a → y ∈ x :: l) (honce : (x :: slots).count x = 1)
    (hle : ∀ y ∈ slots, y.price ≤ x.price) : Plan sender a x.price slots l := by
  rcases h with h | ⟨high, u, l, rfl, hhigh, hu, hmem, hset⟩
  · exact .inl (h.mono fun y _ hlt hy => mem_slots_of_price_lt hy hlt)
  · refine .inr ⟨high, u, l, rfl, fun y hy => Nat.le_of_lt (hhigh y hy), hu,
      mem_slots_of_price_lt hmem hu,
      hset.mono fun y _ hlt hy => mem_slots_of_price_lt hy (Nat.lt_trans hlt hu), ?_⟩
    intro y hy hay
    have hne : y ≠ x := by
      rintro rfl
      rw [count_cons_self] at honce
      exact count_eq_zero.1 (by omega) hy
    have hrest := (mem_cons.1 (hown y (mem_cons_of_mem x hy) hay)).resolve_left hne
    rcases mem_append.1 hrest with hy' | hy'
    · have hbelow := hle y hy
      have habove := hhigh y hy'
      omega
    · exact hy'

/-- **The transaction at the root is picked.** -/
theorem Stage.picked (h : Stage sender a (x :: slots) (x :: todo) left) (hax : sender x = a)
    (hnodup : (x :: todo).Nodup) (hle : ∀ y ∈ slots, y.price ≤ x.price)
    (hleft : ∀ y ∈ left, sender y = a) (hs : Shifted slots left heads left') :
    Stage sender a heads todo left' := by
  have hnot := (nodup_cons.1 hnodup).1
  cases h with
  | start own once plan =>
    cases hs with
    | filled =>
      exact .level (fix_of_le hle) hax hle (plan.plan own once hle) (.inr ⟨rfl, hnot⟩)
  | again own here plan =>
    refine Plan.advance (.inl ?_) hle hleft hs
    exact plan.mono fun y _ hlt hy => mem_slots_of_price_lt hy hlt
  | level root mine le plan turn =>
    obtain ⟨rfl, rfl⟩ := cons.inj root
    rcases turn with turn | ⟨-, hout⟩
    · obtain ⟨-, rfl⟩ := cons.inj turn
      exact plan.advance le hleft hs
    · exact absurd mem_cons_self hout
  | falling fall all =>
    refine .falling (pairwise_cons.1 fall).2 fun y hy => hs.mem_of_slot ?_
    exact (mem_cons.1 (all y (mem_cons_of_mem x hy))).resolve_left fun h => hnot (h ▸ hy)

/-- **The transaction at the root has been picked before.** -/
theorem Stage.skipped (h : Stage sender a (x :: slots) todo left) (hax : sender x = a)
    (hnot : x ∉ todo) (hleft : ∀ y ∈ left, sender y = a) (hs : Shifted slots left heads left') :
    Stage sender a heads todo left' := by
  cases h with
  | start own | again own => exact absurd (own x mem_cons_self hax) hnot
  | level root mine le plan turn =>
    obtain ⟨rfl, rfl⟩ := cons.inj root
    rcases turn with rfl | ⟨rfl, -⟩
    · exact absurd mem_cons_self hnot
    · exact plan.advance le hleft hs
  | falling fall all =>
    refine .falling fall fun y hy => hs.mem_of_slot ?_
    exact (mem_cons.1 (all y hy)).resolve_left fun h => hnot (h ▸ hy)

/-- **The transaction at the root comes too early.** -/
theorem Stage.dropped (h : Stage sender a (x :: slots) todo left) (hmem : x ∈ todo.tail)
    (hnodup : todo.Nodup) (hle : ∀ y ∈ slots, y.price ≤ x.price) (hperm : heads.Perm slots) :
    Stage sender a heads todo left := by
  have hslot : ∀ {y}, y ∈ heads → y ∈ x :: slots := fun hy => mem_cons_of_mem x (hperm.mem_iff.1 hy)
  -- the root is not the one that is waited for, and so the slots below its price stay
  have hkeep : ∀ {t l}, todo = t :: l → t ∈ x :: slots →
      x ≠ t ∧ t ∈ heads ∧ ∀ y ∈ l, y.price < t.price → y ∈ x :: slots → y ∈ heads := by
    rintro t l rfl ht
    have hne : x ≠ t := by
      rintro rfl
      exact (nodup_cons.1 hnodup).1 hmem
    have ht := (mem_cons.1 ht).resolve_left (Ne.symm hne)
    refine ⟨hne, hperm.mem_iff.2 ht, fun y _ hlt hy => hperm.mem_iff.2 ?_⟩
    exact mem_slots_of_price_lt hy (Nat.lt_of_lt_of_le hlt (hle t ht))
  cases h with
  | @start t l own once plan =>
    obtain ⟨hne, -, hcheap⟩ := hkeep rfl (count_pos_iff.1 (by omega))
    refine .start (fun y hy => own y (hslot hy)) ?_ (plan.mono hcheap)
    rw [hperm.count_eq, ← once, count_cons_of_ne hne]
  | again own here plan =>
    obtain ⟨-, hu, hcheap⟩ := hkeep rfl here
    exact .again (fun y hy => own y (hslot hy)) hu (plan.mono hcheap)
  | level root mine le plan turn =>
    obtain ⟨rfl, rfl⟩ := cons.inj root
    rcases turn with rfl | ⟨-, hout⟩
    · exact absurd hmem (nodup_cons.1 hnodup).1
    · exact absurd (mem_of_mem_tail hmem) hout
  | falling fall all =>
    cases todo with
    | nil => cases hmem
    | cons t =>
      obtain ⟨-, ht, -⟩ := hkeep rfl (all t mem_cons_self)
      have hbelow := (pairwise_cons.1 fall).1 x hmem
      have habove := hle t (hperm.mem_iff.1 ht)
      omega

theorem mem_iff_of_filter_perm
    (h : (heads.filter fun y => sender y = a).Perm (heads'.filter fun y => sender y = a))
    (hy : sender y = a) : y ∈ heads ↔ y ∈ heads' := by
  have hiff := h.mem_iff (a := y)
  simpa only [mem_filter, hy, decide_true, and_true] using hiff

theorem count_eq_of_filter_perm
    (h : (heads.filter fun y => sender y = a).Perm (heads'.filter fun y => sender y = a))
    (hy : sender y = a) : heads.count y = heads'.count y := by
  have hcount := h.count_eq y
  rwa [count_filter (by simpa using hy), count_filter (by simpa using hy)] at hcount

/-- **Another sender's transaction is at the root.** -/
theorem Stage.other (h : Stage sender a (x :: slots) todo left) (hax : sender x ≠ a)
    (htodo : ∀ y ∈ todo, sender y = a)
    (hsame : (heads.filter fun y => sender y = a).Perm ((x :: slots).filter fun y => sender y = a)) :
    Stage sender a heads todo left := by
  have hmem : ∀ {y}, sender y = a → (y ∈ heads ↔ y ∈ x :: slots) := mem_iff_of_filter_perm hsame
  cases h with
  | @start t l own once plan =>
    have ht := htodo t mem_cons_self
    refine .start (fun y hy hay => own y ((hmem hay).1 hy) hay) ?_ (plan.mono fun y hy _ hin => ?_)
    · rw [count_eq_of_filter_perm hsame ht, once]
    · exact (hmem (htodo y (mem_cons_of_mem t hy))).2 hin
  | @again u l own here plan =>
    refine .again (fun y hy hay => own y ((hmem hay).1 hy) hay)
      ((hmem (htodo u mem_cons_self)).2 here) (plan.mono fun y hy _ hin => ?_)
    exact (hmem (htodo y (mem_cons_of_mem u hy))).2 hin
  | level root mine =>
    obtain ⟨rfl, -⟩ := cons.inj root
    exact absurd mine hax
  | falling fall all => exact .falling fall fun y hy => (hmem (htodo y hy)).2 (all y hy)

theorem kept_stage (sender : Transaction → Address) (a : Address) :
    KeptByRounds sender a (Stage sender a) where
  picked h := h.picked
  skipped h := h.skipped
  dropped h := h.dropped
  other h := h.other

end Stages

/-! ## Prices of which one is lost -/

def Rises (l : List Transaction) : Prop :=
  ∃ pre y z post, l = pre ++ y :: z :: post ∧ y.price < z.price

/-- The prices stay at that of `u` or above it until one is below it, and go up after that. -/
def Dips (u : Transaction) (l : List Transaction) : Prop :=
  ∃ high v l', l = high ++ v :: l' ∧ (∀ x ∈ high, u.price ≤ x.price) ∧ v.price < u.price ∧
    Rises (v :: l')

/-- The transactions of a sender, in the order of the nonces, of which one is lost: their prices
go below the first, below that one, and then up. -/
def Wasteful : List Transaction → Prop
  | [] => False
  | t :: l => ∃ high u l', l = high ++ u :: l' ∧ (∀ x ∈ high, t.price ≤ x.price) ∧
      u.price < t.price ∧ Dips u l'

theorem Rises.append (h : Rises l) (pre : List Transaction) : Rises (pre ++ l) := by
  obtain ⟨pre', y, z, post, rfl, hlt⟩ := h
  exact ⟨pre ++ pre', y, z, post, (append_assoc _ _ _).symm, hlt⟩

variable {u : Transaction}

theorem Dips.rises (h : Dips u l) : Rises l := by
  obtain ⟨high, v, l', rfl, -, -, hrises⟩ := h
  exact hrises.append high

theorem Rises.two_le (h : Rises l) : 2 ≤ l.length := by
  obtain ⟨-, -, -, -, rfl, -⟩ := h
  simp only [length_append, length_cons]
  omega

/-- How a transaction of a sender comes to be lost. -/
inductive Fate (sender : Transaction → Address) (a : Address) (heads : List Transaction) :
    List Transaction → List Transaction → Prop
  /-- The first transaction has not come up. -/
  | start {t u : Transaction} {high l : List Transaction}
    (own : ∀ x ∈ heads, sender x = a → x ∈ t :: (high ++ u :: l)) (first : t ∈ heads)
    (second : u ∈ heads) (above : ∀ x ∈ high, t.price ≤ x.price) (below : u.price < t.price)
    (dips : Dips u l) : Fate sender a heads (t :: (high ++ u :: l)) (t :: (high ++ u :: l))
  /-- The sender's slot is at the root until the prices go below the first. -/
  | level {x u : Transaction} {slots high l todo : List Transaction} {p : Nat}
    (root : heads = x :: slots) (mine : sender x = a) (le : ∀ y ∈ slots, y.price ≤ p)
    (above : ∀ x ∈ high, p ≤ x.price) (below : u.price < p) (slot : u ∈ slots) (dips : Dips u l)
    (turn : todo = x :: (high ++ u :: l) ∨ todo = high ++ u :: l ∧ x ∉ todo) :
    Fate sender a heads todo (high ++ u :: l)
  /-- Both slots of the transaction that is next are there. -/
  | twice {u : Transaction} {l : List Transaction} (both : 2 ≤ heads.count u) (dips : Dips u l) :
    Fate sender a heads (u :: l) l
  /-- The sender's slot is at the root until the prices go down again, with one slot left of a
  transaction that has been picked. -/
  | levelAgain {x u v : Transaction} {slots high l : List Transaction}
    (root : heads = x :: slots) (mine : sender x = a) (mine' : sender u = a)
    (le : ∀ y ∈ slots, y.price ≤ u.price) (slot : u ∈ slots)
    (past : u ∉ x :: (high ++ v :: l)) (above : ∀ x ∈ high, u.price ≤ x.price)
    (below : v.price < u.price) (rises : Rises (v :: l)) :
    Fate sender a heads (x :: (high ++ v :: l)) (high ++ v :: l)
  /-- That slot comes up next. -/
  | once {u v : Transaction} {l : List Transaction} (mine : sender u = a) (slot : u ∈ heads)
    (past : u ∉ v :: l) (below : v.price < u.price) (rises : Rises (v :: l)) :
    Fate sender a heads (v :: l) l
  /-- The list is two ahead of what is next. -/
  | ahead {todo left : List Transaction} (rises : Rises todo) (list : left <:+ todo.drop 2) :
    Fate sender a heads todo left
  /-- What is next is gone. -/
  | lost {z : Transaction} {l left : List Transaction} (slot : z ∉ heads) (list : z ∉ left) :
    Fate sender a heads (z :: l) left

/-- The slot of one that is done with is filled again, and the other slot of `u` is still there. -/
theorem Dips.advance (h : Dips u left) (hu : sender u = a)
    (hle : ∀ y ∈ slots, y.price ≤ u.price) (hslot : u ∈ slots) (hpast : u ∉ left)
    (hleft : ∀ y ∈ left, sender y = a) (hs : Shifted slots left heads left') :
    Fate sender a heads left left' := by
  obtain ⟨high, v, l, rfl, hhigh, hv, hrises⟩ := h
  have hmem := hs.mem_of_slot hslot
  cases high with
  | nil =>
    cases hs with
    | filled => exact .once hu hmem hpast hv hrises
  | cons y =>
    cases hs with
    | filled =>
      have hroot := fix_of_le fun z hz => Nat.le_trans (hle z hz) (hhigh y mem_cons_self)
      exact .levelAgain hroot (hleft y mem_cons_self) hu hle hslot hpast
        (fun x hx => hhigh x (mem_cons_of_mem y hx)) hv hrises

theorem Fate.advance {high : List Transaction} (hle : ∀ y ∈ slots, y.price ≤ p)
    (habove : ∀ x ∈ high, p ≤ x.price) (hbelow : u.price < p) (hslot : u ∈ slots)
    (hdips : Dips u l) (hleft : ∀ y ∈ high ++ u :: l, sender y = a)
    (hs : Shifted slots (high ++ u :: l) heads left') :
    Fate sender a heads (high ++ u :: l) left' := by
  cases high with
  | nil =>
    cases hs with
    | filled =>
      refine .twice ?_ hdips
      have hcount : (fix Transaction.price (u :: slots) 0).count u = (u :: slots).count u :=
        (sift_perm _ _ _).count_eq u
      have hpos := count_pos_iff.2 hslot
      rw [hcount, count_cons_self]
      omega
  | cons y =>
    cases hs with
    | filled =>
      have hroot := fix_of_le fun z hz => Nat.le_trans (hle z hz) (habove y mem_cons_self)
      exact .level hroot (hleft y mem_cons_self) hle
        (fun x hx => habove x (mem_cons_of_mem y hx)) hbelow hslot hdips (.inl rfl)

theorem TransactionsByPriceAndNonce.Shifted.eq_tail (hs : Shifted slots left heads left') :
    left' = left.tail := by
  cases hs <;> rfl

theorem suffix_tail (h : left <:+ todo) : left.tail <:+ todo.tail := by
  obtain ⟨pre, rfl⟩ := h
  cases pre with
  | nil => exact suffix_refl _
  | cons y pre => exact (tail_suffix left).trans ⟨pre, rfl⟩

/-- **The transaction at the root is picked.** -/
theorem Fate.picked (h : Fate sender a (x :: slots) (x :: todo) left) (hax : sender x = a)
    (hnodup : (x :: todo).Nodup) (hle : ∀ y ∈ slots, y.price ≤ x.price)
    (hleft : ∀ y ∈ left, sender y = a) (hs : Shifted slots left heads left') :
    Fate sender a heads todo left' := by
  obtain ⟨hnot, hnodup⟩ := nodup_cons.1 hnodup
  cases h with
  | start own first second above below dips =>
    cases hs with
    | filled =>
      exact .level (fix_of_le hle) hax hle above below (mem_slots_of_price_lt second below) dips
        (.inr ⟨rfl, hnot⟩)
  | level root mine le above below slot dips turn =>
    obtain ⟨rfl, rfl⟩ := cons.inj root
    rcases turn with turn | ⟨-, hout⟩
    · obtain ⟨-, rfl⟩ := cons.inj turn
      exact Fate.advance le above below slot dips hleft hs
    · exact absurd mem_cons_self hout
  | twice both dips =>
    have hslot : x ∈ slots := by
      rw [count_cons_self] at both
      exact count_pos_iff.1 (by omega)
    exact dips.advance hax hle hslot hnot hleft hs
  | levelAgain root mine mine' le slot past above below rises =>
    obtain ⟨-, rfl⟩ := cons.inj root
    exact Dips.advance ⟨_, _, _, rfl, above, below, rises⟩ mine' le slot
      (fun hin => past (mem_cons_of_mem x hin)) hleft hs
  | once mine slot past =>
    have hslot := (mem_cons.1 slot).resolve_left fun heq => past (heq ▸ mem_cons_self)
    have := hle _ hslot
    omega
  | ahead rises list =>
    obtain ⟨pre, y, z, post, heq, hlt⟩ := rises
    cases pre with
    | nil =>
      obtain ⟨rfl, rfl⟩ := cons.inj heq
      have hz : z ∉ slots := fun hz => by
        have := hle z hz
        omega
      have hzpost := (nodup_cons.1 hnodup).1
      have hzleft : z ∉ left := fun hz => hzpost (list.subset hz)
      refine .lost (fun hin => ?_) fun hin => hzleft (hs.left_suffix hin)
      rcases hs.slot_or_left hin with hin | hin
      · exact hz hin
      · exact hzleft hin
    | cons _ pre =>
      obtain ⟨-, rfl⟩ := cons.inj heq
      refine .ahead ⟨pre, y, z, post, rfl, hlt⟩ ?_
      rw [hs.eq_tail]
      have htail := suffix_tail list
      rwa [tail_drop] at htail
  | lost slot => exact absurd mem_cons_self slot

section

variable (h : Fate sender a (x :: slots) todo left)
include h

/-- **The transaction at the root has been picked before.** -/
theorem Fate.skipped (hax : sender x = a)
    (hnot : x ∉ todo) (hleft : ∀ y ∈ left, sender y = a) (hs : Shifted slots left heads left') :
    Fate sender a heads todo left' := by
  cases h with
  | start own => exact absurd (own x mem_cons_self hax) hnot
  | level root mine le above below slot dips turn =>
    obtain ⟨rfl, rfl⟩ := cons.inj root
    rcases turn with rfl | ⟨rfl, -⟩
    · exact absurd mem_cons_self hnot
    · exact Fate.advance le above below slot dips hleft hs
  | @twice u l both dips =>
    have hdrop : (u :: left).drop 2 = left' := by rw [hs.eq_tail, drop_succ_cons, drop_one]
    exact .ahead (dips.rises.append [u]) ⟨[], hdrop.symm⟩
  | levelAgain root =>
    obtain ⟨rfl, -⟩ := cons.inj root
    exact absurd mem_cons_self hnot
  | @once u v l mine slot past below rises =>
    have hdrop : (v :: left).drop 2 = left' := by rw [hs.eq_tail, drop_succ_cons, drop_one]
    exact .ahead rises ⟨[], hdrop.symm⟩
  | ahead rises list =>
    refine .ahead rises ?_
    rw [hs.eq_tail]
    exact (tail_suffix left).trans list
  | @lost z l _ slot list =>
    refine .lost (fun hin => ?_) fun hin => list (hs.left_suffix hin)
    rcases hs.slot_or_left hin with hin | hin
    · exact slot (mem_cons_of_mem x hin)
    · exact list hin

/-- **The transaction at the root comes too early.** -/
theorem Fate.dropped (hmem : x ∈ todo.tail)
    (hnodup : todo.Nodup) (hle : ∀ y ∈ slots, y.price ≤ x.price) (hperm : heads.Perm slots) :
    Fate sender a heads todo left := by
  have hstay : ∀ {y}, y ∈ x :: slots → x ≠ y → y ∈ heads := fun hy hne =>
    hperm.mem_iff.2 ((mem_cons.1 hy).resolve_left (Ne.symm hne))
  have hne : ∀ {t l}, todo = t :: l → x ≠ t := by
    rintro t l rfl rfl
    exact (nodup_cons.1 hnodup).1 hmem
  cases h with
  | @start t u high l own first second above below dips =>
    have ht := hne rfl
    have hprice := hle t ((mem_cons.1 first).resolve_left (Ne.symm ht))
    have hu : x ≠ u := by
      rintro rfl
      omega
    exact .start (fun y hy => own y (mem_cons_of_mem x (hperm.mem_iff.1 hy))) (hstay first ht)
      (hstay second hu) above below dips
  | level root mine le above below slot dips turn =>
    obtain ⟨rfl, rfl⟩ := cons.inj root
    rcases turn with rfl | ⟨-, hout⟩
    · exact absurd rfl (hne rfl)
    · exact absurd (mem_of_mem_tail hmem) hout
  | @twice u l both dips =>
    refine .twice ?_ dips
    rw [hperm.count_eq]
    rwa [count_cons_of_ne (hne rfl)] at both
  | levelAgain root =>
    obtain ⟨rfl, -⟩ := cons.inj root
    exact absurd rfl (hne rfl)
  | once mine slot past below rises =>
    refine .once mine (hstay slot ?_) past below rises
    rintro rfl
    exact past (mem_of_mem_tail hmem)
  | ahead rises list => exact .ahead rises list
  | lost slot list =>
    exact .lost (fun hin => slot (mem_cons_of_mem x (hperm.mem_iff.1 hin))) list

/-- **Another sender's transaction is at the root.** -/
theorem Fate.other (hax : sender x ≠ a) (htodo : ∀ y ∈ todo, sender y = a)
    (hsame : (heads.filter fun y => sender y = a).Perm ((x :: slots).filter fun y => sender y = a)) :
    Fate sender a heads todo left := by
  have hmem : ∀ {y}, sender y = a → (y ∈ heads ↔ y ∈ x :: slots) := mem_iff_of_filter_perm hsame
  cases h with
  | @start t u high l own first second above below dips =>
    have hu : u ∈ t :: (high ++ u :: l) := mem_cons_of_mem t (mem_append_right high mem_cons_self)
    exact .start (fun y hy hay => own y ((hmem hay).1 hy) hay)
      ((hmem (htodo t mem_cons_self)).2 first) ((hmem (htodo u hu)).2 second) above below dips
  | level root mine | levelAgain root mine =>
    obtain ⟨rfl, -⟩ := cons.inj root
    exact absurd mine hax
  | @twice u l both dips =>
    refine .twice ?_ dips
    rwa [count_eq_of_filter_perm hsame (htodo u mem_cons_self)]
  | once mine slot past below rises => exact .once mine ((hmem mine).2 slot) past below rises
  | ahead rises list => exact .ahead rises list
  | @lost z l _ slot list =>
    exact .lost (fun hin => slot ((hmem (htodo z mem_cons_self)).1 hin)) list

end

theorem Fate.ne_nil (h : Fate sender a [] todo left) : todo ≠ [] := by
  cases h with
  | level root => cases root
  | ahead rises =>
    have := rises.two_le
    intro hnil
    rw [hnil] at this
    cases this
  | _ => exact cons_ne_nil _ _

theorem mem_ofAccount_new {price : List Transaction} :
    x ∈ pendingOf sender price a ↔ x ∈ price ∧ sender x = a := by
  simp [newTransactionsByPriceAndNonce2, ofAccount]

theorem count_ofAccount_new (price : List Transaction) {t : Transaction} (ht : sender t = a) :
    (pendingOf sender price a).count t = price.count t := by
  rw [pendingOf, ofAccount, count_filter (by simpa using ht)]
  exact (perm_insertionSort _ _).count_eq t

section Selection

variable {price : List Transaction} {next : Address → Nat}
  (hheap : Ordered Transaction.price price.length price)
  (hnonces : ∀ a, (pendingOf sender price a).map Transaction.accountNonce =
    range' (next a) (pendingOf sender price a).length)

include hheap hnonces

/-- **Nothing is lost.** If the prices of every sender are servable, everything is picked, and the
transactions of each sender in the order of the nonces. -/
theorem select_complete (hserve : ∀ a, Servable (pendingOf sender price a)) (a : Address) :
    ((select sender (newTransactionsByPriceAndNonce2 price).size
        (newTransactionsByPriceAndNonce2 price) ⟨next, []⟩).txs.filter fun t => sender t = a) =
      pendingOf sender price a := by
  have hstart : ∀ a, Stage sender a price (pendingOf sender price a) (pendingOf sender price a) := by
    intro a
    have hpend : Pending a ⟨next, []⟩ [] (pendingOf sender price a) :=
      ⟨fun t ht => (not_mem_nil ht).elim, hnonces a⟩
    have hplan := hserve a
    have hnodup := hpend.nodup
    have hmem : ∀ x, x ∈ pendingOf sender price a ↔ x ∈ price ∧ sender x = a :=
      fun x => mem_ofAccount_new
    have hcount : ∀ t, sender t = a → (pendingOf sender price a).count t = price.count t :=
      fun t ht => count_ofAccount_new price ht
    generalize pendingOf sender price a = mine at *
    cases mine with
    | nil => exact .falling Pairwise.nil fun x hx => (not_mem_nil hx).elim
    | cons t =>
      refine .start (fun x hx hax => (hmem x).2 ⟨hx, hax⟩) ?_
        (Opening.mono hplan fun x hx _ _ => ((hmem x).1 (mem_cons_of_mem t hx)).1)
      rw [← hcount t ((hmem t).1 mem_cons_self).2]
      exact count_eq_one_of_mem hnodup mem_cons_self
  obtain ⟨q, hempty, hcourse⟩ := (course_new hheap hnonces hstart).select (kept_stage sender)
    (fun a t ht => sender_of_mem_ofAccount ht) (Nat.le_refl _)
  obtain ⟨todo, heq, -, hstage⟩ := hcourse.stage a
  rw [hempty] at hstage
  generalize q.ofAccount sender a = left at hstage
  cases hstage with
  | start own once => cases once
  | again own here => cases here
  | level root => cases root
  | falling fall all =>
    cases todo with
    | nil => rw [heq, append_nil]
    | cons t => exact absurd (all t mem_cons_self) not_mem_nil

/-- **Something is lost** of a sender whose prices are wasteful. -/
theorem select_loses (hwaste : Wasteful (pendingOf sender price a)) :
    ((select sender (newTransactionsByPriceAndNonce2 price).size
        (newTransactionsByPriceAndNonce2 price) ⟨next, []⟩).txs.filter fun t => sender t = a) ≠
      pendingOf sender price a := by
  have hstart : Fate sender a price (pendingOf sender price a) (pendingOf sender price a) := by
    have hmem : ∀ x, x ∈ pendingOf sender price a ↔ x ∈ price ∧ sender x = a :=
      fun x => mem_ofAccount_new
    generalize pendingOf sender price a = mine at *
    cases mine with
    | nil => exact hwaste.elim
    | cons t =>
      obtain ⟨high, u, l, rfl, habove, hbelow, hdips⟩ := hwaste
      have hu : u ∈ t :: (high ++ u :: l) := mem_cons_of_mem t (mem_append_right high mem_cons_self)
      exact .start (fun x hx hax => (hmem x).2 ⟨hx, hax⟩) ((hmem t).1 mem_cons_self).1
        ((hmem u).1 hu).1 habove hbelow hdips
  -- nothing is asked of the other senders
  have hkept : ∀ b, KeptByRounds sender b fun heads todo left => b = a →
      Fate sender b heads todo left := fun b =>
    ⟨fun h hax hn hle hl hs hb => ((h hb).picked hax hn hle hl hs),
      fun h hax hn hl hs hb => (h hb).skipped hax hn hl hs,
      fun h hm hn hle hp hb => (h hb).dropped hm hn hle hp,
      fun h hax ht hs hb => (h hb).other hax ht hs⟩
  obtain ⟨q, hempty, hcourse⟩ := (course_new (S := fun b heads todo left => b = a →
      Fate sender b heads todo left) hheap hnonces fun b hb => hb ▸ hstart).select hkept
    (fun b t ht => sender_of_mem_ofAccount ht) (Nat.le_refl _)
  obtain ⟨todo, heq, -, hfate⟩ := hcourse.stage a
  rw [hempty] at hfate
  intro hall
  rw [hall] at heq
  exact (hfate rfl).ne_nil (self_eq_append_right.1 heq)

end Selection

/-! ## Prices that differ -/

theorem falling_of_not_rises (hnodup : (l.map Transaction.price).Nodup)
    (h : ¬ Rises l) : Falling l := by
  have : IsTrans Transaction fun x y => y.price < x.price := ⟨fun _ _ _ h h' => Nat.lt_trans h' h⟩
  refine isChain_iff_pairwise.1 (isChain_iff_forall_rel_of_append_cons_cons.2 ?_)
  rintro y z pre post rfl
  have hnot : ¬ y.price < z.price := fun hlt => h ⟨pre, y, z, post, rfl, hlt⟩
  have hne : y.price ≠ z.price := fun heq => by simp [heq, nodup_append] at hnodup
  omega

theorem split_below (p : Nat) (l : List Transaction) :
    ∃ high low, l = high ++ low ∧ (∀ x ∈ high, p ≤ x.price) ∧
      ∀ x rest, low = x :: rest → x.price < p := by
  refine ⟨l.takeWhile (p ≤ ·.price), l.dropWhile (p ≤ ·.price), takeWhile_append_dropWhile.symm,
    fun x hx => by simpa using mem_takeWhile_imp hx, fun x rest heq => ?_⟩
  have hhead := head?_dropWhile_not (p ≤ ·.price) l
  rw [heq] at hhead
  exact Nat.not_le.1 (of_decide_eq_false hhead)

/-- **Prices that differ are servable or wasteful.** -/
theorem servable_or_wasteful (hnodup : (l.map Transaction.price).Nodup) :
    Servable l ∨ Wasteful l := by
  cases l with
  | nil => exact .inl trivial
  | cons t l =>
    rw [map_cons, nodup_cons] at hnodup
    obtain ⟨ht, hnodup⟩ := hnodup
    obtain ⟨high, low, rfl, hhigh, hlow⟩ := split_below t.price l
    cases low with
    | nil =>
      exact .inl (.inl ⟨high, [], rfl, hhigh, Pairwise.nil, fun x hx => by cases hx⟩)
    | cons u l =>
      have hu := hlow u l rfl
      obtain ⟨high', low', rfl, hhigh', hlow'⟩ := split_below u.price l
      by_cases hrises : Rises low'
      · cases low' with
        | nil => exact absurd hrises.two_le (by decide)
        | cons v l' =>
          exact .inr ⟨high, u, _, rfl, hhigh, hu, high', v, l', rfl, hhigh', hlow' v l' rfl, hrises⟩
      · have hstrict : ∀ x ∈ high, t.price < x.price := by
          intro x hx
          have hne : x.price ≠ t.price := fun heq =>
            ht (heq ▸ mem_map_of_mem (mem_append_left _ hx))
          have := hhigh x hx
          omega
        have hsub : (low'.map Transaction.price).Nodup := by
          refine hnodup.sublist (Sublist.map _ ?_)
          exact ((sublist_append_right high' low').cons u).trans (sublist_append_right high _)
        have hfall := falling_of_not_rises hsub hrises
        refine .inl (.inr ⟨high, u, _, rfl, hstrict, hu, trivial, high', low', rfl, hhigh', hfall, ?_⟩)
        intro x hx
        refine ⟨?_, trivial⟩
        cases low' with
        | nil => cases hx
        | cons v l' =>
          have hv := hlow' v l' rfl
          rcases mem_cons.1 hx with rfl | hx
          · exact hv
          · exact Nat.lt_trans ((pairwise_cons.1 hfall).1 x hx) hv

end GoAoa.Core
