import Mathlib.Data.List.AList

/-!
# Tables of pointers

Tables map keys to pointers into one memory. Storing a table of objects changes the object of a
key that has a pointer in place, where every table with that pointer sees it, and gives a new
pointer to a new key. Tables that share no pointer do not see what is stored through the other.
-/

namespace GoAoa

open List Option

structure Objects (β : Type) where
  cells : Nat → β
  next : Nat

namespace Objects

variable {α β γ : Type}

def mapTable (f : α → β → γ) (t : AList fun _ : α => β) : AList fun _ : α => γ :=
  ⟨t.entries.map fun e => ⟨e.1, f e.1 e.2⟩, by
    have h : (t.entries.map fun e => (⟨e.1, f e.1 e.2⟩ : Sigma fun _ : α => γ)).keys = t.keys :=
      List.map_map
    rw [NodupKeys, h]
    exact t.keys_nodup⟩

def deref (m : Objects β) (refs : AList fun _ : α => Nat) : AList fun _ : α => β :=
  mapTable (fun _ p => m.cells p) refs

variable [DecidableEq α] {m : Objects β} {refs other : AList fun _ : α => Nat}
  {t : AList fun _ : α => β} {a b : α} {p : Nat}

theorem lookup_mapTable (f : α → β → γ) : (mapTable f t).lookup a = (t.lookup a).map (f a) :=
  dlookup_map₂ a

/-- The pointer that a key has, or a new one. -/
def pointer (m : Objects β) (refs : AList fun _ : α => Nat) (t : AList fun _ : α => β) (a : α) :
    Nat :=
  (refs.lookup a).getD (m.next + t.keys.idxOf a)

def store (m : Objects β) (refs : AList fun _ : α => Nat) (t : AList fun _ : α => β) :
    Objects β × AList fun _ : α => Nat :=
  (⟨fun p => ((t.keys.find? fun a => m.pointer refs t a = p).bind t.lookup).getD (m.cells p),
    m.next + t.keys.length⟩, mapTable (fun a _ => m.pointer refs t a) t)

/-- Every key has its own pointer, to an object that has been allocated. -/
structure Valid (m : Objects β) (refs : AList fun _ : α => Nat) : Prop where
  lt : ∀ a p, refs.lookup a = some p → p < m.next
  inj : ∀ a b p, refs.lookup a = some p → refs.lookup b = some p → a = b

structure Apart (m : Objects β) (refs other : AList fun _ : α => Nat) : Prop where
  left : m.Valid refs
  right : m.Valid other
  disjoint : ∀ a b p, refs.lookup a = some p → other.lookup b ≠ some p

theorem Apart.symm (h : m.Apart refs other) : m.Apart other refs :=
  ⟨h.right, h.left, fun a b p ha hb => h.disjoint b a p hb ha⟩

theorem valid_empty (m : Objects β) : m.Valid (∅ : AList fun _ : α => Nat) :=
  ⟨fun _ _ h => (by cases h), fun _ _ _ h => (by cases h)⟩

theorem Valid.apart_empty (h : m.Valid refs) : m.Apart ∅ refs :=
  ⟨valid_empty m, h, fun _ _ _ h => (by cases h)⟩

theorem pointer_eq (m : Objects β) (refs : AList fun _ : α => Nat) (t : AList fun _ : α => β)
    (a : α) : refs.lookup a = some (m.pointer refs t a) ∨
      m.pointer refs t a = m.next + t.keys.idxOf a := by
  unfold pointer
  cases refs.lookup a <;> simp

theorem pointer_inj (h : m.Valid refs) (ha : a ∈ t)
    (hp : m.pointer refs t a = m.pointer refs t b) : a = b := by
  rcases m.pointer_eq refs t a with hra | hra <;> rcases m.pointer_eq refs t b with hrb | hrb
  · exact h.inj a b _ hra (hp ▸ hrb)
  · have := h.lt a _ hra
    omega
  · have := h.lt b _ hrb
    omega
  · exact (idxOf_inj (AList.mem_keys.1 ha)).1 (by omega)

theorem deref_store (h : m.Valid refs) : (m.store refs t).1.deref (m.store refs t).2 = t := by
  refine AList.ext ?_
  show (t.entries.map _).map _ = t.entries
  rw [List.map_map]
  refine (map_congr_left fun e he => ?_).trans (map_id _)
  have hl : t.lookup e.1 = some e.2 := AList.mem_lookup_iff.2 he
  have hmem : e.1 ∈ t := AList.lookup_isSome.1 (by rw [hl]; rfl)
  have hfind : t.keys.find? (fun a => m.pointer refs t a = m.pointer refs t e.1) = some e.1 := by
    cases hf : t.keys.find? fun a => m.pointer refs t a = m.pointer refs t e.1 with
    | none => simpa using find?_eq_none.1 hf e.1 (AList.mem_keys.1 hmem)
    | some a =>
      have hp : m.pointer refs t a = m.pointer refs t e.1 := by simpa using find?_some hf
      rw [pointer_inj h (AList.mem_keys.2 (mem_of_find?_eq_some hf)) hp]
  show (⟨e.1, _⟩ : Sigma fun _ : α => β) = e
  simp only [store, hfind, bind_some, hl, getD_some]

/-- **Storing through one table is not seen through a table apart from it**, and leaves the two
apart. -/
theorem Apart.store (h : m.Apart refs other) (t : AList fun _ : α => β) :
    (m.store refs t).1.deref other = m.deref other ∧
      (m.store refs t).1.Apart (m.store refs t).2 other := by
  have hne : ∀ a b p, other.lookup b = some p → m.pointer refs t a ≠ p := by
    intro a b p hb hp
    rcases m.pointer_eq refs t a with hr | hr
    · exact h.disjoint a b p (hp ▸ hr) hb
    · have := h.right.lt b p hb
      omega
  have hlook : ∀ {a p}, (m.store refs t).2.lookup a = some p → a ∈ t ∧ m.pointer refs t a = p := by
    intro a p ha
    obtain ⟨x, hx, hp⟩ := map_eq_some_iff.1 ((lookup_mapTable _).symm.trans ha)
    exact ⟨AList.lookup_isSome.1 (by rw [hx]; rfl), hp⟩
  refine ⟨AList.ext (map_congr_left fun e he => ?_), ⟨fun a p ha => ?_, fun a b p ha hb => ?_⟩,
    ⟨fun a p ha => Nat.lt_add_right _ (h.right.lt a p ha), h.right.inj⟩, fun a b p ha hb => ?_⟩
  · have hnone : t.keys.find? (fun a => m.pointer refs t a = e.2) = none :=
      find?_eq_none.2 fun a _ => by simpa using hne a e.1 e.2 (AList.mem_lookup_iff.2 he)
    show (⟨e.1, _⟩ : Sigma fun _ : α => β) = _
    simp only [Objects.store, hnone, bind_none, getD_none]
  · obtain ⟨hmem, rfl⟩ := hlook ha
    show _ < m.next + t.keys.length
    rcases m.pointer_eq refs t a with hr | hr
    · exact Nat.lt_add_right _ (h.left.lt a _ hr)
    · have := idxOf_lt_length_of_mem (AList.mem_keys.1 hmem)
      omega
  · obtain ⟨hmem, rfl⟩ := hlook ha
    exact pointer_inj h.left hmem (hlook hb).2.symm
  · exact hne a b p hb (hlook ha).2

end Objects

end GoAoa
