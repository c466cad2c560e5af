import Mathlib.Data.List.Basic

/-!
# Rotated blooms

`core/bloombits/generator.go`: the blooms of a section are transposed, so that the bits of one index
stand together. The bounds check of `Bitset` is against the number of blocks of the section and not
the number of bits of a bloom, and so everything can be read off exactly if the two agree.
-/

namespace GoAoa.Core.Bloombits

open BitVec

abbrev Byte := BitVec 8

abbrev Bloom := Fin 256 → Byte

/-- Bit `i` of a bloom, which is a number with its highest byte first. -/
def Bloom.bit (bloom : Bloom) (i : Fin 2048) : Bool := (bloom ⟨255 - i / 8, by omega⟩).getLsbD (i % 8)

/-- Bit `j` of a bit vector, which starts with the highest bit of its first byte. -/
def bitAt (v : List Byte) (j : Nat) : Bool := v[j / 8]?.any (·.getMsbD (j % 8))

inductive Error where
  | outOfBounds
  | unexpectedIndex
  | notGenerated
  deriving DecidableEq, Repr

structure Generator where
  blooms : Fin 2048 → List Byte
  sections : Nat
  nextBit : Nat

namespace Generator

/-- `NewGenerator`, which refuses a number of sections that is not a multiple of eight. -/
def new (sections : Nat) : Option Generator :=
  if sections % 8 = 0 then some ⟨fun _ => .replicate (sections / 8) 0, sections, 0⟩ else none

/-- The loop of `AddBloom` writes to every bit vector once. -/
def addBloom (b : Generator) (index : Nat) (bloom : Bloom) : Except Error Generator :=
  if b.sections ≤ b.nextBit then .error .outOfBounds
  else if b.nextBit ≠ index then .error .unexpectedIndex
  else .ok { b with
    blooms := fun i =>
      if bloom ⟨255 - i / 8, by omega⟩ &&& 1#8 <<< (i.1 % 8) ≠ 0 then
        (b.blooms i).modify (b.nextBit / 8) (· ||| 1#8 <<< (7 - b.nextBit % 8))
      else b.blooms i
    nextBit := b.nextBit + 1 }

/-- `Bitset`; `none` is an index out of the range of the array. -/
def bitset (b : Generator) (idx : Nat) : Option (Except Error (List Byte)) :=
  if b.nextBit ≠ b.sections then some (.error .notGenerated)
  else if b.sections ≤ idx then some (.error .outOfBounds)
  else if h : idx < 2048 then some (.ok (b.blooms ⟨idx, h⟩)) else none

/-- The blooms are added in order. -/
def addAll (b : Generator) : List Bloom → Except Error Generator
  | [] => .ok b
  | bloom :: blooms => (b.addBloom b.nextBit bloom).bind fun b => b.addAll blooms

/-! ## The bits of the vectors -/

theorem getMsbD_mask : ∀ m n : Fin 8, (1#8 <<< (7 - m.1)).getMsbD n.1 = decide (m = n) := by
  decide

theorem mask_ne_zero (x : Byte) (m : Nat) : x &&& 1#8 <<< m ≠ 0 ↔ x.getLsbD m = true := by
  rw [← twoPow_eq, and_twoPow]
  by_cases hx : x.getLsbD m = true
  · rw [if_pos hx]
    refine ⟨fun _ => hx, fun _ hzero => ?_⟩
    have hbit := congrArg (·.getLsbD m) hzero
    simp [lt_of_getLsbD hx] at hbit
  · simp [hx]

theorem bitAt_modify {v : List Byte} {n : Nat} (hn : n < 8 * v.length) (j : Nat) :
    bitAt (v.modify (n / 8) (· ||| 1#8 <<< (7 - n % 8))) j = (bitAt v j || decide (j = n)) := by
  unfold bitAt
  rw [List.getElem?_modify]
  split
  · rename_i hj
    have hmask := getMsbD_mask ⟨n % 8, by omega⟩ ⟨j % 8, by omega⟩
    rw [List.getElem?_eq_getElem (by omega)]
    simp only [Option.map_eq_map, Option.map_some, Option.any_some, getMsbD_or, hmask,
      Fin.mk.injEq]
    congr 2
    exact propext ⟨fun h => by omega, fun h => by omega⟩
  · rename_i hj
    have hne : j ≠ n := fun h => hj (by rw [h])
    simp [hne]

theorem any_concat {α : Type} (l : List α) (x : α) (p : α → Bool) (j : Nat) :
    (l ++ [x])[j]?.any p = (l[j]?.any p || (decide (j = l.length) && p x)) := by
  rcases Nat.lt_trichotomy j l.length with hj | rfl | hj
  · simp [List.getElem?_append_left hj, Nat.ne_of_lt hj]
  · simp
  · rw [List.getElem?_eq_none (by simp; omega), List.getElem?_eq_none (by omega)]
    simp [Nat.ne_of_gt hj]

/-- The vectors have the bits of the blooms that were added, and no others. -/
structure Holds (k : Nat) (blooms : List Bloom) (b : Generator) : Prop where
  sections : b.sections = 8 * k
  nextBit : b.nextBit = blooms.length
  length : ∀ i, (b.blooms i).length = k
  bits : ∀ i j, bitAt (b.blooms i) j = blooms[j]?.any (·.bit i)

variable {k : Nat} {blooms : List Bloom} {b : Generator}

/-- **Step lemma.** -/
theorem Holds.addBloom (h : Holds k blooms b) (hk : blooms.length < 8 * k) (bloom : Bloom) :
    ∃ b', b.addBloom b.nextBit bloom = .ok b' ∧ Holds k (blooms ++ [bloom]) b' := by
  have hroom : ¬b.sections ≤ b.nextBit := by
    rw [h.sections, h.nextBit]
    omega
  refine ⟨_, (if_neg hroom).trans (if_neg (by simp)), h.sections, ?_, ?_, ?_⟩
  · simp [h.nextBit]
  · intro i
    dsimp only
    split <;> simp [h.length i]
  · intro i j
    have hn : b.nextBit < 8 * (b.blooms i).length := by
      rw [h.nextBit, h.length]
      exact hk
    rw [any_concat, ← h.bits, ← h.nextBit]
    dsimp only
    split
    · rename_i hb
      have hbit : bloom.bit i = true := (mask_ne_zero _ _).1 hb
      rw [bitAt_modify hn, hbit, Bool.and_true]
    · rename_i hb
      have hbit : bloom.bit i = false := Bool.eq_false_iff.2 (mt (mask_ne_zero _ _).2 hb)
      rw [hbit, Bool.and_false, Bool.or_false]

/-- **Run lemma.** -/
theorem Holds.addAll (more : List Bloom) (h : Holds k blooms b)
    (hk : blooms.length + more.length ≤ 8 * k) :
    ∃ b', b.addAll more = .ok b' ∧ Holds k (blooms ++ more) b' := by
  induction more generalizing b blooms with
  | nil => exact ⟨b, rfl, by simpa using h⟩
  | cons bloom more ih =>
    simp only [List.length_cons] at hk
    obtain ⟨b1, hadd, h1⟩ := h.addBloom (by omega) bloom
    obtain ⟨b', hall, h'⟩ := ih h1 (by simp; omega)
    refine ⟨b', ?_, by simpa using h'⟩
    rw [Generator.addAll, hadd]
    exact hall

theorem holds_new (k : Nat) : ∃ b, new (8 * k) = some b ∧ Holds k [] b := by
  refine ⟨_, if_pos (by omega), rfl, rfl, fun i => by simp, fun i j => ?_⟩
  simp only [bitAt, List.getElem?_replicate]
  split <;> simp

/-- What the bit vectors are for: the bits of index `i` of all blooms, for every bit of a bloom. -/
def Transposes (b : Generator) (blooms : List Bloom) : Prop :=
  ∀ idx, if h : idx < 2048 then
    ∃ v, b.bitset idx = some (.ok v) ∧ 8 * v.length = blooms.length ∧
      ∀ j (hj : j < blooms.length), bitAt v j = blooms[j].bit ⟨idx, h⟩
  else ∃ e, b.bitset idx = some (.error e)

/-- **Transposition.** Whatever the number of sections, all blooms are taken; the bits can be read
off as they should exactly if there are as many blooms in a section as bits in a bloom. -/
theorem transposes_iff (k : Nat) (blooms : Vector Bloom (8 * k)) :
    ∃ b₀ b, new (8 * k) = some b₀ ∧ b₀.addAll blooms.toList = .ok b ∧
      (Transposes b blooms.toList ↔ 8 * k = 2048) := by
  obtain ⟨b₀, hnew, h0⟩ := holds_new k
  obtain ⟨b, hadd, h⟩ := h0.addAll blooms.toList (by simp)
  have hfull : ¬b.nextBit ≠ b.sections := by simp [h.nextBit, h.sections]
  have hset : ∀ idx, b.bitset idx = if 8 * k ≤ idx then some (.error .outOfBounds)
      else if h : idx < 2048 then some (.ok (b.blooms ⟨idx, h⟩)) else none := by
    intro idx
    rw [bitset, if_neg hfull, h.sections]
  refine ⟨b₀, b, hnew, hadd, fun ht => ?_, fun hk idx => ?_⟩
  · obtain ⟨v, hlow, -⟩ := ht 2047
    obtain ⟨e, hhigh⟩ := ht 2048
    by_contra hne
    by_cases hk : 8 * k ≤ 2047
    · simp [hset, hk] at hlow
    · have hk' : ¬8 * k ≤ 2048 := by omega
      simp [hset, hk'] at hhigh
  · rw [hset]
    split
    · rename_i hidx
      refine ⟨b.blooms ⟨idx, hidx⟩, by rw [if_neg (by omega)], ?_, fun j hj => ?_⟩
      · simp [h.length]
      · simp [h.bits, List.getElem?_eq_getElem hj]
    · exact ⟨.outOfBounds, if_pos (by omega)⟩

/-- In a section of eight blocks the bits of index eight cannot be read off. -/
theorem not_transposes_eight :
    (new 8).bind (fun b => (b.addAll (.replicate 8 fun _ => 0)).toOption.bind (·.bitset 8)) =
      some (.error .outOfBounds) := by
  rfl

end Generator

end GoAoa.Core.Bloombits
