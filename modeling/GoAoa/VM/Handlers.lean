import GoAoa.VM.Effects
import GoAoa.VM.MemoryFee

/-!
# Instructions keep to their stack and memory

The jump table declares for each opcode how many items it takes and pushes, and which part of the
memory it needs. `charge` checks the stack, finds the size of the memory and has it paid for, and
after that the body of the instruction relies on it. `Handles` says that the body gets by with what
is declared, whatever the state answers. An operand that is a position, where a part of the memory
that is not empty begins or how long it is, must not be negative (`Placed`): the size is taken from
the absolute value of a sum, but the body converts the operands one by one.
-/

namespace GoAoa.VM

open List Option State Prog Word

/-! ## Parts of the memory -/

/-- The range is empty, or lies in the memory. -/
structure Covers (memory : Memory) (off l : Int) : Prop where
  length : 0 ≤ l
  inside : l ≠ 0 → 0 ≤ off ∧ off + l ≤ memory.store.length ∧ off + l ≤ 0xffffffffe0

variable {memory : Memory} {off l : Int}

section

variable (h : Covers memory off l)
include h

theorem Covers.asInt64 (hl : l ≠ 0) : int64 off = off ∧ int64 l = l := by
  obtain ⟨hlen, hin⟩ := h
  have hin := hin hl
  unfold int64 i64
  rw [Int.bmod_def, Int.bmod_def]
  constructor <;> split <;> omega

theorem Covers.asUint64 (hl : l ≠ 0) : (uint64 off : Int) = off ∧ (uint64 l : Int) = l := by
  obtain ⟨hlen, hin⟩ := h
  have hin := hin hl
  unfold uint64
  omega

theorem Covers.get : ∃ b, memory.get (int64 off) (int64 l) = some b := by
  unfold Memory.get
  by_cases hl : l = 0
  · have hzero : int64 l = 0 := by rw [hl]; decide +kernel
    rw [if_pos hzero]
    exact ⟨_, rfl⟩
  · obtain ⟨hoff, hlen⟩ := h.asInt64 hl
    rw [hoff, hlen, if_neg hl]
    split
    · exact ⟨_, rfl⟩
    · rw [if_neg]
      · exact ⟨_, rfl⟩
      · have := h.length; have := h.inside hl
        omega

theorem Covers.set (v : Bytes) :
    ∃ memory', memory.set (uint64 off) (uint64 l) v = some memory' := by
  unfold Memory.set
  by_cases hl : l = 0
  · have hzero : uint64 l = 0 := by rw [hl]; rfl
    rw [hzero, if_neg (Nat.not_lt_zero _), if_pos rfl]
    exact ⟨_, rfl⟩
  · obtain ⟨hoff, hlen⟩ := h.asUint64 hl
    have := h.length; have := h.inside hl
    rw [if_neg (by omega), if_neg (by omega), if_neg (by omega)]
    exact ⟨_, rfl⟩

end

/-- The length of a part: an operand, or one that is fixed and not zero. -/
def partLength (m : Machine) : Option Nat → Int
  | some j => m.back j
  | none => 1

/-- Where a part that is not empty begins and how long it is, is not negative. A part is the places
of its offset and its length on the stack. -/
def Placed (parts : List (Nat × Option Nat)) (m : Machine) : Prop :=
  ∀ p ∈ parts, partLength m p.2 ≠ 0 → 0 ≤ m.back p.1 ∧ 0 ≤ partLength m p.2

/-- The positions are right, and the memory has the size that is asked for. -/
structure Ready (parts : List (Nat × Option Nat)) (memorySize : Option (Machine → Int))
    (m : Machine) : Prop where
  placed : Placed parts m
  sized : ∀ size, memorySize = some size →
    (size m).natAbs ≤ m.memory.store.length ∧ (size m).natAbs ≤ 0xffffffffe0

section Ready

variable {parts : List (Nat × Option Nat)} {i j : Nat} {m : Machine}
  {size : Option (Machine → Int)}

theorem Ready.back (h : Ready parts size m) (hi : (i, none) ∈ parts) : 0 ≤ m.back i :=
  (h.placed _ hi Int.one_ne_zero).1

theorem Placed.length (h : Placed parts m) (hi : (i, some j) ∈ parts) : 0 ≤ m.back j := by
  by_cases hl : m.back j = 0
  · rw [hl]
  · exact (h _ hi hl).2

theorem Ready.range (h : Ready parts (memoryRange i j) m) (hi : (i, some j) ∈ parts) :
    Covers m.memory (m.back i) (m.back j) := by
  refine ⟨h.placed.length hi, fun hl => ?_⟩
  have hplaced : 0 ≤ m.back i ∧ 0 ≤ m.back j := h.placed _ hi hl
  have hsize := h.sized _ rfl
  unfold calcMemSize at hsize
  omega

theorem Ready.bytes (h : Ready parts (memoryBytes i l) m) (hi : (i, none) ∈ parts) (hl : 0 < l) :
    Covers m.memory (m.back i) l := by
  have hoff := h.back hi
  refine ⟨Int.le_of_lt hl, fun hne => ?_⟩
  have hsize := h.sized _ rfl
  unfold calcMemSize at hsize
  omega

theorem Ready.calls (h : Ready parts (memoryCalls i j) m) (hi : (i, some (i + 1)) ∈ parts)
    (hj : (j, some (j + 1)) ∈ parts) :
    Covers m.memory (m.back i) (m.back (i + 1)) ∧ Covers m.memory (m.back j) (m.back (j + 1)) := by
  have h1 := h.placed.length hi
  have h2 := h.placed.length hj
  have hsize := h.sized _ rfl
  unfold calcMemSize at hsize
  refine ⟨⟨h1, fun hl => ?_⟩, ⟨h2, fun hl => ?_⟩⟩
  · have hplaced : 0 ≤ m.back i ∧ 0 ≤ m.back (i + 1) := h.placed _ hi hl
    rw [if_neg hl] at hsize
    split at hsize <;> omega
  · have hplaced : 0 ≤ m.back j ∧ 0 ≤ m.back (j + 1) := h.placed _ hj hl
    rw [if_neg hl] at hsize
    split at hsize <;> omega

end Ready

/-! ## Instructions that stay in the frame -/

section

variable {x : ExecutionFunc} {pops pushes n : Nat} {Pre : Machine → Prop}

variable {Q : Result → Prop}

end

/-! ## The jump table -/

section Bounds

variable {m m' : Machine} {size fee : Nat}

theorem back_congr (h : m.stack = m'.stack) (i : Nat) : m.back i = m'.back i := by
  unfold Machine.back
  rw [h]

theorem Placed.congr {parts : List (Nat × Option Nat)} (hp : Placed parts m)
    (h : m'.stack = m.stack) : Placed parts m' := by
  intro p
  have hlength : partLength m' p.2 = partLength m p.2 := by
    cases p.2 with
    | none => rfl
    | some => exact back_congr h _
  rw [back_congr h, hlength]
  exact hp p

end Bounds

/-! ## Rounds -/

section Rounds

variable {c : Context} {f : Frame} {m : Machine} {op : UInt8} {o : Operation}

/-- The context with a list of delegates in place: its own, or `d` if it has none. -/
def Context.listed (c : Context) (d : AList fun _ : Address => Nat) : Context :=
  { c with delegateList := some (c.delegateList.getD d) }

end Rounds

end GoAoa.VM
