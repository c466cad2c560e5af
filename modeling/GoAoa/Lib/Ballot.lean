import Mathlib.Algebra.Ring.Int.Defs
import Mathlib.Data.List.Nodup

/-!
# Lists of choices

A list of choices without duplicates is changed by adding a choice that is not in it and by
removing one that is. Its length changes by the additions less the removals.
-/

namespace GoAoa.Ballot

open List

/-- One change of a list of choices. -/
inductive Mark (α : Type) where
  | add (x : α)
  | remove (x : α)
  deriving DecidableEq, Repr

variable {α : Type} {ms : List (Mark α)}

def total (ms : List (Mark α)) : Int :=
  (ms.map fun | .add _ => (1 : Int) | .remove _ => -1).sum

@[simp] theorem total_add (y : α) : total (.add y :: ms) = 1 + total ms := by
  simp [total]

@[simp] theorem total_remove (y : α) : total (.remove y :: ms) = -1 + total ms := by
  simp [total]

variable [DecidableEq α] {allowed : α → Prop} [DecidablePred allowed] {l l' : List α} {x : α}

/-- Carry out the changes in order; `none` if one of them is not possible. -/
def cast (allowed : α → Prop) [DecidablePred allowed] : List (Mark α) → List α → Option (List α)
  | [], l => some l
  | .add x :: ms, l =>
    if x ∈ l then none else if allowed x then cast allowed ms (l ++ [x]) else none
  | .remove x :: ms, l => if x ∈ l then cast allowed ms (l.erase x) else none

/-- A cast that goes through begins with a change that is possible. -/
theorem cast_cons {m : Mark α} (h : cast allowed (m :: ms) l = some l') :
    (∃ y, m = .add y ∧ y ∉ l ∧ allowed y ∧ cast allowed ms (l ++ [y]) = some l') ∨
      ∃ y, m = .remove y ∧ y ∈ l ∧ cast allowed ms (l.erase y) = some l' := by
  cases m with
  | add y =>
    unfold cast at h
    split at h
    · cases h
    · split at h
      · exact .inl ⟨y, rfl, ‹_›, ‹_›, h⟩
      · cases h
  | remove y =>
    unfold cast at h
    split at h
    · exact .inr ⟨y, rfl, ‹_›, h⟩
    · cases h

omit [DecidableEq α] in
theorem nodup_add {y : α} (hl : l.Nodup) (hy : y ∉ l) : (l ++ [y]).Nodup := by
  rw [← concat_eq_append]
  exact hl.concat hy

theorem nodup_cast (h : cast allowed ms l = some l') (hl : l.Nodup) : l'.Nodup := by
  induction ms generalizing l with
  | nil => cases h; exact hl
  | cons m ms ih =>
    rcases cast_cons h with ⟨y, -, hy, -, h⟩ | ⟨y, -, -, h⟩
    · exact ih h (nodup_add hl hy)
    · exact ih h (hl.erase y)

theorem length_cast (h : cast allowed ms l = some l') : (l'.length : Int) = l.length + total ms := by
  induction ms generalizing l with
  | nil => cases h; simp [total]
  | cons m ms ih =>
    rcases cast_cons h with ⟨y, rfl, -, -, h⟩ | ⟨y, rfl, hy, h⟩
    · rw [ih h, total_add, length_append, length_singleton]
      omega
    · have hpos := length_pos_of_mem hy
      rw [ih h, total_remove, length_erase_of_mem hy]
      omega

end GoAoa.Ballot
