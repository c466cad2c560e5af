import Mathlib.Data.List.Basic

/-!
# Slices and their backing arrays

A slice shows the first `len` cells of an array that other slices may show too. Deleting an
element shifts the cells of the array, so a slice with the same array sees the shift. Appending
writes the cell after the last one if the array has it, and otherwise moves to a new array.

`Edit` is a slice under change next to the slice it started from.
-/

namespace GoAoa

open List

/-- How the runtime sizes a new array for a slice that outgrew its old one. -/
structure Growth where
  size : Nat → Nat
  lt_size : ∀ n, n < size n

def doubling : Growth := ⟨fun n => 2 * n + 1, fun n => by omega⟩

structure Slice (α : Type) where
  arr : List α
  len : Nat
  le : len ≤ arr.length
  deriving DecidableEq, Repr

variable {α : Type}

namespace Slice

def view (s : Slice α) : List α := s.arr.take s.len

@[simp] theorem length_view (s : Slice α) : s.view.length = s.len := by
  simp [view, s.le]

def ofList (l : List α) (zero : α) (n : Nat) : Slice α where
  arr := l ++ List.replicate n zero
  len := l.length
  le := by simp

@[simp] theorem view_ofList (l : List α) (zero : α) (n : Nat) : (ofList l zero n).view = l := by
  simp [view, ofList]

/-- `append(s[:j], s[j+1:]...)`: the last cell shown keeps its content. -/
def removeAt (s : Slice α) (j : Nat) (h : j < s.len) : Slice α where
  arr := s.arr.take j ++ (s.arr.take s.len).drop (j + 1) ++ s.arr.drop (s.len - 1)
  len := s.len - 1
  le := by have := s.le; simp; omega

theorem length_removeAt (s : Slice α) (j : Nat) (h : j < s.len) :
    (s.removeAt j h).arr.length = s.arr.length := by
  have := s.le
  simp [removeAt]; omega

theorem view_removeAt (s : Slice α) (j : Nat) (h : j < s.len) :
    (s.removeAt j h).view = s.view.eraseIdx j := by
  have := s.le
  have hj : (s.arr.take s.len).take j = s.arr.take j := by rw [take_take]; congr 1; omega
  rw [eraseIdx_eq_take_drop_succ, view, view, removeAt, hj]
  exact take_left' (by simp; omega)

/-- The cell after the last one shown is written. -/
def pushInPlace (s : Slice α) (x : α) (h : s.len < s.arr.length) : Slice α where
  arr := s.arr.set s.len x
  len := s.len + 1
  le := by rw [List.length_set]; exact h

theorem view_pushInPlace (s : Slice α) (x : α) (h : s.len < s.arr.length) :
    (s.pushInPlace x h).view = s.view ++ [x] := by
  simp [view, pushInPlace, take_add_one, h, take_set_of_le]

def pushNew (g : Growth) (s : Slice α) (x zero : α) : Slice α :=
  ofList (s.view ++ [x]) zero (g.size s.len - (s.len + 1))

/-- Every array with the cells of `s.arr` after what `s` shows. -/
theorem getElem?_arr (s : Slice α) {arr : List α} (h : s.arr.drop s.len = arr.drop s.len) (i : Nat) :
    s.arr[i]? = s.view[i]?.or arr[i]? := by
  by_cases hi : i < s.len
  · rw [view, getElem?_take_of_lt hi, getElem?_eq_getElem (Nat.lt_of_lt_of_le hi s.le)]
    rfl
  · have hcell : ∀ l : List α, l[i]? = (l.drop s.len)[i - s.len]? := fun l => by
      rw [getElem?_drop]; congr 1; omega
    rw [getElem?_eq_none (l := s.view) (by rw [length_view]; omega), Option.none_or, hcell, h,
      ← hcell]

theorem drop_removeAt (s : Slice α) (j : Nat) (h : j < s.len) :
    (s.removeAt j h).arr.drop (s.len - 1) = s.arr.drop (s.len - 1) := by
  have := s.le
  exact drop_left' (by simp; omega)

theorem drop_pushInPlace (s : Slice α) (x : α) (h : s.len < s.arr.length) :
    (s.pushInPlace x h).arr.drop (s.len + 1) = s.arr.drop (s.len + 1) :=
  drop_set_of_lt (Nat.lt_succ_self s.len)

end Slice

/-- `cur` started as `prev`; while `shared` holds they still have one array. -/
structure Edit (α : Type) where
  cur : Slice α
  prev : Slice α
  shared : Bool
  arr_eq : shared = true → prev.arr = cur.arr

namespace Edit

def start (s : Slice α) : Edit α := ⟨s, s, true, fun _ => rfl⟩

def update (e : Edit α) (s : Slice α) (h : s.arr.length = e.cur.arr.length) : Edit α where
  cur := s
  prev :=
    if hs : e.shared = true then
      ⟨s.arr, e.prev.len, by rw [h, ← e.arr_eq hs]; exact e.prev.le⟩
    else e.prev
  shared := e.shared
  arr_eq hs := by simp [hs]

/-- Delete the first `x` that `cur` shows. -/
def remove [DecidableEq α] (e : Edit α) (x : α) : Edit α :=
  if h : e.cur.view.idxOf x < e.cur.len then
    e.update (e.cur.removeAt _ h) (e.cur.length_removeAt _ h)
  else e

def push (g : Growth) (zero : α) (e : Edit α) (x : α) : Edit α :=
  if h : e.cur.len < e.cur.arr.length then
    e.update (e.cur.pushInPlace x h) (by simp [Slice.pushInPlace])
  else ⟨e.cur.pushNew g x zero, e.prev, false, nofun⟩

theorem view_cur_remove [DecidableEq α] (e : Edit α) (x : α) :
    (e.remove x).cur.view = e.cur.view.erase x := by
  unfold remove
  split
  · rename_i h
    rw [update, Slice.view_removeAt, erase_eq_eraseIdx_of_idxOf rfl]
  · rename_i h
    rw [← Slice.length_view, idxOf_lt_length_iff] at h
    rw [erase_of_not_mem h]

theorem view_cur_push (g : Growth) (zero : α) (e : Edit α) (x : α) :
    (e.push g zero x).cur.view = e.cur.view ++ [x] := by
  unfold push
  split
  · rw [update, Slice.view_pushInPlace]
  · exact Slice.view_ofList _ _ _

theorem len_prev_update (e : Edit α) (s : Slice α) (h : s.arr.length = e.cur.arr.length) :
    (e.update s h).prev.len = e.prev.len := by
  unfold update
  split <;> rfl

/-- Whatever is done to the array, `prev` shows as many cells as before. -/
theorem len_prev_remove [DecidableEq α] (e : Edit α) (x : α) :
    (e.remove x).prev.len = e.prev.len := by
  unfold remove
  split
  · exact len_prev_update _ _ _
  · rfl

theorem len_prev_push (g : Growth) (zero : α) (e : Edit α) (x : α) :
    (e.push g zero x).prev.len = e.prev.len := by
  unfold push
  split
  · exact len_prev_update _ _ _
  · rfl

theorem prev_push (g : Growth) (zero : α) (e : Edit α) (x : α) (h : e.prev.len ≤ e.cur.len) :
    (e.push g zero x).prev.view = e.prev.view ∧
      (e.push g zero x).prev.len ≤ (e.push g zero x).cur.len := by
  unfold push
  split
  · unfold update
    split
    · rename_i hs
      refine ⟨?_, Nat.le_succ_of_le h⟩
      show (e.cur.arr.set e.cur.len x).take e.prev.len = e.prev.arr.take e.prev.len
      rw [e.arr_eq hs, take_set_of_le h]
    · exact ⟨rfl, Nat.le_succ_of_le h⟩
  · refine ⟨rfl, ?_⟩
    simp only [Slice.pushNew, Slice.ofList, length_append, Slice.length_view]
    omega

theorem cells_remove [DecidableEq α] (e : Edit α) (x : α) (i : Nat) :
    (e.remove x).cur.arr[i]? = (e.remove x).cur.view[i]?.or e.cur.arr[i]? := by
  unfold remove
  split
  · rename_i h
    exact Slice.getElem?_arr _ (Slice.drop_removeAt _ _ h) i
  · exact Slice.getElem?_arr _ rfl i

theorem cells_push (g : Growth) (zero : α) (e : Edit α) (x : α)
    (h : e.cur.len < e.cur.arr.length) (i : Nat) :
    (e.push g zero x).cur.arr[i]? = (e.push g zero x).cur.view[i]?.or e.cur.arr[i]? := by
  unfold push
  rw [dif_pos h]
  exact Slice.getElem?_arr _ (Slice.drop_pushInPlace _ _ h) i

theorem shared_remove [DecidableEq α] (e : Edit α) (x : α) : (e.remove x).shared = e.shared := by
  unfold remove
  split <;> rfl

theorem length_arr_remove [DecidableEq α] (e : Edit α) (x : α) :
    (e.remove x).cur.arr.length = e.cur.arr.length := by
  unfold remove
  split
  · rename_i h
    exact Slice.length_removeAt _ _ h
  · rfl

theorem shared_push (g : Growth) (zero : α) (e : Edit α) (x : α)
    (h : e.cur.len < e.cur.arr.length) : (e.push g zero x).shared = e.shared := by
  unfold push
  rw [dif_pos h]
  rfl

theorem length_arr_push (g : Growth) (zero : α) (e : Edit α) (x : α)
    (h : e.cur.len < e.cur.arr.length) :
    (e.push g zero x).cur.arr.length = e.cur.arr.length := by
  unfold push
  rw [dif_pos h]
  simp [update, Slice.pushInPlace]

theorem prev_of_not_shared [DecidableEq α] (g : Growth) (zero : α) (e : Edit α) (x : α)
    (h : e.shared = false) :
    ((e.remove x).prev = e.prev ∧ (e.remove x).shared = false) ∧
      (e.push g zero x).prev = e.prev ∧ (e.push g zero x).shared = false := by
  unfold remove push update
  constructor <;> split <;> simp [h]

end Edit

end GoAoa
