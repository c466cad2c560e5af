import Mathlib.Data.List.Basic

/-!
# Undo journals with nested snapshots

A journal holds the changes made so far, the newest first, and the revisions that can still be
reverted to. A revision is an identifier and the number of changes below it. Identifiers are
never used twice, and an older revision never lies above a newer one. `Since j id es` says that
`id` can be reverted to and that `es` are the changes made since.
-/

namespace GoAoa

open List

structure Revision where
  id : Nat
  journalIndex : Nat
  deriving DecidableEq, Repr

structure Journal (ε : Type) where
  entries : List ε
  validRevisions : List Revision
  nextRevisionId : Nat
  sorted : validRevisions.Pairwise fun r s => s.id < r.id ∧ s.journalIndex ≤ r.journalIndex
  bound : ∀ r ∈ validRevisions, r.id < nextRevisionId ∧ r.journalIndex ≤ entries.length

namespace Journal

variable {ε : Type} {j j' : Journal ε} {r s : Revision} {id id' : Nat} {es : List ε}

section

variable (hr : r ∈ j.validRevisions)
include hr

variable (hs : s ∈ j.validRevisions)
include hs

theorem compare : r = s ∨ (s.id < r.id ∧ s.journalIndex ≤ r.journalIndex) ∨
      (r.id < s.id ∧ r.journalIndex ≤ s.journalIndex) := by
  have hp := j.sorted
  generalize j.validRevisions = l at hr hs hp
  induction l with
  | nil => cases hr
  | cons x l ih =>
    obtain ⟨hx, hl⟩ := pairwise_cons.1 hp
    rcases mem_cons.1 hr with rfl | hr'
    · rcases mem_cons.1 hs with rfl | hs'
      · exact .inl rfl
      · exact .inr (.inl (hx s hs'))
    · rcases mem_cons.1 hs with rfl | hs'
      · exact .inr (.inr (hx r hr'))
      · exact ih hr' hs' hl

theorem index_le (h : s.id < r.id) : s.journalIndex ≤ r.journalIndex := by
  rcases compare hr hs with rfl | h' | h' <;> omega

theorem eq_of_id (h : s.id = r.id) : s = r := by
  rcases compare hr hs with rfl | h' | h'
  · rfl
  · omega
  · omega

end

/-! ## Operations -/

def empty : Journal ε := ⟨[], [], 0, Pairwise.nil, by simp⟩

section

variable (j : Journal ε)

def append (e : ε) : Journal ε where
  entries := e :: j.entries
  validRevisions := j.validRevisions
  nextRevisionId := j.nextRevisionId
  sorted := j.sorted
  bound r hr := ⟨(j.bound r hr).1, Nat.le_succ_of_le (j.bound r hr).2⟩

/-- `Snapshot`: the identifier and the journal that remembers it. -/
def snapshot : Nat × Journal ε :=
  (j.nextRevisionId,
    { entries := j.entries
      validRevisions := ⟨j.nextRevisionId, j.entries.length⟩ :: j.validRevisions
      nextRevisionId := j.nextRevisionId + 1
      sorted := pairwise_cons.2 ⟨j.bound, j.sorted⟩
      bound := fun r hr => by
        rcases mem_cons.1 hr with rfl | hr
        · exact ⟨Nat.lt_succ_self _, Nat.le_refl _⟩
        · exact ⟨Nat.lt_succ_of_lt (j.bound r hr).1, (j.bound r hr).2⟩ })

/-- Identifiers stay used when the journal is cleared. -/
def clear : Journal ε where
  entries := []
  validRevisions := []
  nextRevisionId := j.nextRevisionId
  sorted := Pairwise.nil
  bound := by simp

/-- The journal as it was at a revision, which is spent with the newer ones. -/
def truncate (r : Revision) (hr : r ∈ j.validRevisions) : Journal ε where
  entries := j.entries.drop (j.entries.length - r.journalIndex)
  validRevisions := j.validRevisions.filter (·.id < r.id)
  nextRevisionId := j.nextRevisionId
  sorted := j.sorted.filter _
  bound s hs := by
    obtain ⟨hs, hid⟩ := mem_filter.1 hs
    have hid := of_decide_eq_true hid
    have hle := index_le hr hs hid
    have hlen := (j.bound r hr).2
    refine ⟨(j.bound s hs).1, ?_⟩
    rw [length_drop]
    omega

/-- What reverting to `id` has to undo, newest first, and the journal it leaves. `none` if `id`
cannot be reverted to. -/
def rollback (id : Nat) : Option (List ε × Journal ε) :=
  match h : j.validRevisions.find? (·.id == id) with
  | none => none
  | some r =>
    some (j.entries.take (j.entries.length - r.journalIndex), j.truncate r (mem_of_find?_eq_some h))

/-! ## What was done since a revision -/

def Since (id : Nat) (es : List ε) : Prop :=
  ∃ r ∈ j.validRevisions, r.id = id ∧ es = j.entries.take (j.entries.length - r.journalIndex)

end

theorem Since.snapshot_self (j : Journal ε) : Since j.snapshot.2 j.snapshot.1 [] :=
  ⟨⟨j.nextRevisionId, j.entries.length⟩, mem_cons_self, rfl, by simp [Journal.snapshot]⟩

theorem Since.snapshot (h : Since j id es) : Since j.snapshot.2 id es := by
  obtain ⟨r, hr, rfl, rfl⟩ := h
  exact ⟨r, mem_cons_of_mem _ hr, rfl, rfl⟩

theorem Since.append (h : Since j id es) (e : ε) : Since (j.append e) id (e :: es) := by
  obtain ⟨r, hr, rfl, rfl⟩ := h
  have := (j.bound r hr).2
  refine ⟨r, hr, rfl, ?_⟩
  simp only [Journal.append, length_cons]
  rw [show j.entries.length + 1 - r.journalIndex = (j.entries.length - r.journalIndex) + 1 by omega,
    take_succ_cons]

theorem rollback_eq_some {x : List ε × Journal ε} (h : j.rollback id = some x) :
    ∃ r, ∃ hr : r ∈ j.validRevisions, r.id = id ∧
      x = (j.entries.take (j.entries.length - r.journalIndex), j.truncate r hr) := by
  unfold rollback at h
  split at h
  · cases h
  · rename_i r hf
    refine ⟨r, mem_of_find?_eq_some hf, ?_, (Option.some.inj h).symm⟩
    have := find?_some hf
    exact eq_of_beq this

theorem rollback_entries (h : j.rollback id = some (es, j')) :
    Since j id es ∧ j.entries = es ++ j'.entries := by
  obtain ⟨r, hr, hid, heq⟩ := rollback_eq_some h
  cases heq
  exact ⟨⟨r, hr, hid, rfl⟩, (take_append_drop _ _).symm⟩

theorem Since.rollback (h : Since j id es) : ∃ j', j.rollback id = some (es, j') := by
  obtain ⟨r, hr, rfl, rfl⟩ := h
  cases hx : j.rollback r.id with
  | none =>
    unfold Journal.rollback at hx
    split at hx
    · rename_i hf
      exact absurd (beq_self_eq_true r.id) (find?_eq_none.1 hf r hr)
    · cases hx
  | some =>
    obtain ⟨s, hs, hid, rfl⟩ := rollback_eq_some hx
    obtain rfl := eq_of_id hr hs hid
    exact ⟨_, rfl⟩

theorem Since.rollback_newer (h : Since j id es) (hid : id < id') {undone : List ε}
    (hr : j.rollback id' = some (undone, j')) : ∃ rest, es = undone ++ rest ∧ Since j' id rest := by
  obtain ⟨r, hr', rfl, rfl⟩ := h
  obtain ⟨s, hs, rfl, heq⟩ := rollback_eq_some hr
  cases heq
  have hle := index_le hs hr' hid
  have hb := (j.bound s hs).2
  refine ⟨(j.entries.drop (j.entries.length - s.journalIndex)).take
    (s.journalIndex - r.journalIndex), ?_, r, ?_, rfl, ?_⟩
  · rw [← take_add]
    congr 1
    omega
  · exact mem_filter.2 ⟨hr', decide_eq_true hid⟩
  · simp only [truncate, length_drop]
    congr 1
    omega

/-! ## Journals that only grew -/

/-- `j'` came from `j` by changes `es` and by snapshots that `j` does not know. -/
structure Extends (j j' : Journal ε) (es : List ε) : Prop where
  entries : j'.entries = es ++ j.entries
  revisions : ∃ rs, j'.validRevisions = rs ++ j.validRevisions ∧ ∀ r ∈ rs, j.nextRevisionId ≤ r.id
  next : j.nextRevisionId ≤ j'.nextRevisionId

namespace Extends

variable {j'' : Journal ε} {es' : List ε}

theorem refl (j : Journal ε) : Extends j j [] := ⟨rfl, ⟨[], rfl, by simp⟩, Nat.le_refl _⟩

theorem trans (h : Extends j j' es) (h' : Extends j' j'' es') : Extends j j'' (es' ++ es) := by
  obtain ⟨rs, hrs, hid⟩ := h.revisions
  obtain ⟨rs', hrs', hid'⟩ := h'.revisions
  refine ⟨by rw [h'.entries, h.entries, append_assoc], ⟨rs' ++ rs, ?_, ?_⟩,
    Nat.le_trans h.next h'.next⟩
  · rw [hrs', hrs, append_assoc]
  · intro r hr
    rcases mem_append.1 hr with hr | hr
    · exact Nat.le_trans h.next (hid' r hr)
    · exact hid r hr

theorem append (j : Journal ε) (e : ε) : Extends j (j.append e) [e] :=
  ⟨rfl, ⟨[], rfl, by simp⟩, Nat.le_refl _⟩

theorem snapshot (j : Journal ε) : Extends j j.snapshot.2 [] := by
  refine ⟨rfl, ⟨[⟨j.nextRevisionId, j.entries.length⟩], rfl, ?_⟩, Nat.le_succ _⟩
  simp

theorem since (h : Extends j.snapshot.2 j' es) : Since j' j.snapshot.1 es := by
  obtain ⟨rs, hrs, -⟩ := h.revisions
  refine ⟨⟨j.nextRevisionId, j.entries.length⟩, ?_, rfl, ?_⟩
  · rw [hrs]
    exact mem_append_right _ mem_cons_self
  · have he : j'.entries = es ++ j.entries := h.entries
    rw [he, length_append, Nat.add_sub_cancel, take_left]

theorem rollback (h : Extends j.snapshot.2 j' es) :
    ∃ j'', j'.rollback j.snapshot.1 = some (es, j'') ∧ Extends j j'' [] := by
  obtain ⟨j'', hj⟩ := h.since.rollback
  refine ⟨j'', hj, ?_⟩
  obtain ⟨r, hr, hid, heq⟩ := rollback_eq_some hj
  obtain ⟨-, rfl⟩ := Prod.mk.inj heq
  obtain ⟨rs, hrs, hnew⟩ := h.revisions
  have he : j'.entries = es ++ j.entries := h.entries
  have hrs : j'.validRevisions = rs ++ ⟨j.nextRevisionId, j.entries.length⟩ :: j.validRevisions :=
    hrs
  have hnew : ∀ s ∈ rs, j.nextRevisionId + 1 ≤ s.id := hnew
  have hr' : r = ⟨j.nextRevisionId, j.entries.length⟩ := by
    refine eq_of_id ?_ hr hid
    rw [hrs]
    exact mem_append_right _ mem_cons_self
  subst hr'
  refine ⟨?_, ⟨[], ?_, by simp⟩, Nat.le_trans (Nat.le_succ _) h.next⟩
  · show j'.entries.drop (j'.entries.length - j.entries.length) = j.entries
    rw [he, length_append, Nat.add_sub_cancel, drop_left]
  · show j'.validRevisions.filter (fun s => s.id < j.nextRevisionId) = j.validRevisions
    have hold := filter_eq_self.2 fun s hs => decide_eq_true (j.bound s hs).1
    have hrest : rs.filter (fun s => s.id < j.nextRevisionId) = [] := by
      refine filter_eq_nil_iff.2 fun s hs => ?_
      have := hnew s hs
      simp only [decide_eq_true_eq]
      omega
    rw [hrs, filter_append, filter_cons_of_neg (by simp), hold, hrest, nil_append]

end Extends

/-- What comes later is added to what was done since a revision. -/
theorem Since.extends {es' : List ε} (h : Since j id es) (h' : Extends j j' es') :
    Since j' id (es' ++ es) := by
  obtain ⟨r, hr, rfl, rfl⟩ := h
  obtain ⟨rs, hrs, -⟩ := h'.revisions
  have hlen := (j.bound r hr).2
  refine ⟨r, ?_, rfl, ?_⟩
  · rw [hrs]
    exact mem_append_right _ hr
  · rw [h'.entries, length_append,
      show es'.length + j.entries.length - r.journalIndex =
        es'.length + (j.entries.length - r.journalIndex) by omega, take_length_add_append]

end Journal

end GoAoa
