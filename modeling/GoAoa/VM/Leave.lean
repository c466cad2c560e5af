import GoAoa.VM.Interface
import GoAoa.State.Pointwise
import GoAoa.Lib.Undo

/-!
# Scopes that are left

`RevertToSnapshot` panics if it restores an account that is not there, or takes back a log that is
not there. In a scope neither happens: whatever program has run since the snapshot, the entries of
the journal find what they need (`exists_within`).
-/

namespace GoAoa.VM

open Option Function State State.StateDB Semantics

variable {ep : Bool} {g : Growth} {s s' t t' u : StateDB} {a : Address} {o : StateObject}
  {e : Change}

/-- The accounts and the logs of the first database are in the second, over one trie. -/
structure Sustains (s t : StateDB) : Prop where
  trie : t.trie = s.trie
  present : ∀ a, (s.getStateObject a).isSome → (t.getStateObject a).isSome
  logs : ∀ h, (s.logs h).length ≤ (t.logs h).length

/-- The second database is the first with an object stored at `a`. -/
def Puts (a : Address) (s t : StateDB) : Prop :=
  t.trie = s.trie ∧ t.logs = s.logs ∧ ∃ o, t.stateObjects = update s.stateObjects a (some (.live o))

theorem Puts.present (h : Puts a s t) (b : Address) :
    (t.getStateObject b).isSome = (b = a ∨ (s.getStateObject b).isSome) := by
  obtain ⟨htrie, -, o, hobj⟩ := h
  unfold getStateObject
  rw [hobj, htrie]
  by_cases hb : b = a
  · subst hb; simp
  · simp [hb]

namespace Sustains

theorem refl (s : StateDB) : Sustains s s := ⟨rfl, fun _ h => h, fun _ => Nat.le_refl _⟩

theorem trans (h : Sustains s t) (h' : Sustains t u) : Sustains s u :=
  ⟨h'.trie.trans h.trie, fun a ha => h'.present a (h.present a ha),
    fun x => Nat.le_trans (h.logs x) (h'.logs x)⟩

theorem puts (h : Sustains s t) (hs : Puts a s s') (ht : Puts a t t') : Sustains s' t' := by
  refine ⟨by rw [ht.1, hs.1, h.trie], fun b hb => ?_, by rw [ht.2.1, hs.2.1]; exact h.logs⟩
  rw [hs.present] at hb
  rw [ht.present]
  exact hb.imp_right (h.present b)

theorem put (h : Sustains s t) (ht : Puts a t t') : Sustains s t' := by
  refine ⟨ht.1.trans h.trie, fun b hb => ?_, by rw [ht.2.1]; exact h.logs⟩
  rw [ht.present]
  exact .inr (h.present b hb)

theorem get (h : Sustains s t) (ho : s.getStateObject a = some o) :
    ∃ o', t.getStateObject a = some o' :=
  isSome_iff_exists.1 (h.present a (by rw [ho]; rfl))

theorem restore (h : Sustains s t) {f : StateObject → StateObject} (hs : s.restore a f = some s') :
    ∃ t', t.restore a f = some t' ∧ Sustains s' t' := by
  obtain ⟨o, ho, rfl⟩ := map_eq_some_iff.1 hs
  obtain ⟨o', ho'⟩ := h.get ho
  exact ⟨t.write a (f o'), by rw [StateDB.restore, ho']; rfl,
    h.puts ⟨rfl, rfl, _, rfl⟩ ⟨rfl, rfl, _, rfl⟩⟩

theorem undo (h : Sustains s t) (hs : s.undo e = some s') :
    ∃ t', t.undo e = some t' ∧ Sustains s' t' := by
  cases e with
  | createObject a =>
    cases hs
    refine ⟨_, rfl, h.trie, fun b hb => ?_, h.logs⟩
    unfold getStateObject at hb ⊢
    dsimp only at hb ⊢
    by_cases hba : b = a
    · subst hba
      rw [update_self] at hb ⊢
      rwa [h.trie]
    · rw [update_of_ne hba] at hb ⊢
      exact h.present b hb
  | resetObject => cases hs; exact ⟨_, rfl, h.puts ⟨rfl, rfl, _, rfl⟩ ⟨rfl, rfl, _, rfl⟩⟩
  | suicide a =>
    simp only [StateDB.undo] at hs ⊢
    cases ho : s.getStateObject a with
    | none =>
      rw [ho] at hs
      cases hs
      split
      · exact ⟨_, rfl, h⟩
      · exact ⟨_, rfl, h.put ⟨rfl, rfl, _, rfl⟩⟩
    | some =>
      obtain ⟨o', ho'⟩ := h.get ho
      rw [ho] at hs
      cases hs
      rw [ho']
      exact ⟨_, rfl, h.puts ⟨rfl, rfl, _, rfl⟩ ⟨rfl, rfl, _, rfl⟩⟩
  | field | assetBalance => exact h.restore hs
  | refund => cases hs; exact ⟨_, rfl, h.trie, h.present, h.logs⟩
  | addLog x =>
    simp only [StateDB.undo] at hs ⊢
    split at hs
    · cases hs
    rename_i hne
    cases hs
    have hlen := Nat.lt_of_lt_of_le (List.length_pos_iff.2 hne) (h.logs x)
    rw [if_neg (List.ne_nil_of_length_pos hlen)]
    refine ⟨_, rfl, h.trie, h.present, fun y => ?_⟩
    dsimp only
    by_cases hy : y = x
    · subst hy
      rw [update_self, update_self, List.length_dropLast, List.length_dropLast]
      exact Nat.sub_le_sub_right (h.logs y) 1
    · rw [update_of_ne hy, update_of_ne hy]
      exact h.logs y
  | touch a =>
    simp only [StateDB.undo] at hs ⊢
    split at hs
    · rename_i hc
      obtain ⟨o, ho, rfl⟩ := map_eq_some_iff.1 hs
      obtain ⟨o', ho'⟩ := h.get ho
      rw [if_pos hc, ho']
      refine ⟨_, rfl, h.puts (a := a) ?_ ?_⟩
      · split <;> exact ⟨rfl, rfl, _, rfl⟩
      · dsimp only; split <;> exact ⟨rfl, rfl, _, rfl⟩
    · rename_i hc
      cases hs
      rw [if_neg hc]
      exact ⟨t, rfl, h⟩

end Sustains

theorem sustaining (ep : Bool) : Undoing (undoUnlessAsset ep) Sustains fun _ => True where
  refl := .refl
  trans := .trans
  mono {s s' t e} _ h hs := by
    unfold undoUnlessAsset at hs ⊢
    split at hs
    · cases hs; exact ⟨t, rfl, h⟩
    · exact h.undo hs

/-- The journal has grown by entries that can be undone. -/
def Retractable (ep : Bool) (s t : StateDB) : Prop :=
  Undone journal (undoUnlessAsset ep) Sustains (fun _ => True) s t

namespace Retractable

theorem refl (s : StateDB) : Retractable ep s s := (sustaining ep).undone_refl s

theorem trans (h : Retractable ep s t) (h' : Retractable ep t u) : Retractable ep s u :=
  (sustaining ep).undone_trans h h'

theorem put (hj : t.journal = s.journal) (h : Puts a s t) : Retractable ep s t :=
  ⟨[], hj ▸ .refl _, .nil ((Sustains.refl s).put h)⟩

theorem single (hj : t.journal = s.journal.append e) (hskip : Sustains s t)
    (hu : ∃ s', t.undo e = some s' ∧ Sustains s s') : Retractable ep s t := by
  obtain ⟨s', hu, h⟩ := hu
  refine ⟨[e], hj ▸ .append _ _, ?_⟩
  unfold undoUnlessAsset
  cases ep with
  | true => exact .single trivial hu h
  | false =>
    cases e with
    | assetBalance => exact .single trivial rfl hskip
    | _ => exact .single trivial hu h

theorem create : Retractable ep s ((s.record (s.createEntry a)).write a o) := by
  have hput : Sustains s ((s.record (s.createEntry a)).write a o) :=
    (Sustains.refl s).put ⟨rfl, rfl, _, rfl⟩
  refine .single rfl hput ?_
  unfold createEntry at hput ⊢
  cases ho : s.getStateObject a with
  | some =>
    rw [ho] at hput
    exact ⟨_, rfl, hput.put ⟨rfl, rfl, _, rfl⟩⟩
  | none =>
    refine ⟨_, rfl, rfl, fun b hb => ?_, fun _ => Nat.le_refl _⟩
    have hba : b ≠ a := by
      rintro rfl
      rw [ho] at hb
      cases hb
    unfold getStateObject at hb ⊢
    dsimp only [write, setStateObject, record]
    rw [update_of_ne hba, update_of_ne hba]
    exact hb

theorem write {w : Write} : Retractable ep s ((s.record (w.entry a o)).write a (w.apply o)) := by
  have hput : Sustains s ((s.record (w.entry a o)).write a (w.apply o)) :=
    (Sustains.refl s).put ⟨rfl, rfl, _, rfl⟩
  have hget : ((s.record (w.entry a o)).write a (w.apply o)).getStateObject a =
      some { w.apply o with onDirty := false } := by rw [getStateObject_write, if_pos rfl]
  refine .single rfl hput ?_
  cases w with
  | field | addAsset | subAsset | suicide =>
    simp only [Write.entry, StateDB.undo, StateDB.restore] at hget ⊢
    rw [hget]
    exact ⟨_, rfl, hput.put ⟨rfl, rfl, _, rfl⟩⟩
  | touch =>
    simp only [Write.entry, StateDB.undo] at hget ⊢
    split
    · rw [hget]
      refine ⟨_, rfl, hput.put (a := a) ?_⟩
      dsimp only
      split <;> exact ⟨rfl, rfl, _, rfl⟩
    · exact ⟨_, rfl, hput⟩

theorem edit {f : Writer} (h : Retractable ep s t) : Retractable ep s (t.edit a f) :=
  edit_rule t a h (fun _ => h.trans create) fun _ _ _ _ _ _ ht => ht.trans write

theorem exec {o : Op} {x : Ans o} (hx : exec g o s = some (x, t)) : Retractable ep s t := by
  cases executed hx with
  | idle => exact .refl s
  | refund =>
    exact .single rfl ⟨rfl, fun _ h => h, fun _ => Nat.le_refl _⟩
      ⟨_, rfl, rfl, fun _ h => h, fun _ => Nat.le_refl _⟩
  | log =>
    refine .single rfl ⟨rfl, fun _ h => h, fun h => ?_⟩
      ⟨_, if_neg (by simp [addLog]), rfl, fun _ h => h, fun h => ?_⟩
    all_goals
      by_cases hh : h = s.thash
      · subst hh; simp [addLog]
      · simp [addLog, hh]
  | account | object => exact create
  | edit => exact (refl s).edit
  | describe => exact put rfl ⟨rfl, rfl, _, rfl⟩
  | vote run =>
    refine vote_rule run (fun _ e _ _ _ => ?_) fun _ _ ht _ => ht.edit
    unfold setVoteCells
    split
    · exact refl s
    · exact put rfl ⟨rfl, rfl, _, rfl⟩

theorem revert (h : Retractable ep s.snapshot.2 t) :
    ∃ u, t.revertToSnapshot ep s.snapshot.1 = some u ∧ Retractable ep s u := by
  obtain ⟨es, hx, hes⟩ := h
  obtain ⟨j, hj, hext⟩ := hx.rollback
  obtain ⟨u, hu, hs⟩ := hes.undone
  have hj : t.journal.rollback s.snapshot.1 = some (es, j) := hj
  refine ⟨{ u with journal := j }, ?_, [], hext, .nil ⟨hs.trie, hs.present, hs.logs⟩⟩
  rw [revertToSnapshot, hj]
  dsimp only
  rw [hu]
  rfl

theorem keeps (g : Growth) (ep : Bool) :
    (semantics g ep).Keeps (fun _ _ => True) (fun _ => True) (Retractable ep) where
  refl := refl
  trans := trans
  exec _ _ hx := ⟨trivial, exec hx⟩
  snapshot _ := ⟨trivial, [], .snapshot _, .nil ⟨rfl, fun _ h => h, fun _ => Nat.le_refl _⟩⟩
  revert _ _ h hr := by
    obtain ⟨u, hu, hundo⟩ := h.revert
    cases hu.symm.trans hr
    exact ⟨trivial, hundo⟩

end Retractable

/-- **A scope is always left**, whatever has run in it. -/
theorem exists_within {α : Type} {body : M (Bool × α)} {undo : Bool} {x : α}
    (h : (semantics g ep).run body s.snapshot.2 = some ((undo, x), t)) :
    ∃ u, (semantics g ep).run (.within body) s = some (x, u) := by
  have hundo := ((Retractable.keeps g ep).steps ((does_all body _).steps h) trivial).2
  obtain ⟨u, hu, -⟩ := hundo.revert
  have hleave : ∃ u, (semantics g ep).leave s.snapshot.1 undo t = some u := by
    cases undo with
    | false => exact ⟨t, rfl⟩
    | true => exact ⟨u, hu⟩
  obtain ⟨u, hu⟩ := hleave
  refine ⟨u, (run_within body).trans (bind_eq_some_iff.2 ⟨_, h, ?_⟩)⟩
  exact map_eq_some_iff.2 ⟨u, hu, rfl⟩

end GoAoa.VM
