import GoAoa.State.Pointwise

/-!
# Writing the accounts

What `Finalise` leaves in the trie and in the map of objects (`finalise_at`), and properties of
all accounts that are kept in either place. A removed account keeps its object, so those count
too.
-/

namespace GoAoa.State

open Option Function Account

/-! ## Encoding -/

theorem Account.encode_eq_some {d : Account} {s : StoredAccount} (h : d.encode = some s) :
    s.nonce = d.nonce ∧ (s.balance : Int) = d.balance ∧
      (s.lockBalance : Int) = d.lockBalance.getD 0 ∧ s.voteList = d.voteList.view ∧
      s.code = d.code := by
  unfold encode at h
  split at h
  · split at h
    · rename_i hpos
      cases h
      exact ⟨rfl, Int.toNat_of_nonneg hpos.1, Int.toNat_of_nonneg hpos.2, rfl, rfl⟩
    · cases h
  · cases h

/-- What reading back a written account gives of it. -/
theorem Account.decode_encode {d : Account} {s : StoredAccount} (h : d.encode = some s) :
    s.decode.nonce = d.nonce ∧ s.decode.lockBalance.getD 0 = d.lockBalance.getD 0 ∧
      s.decode.voteList.view = d.voteList.view ∧ s.decode.code = d.code := by
  obtain ⟨hn, -, hl, hv, hc⟩ := encode_eq_some h
  refine ⟨hn, hl, ?_, hc⟩
  rw [← hv]
  exact Slice.view_ofList _ _ _

namespace StateDB

variable {db db' : StateDB} {b : Bool} {a : Address} {slot slot' : Slot}
  {t : Option StoredAccount}

/-! ## `Finalise`, address by address -/

theorem finaliseSlot_cases (h : finaliseSlot b slot = some (t, slot')) :
    (removes b (Slot.obj slot) = true ∧ t = none ∧ slot' = .deleted (Slot.obj slot)) ∨
      (removes b (Slot.obj slot) = false ∧ slot' = slot ∧
        ∃ s, (Slot.obj slot).data.encode = some s ∧ t = some s) := by
  unfold finaliseSlot at h
  split at h
  · cases h
    exact .inl ⟨‹_›, rfl, rfl⟩
  · rename_i hr
    obtain ⟨s, hs, heq⟩ := map_eq_some_iff.1 h
    cases heq
    exact .inr ⟨Bool.not_eq_true _ ▸ hr, rfl, s, hs, rfl⟩

section

variable (h : db.finalise b = some db')
include h

theorem finalise_at (a : Address) :
    (a ∈ db.stateObjectsDirty ∧ ∃ slot slot', db.stateObjects a = some slot ∧
      db'.stateObjects a = some slot' ∧ finaliseSlot b slot = some (db'.trie a, slot')) ∨
    (a ∉ db.stateObjectsDirty ∧ db'.stateObjects a = db.stateObjects a ∧
      db'.trie a = db.trie a) := by
  unfold finalise at h
  split at h
  · rename_i hall
    cases h
    by_cases ha : a ∈ db.stateObjectsDirty
    · refine .inl ⟨ha, ?_⟩
      obtain ⟨x, hx⟩ := isSome_iff_exists.1 (List.all_eq_true.1 hall a ha)
      obtain ⟨slot, hslot, hfin⟩ := bind_eq_some_iff.1 hx
      refine ⟨slot, x.2, hslot, ?_, ?_⟩
      · simp [clearJournalAndRefund, ha, hx]
      · simp [clearJournalAndRefund, ha, hx, hfin]
    · exact .inr ⟨ha, by simp [clearJournalAndRefund, ha], by simp [clearJournalAndRefund, ha]⟩
  · cases h

theorem shown_finalise (a : Address) : db'.shown a = db.shown a ∨
      db'.shown a = none ∧ ∃ o, db.getStateObject a = some o ∧ removes b o = true := by
  rcases finalise_at h a with ⟨-, slot, slot', hslot, hslot', hfin⟩ | ⟨-, hobj, htrie⟩
  · rcases finaliseSlot_cases hfin with ⟨hrem, -, rfl⟩ | ⟨-, rfl, -⟩
    · cases slot with
      | live o => exact .inr ⟨shown_deleted hslot', o, get_live hslot, hrem⟩
      | deleted => exact .inl ((shown_deleted hslot').trans (shown_deleted hslot).symm)
    · cases slot' with
      | live => rw [shown, get_live hslot', shown, get_live hslot]; exact .inl rfl
      | deleted => exact .inl ((shown_deleted hslot').trans (shown_deleted hslot).symm)
  · exact .inl (shown_congr hobj htrie)

theorem finalise_rest : db'.stateObjectsDirty = db.stateObjectsDirty ∧ db'.logs = db.logs ∧
      db'.logSize = db.logSize ∧ db'.journal = db.journal.clear ∧ db'.refund = 0 := by
  unfold finalise at h
  split at h
  · cases h
    exact ⟨rfl, rfl, rfl, rfl, rfl⟩
  · cases h

end

/-! ## Properties of all accounts -/

/-- Every account in memory and in the trie has `R`. -/
structure Everywhere (R : Address → Account → Prop) (db : StateDB) : Prop where
  objects : ∀ {a slot}, db.stateObjects a = some slot → R a (Slot.obj slot).data
  stored : ∀ {a s}, db.trie a = some s → R a s.decode

def Shows (R : Address → Account → Prop) (a : Address) (x : Option Shown) : Prop :=
  ∀ d s, x = some (d, s) → R a d

variable {R : Address → Account → Prop}

theorem shows_some {d : Account} {s : Bool} (h : R a d) : Shows R a (some (d, s)) := by
  intro d' s' heq
  cases heq
  exact h

theorem shows_stored (h : ∀ s, t = some s → R a s.decode) :
    Shows R a (t.map fun s => (s.decode, false)) := by
  intro d s heq
  obtain ⟨st, hst, heq⟩ := map_eq_some_iff.1 heq
  cases heq
  exact h st hst

namespace Everywhere

theorem shown (h : Everywhere R db) (a : Address) : Shows R a (db.shown a) := by
  intro d s hd
  obtain ⟨o, ho, heq⟩ := shown_eq_some db a hd
  cases heq
  rcases get_cases ho with hlive | ⟨-, st, hst, rfl⟩
  · exact h.objects hlive
  · exact h.stored hst

theorem holds (h : Everywhere R db) : Holds db.trie (Shows R) db := ⟨rfl, h.shown⟩

theorem new {trie : Trie} (h : ∀ a s, trie a = some s → R a s.decode) : Everywhere R (.new trie) :=
  ⟨(fun hs => by cases hs), (h _ _)⟩

/-- **Writing keeps a property that encoding keeps.** -/
theorem finalise (h : Everywhere R db)
    (henc : ∀ {a d s}, R a d → encode d = some s → R a s.decode)
    (hf : db.finalise b = some db') : Everywhere R db' := by
  constructor
  · intro a slot hslot
    rcases finalise_at hf a with ⟨-, old, slot', hold, hslot', hfin⟩ | ⟨-, hobj, -⟩
    · cases hslot.symm.trans hslot'
      have hR := h.objects hold
      rcases finaliseSlot_cases hfin with ⟨-, -, rfl⟩ | ⟨-, rfl, -⟩ <;> exact hR
    · exact h.objects (hobj ▸ hslot)
  · intro a s hs
    rcases finalise_at hf a with ⟨-, old, slot', hold, -, hfin⟩ | ⟨-, -, htrie⟩
    · rw [hs] at hfin
      rcases finaliseSlot_cases hfin with ⟨-, hnone, -⟩ | ⟨-, -, st, hst, heq⟩
      · cases hnone
      · cases heq
        exact henc (h.objects hold) hst
    · exact h.stored (htrie ▸ hs)

end Everywhere

/-! ## Removed objects -/

/-- Every object that is removed in `db'` was removed in `db`. -/
def RemovesNone (db db' : StateDB) : Prop :=
  ∀ a o, db'.stateObjects a = some (.deleted o) → db.stateObjects a = some (.deleted o)

theorem Everywhere.of_holds (h : Everywhere R db) (hI : Holds db.trie (Shows R) db')
    (hdel : RemovesNone db db') : Everywhere R db' := by
  constructor
  · intro a slot hslot
    cases slot with
    | live =>
      exact hI.shown a _ _ (shown_of_get db' a (get_live hslot))
    | deleted o => exact h.objects (hdel a o hslot)
  · intro a s hs
    exact h.stored (hI.trie ▸ hs)

namespace RemovesNone

variable {db'' : StateDB}

theorem refl (db : StateDB) : RemovesNone db db := fun _ _ h => h

theorem trans (h : RemovesNone db db') (h' : RemovesNone db' db'') : RemovesNone db db'' :=
  fun a o hd => h a o (h' a o hd)

theorem of_objects (h : db'.stateObjects = db.stateObjects) : RemovesNone db db' :=
  fun _ _ hd => h ▸ hd

theorem update {x : Option Slot} (hx : ∀ o, x ≠ some (.deleted o))
    (h : db'.stateObjects = Function.update db.stateObjects a x) : RemovesNone db db' := by
  intro c o hd
  rw [h] at hd
  by_cases hc : c = a
  · subst hc
    rw [update_self] at hd
    exact absurd hd (hx o)
  · rwa [update_of_ne hc] at hd

theorem live {o : StateObject}
    (h : db'.stateObjects = Function.update db.stateObjects a (some (.live o))) :
    RemovesNone db db' :=
  update (fun _ heq => by cases heq) h

theorem edit (db : StateDB) (a : Address) (f : Writer) : RemovesNone db (db.edit a f) :=
  edit_rule db a (refl db) (fun _ => live rfl) fun _ _ _ _ _ _ ht => ht.trans (live rfl)

theorem takesBack {e : Change} (h : TakesBack db e db') : RemovesNone db db' := by
  cases h with
  | create => exact update (fun _ heq => by cases heq) rfl
  | rest hobj => exact of_objects hobj
  | _ => exact live rfl

theorem revert {ep : Bool} {id : Nat} (h : db.revertToSnapshot ep id = some db') :
    RemovesNone db db' := by
  unfold StateDB.revertToSnapshot at h
  split at h
  · cases h
  · obtain ⟨db1, h1, rfl⟩ := map_eq_some_iff.1 h
    have hnone :=
      undoAll_rule (I := fun _ t => RemovesNone db t) (fun _ _ _ _ ht hb => ht.trans (takesBack hb))
        (refl db) h1
    exact hnone.trans (of_objects rfl)

theorem setVoteCells (db : StateDB) (a : Address) (cells : Slice Address) :
    RemovesNone db (db.setVoteCells a cells) := by
  unfold StateDB.setVoteCells
  split
  · exact refl db
  · exact live rfl

theorem vote {g : Growth} {m : Int} {dl : Option (List Address)} {user : Address}
    {votes : List Vote} {ok : Bool} (h : db.vote g m dl user votes = some (ok, db')) :
    RemovesNone db db' := by
  exact vote_rule h (fun _ e _ _ _ => setVoteCells db user e.prev)
    fun _ _ ht _ => ht.trans (edit _ _ _)

end RemovesNone

/-! ## The trie between two writings -/

theorem trie_vote {g : Growth} {m : Int} {dl : Option (List Address)} {user : Address}
    {votes : List Vote} {ok : Bool} (h : db.vote g m dl user votes = some (ok, db')) :
    db'.trie = db.trie := by
  exact vote_rule (P := fun t => t.trie = db.trie) h
    (fun _ e _ _ _ => (rest_setVoteCells db user e.prev).1) fun _ _ ht _ => (trie_edit _ _ _).trans ht

theorem trie_revert {ep : Bool} {id : Nat} (h : db.revertToSnapshot ep id = some db') :
    db'.trie = db.trie := by
  unfold StateDB.revertToSnapshot at h
  split at h
  · cases h
  · obtain ⟨db1, h1, rfl⟩ := map_eq_some_iff.1 h
    exact (trie_undoAll h1 : db1.trie = db.trie)

end StateDB

end GoAoa.State
