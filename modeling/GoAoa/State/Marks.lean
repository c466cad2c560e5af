import GoAoa.State.Finalise

/-!
# Which accounts are written

An object reports itself dirty once, when it is first changed, and drops the callback. So an
object without the callback has to be in the dirty set, and one that still has it has to be as in
the trie. That an object is replaced can be undone, and the old object is put back with the
callback it had: its address is still in the dirty set, because nothing newer in the journal takes
it out. Undoing the touch of an object that was clean does take it out, without giving back the
callback; that is where the invariant ends (`Loses`).
-/

namespace GoAoa.State

open List Option Function Account

/-! ## Encoding -/

theorem StoredAccount.encode_decode (s : StoredAccount) : s.decode.encode = some s := by
  unfold encode
  rw [dif_pos (show s.decode.assetList.Nonneg from s.nonneg), if_pos]
  · have hview : s.decode.voteList.view = s.voteList := Slice.view_ofList _ _ _
    rw [hview]
    rfl
  · exact ⟨Int.natCast_nonneg _, Int.natCast_nonneg _⟩

theorem Account.encode_cells {d : Account} {cells : Slice Address}
    (h : cells.view = d.voteList.view) : encode { d with voteList := cells } = d.encode := by
  unfold encode
  rw [h]

namespace StateDB

variable {db db' : StateDB} {a b : Address} {o : StateObject} {J : List Change}

/-- The trie has the object as it is. -/
def Stored (db : StateDB) (a : Address) (o : StateObject) : Prop :=
  o.suicided = false ∧ ∃ s, db.trie a = some s ∧ o.data.encode = some s

/-! ## The invariant -/

/-- Nothing is lost, also not by undoing the changes `J`, the first of them first. -/
structure Kept (J : List Change) (db : StateDB) : Prop where
  backed : ∀ a ∈ db.stateObjectsDirty, (db.stateObjects a).isSome
  removed : ∀ a o, db.stateObjects a = some (.deleted o) → a ∈ db.stateObjectsDirty
  marked : ∀ a o, db.stateObjects a = some (.live o) → o.onDirty = false → a ∈ db.stateObjectsDirty
  clean : ∀ a o, db.stateObjects a = some (.live o) → o.onDirty = true → db.Stored a o
  resets : ∀ a prev, .resetObject a prev ∈ J → a ∈ db.stateObjectsDirty ∧
    (db.getStateObject a).isSome ∧ (prev.onDirty = true → db.Stored a prev)
  order : J.Pairwise fun newer older => ∀ a prev, older = .resetObject a prev →
    newer ≠ .createObject a

theorem kept_new (trie : Trie) : Kept [] (.new trie) where
  backed _ h := by cases h
  removed _ _ h := by cases h
  marked _ _ h := by cases h
  clean _ _ h := by cases h
  resets _ _ h := by cases h
  order := .nil

section

variable {e : Change} (h : Kept J db)
include h

theorem Kept.get (ho : db.getStateObject a = some o) :
    (o.onDirty = false → a ∈ db.stateObjectsDirty) ∧ (o.onDirty = true → db.Stored a o) := by
  rcases get_cases ho with hslot | ⟨-, s, hs, rfl⟩
  · exact ⟨h.marked a o hslot, h.clean a o hslot⟩
  · exact ⟨nofun, fun _ => ⟨rfl, s, hs, s.encode_decode⟩⟩

theorem Kept.congr (htrie : db'.trie = db.trie) (hobj : db'.stateObjects = db.stateObjects)
    (hdirty : db'.stateObjectsDirty = db.stateObjectsDirty) : Kept J db' := by
  have hget : ∀ a, db'.getStateObject a = db.getStateObject a := fun a =>
    get_congr (congrFun hobj a) (congrFun htrie a)
  have hstored : ∀ a o, db.Stored a o → db'.Stored a o := fun a o hs => by
    unfold Stored
    rw [htrie]
    exact hs
  refine ⟨?_, ?_, ?_, fun a o ha ho => ?_, fun a prev hp => ?_, h.order⟩
  · rw [hobj, hdirty]; exact h.backed
  · rw [hobj, hdirty]; exact h.removed
  · rw [hobj, hdirty]; exact h.marked
  · exact hstored a o (h.clean a o (hobj ▸ ha) ho)
  · obtain ⟨hd, hsome, hs⟩ := h.resets a prev hp
    exact ⟨hdirty ▸ hd, by rw [hget]; exact hsome, fun hp => hstored a prev (hs hp)⟩

theorem Kept.record (e : Change) : Kept J (db.record e) := h.congr rfl rfl rfl

theorem Kept.set (htrie : db'.trie = db.trie)
    (hobj : db'.stateObjects = Function.update db.stateObjects a (some (.live o)))
    (hdirty : ∀ b, b ∈ db'.stateObjectsDirty ↔ b ∈ db.stateObjectsDirty ∨
      (b = a ∧ a ∈ db'.stateObjectsDirty)) (hmark : o.onDirty = false → a ∈ db'.stateObjectsDirty)
    (hclean : o.onDirty = true → db.Stored a o) : Kept J db' := by
  have hold : ∀ b, b ∈ db.stateObjectsDirty → b ∈ db'.stateObjectsDirty := fun b hb =>
    (hdirty b).2 (.inl hb)
  have hstored : ∀ a o, db.Stored a o → db'.Stored a o := fun a o hs => by
    unfold Stored
    rw [htrie]
    exact hs
  have hslot : ∀ b, db'.stateObjects b = if b = a then some (.live o) else db.stateObjects b := by
    intro b
    rw [hobj]
    exact update_apply _ _ _ _
  refine ⟨fun b hb => ?_, fun b x hb => ?_, fun b x hb hx => ?_, fun b x hb hx => ?_,
    fun b prev hp => ?_, h.order⟩
  · rw [hslot]
    split
    · rfl
    · rename_i hne
      rcases (hdirty b).1 hb with hb | hb
      · exact h.backed b hb
      · exact absurd hb.1 hne
  · rw [hslot] at hb
    split at hb
    · cases hb
    · exact hold b (h.removed b x hb)
  · rw [hslot] at hb
    split at hb
    · rename_i hba
      cases hb
      rw [hba]
      exact hmark hx
    · exact hold b (h.marked b x hb hx)
  · rw [hslot] at hb
    split at hb
    · rename_i hba
      cases hb
      rw [hba]
      exact hstored a o (hclean hx)
    · exact hstored b x (h.clean b x hb hx)
  · obtain ⟨hd, hsome, hs⟩ := h.resets b prev hp
    refine ⟨hold b hd, ?_, fun hp => hstored b prev (hs hp)⟩
    unfold getStateObject at hsome ⊢
    rw [hslot, htrie]
    by_cases hba : b = a
    · rw [if_pos hba]; rfl
    · rw [if_neg hba]; exact hsome

theorem Kept.write (hmark : o.onDirty = false → a ∈ db.stateObjectsDirty) :
    Kept J (db.write a o) := by
  have ha : a ∈ (db.write a o).stateObjectsDirty := by
    show a ∈ if o.onDirty then db.stateObjectsDirty.insert a else db.stateObjectsDirty
    split
    · exact mem_insert_self
    · rename_i ho
      exact hmark (Bool.not_eq_true _ ▸ ho)
  refine h.set rfl rfl (fun b => ?_) (fun _ => ha) nofun
  show (b ∈ if o.onDirty then db.stateObjectsDirty.insert a else db.stateObjectsDirty) ↔ _
  by_cases ho : o.onDirty = true
  · rw [if_pos ho, mem_insert_iff, or_comm, and_iff_left ha]
  · rw [if_neg ho]
    refine ⟨.inl, fun hb => hb.elim id fun hb => ?_⟩
    rw [hb.1]
    exact hmark (Bool.not_eq_true _ ▸ ho)

theorem Kept.setStateObject (hmark : o.onDirty = false → a ∈ db.stateObjectsDirty)
    (hclean : o.onDirty = true → db.Stored a o) : Kept J (db.setStateObject a o) :=
  h.set rfl rfl (fun _ => ⟨.inl, fun hb => hb.elim id fun hb => hb.1 ▸ hb.2⟩) hmark hclean

/-! ## Changes -/

theorem Kept.cons (hcreate : ∀ a, e ≠ .createObject a)
    (hreset : ∀ a prev, e ≠ .resetObject a prev) : Kept (e :: J) db := by
  refine { h with resets := fun a prev hp => ?_, order := pairwise_cons.2 ⟨?_, h.order⟩ }
  · exact h.resets a prev ((mem_cons.1 hp).resolve_left fun heq => hreset a prev heq.symm)
  · exact fun _ _ a _ _ => hcreate a

theorem Kept.create (d : Account) :
    Kept (db.createEntry a :: J) ((db.record (db.createEntry a)).write a (newObject d)) := by
  have hw : Kept J ((db.record (db.createEntry a)).write a (newObject d)) :=
    (h.record _).write nofun
  have ha : a ∈ ((db.record (db.createEntry a)).write a (newObject d)).stateObjectsDirty :=
    mem_insert_self
  unfold createEntry
  cases ho : db.getStateObject a with
  | none =>
    refine { hw with resets := fun b prev hp => ?_, order := pairwise_cons.2 ⟨?_, h.order⟩ }
    · rcases mem_cons.1 hp with heq | hp
      · cases heq
      · exact hw.resets b prev hp
    · -- the account is not there, so it was not replaced either
      rintro e he b prev rfl heq
      obtain rfl := Change.createObject.inj heq
      have hsome := (h.resets a prev he).2.1
      rw [ho] at hsome
      cases hsome
  | some =>
    refine { hw with resets := fun b prev' hp => ?_, order := pairwise_cons.2 ⟨?_, h.order⟩ }
    · rcases mem_cons.1 hp with heq | hp
      · obtain ⟨rfl, rfl⟩ := Change.resetObject.inj heq
        refine ⟨ha, ?_, fun hp => (h.get ho).2 hp⟩
        rw [getStateObject_write, if_pos rfl]
        rfl
      · exact hw.resets b prev' hp
    · exact fun _ _ b _ _ => nofun

end

/-- The invariant of a database. -/
abbrev NoLoss (db : StateDB) : Prop := Kept db.journal.entries db

/-- **An edit loses nothing.** -/
theorem NoLoss.edit (h : NoLoss db) (f : Writer) : NoLoss (db.edit a f) := by
  refine edit_rule db a h (fun _ => h.create _) fun t o w _ ho _ ht => ?_
  have hdirty : (w.apply o).onDirty = o.onDirty := by cases w <;> rfl
  have hw : Kept t.journal.entries ((t.record (w.entry a o)).write a (w.apply o)) :=
    (ht.record _).write fun hw => (ht.get ho).1 (hdirty ▸ hw)
  exact hw.cons (fun b => by cases w <;> exact nofun) fun b prev => by cases w <;> exact nofun

def Marked (db : StateDB) (a : Address) : Prop :=
  ∃ o, db.getStateObject a = some o ∧ o.onDirty = false

/-- The stored cells of a vote list change, and nothing that is written of them, or the account
is marked. -/
theorem Kept.setVoteCells {cells : Slice Address} (h : Kept J db)
    (hcells : db.Marked a ∨ cells.view = (db.getVoteList a).view) :
    Kept J (db.setVoteCells a cells) := by
  unfold StateDB.setVoteCells
  split
  · exact h
  · rename_i o ho
    refine h.setStateObject (h.get ho).1 fun hclean => ?_
    rcases hcells with ⟨o', ho', hmark⟩ | hview
    · cases ho'.symm.trans ho
      cases hclean.symm.trans hmark
    · obtain ⟨hsui, s, hs, henc⟩ := (h.get ho).2 hclean
      refine ⟨hsui, s, hs, (encode_cells ?_).trans henc⟩
      rw [hview]
      unfold getVoteList
      rw [ho]
      rfl

/-! ## Undoing -/

/-- The touch of a clean object: undoing it takes the address out of the dirty set for good. -/
def Loses : Change → Prop
  | .touch a prev prevDirty => prev = false ∧ prevDirty = false ∧ a ≠ ripemd
  | _ => False

theorem Kept.tail {e : Change} (h : Kept (e :: J) db) : Kept J db := { h with
    resets := fun a prev hp => h.resets a prev (mem_cons_of_mem _ hp)
    order := (pairwise_cons.1 h.order).2 }

/-- **Undoing a change that loses nothing.** -/
theorem Kept.undo {e : Change} (h : Kept (e :: J) db) (he : ¬ Loses e)
    (hu : TakesBack db e db') : Kept J db' := by
  cases hu with
  | create a =>
    obtain ⟨hnewer, -⟩ := pairwise_cons.1 h.order
    have hslot : ∀ b, b ≠ a → update db.stateObjects a none b = db.stateObjects b :=
      fun b hb => update_of_ne hb _ _
    have hdirty : ∀ b, b ∈ db.stateObjectsDirty.filter (· ≠ a) ↔ b ∈ db.stateObjectsDirty ∧ b ≠ a :=
      fun b => by rw [mem_filter, decide_eq_true_iff]
    have hother : ∀ {b slot}, update db.stateObjects a none b = some slot →
        b ≠ a ∧ db.stateObjects b = some slot := fun {b slot} hb => by
      by_cases hba : b = a
      · rw [hba, update_self] at hb; cases hb
      · exact ⟨hba, hslot b hba ▸ hb⟩
    refine ⟨fun b hb => ?_, fun b o hb => ?_, fun b o hb ho => ?_, fun b o hb ho => ?_,
      fun b prev hp => ?_, h.tail.order⟩
    · obtain ⟨hb, hne⟩ := (hdirty b).1 hb
      dsimp only
      rw [hslot b hne]
      exact h.backed b hb
    · obtain ⟨hne, hb⟩ := hother hb
      exact (hdirty b).2 ⟨h.removed b o hb, hne⟩
    · obtain ⟨hne, hb⟩ := hother hb
      exact (hdirty b).2 ⟨h.marked b o hb ho, hne⟩
    · exact h.clean b o (hother hb).2 ho
    · obtain ⟨hd, hsome, hs⟩ := h.tail.resets b prev hp
      have hne : b ≠ a := fun heq => hnewer _ hp b prev rfl (by rw [heq])
      refine ⟨(hdirty b).2 ⟨hd, hne⟩, ?_, hs⟩
      exact Eq.trans (congrArg isSome (get_congr (hslot b hne) rfl)) hsome
  | reset a prev =>
    obtain ⟨hd, -, hs⟩ := h.resets a prev mem_cons_self
    exact h.tail.setStateObject (fun _ => hd) hs
  | @write _ _ f o hf ho =>
    have hmark : (f o).onDirty = o.onDirty := by
      cases hf with
      | assetBalance a asset preOpIsAdd => cases preOpIsAdd <;> rfl
      | _ => rfl
    exact h.tail.write fun hdirty => (h.get ho).1 (hmark ▸ hdirty)
  | touch prevDirty hne ho =>
    cases prevDirty with
    | true => exact h.tail.setStateObject (h.get ho).1 (h.get ho).2
    | false => exact absurd ⟨rfl, rfl, hne⟩ he
  | rest hobj hdirty htrie => exact h.tail.congr htrie hobj hdirty

theorem Kept.undoAll {ep : Bool} {es : List Change} (h : Kept (es ++ J) db)
    (he : ∀ e ∈ es, ¬ Loses e) (hu : es.foldlM (StateDB.undoUnlessAsset ep) db = some db') :
    Kept J db' :=
  (undoAll_rule (I := fun es t => Kept (es ++ J) t ∧ ∀ e ∈ es, ¬ Loses e)
    (fun _ _ _ _ ht hb => ⟨ht.1.undo (ht.2 _ mem_cons_self) hb, fun x hx =>
      ht.2 x (mem_cons_of_mem _ hx)⟩) ⟨h, he⟩ hu).1

/-- **A revert that undoes no touch of a clean object loses nothing.** -/
theorem NoLoss.revert {ep : Bool} {id : Nat} (h : NoLoss db)
    (he : ∀ es, db.journal.Since id es → ∀ e ∈ es, ¬ Loses e)
    (hr : db.revertToSnapshot ep id = some db') : NoLoss db' := by
  unfold StateDB.revertToSnapshot at hr
  split at hr
  · cases hr
  · rename_i undone journal hroll
    obtain ⟨db1, h1, rfl⟩ := map_eq_some_iff.1 hr
    obtain ⟨hsince, hentries⟩ := Journal.rollback_entries hroll
    have h' : Kept (undone ++ journal.entries) db := hentries ▸ h
    exact (h'.undoAll (he undone hsince) h1).congr rfl rfl rfl

/-! ## Writing -/

variable {flag : Bool}

/-- **`Finalise` loses nothing.** -/
theorem NoLoss.finalise (h : NoLoss db) (hf : db.finalise flag = some db') : NoLoss db' := by
  obtain ⟨hdirty, -, -, hj, -⟩ := finalise_rest hf
  have hentries : db'.journal.entries = [] := by rw [hj]; rfl
  rw [NoLoss, hentries]
  refine ⟨fun a ha => ?_, fun a o ha => ?_, fun a o ha ho => ?_, fun a o ha ho => ?_, nofun, .nil⟩
  · rw [hdirty] at ha
    rcases finalise_at hf a with ⟨-, _, slot', -, hslot', -⟩ | ⟨hnot, -⟩
    · rw [hslot']; rfl
    · exact absurd ha hnot
  · rw [hdirty]
    rcases finalise_at hf a with ⟨hd, -⟩ | ⟨-, hobj, -⟩
    · exact hd
    · exact h.removed a o (hobj ▸ ha)
  · rw [hdirty]
    rcases finalise_at hf a with ⟨hd, -⟩ | ⟨-, hobj, -⟩
    · exact hd
    · exact h.marked a o (hobj ▸ ha) ho
  · rcases finalise_at hf a with ⟨-, slot, slot', hslot, hslot', hfin⟩ | ⟨-, hobj, htrie⟩
    · cases ha.symm.trans hslot'
      rcases finaliseSlot_cases hfin with ⟨-, -, heq⟩ | ⟨hr, rfl, s, hs, ht⟩
      · cases heq
      · exact ⟨(Bool.or_eq_false_iff.1 hr).1, s, ht, hs⟩
    · obtain ⟨hsui, s, hs, henc⟩ := h.clean a o (hobj ▸ ha) ho
      exact ⟨hsui, s, htrie.trans hs, henc⟩

end StateDB

end GoAoa.State
