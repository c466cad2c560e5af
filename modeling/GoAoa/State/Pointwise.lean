import GoAoa.State.Vote

/-!
# Invariants of single accounts

A property `P` of what the database shows of each account is kept by a change if the changed
account has it, and by reverts if the journal entries since give it back. `Restores` says the
latter of one entry, `Restoring` of several. The trie does not change between `Finalise` calls
and is held fixed.
-/

namespace GoAoa.State

open Option StateDB Account

/-- What the database shows of an account: its data and whether it is suicided. -/
abbrev Shown := Account × Bool

namespace StateDB

def shown (db : StateDB) (a : Address) : Option Shown :=
  (db.getStateObject a).map fun o => (o.data, o.suicided)

/-! ## Reading after writing -/

section Slots

variable {db db' : StateDB} {a : Address} {o : StateObject}

theorem get_live (h : db.stateObjects a = some (.live o)) : db.getStateObject a = some o := by
  rw [getStateObject, h]

theorem get_deleted (h : db.stateObjects a = some (.deleted o)) : db.getStateObject a = none := by
  rw [getStateObject, h]

theorem shown_deleted (h : db.stateObjects a = some (.deleted o)) : db.shown a = none :=
  map_eq_none_iff.2 (get_deleted h)

theorem get_congr (hobj : db'.stateObjects a = db.stateObjects a) (htrie : db'.trie a = db.trie a) :
    db'.getStateObject a = db.getStateObject a := by
  rw [getStateObject, getStateObject, hobj, htrie]

theorem shown_congr (hobj : db'.stateObjects a = db.stateObjects a)
    (htrie : db'.trie a = db.trie a) : db'.shown a = db.shown a :=
  congrArg (Option.map _) (get_congr hobj htrie)

theorem get_cases (h : db.getStateObject a = some o) : db.stateObjects a = some (.live o) ∨
      db.stateObjects a = none ∧ ∃ s, db.trie a = some s ∧ newObject s.decode = o := by
  unfold getStateObject at h
  split at h
  · cases h
    exact .inl ‹_›
  · cases h
  · exact .inr ⟨‹_›, map_eq_some_iff.1 h⟩

theorem get_none_cases (h : db.getStateObject a = none) :
    (∃ o, db.stateObjects a = some (.deleted o)) ∨ db.stateObjects a = none ∧ db.trie a = none := by
  unfold getStateObject at h
  split at h
  · cases h
  · exact .inl ⟨_, ‹_›⟩
  · exact .inr ⟨‹_›, map_eq_none_iff.1 h⟩

end Slots

section Read

variable (db : StateDB) (a b : Address) (o : StateObject) (e : Change)

@[simp] theorem getStateObject_setStateObject :
    (db.setStateObject a o).getStateObject b = if b = a then some o else db.getStateObject b := by
  unfold getStateObject setStateObject
  by_cases h : b = a
  · subst h; simp
  · simp [h]

@[simp] theorem getStateObject_write : (db.write a o).getStateObject b =
      if b = a then some { o with onDirty := false } else db.getStateObject b :=
  getStateObject_setStateObject db a b { o with onDirty := false }

theorem shown_setStateObject :
    (db.setStateObject a o).shown b = if b = a then some (o.data, o.suicided) else db.shown b := by
  unfold shown
  rw [getStateObject_setStateObject]
  split <;> rfl

theorem shown_write :
    (db.write a o).shown b = if b = a then some (o.data, o.suicided) else db.shown b := by
  unfold shown
  rw [getStateObject_write]
  split <;> rfl

theorem shown_eq_some {x : Shown} (h : db.shown a = some x) :
    ∃ o, db.getStateObject a = some o ∧ x = (o.data, o.suicided) := by
  obtain ⟨o, ho, rfl⟩ := map_eq_some_iff.1 h
  exact ⟨o, ho, rfl⟩

theorem shown_of_get {o : StateObject} (h : db.getStateObject a = some o) :
    db.shown a = some (o.data, o.suicided) := by
  rw [shown, h]; rfl

theorem shown_new (trie : Trie) : (new trie).shown a = (trie a).map fun s => (s.decode, false) :=
  map_map ..

theorem getOrNew_cases :
    (db.getStateObject a = some (db.getOrNewStateObject a).2 ∧ (db.getOrNewStateObject a).1 = db) ∨
    (db.getStateObject a = none ∧ (db.getOrNewStateObject a).2 = fresh 0 ∧
      (db.getOrNewStateObject a).1 = db.createObject a) := by
  unfold getOrNewStateObject
  cases h : db.getStateObject a with
  | none => exact .inr ⟨rfl, rfl, rfl⟩
  | some => exact .inl ⟨rfl, rfl⟩

variable {f : Writer}

/-- The rule for `edit`: an account that is not there is made first, then the change is recorded and
written. -/
theorem edit_rule {R : StateDB → Prop} (h : R db)
    (hnew : db.getStateObject a = none → R (db.createObject a))
    (hw : ∀ t o w, o = (db.getOrNewStateObject a).2 → t.getStateObject a = some o → f o = some w →
      R t → R ((t.record (w.entry a o)).write a (w.apply o))) : R (db.edit a f) := by
  have hget : R (db.getOrNewStateObject a).1 ∧
      (db.getOrNewStateObject a).1.getStateObject a = some (db.getOrNewStateObject a).2 := by
    rcases getOrNew_cases db a with ⟨hsome, heq⟩ | ⟨hnone, hfresh, heq⟩
    · rw [heq]
      exact ⟨h, hsome⟩
    · rw [heq, hfresh]
      refine ⟨hnew hnone, ?_⟩
      rw [createObject, getStateObject_write, if_pos rfl]
      rfl
  unfold edit
  dsimp only
  cases hf : f (db.getOrNewStateObject a).2 with
  | none => exact hget.1
  | some w => exact hw _ _ w rfl hget.2 hf hget.1

def edited (f : Writer) : StateObject :=
  ((f (db.getOrNewStateObject a).2).map fun w => w.apply (db.getOrNewStateObject a).2).getD
    (db.getOrNewStateObject a).2

theorem shown_getOrNew : (db.getOrNewStateObject a).1.shown b =
      if b = a then some ((db.getOrNewStateObject a).2.data, (db.getOrNewStateObject a).2.suicided)
      else db.shown b := by
  rcases getOrNew_cases db a with ⟨hsome, heq⟩ | ⟨-, hfresh, heq⟩
  · rw [heq]
    split
    · rename_i h
      rw [h, shown_of_get db a hsome]
    · rfl
  · rw [heq, hfresh]
    exact shown_write _ a b _

theorem shown_edit (f : Writer) : (db.edit a f).shown b =
      if b = a then some ((db.edited a f).data, (db.edited a f).suicided) else db.shown b := by
  unfold edit edited
  dsimp only
  cases f (db.getOrNewStateObject a).2 with
  | none => exact shown_getOrNew db a b
  | some =>
    rw [shown_write]
    by_cases h : b = a
    · rw [if_pos h, if_pos h]; rfl
    · rw [if_neg h, if_neg h]
      show (db.getOrNewStateObject a).1.shown b = _
      rw [shown_getOrNew, if_neg h]

theorem getOrNew_shown :
    (db.getOrNewStateObject a).2.data = ((db.shown a).map Prod.fst).getD blank ∧
      (db.getOrNewStateObject a).2.suicided = ((db.shown a).map Prod.snd).getD false := by
  rcases getOrNew_cases db a with ⟨hsome, -⟩ | ⟨hnone, hfresh, -⟩
  · rw [shown_of_get db a hsome]; exact ⟨rfl, rfl⟩
  · rw [hfresh, shown, hnone]; exact ⟨rfl, rfl⟩

theorem trie_edit (f : Writer) : (db.edit a f).trie = db.trie :=
  edit_rule (R := fun t => t.trie = db.trie) db a rfl (fun _ => rfl) fun _ _ _ _ _ _ ht => ht

theorem shown_edit_touch {x : Shown} (h : db.shown a = some x)
    (hf : ∀ o w, f o = some w → w = .touch) (b : Address) : (db.edit a f).shown b = db.shown b := by
  rw [shown_edit]
  by_cases hb : b = a
  · subst hb
    have hdata : (db.edited b f).data = (db.getOrNewStateObject b).2.data ∧
        (db.edited b f).suicided = (db.getOrNewStateObject b).2.suicided := by
      unfold edited
      cases hw : f (db.getOrNewStateObject b).2 with
      | none => exact ⟨rfl, rfl⟩
      | some w => rw [hf _ w hw]; exact ⟨rfl, rfl⟩
    rw [if_pos rfl, hdata.1, hdata.2, (getOrNew_shown db b).1, (getOrNew_shown db b).2, h]
    rfl
  · rw [if_neg hb]

theorem edit_field {d : Account} {s : Bool} {v : Field}
    (h : db.shown a = some (d, s)) (hf : ∀ o, o.data = d → f o = some (.field v)) :
    (∀ b, (db.edit a f).shown b = if b = a then some (v.set d, s) else db.shown b) ∧
      (db.edit a f).journal = db.journal.append (.field a (v.current d)) := by
  obtain ⟨o, ho, heq⟩ := shown_eq_some db a h
  cases heq
  have hget : db.getOrNewStateObject a = (db, o) := by unfold getOrNewStateObject; rw [ho]
  have hedit : db.edit a f =
      (db.record (.field a (v.current o.data))).write a { o with data := v.set o.data } := by
    unfold edit
    rw [hget]
    dsimp only
    rw [hf o rfl]
    rfl
  rw [hedit]
  exact ⟨fun b => shown_write _ a b _, rfl⟩

theorem shown_createAccount : (db.createAccount a).shown b =
      if b = a then some ({ blank with
        balance := ((db.shown a).map fun x => x.1.balance).getD 0 }, false)
      else db.shown b := by
  unfold createAccount
  rw [shown_write]
  simp only [shown, map_map]
  rfl

theorem shown_setVoteCells (cells : Slice Address) : (db.setVoteCells a cells).shown b =
      if b = a then (db.shown a).map fun x => ({ x.1 with voteList := cells }, x.2)
      else db.shown b := by
  unfold setVoteCells
  cases h : db.getStateObject a with
  | none =>
    have hs : db.shown a = none := by rw [shown, h]; rfl
    rw [hs]
    by_cases hb : b = a
    · rw [if_pos hb, hb]; exact hs
    · rw [if_neg hb]
  | some =>
    rw [shown_of_get db a h]
    exact shown_setStateObject db a b _

theorem rest_setVoteCells (cells : Slice Address) :
    (db.setVoteCells a cells).trie = db.trie ∧ (db.setVoteCells a cells).logs = db.logs ∧
      (db.setVoteCells a cells).refund = db.refund ∧
      (db.setVoteCells a cells).journal = db.journal := by
  unfold setVoteCells
  split <;> exact ⟨rfl, rfl, rfl, rfl⟩

theorem getLockBalance_shown :
    db.getLockBalance a = (db.shown a).elim (some 0) fun x => x.1.lockBalance := by
  unfold getLockBalance shown
  cases db.getStateObject a <;> rfl

theorem getVoteList_shown :
    db.getVoteList a = ((db.shown a).map fun x => x.1.voteList).getD (Slice.ofList [] 0 0) := by
  unfold getVoteList shown
  cases db.getStateObject a <;> rfl

end Read

/-! ## The invariant -/

/-- Every account shows what `P` allows, over the trie `T`. -/
structure Holds (T : Trie) (P : Address → Option Shown → Prop) (db : StateDB) : Prop where
  trie : db.trie = T
  shown : ∀ a, P a (db.shown a)

/-- Undoing the entry keeps `P`. -/
def Restores (T : Trie) (P : Address → Option Shown → Prop) :
    Change → Prop
  | .createObject a => P a ((T a).map fun s => (s.decode, false))
  | .resetObject a prev => P a (some (prev.data, prev.suicided))
  | .suicide a prev prevbalance =>
    ∀ d s, P a (some (d, s)) → P a (some ({ d with balance := prevbalance }, prev))
  | .field a prev => ∀ d s, P a (some (d, s)) → P a (some (prev.set d, s))
  | .assetBalance a asset preOpIsAdd =>
    ∀ o : StateObject, P a (some (o.data, o.suicided)) →
      P a (some ((revertAssetBalance asset preOpIsAdd o).data, o.suicided))
  | .refund _ => True
  | .addLog _ => True
  | .touch .. => True

variable {T : Trie} {P : Address → Option Shown → Prop} {db db' db'' : StateDB} {a : Address}

theorem Holds.update (h : Holds T P db) (htrie : db'.trie = db.trie) {x : Option Shown}
    (hP : P a x) (hshown : ∀ b, db'.shown b = if b = a then x else db.shown b) : Holds T P db' := by
  refine ⟨htrie.trans h.trie, fun b => ?_⟩
  rw [hshown b]
  by_cases hb : b = a
  · rw [if_pos hb, hb]; exact hP
  · rw [if_neg hb]; exact h.shown b

variable {o : StateObject}

theorem Holds.write (h : Holds T P db) (hP : P a (some (o.data, o.suicided))) :
    Holds T P (db.write a o) :=
  h.update rfl hP fun b => shown_write db a b o

theorem Holds.setStateObject (h : Holds T P db)
    (hP : P a (some (o.data, o.suicided))) : Holds T P (db.setStateObject a o) :=
  h.update rfl hP fun b => shown_setStateObject db a b o

theorem Holds.of_objects (h : Holds T P db) (htrie : db'.trie = db.trie)
    (hobj : db'.stateObjects = db.stateObjects) : Holds T P db' := by
  refine ⟨htrie.trans h.trie, fun b => ?_⟩
  rw [shown_congr (congrFun hobj b) (congrFun htrie b)]
  exact h.shown b

/-! ## Reverting -/

variable {e : Change}

/-- What an entry about the data of an object makes of the object. -/
inductive Rewrites : Change → Address → (StateObject → StateObject) → Prop
  | suicide (a : Address) (prev : Bool) (prevbalance : Int) :
    Rewrites (.suicide a prev prevbalance) a fun o =>
      { o with suicided := prev, data := { o.data with balance := prevbalance } }
  | field (a : Address) (prev : Field) :
    Rewrites (.field a prev) a fun o => { o with data := prev.set o.data }
  | assetBalance (a : Address) (asset : Asset) (preOpIsAdd : Bool) :
    Rewrites (.assetBalance a asset preOpIsAdd) a (revertAssetBalance asset preOpIsAdd)

/-- Undoing an entry: an object goes, is put back, is written to or is touched no more, or the
objects stay as they are. -/
inductive TakesBack (db : StateDB) : Change → StateDB → Prop
  | create (a : Address) :
    TakesBack db (.createObject a)
      { db with stateObjects := Function.update db.stateObjects a none
                stateObjectsDirty := db.stateObjectsDirty.filter (· ≠ a) }
  | reset (a : Address) (prev : StateObject) :
    TakesBack db (.resetObject a prev) (db.setStateObject a prev)
  | write {e : Change} {a : Address} {f : StateObject → StateObject} {o : StateObject}
    (hf : Rewrites e a f) (ho : db.getStateObject a = some o) : TakesBack db e (db.write a (f o))
  | touch {a : Address} {o : StateObject} (prevDirty : Bool) (hne : a ≠ ripemd)
    (ho : db.getStateObject a = some o) :
    TakesBack db (.touch a false prevDirty) { db.setStateObject a { o with touched := false } with
        stateObjectsDirty :=
          if prevDirty then db.stateObjectsDirty else db.stateObjectsDirty.filter (· ≠ a) }
  | rest {e : Change} {db' : StateDB} (hobj : db'.stateObjects = db.stateObjects)
    (hdirty : db'.stateObjectsDirty = db.stateObjectsDirty) (htrie : db'.trie = db.trie)
    (hjournal : db'.journal = db.journal) : TakesBack db e db'

theorem takesBack_undo (h : db.undo e = some db') : TakesBack db e db' := by
  cases e with
  | createObject a => cases h; exact .create a
  | resetObject a prev => cases h; exact .reset a prev
  | suicide a prev prevbalance =>
    simp only [undo] at h
    split at h
    · cases h; exact .rest rfl rfl rfl rfl
    · rename_i o ho
      cases h
      exact .write (.suicide a prev prevbalance) ho
  | field a prev =>
    obtain ⟨o, ho, rfl⟩ := map_eq_some_iff.1 h
    exact .write (.field a prev) ho
  | refund => cases h; exact .rest rfl rfl rfl rfl
  | addLog =>
    simp only [undo] at h
    split at h
    · cases h
    · cases h; exact .rest rfl rfl rfl rfl
  | touch a prev prevDirty =>
    simp only [undo] at h
    split at h
    · rename_i hc
      obtain ⟨hprev, hne⟩ := Bool.and_eq_true_iff.1 hc
      obtain rfl : prev = false := by simpa using hprev
      obtain ⟨o, ho, rfl⟩ := map_eq_some_iff.1 h
      have hback := TakesBack.touch prevDirty (of_decide_eq_true hne) ho
      cases prevDirty <;> exact hback
    · cases h; exact .rest rfl rfl rfl rfl
  | assetBalance a asset preOpIsAdd =>
    obtain ⟨o, ho, rfl⟩ := map_eq_some_iff.1 h
    exact .write (.assetBalance a asset preOpIsAdd) ho

variable {ep : Bool}

theorem takesBack (h : db.undoUnlessAsset ep e = some db') : TakesBack db e db' := by
  unfold undoUnlessAsset at h
  split at h
  · cases h; exact .rest rfl rfl rfl rfl
  · exact takesBack_undo h

theorem TakesBack.trie (h : TakesBack db e db') : db'.trie = db.trie := by
  cases h with
  | rest _ _ htrie => exact htrie
  | _ => rfl

variable {es : List Change}

/-- What undoing the first entry keeps, undoing all of them keeps. -/
theorem undoAll_rule {I : List Change → StateDB → Prop}
    (hstep : ∀ e es t t', I (e :: es) t → TakesBack t e t' → I es t') (hI : I es db)
    (h : es.foldlM (undoUnlessAsset ep) db = some db') : I [] db' := by
  induction es generalizing db with
  | nil => cases h; exact hI
  | cons e es ih =>
    obtain ⟨db1, h1, h⟩ := bind_eq_some_iff.1 h
    exact ih (hstep e es _ _ hI (takesBack h1)) h

theorem undoUnlessAsset_true : undoUnlessAsset true = undo := by
  funext db e
  cases e <;> rfl

theorem trie_undoAll (h : es.foldlM (undoUnlessAsset ep) db = some db') : db'.trie = db.trie :=
  undoAll_rule (I := fun _ t => t.trie = db.trie) (fun _ _ _ _ ht hb => hb.trie.trans ht) rfl h

theorem shown_undo_createObject (h : db.undo (.createObject a) = some db') (b : Address) :
    db'.shown b =
      if b = a then (db.trie a).map (fun s => (s.decode, false)) else db.shown b := by
  cases h
  unfold shown getStateObject
  by_cases hb : b = a
  · subst hb
    simp [newObject, Function.comp_def]
  · simp [hb]

theorem Holds.undo (h : Holds T P db) (he : Restores T P e) (hu : TakesBack db e db') :
    Holds T P db' := by
  have hget : ∀ {a o}, db.getStateObject a = some o → P a (some (o.data, o.suicided)) := by
    intro a o ho
    have hP := h.shown a
    rwa [shown_of_get db a ho] at hP
  cases hu with
  | create =>
    have hback := he
    refine h.update rfl hback fun b => ?_
    rw [shown_undo_createObject rfl, h.trie]
  | reset => exact h.setStateObject he
  | write hf ho =>
    cases hf with
    | assetBalance a asset preOpIsAdd =>
      refine h.write ?_
      have hP := he _ (hget ho)
      cases preOpIsAdd <;> exact hP
    | _ => exact h.write (he _ _ (hget ho))
  | @touch a o prevDirty hne ho =>
    have hP := hget ho
    exact (h.setStateObject (o := { o with touched := false }) hP).of_objects rfl rfl
  | rest hobj hdirty htrie => exact h.of_objects htrie hobj

/-- Undoing all these entries, the first of them first, keeps `P`. -/
def Restoring (T : Trie) (P : Address → Option Shown → Prop) (es : List Change) : Prop :=
  ∀ (ep : Bool) (db db' : StateDB), Holds T P db →
    es.foldlM (undoUnlessAsset ep) db = some db' → Holds T P db'

theorem Restoring.nil : Restoring T P [] := by
  intro ep db db' hI hu
  cases hu
  exact hI

theorem Restoring.append {es' : List Change} (h : Restoring T P es) (h' : Restoring T P es') :
    Restoring T P (es ++ es') := by
  intro ep db db' hI hu
  rw [List.foldlM_append] at hu
  obtain ⟨db1, h1, hu⟩ := bind_eq_some_iff.1 hu
  exact h' _ _ _ (h _ _ _ hI h1) hu

theorem Restoring.single (he : Restores T P e) : Restoring T P [e] := by
  intro ep db db' hI hu
  obtain ⟨db1, h1, hu⟩ := bind_eq_some_iff.1 hu
  cases hu
  exact hI.undo he (takesBack h1)

/-- The journal has grown by entries whose undoing keeps `P`. -/
def Grew (T : Trie) (P : Address → Option Shown → Prop) (db db' : StateDB) : Prop :=
  ∃ es, db.journal.Extends db'.journal es ∧ Restoring T P es

/-- Every account has `P` still, and reverts give it back. -/
abbrev Carries (T : Trie) (P : Address → Option Shown → Prop) (db db' : StateDB) : Prop :=
  Holds T P db' ∧ Grew T P db db'

theorem Grew.refl (db : StateDB) : Grew T P db db := ⟨[], .refl _, .nil⟩

theorem Grew.trans (h : Grew T P db db') (h' : Grew T P db' db'') : Grew T P db db'' := by
  obtain ⟨es, he, hes⟩ := h
  obtain ⟨es', he', hes'⟩ := h'
  exact ⟨es' ++ es, he.trans he', hes'.append hes⟩

theorem Grew.of_journal (h : db'.journal = db.journal) : Grew T P db db' := ⟨[], h ▸ .refl _, .nil⟩

theorem Grew.of_append (h : db'.journal = db.journal.append e) (he : Restores T P e) :
    Grew T P db db' :=
  ⟨[e], h ▸ .append _ _, .single he⟩

/-- What `RevertToSnapshot` does to a database that has only grown since the snapshot. -/
theorem revertToSnapshot_eq (hx : db.snapshot.2.journal.Extends db'.journal es)
    (hr : db'.revertToSnapshot ep db.snapshot.1 = some db'') :
    ∃ db1, es.foldlM (undoUnlessAsset ep) db' = some db1 ∧
      ∃ j, db'' = { db1 with journal := j } ∧ db.journal.Extends j [] := by
  obtain ⟨j, hj, hext⟩ := hx.rollback
  have hj : db'.journal.rollback db.snapshot.1 = some (es, j) := hj
  unfold revertToSnapshot at hr
  rw [hj] at hr
  obtain ⟨db1, h1, rfl⟩ := map_eq_some_iff.1 hr
  exact ⟨db1, h1, j, rfl, hext⟩

theorem Holds.snapshot (h : Holds T P db) : Carries T P db db.snapshot.2 :=
  ⟨h.of_objects rfl rfl, [], .snapshot _, .nil⟩

theorem Holds.revert (h : Holds T P db') (hg : Grew T P db.snapshot.2 db')
    (hr : db'.revertToSnapshot ep db.snapshot.1 = some db'') :
    Carries T P db db'' := by
  obtain ⟨es, hx, hes⟩ := hg
  obtain ⟨db1, h1, j, rfl, hext⟩ := revertToSnapshot_eq hx hr
  exact ⟨(hes _ _ _ h h1).of_objects rfl rfl, [], hext, .nil⟩

/-! ## Changing -/

theorem Holds.create (h : Holds T P db)
    (hback : db.getStateObject a = none → P a ((T a).map fun s => (s.decode, false)))
    (hP : P a (some (o.data, o.suicided))) :
    Carries T P db ((db.record (db.createEntry a)).write a o) := by
  have hrec : Holds T P (db.record (db.createEntry a)) := h.of_objects rfl rfl
  refine ⟨hrec.write hP, .of_append rfl ?_⟩
  unfold createEntry
  cases hget : db.getStateObject a with
  | none => exact hback hget
  | some =>
    have hprev := h.shown a
    rwa [shown_of_get db a hget] at hprev

theorem Holds.edit (h : Holds T P db) {f : Writer} (hnew : db.getStateObject a = none →
      P a ((T a).map fun s => (s.decode, false)) ∧ P a (some (blank, false)))
    (hw : ∀ w, f (db.getOrNewStateObject a).2 = some w →
      P a (some ((db.getOrNewStateObject a).2.data, (db.getOrNewStateObject a).2.suicided)) →
      P a (some ((w.apply (db.getOrNewStateObject a).2).data,
          (w.apply (db.getOrNewStateObject a).2).suicided)) ∧
        Restores T P (w.entry a (db.getOrNewStateObject a).2)) :
    Carries T P db (db.edit a f) := by
  have hP : P a (some ((db.getOrNewStateObject a).2.data, (db.getOrNewStateObject a).2.suicided)) := by
    rcases getOrNew_cases db a with ⟨hsome, -⟩ | ⟨hnone, hfresh, -⟩
    · have hP := h.shown a
      rwa [shown_of_get db a hsome] at hP
    · rw [hfresh]
      exact (hnew hnone).2
  refine edit_rule (R := Carries T P db) db a ⟨h, .refl db⟩ (fun hnone => ?_) ?_
  · exact h.create (o := newObject blank) (fun _ => (hnew hnone).1) (hnew hnone).2
  · rintro t o w rfl - hf ⟨ht, hg⟩
    obtain ⟨hP', hres⟩ := hw w hf hP
    have hrec : Holds T P (t.record (w.entry a (db.getOrNewStateObject a).2)) :=
      ht.of_objects rfl rfl
    exact ⟨hrec.write hP', hg.trans (.of_append rfl hres)⟩

/-! ## Voting -/

variable {user : Address}

theorem Holds.setVoteCells (h : Holds T P db) {cells : Slice Address}
    (hP : ∀ d s, db.shown user = some (d, s) → P user (some (d, s)) →
      P user (some ({ d with voteList := cells }, s))) :
    Carries T P db (db.setVoteCells user cells) := by
  obtain ⟨htrie, -, -, hjournal⟩ := rest_setVoteCells db user cells
  refine ⟨h.update htrie ?_ fun b => shown_setVoteCells db user b cells, .of_journal hjournal⟩
  have hu := h.shown user
  cases hs : db.shown user with
  | none => rwa [hs] at hu
  | some => exact hP _ _ hs (hs ▸ hu)

/-- What holds of an account whatever its balance, its lock and its votes are, is kept by a vote. -/
theorem Holds.vote {g : Growth} {m : Int} {dl : Option (List Address)} {votes : List Vote} {ok : Bool}
    (h : Holds T P db) (hset : ∀ {d s} (v : Field), v.isVotes = true → P user (some (d, s)) →
      P user (some (v.set d, s))) (hnew : P user none →
      P user ((T user).map fun s => (s.decode, false)) ∧ P user (some (blank, false)))
    (hx : db.vote g m dl user votes = some (ok, db')) : Carries T P db db' := by
  refine vote_rule (P := Carries T P db) hx (fun _ e _ _ _ => ?_)
    fun t f ht hf => ?_
  · exact h.setVoteCells fun _ _ _ => hset (.voteList e.prev) rfl
  · have hedit : Carries T P t (t.edit user f) := by
      refine ht.1.edit (fun hnone => ?_) fun w hw hP => ?_
      · have hP := ht.1.shown user
        rw [StateDB.shown, hnone] at hP
        exact hnew hP
      · rcases hf _ w hw with rfl | ⟨v, hv, rfl⟩
        · exact ⟨hP, trivial⟩
        · refine ⟨hset v hv hP, fun d s hd => hset _ ?_ hd⟩
          cases v <;> first | rfl | cases hv
    exact ⟨hedit.1, ht.2.trans hedit.2⟩

end StateDB

end GoAoa.State
