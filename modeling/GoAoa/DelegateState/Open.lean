import GoAoa.DelegateState.Revert

/-!
# Open delegate databases

What every operation makes of the objects in memory. `New` loads all delegates of the trie, so an
address without an object is no delegate. An object is marked dirty when it is made, and only
then: `newObject` calls `onDirty` and drops it, and `AddVote`, `SubVote` and `Suicide` change the
object without a mark.
-/

namespace GoAoa.DelegateState

open List Bool DelegateDB DelegateObject

namespace DelegateDB

/-! ## Open databases -/

/-- What holds of every database since `New`, but for reverts. -/
structure Open (db : DelegateDB) : Prop where
  loaded : db.Loaded
  live : ∀ a obj, db.delegateObjects.lookup a = some obj →
    obj.deleted = false ∧ obj.suicided = false
  dirty : ∀ a ∈ db.delegateObjectsDirty, (db.delegateObjects.lookup a).isSome
  clean : ∀ a obj, db.delegateObjects.lookup a = some obj → a ∉ db.delegateObjectsDirty →
    (db.trie.lookup a).isSome

def Synced (db : DelegateDB) : Prop :=
  ∀ a obj d, db.delegateObjects.lookup a = some obj → a ∉ db.delegateObjectsDirty →
    db.trie.lookup a = some d → d = obj.data

section New

variable {tr : DelegateTrie} {db : DelegateDB}

/-- A database whose objects were loaded from the trie `tr`, and nothing else. -/
structure Loading (tr : DelegateTrie) (db : DelegateDB) : Prop where
  trie : db.trie = tr
  object : ∀ a obj, db.delegateObjects.lookup a = some obj →
    tr.lookup a = some obj.data ∧ obj = newObject obj.data
  dirty : ∀ a, a ∈ db.delegateObjectsDirty ↔ (db.delegateObjects.lookup a).isSome

theorem Loading.getStateObject (h : Loading tr db) (a : Address) :
    Loading tr (db.getStateObject a).1 ∧ (∀ b, (db.delegateObjects.lookup b).isSome →
        ((db.getStateObject a).1.delegateObjects.lookup b).isSome) ∧
      ((tr.lookup a).isSome → ((db.getStateObject a).1.delegateObjects.lookup a).isSome) := by
  unfold DelegateDB.getStateObject
  cases ha : db.delegateObjects.lookup a with
  | some => exact ⟨h, fun _ hb => hb, fun _ => by rw [ha]; rfl⟩
  | none =>
    unfold load
    rw [h.trie]
    cases ht : tr.lookup a with
    | none => exact ⟨h, fun _ hb => hb, fun hsome => by cases hsome⟩
    | some =>
      have hlook := lookup_setStateObject (db.markStateObjectDirty a) a
      refine ⟨⟨h.trie, fun b obj hb => ?_, fun b => ?_⟩, fun b hb => ?_, fun _ => ?_⟩
      · rw [hlook] at hb
        split at hb
        · rename_i hba; cases hb; rw [hba]; exact ⟨ht, rfl⟩
        · exact h.object b obj hb
      · rw [hlook]
        refine mem_insert_iff.trans ?_
        split
        · rename_i hba; exact ⟨fun _ => rfl, fun _ => .inl hba⟩
        · rename_i hba; exact (or_iff_right hba).trans (h.dirty b)
      · rw [hlook]
        split
        · rfl
        · exact hb
      · rw [hlook, if_pos rfl]; rfl

theorem loading_new (tr : DelegateTrie) : Loading tr (new tr) ∧ (new tr).Loaded := by
  have hfold : ∀ (ks : List Address) (db : DelegateDB), Loading tr db →
      let db' := ks.foldl (fun db a => (db.getStateObject a).1) db
      Loading tr db' ∧
        (∀ b, (db.delegateObjects.lookup b).isSome → (db'.delegateObjects.lookup b).isSome) ∧
        ∀ b ∈ ks, (tr.lookup b).isSome → (db'.delegateObjects.lookup b).isSome := by
    intro ks
    induction ks with
    | nil => exact fun db h => ⟨h, fun _ hb => hb, fun _ hb => by cases hb⟩
    | cons k ks ih =>
      intro db h
      obtain ⟨h1, hkeep, hload⟩ := h.getStateObject k
      obtain ⟨h2, hkeep', hload'⟩ := ih _ h1
      refine ⟨h2, fun b hb => hkeep' b (hkeep b hb), fun b hb ht => ?_⟩
      rcases mem_cons.1 hb with rfl | hb
      · exact hkeep' b (hload ht)
      · exact hload' b hb ht
  obtain ⟨h, -, hload⟩ := hfold tr.keys
    { trie := tr, delegateObjects := ∅, delegateObjectsDirty := [], thash := 0, bhash := 0
      txIndex := 0, logs := fun _ => [], logSize := 0, journal := .empty }
    ⟨rfl, fun a obj h => (Option.some_ne_none obj h.symm).elim,
      fun a => iff_of_false not_mem_nil false_ne_true⟩
  refine ⟨h, fun a ha => ?_⟩
  cases ht : (new tr).trie.lookup a with
  | none => rfl
  | some =>
    rw [show (new tr).trie = tr from h.trie] at ht
    have hmem := AList.lookup_isSome.1 (by rw [ht]; rfl)
    have hsome : ((new tr).delegateObjects.lookup a).isSome := hload a hmem (by rw [ht]; rfl)
    rw [show (new tr).delegateObjects.lookup a = none from ha] at hsome
    cases hsome

theorem lookup_new (tr : DelegateTrie) (a : Address) :
    (new tr).delegateObjects.lookup a = (tr.lookup a).map newObject := by
  obtain ⟨h, hl⟩ := loading_new tr
  cases ha : (new tr).delegateObjects.lookup a with
  | none =>
    have ht := hl a ha
    rw [h.trie] at ht
    rw [ht]
    rfl
  | some obj =>
    obtain ⟨ht, ho⟩ := h.object a obj ha
    rw [ht, ho]
    rfl

theorem open_new (tr : DelegateTrie) : (new tr).Open := by
  obtain ⟨h, hl⟩ := loading_new tr
  refine ⟨hl, fun a obj ha => ?_, fun a ha => (h.dirty a).1 ha, fun a obj ha hnot => ?_⟩
  · rw [(h.object a obj ha).2]; exact ⟨rfl, rfl⟩
  · exact absurd ((h.dirty a).2 (by rw [ha]; rfl)) hnot

theorem synced_new (tr : DelegateTrie) : (new tr).Synced :=
  fun a _ _ ha hnot _ => absurd (((loading_new tr).1.dirty a).2 (by rw [ha]; rfl)) hnot

end New

/-! ## Changes of one object -/

/-- The object of `a` becomes `f` of it, and is not marked. -/
structure Edits (a : Address) (f : DelegateObject → DelegateObject) (db db' : DelegateDB) :
    Prop where
  trie : db'.trie = db.trie
  lookup : ∀ b, db'.delegateObjects.lookup b =
    if b = a then (db.delegateObjects.lookup a).map f else db.delegateObjects.lookup b
  dirty : db'.delegateObjectsDirty = db.delegateObjectsDirty

/-- `a` gets the object `obj`, which is marked. -/
structure Creates (a : Address) (obj : DelegateObject) (db db' : DelegateDB) : Prop where
  trie : db'.trie = db.trie
  lookup : ∀ b, db'.delegateObjects.lookup b =
    if b = a then some obj else db.delegateObjects.lookup b
  dirty : db'.delegateObjectsDirty = db.delegateObjectsDirty.insert a

section Edits

variable {db db' : DelegateDB} {a : Address} {f : DelegateObject → DelegateObject}
  {obj : DelegateObject}

theorem Edits.set {obj' : DelegateObject} (ho : db.delegateObjects.lookup a = some obj)
    (hf : f obj = obj') (j : Journal Change) :
    Edits a f db { db.setStateObject a obj' with journal := j } where
  trie := rfl
  lookup b := by
    refine (lookup_setStateObject db a b obj').trans ?_
    rw [ho, Option.map_some, hf]
  dirty := rfl

theorem Edits.same (hf : ∀ obj, db.delegateObjects.lookup a = some obj → f obj = obj) :
    Edits a f db db where
  trie := rfl
  lookup b := by
    split
    · rename_i h
      rw [h]
      cases ho : db.delegateObjects.lookup a with
      | none => rfl
      | some obj => rw [Option.map_some, hf obj ho]
    · rfl
  dirty := rfl

theorem Edits.opened (he : Edits a f db db') (h : db.Open)
    (hf : ∀ obj, (f obj).deleted = obj.deleted ∧ (f obj).suicided = obj.suicided) : db'.Open := by
  have hsome : ∀ b,
      (db'.delegateObjects.lookup b).isSome = (db.delegateObjects.lookup b).isSome := by
    intro b
    rw [he.lookup]
    split
    · rename_i hb; rw [hb, Option.isSome_map]
    · rfl
  refine ⟨fun b hb => ?_, fun b o hb => ?_, fun b hb => ?_, fun b o hb hnot => ?_⟩
  · rw [he.trie]
    refine h.loaded b (Option.not_isSome_iff_eq_none.1 ?_)
    rw [← hsome, show db'.delegateObjects.lookup b = none from hb]
    exact false_ne_true
  · rw [he.lookup] at hb
    split at hb
    · obtain ⟨o', ho', rfl⟩ := Option.map_eq_some_iff.1 hb
      rw [(hf o').1, (hf o').2]
      exact h.live a o' ho'
    · exact h.live b o hb
  · rw [hsome]
    exact h.dirty b (he.dirty ▸ hb)
  · rw [he.trie]
    obtain ⟨o', ho'⟩ := Option.isSome_iff_exists.1 ((hsome b).symm.trans (by rw [hb]; rfl))
    exact h.clean b o' ho' (he.dirty ▸ hnot)

theorem Edits.synced (he : Edits a f db db') (h : db.Synced) (hf : a ∈ db.delegateObjectsDirty ∨
      ∀ obj, db.delegateObjects.lookup a = some obj → f obj = obj) : db'.Synced := by
  intro b o d ho hnot hd
  rw [he.trie] at hd
  rw [he.dirty] at hnot
  rw [he.lookup] at ho
  split at ho
  · rename_i hb
    obtain ⟨o', ho', rfl⟩ := Option.map_eq_some_iff.1 ho
    rw [hb] at hnot hd
    rw [hf.resolve_left hnot o' ho']
    exact h a o' d ho' hnot hd
  · exact h b o d ho hnot hd

theorem Creates.opened (hc : Creates a obj db db') (h : db.Open)
    (hobj : obj.deleted = false ∧ obj.suicided = false) : db'.Open := by
  refine ⟨fun b hb => ?_, fun b o hb => ?_, fun b hb => ?_, fun b o hb hnot => ?_⟩
  · have hb : db'.delegateObjects.lookup b = none := hb
    rw [hc.lookup] at hb
    split at hb
    · cases hb
    · rw [hc.trie]
      exact h.loaded b hb
  · rw [hc.lookup] at hb
    split at hb
    · cases hb; exact hobj
    · exact h.live b o hb
  · rw [hc.lookup]
    split
    · rfl
    · rename_i hne
      rw [hc.dirty] at hb
      exact h.dirty b ((mem_insert_iff.1 hb).resolve_left hne)
  · rw [hc.dirty] at hnot
    obtain ⟨hne, hnot⟩ := not_or.1 (mt mem_insert_iff.2 hnot)
    rw [hc.lookup, if_neg hne] at hb
    rw [hc.trie]
    exact h.clean b o hb hnot

theorem Creates.synced (hc : Creates a obj db db') (h : db.Synced) : db'.Synced := by
  intro b o d ho hnot hd
  rw [hc.dirty] at hnot
  obtain ⟨hne, hnot⟩ := not_or.1 (mt mem_insert_iff.2 hnot)
  rw [hc.lookup, if_neg hne] at ho
  rw [hc.trie] at hd
  exact h b o d ho hnot hd

end Edits

/-! ## The operations -/

end DelegateDB

namespace DelegateObject

def dead (obj : DelegateObject) : Bool := obj.deleted || obj.data.delete

def withVote (obj : DelegateObject) (vote : Int) : DelegateObject :=
  { obj with data := { obj.data with vote := vote } }

def addVote (amount : Int) (obj : DelegateObject) : DelegateObject :=
  if obj.dead then obj else obj.withVote (obj.data.vote + amount)

def subVote (amount : Int) (obj : DelegateObject) : DelegateObject :=
  if amount = 0 then obj else obj.withVote (max 0 (obj.data.vote - amount))

def setVote (amount : Int) (obj : DelegateObject) : DelegateObject :=
  if obj.dead then obj else obj.withVote amount

def suicide (obj : DelegateObject) : DelegateObject :=
  if obj.dead then obj else { obj with data := { obj.data with delete := true } }

theorem withVote_vote (obj : DelegateObject) : obj.withVote obj.data.vote = obj := rfl

end DelegateObject

namespace DelegateDB

section Operations

variable {db : DelegateDB} {a : Address}

section

variable (hl : db.Loaded)
include hl

theorem exist_eq : (db.exist a).2 = (db.delegateObjects.lookup a).any fun obj => !obj.dead := by
  unfold exist
  rw [hl.getStateObject]
  exact Option.isSome_filter

theorem getVote_eq :
    (db.getVote a).2 = ((db.delegateObjects.lookup a).map (·.data.vote)).getD 0 := by
  unfold getVote
  rw [hl.getStateObjectContainDelete]

theorem getStateObject_cases (a : Address) : (db.getStateObject a = (db, none) ∧
      ∀ obj, db.delegateObjects.lookup a = some obj → obj.dead = true) ∨
    ∃ obj, db.getStateObject a = (db, some obj) ∧ db.delegateObjects.lookup a = some obj ∧
      obj.dead = false := by
  unfold DelegateDB.getStateObject
  cases ho : db.delegateObjects.lookup a with
  | none => exact .inl ⟨hl.load ho, nofun⟩
  | some obj =>
    by_cases hd : obj.dead = true
    · exact .inl ⟨congrArg (Prod.mk db) (if_pos hd), fun _ h => Option.some.inj h ▸ hd⟩
    · exact .inr ⟨obj, congrArg (Prod.mk db) (if_neg hd), rfl, eq_false_iff.2 hd⟩

theorem edits_addVote (amount : Int) : Edits a (.addVote amount) db (db.addVote a amount) := by
  unfold addVote
  rcases getStateObject_cases hl a with ⟨heq, hdead⟩ | ⟨obj, heq, ho, hd⟩
  · rw [heq]
    exact .same fun obj ho => if_pos (hdead obj ho)
  · rw [heq]
    dsimp only
    split
    · rename_i hzero
      refine .same fun obj' _ => ?_
      unfold DelegateObject.addVote
      split
      · rfl
      · rw [hzero, Int.add_zero, withVote_vote]
    · have hf : obj.addVote amount = obj.withVote (obj.data.vote + amount) := by
        unfold DelegateObject.addVote
        rw [hd]
        rfl
      exact .set ho hf db.journal

theorem edits_subVote (amount : Int) : Edits a (.subVote amount) db (db.subVote a amount) := by
  unfold subVote
  rw [hl.getStateObjectContainDelete]
  cases ho : db.delegateObjects.lookup a with
  | none => exact .same fun obj h => by rw [ho] at h; cases h
  | some obj =>
    dsimp only
    split
    · rename_i hzero
      exact .same fun _ _ => if_pos hzero
    · rename_i hne
      have hf : obj.subVote amount = obj.withVote (max 0 (obj.data.vote - amount)) := if_neg hne
      split
      · rw [max_eq_left (by omega)] at hf
        exact .set ho hf db.journal
      · rw [max_eq_right (by omega)] at hf
        exact .set ho hf db.journal

theorem edits_setVote (amount : Int) : Edits a (.setVote amount) db (db.setVote a amount) := by
  unfold setVote
  rcases getStateObject_cases hl a with ⟨heq, hdead⟩ | ⟨obj, heq, ho, hd⟩
  · rw [heq]
    exact .same fun obj ho => if_pos (hdead obj ho)
  · rw [heq]
    have hf : obj.setVote amount = obj.withVote amount := by
      unfold DelegateObject.setVote
      rw [hd]
      rfl
    exact .set ho hf db.journal

theorem edits_suicide : Edits a .suicide db (db.suicide a) := by
  unfold suicide
  rcases getStateObject_cases hl a with ⟨heq, hdead⟩ | ⟨obj, heq, ho, hd⟩
  · rw [heq]
    exact .same fun obj ho => if_pos (hdead obj ho)
  · rw [heq]
    have hf : obj.suicide = { obj with data := { obj.data with delete := true } } := by
      unfold DelegateObject.suicide
      rw [hd]
      rfl
    exact .set ho hf _

end

/-- Registration makes a new object for a delegate that is not known, and one with the old votes
for a delegate that was deleted. -/
theorem register_cases (h : db.Open) (nickname : Bytes) (registerTime : Nat) :
    (∃ obj, db.delegateObjects.lookup a = some obj ∧ obj.data.delete = false ∧
      db.getOrNewStateObject a nickname registerTime = db) ∨
    ((∀ obj, db.delegateObjects.lookup a = some obj → obj.data.delete = true) ∧
      Creates a (newObject ⟨((db.delegateObjects.lookup a).map (·.data.vote)).getD 0, nickname,
        registerTime, false⟩) db (db.getOrNewStateObject a nickname registerTime)) := by
  have hcreate : (∀ obj, db.delegateObjects.lookup a = some obj → obj.data.delete = true) →
      Creates a (newObject ⟨0, nickname, registerTime, false⟩) db
        (db.createObject a nickname registerTime) := by
    intro hdead
    unfold createObject
    rcases getStateObject_cases h.loaded a with ⟨heq, -⟩ | ⟨obj, heq, ho, hd⟩
    · rw [heq]
      exact ⟨rfl, fun b => lookup_setStateObject _ a b _, rfl⟩
    · have hd : (obj.deleted || obj.data.delete) = false := hd
      rw [hdead obj ho, Bool.or_true] at hd
      cases hd
  unfold getOrNewStateObject
  rw [h.loaded.getStateObjectContainDelete]
  cases ho : db.delegateObjects.lookup a with
  | none => exact .inr ⟨nofun, hcreate fun obj h => by rw [ho] at h; cases h⟩
  | some obj =>
    dsimp only
    split
    · rename_i hd
      have hall : ∀ o, db.delegateObjects.lookup a = some o → o.data.delete = true := fun o h => by
        rw [ho] at h; cases h; exact hd
      refine .inr ⟨ho ▸ hall, ?_⟩
      have hc := hcreate hall
      have he := edits_addVote (a := a) (hc.opened h ⟨rfl, rfl⟩).loaded obj.data.vote
      refine ⟨he.trie.trans hc.trie, fun b => ?_, he.dirty.trans hc.dirty⟩
      rw [he.lookup, hc.lookup, hc.lookup, if_pos rfl]
      split
      · refine congrArg some ?_
        show withVote _ (0 + obj.data.vote) = _
        rw [Int.zero_add]
        rfl
      · rfl
    · rename_i hd
      exact .inl ⟨obj, rfl, not_eq_true _ ▸ hd, rfl⟩

end Operations

end DelegateDB

end GoAoa.DelegateState
