import GoAoa.DelegateState.DB
import GoAoa.Lib.Run

/-!
# Reverting the delegate database

Votes are changed without a journal entry, and undoing a suicide does not find the deleted
object, so a revert does not give back what happened to delegates that were live at the
snapshot. It is exact when everything since the snapshot concerns delegates registered after
it: their registration is in the journal and undoing it removes them, whatever was done to
them in between, and whatever nested snapshots were taken and reverted.
-/

namespace GoAoa.DelegateState

open List Option Function DelegateDB

/-- Nobody adds, takes or sets a negative number of votes. -/
inductive Op where
  | register (a : Address) (nickname : Bytes) (registerTime : Nat)
  | addVote (a : Address) (amount : Nat)
  | subVote (a : Address) (amount : Nat)
  | setVote (a : Address) (amount : Nat)
  | suicide (a : Address)
  | addLog (log : Log)
  | exist (a : Address)
  | snapshot
  | revert (id : Nat)

namespace DelegateDB

def step : Op → DelegateDB → Option DelegateDB
  | .register a nickname registerTime, db => some (db.getOrNewStateObject a nickname registerTime)
  | .addVote a amount, db => some (db.addVote a amount)
  | .subVote a amount, db => some (db.subVote a amount)
  | .setVote a amount, db => some (db.setVote a amount)
  | .suicide a, db => some (db.suicide a)
  | .addLog log, db => some (db.addLog log)
  | .exist a, db => some (db.exist a).1
  | .snapshot, db => some db.snapshot.2
  | .revert id, db => db.revertToSnapshot id

/-- Both databases answer `Exist`, `GetVote` and `GetDelegates` alike. -/
structure SameView (H : HexForm) (db db' : DelegateDB) : Prop where
  exist : ∀ a, (db.exist a).2 = (db'.exist a).2
  getVote : ∀ a, (db.getVote a).2 = (db'.getVote a).2
  getDelegates : db.getDelegates H = db'.getDelegates H

/-- The delegate is known neither to the memory of `db` nor, if `db` is loaded, to its trie. -/
def New (db : DelegateDB) (a : Address) : Prop := db.delegateObjects.lookup a = none

/-- All delegates of the trie are in memory, as `New` loads them. -/
def Loaded (db : DelegateDB) : Prop := ∀ a, db.New a → db.trie.lookup a = none

section Loaded

variable {db : DelegateDB} {a : Address}

theorem Loaded.load (hl : db.Loaded) (ha : db.delegateObjects.lookup a = none) :
    db.load a = (db, none) := by
  simp [DelegateDB.load, hl a ha]

theorem Loaded.getStateObjectContainDelete (hl : db.Loaded) (a : Address) :
    db.getStateObjectContainDelete a = (db, db.delegateObjects.lookup a) := by
  unfold DelegateDB.getStateObjectContainDelete
  split
  · rename_i obj h; rw [h]
  · rename_i h; rw [h, hl.load h]

theorem Loaded.getStateObject (hl : db.Loaded) (a : Address) :
    db.getStateObject a = (db, (db.delegateObjects.lookup a).filter
      fun obj => !(obj.deleted || obj.data.delete)) := by
  unfold DelegateDB.getStateObject
  split
  · rename_i obj h
    rw [h]
    by_cases hd : obj.deleted || obj.data.delete <;> simp [Option.filter, hd]
  · rename_i h; rw [h, hl.load h]; rfl

end Loaded

/-- What may happen after the snapshot `id` of `db₀`: changes of new delegates, changes without
effect, and reverts to later snapshots. -/
def Spares (db₀ : DelegateDB) (id : Nat) : Op → DelegateDB → Prop
  | .register a _ _, db => db₀.New a ∨ (db.exist a).2 = true
  | .addVote a amount, db => db₀.New a ∨ amount = 0 ∨ (db.exist a).2 = false
  | .subVote a amount, db => db₀.New a ∨ amount = 0 ∨ (db.getVote a).2 = 0
  | .setVote a amount, db => db₀.New a ∨ (db.exist a).2 = false ∨ (db.getVote a).2 = amount
  | .suicide a, db => db₀.New a ∨ (db.exist a).2 = false
  | .revert i, db => id < i ∧ ∃ es, db.journal.Since i es
  | _, _ => True

/-! ## The changes since the snapshot -/

def FreshChange (db₀ : DelegateDB) : Change → Prop
  | .createObject a => db₀.New a
  | .suicide a _ _ => db₀.New a
  | .resetObject _ _ => False
  | .addLog _ => True

/-- `es` undo everything by which `db` differs from the loaded database `db₀`. -/
structure Covered (db₀ : DelegateDB) (es : List Change) (db : DelegateDB) : Prop where
  trie : db.trie = db₀.trie
  known : ∀ a obj, db₀.delegateObjects.lookup a = some obj → db.delegateObjects.lookup a = some obj
  created : ∀ a, db₀.New a → (db.delegateObjects.lookup a).isSome → .createObject a ∈ es
  fresh : ∀ e ∈ es, db₀.FreshChange e
  logs : ∀ h, es.count (.addLog h) ≤ (db.logs h).length

variable {db₀ db db' : DelegateDB} {es rest : List Change} {a : Address} {id : Nat}

namespace Covered

theorem self (db₀ : DelegateDB) (j : Journal Change) : Covered db₀ [] { db₀ with journal := j } where
  trie := rfl
  known _ _ h := h
  created a hn hs := by simp [show db₀.delegateObjects.lookup a = none from hn] at hs
  fresh := by simp
  logs := by simp

theorem loaded (hc : Covered db₀ es db) (hl : db₀.Loaded) : db.Loaded := by
  intro a ha
  rw [hc.trie]
  refine hl a ?_
  cases h : db₀.delegateObjects.lookup a with
  | none => exact h
  | some obj => cases (hc.known a obj h).symm.trans ha

theorem getStateObjectContainDelete (hc : Covered db₀ es db) (hl : db₀.Loaded) (a : Address) :
    db.getStateObjectContainDelete a = (db, db.delegateObjects.lookup a) :=
  (hc.loaded hl).getStateObjectContainDelete a

theorem getStateObject (hc : Covered db₀ es db) (hl : db₀.Loaded) (a : Address) :
    db.getStateObject a = (db, (db.delegateObjects.lookup a).filter
      fun obj => !(obj.deleted || obj.data.delete)) :=
  (hc.loaded hl).getStateObject a

theorem set_new (hc : Covered db₀ es db) (hn : db₀.New a) (he : .createObject a ∈ es)
    (obj : DelegateObject) : Covered db₀ es (db.setStateObject a obj) where
  trie := hc.trie
  known x o hx := by
    have hne : x ≠ a := fun h => by
      rw [h, show db₀.delegateObjects.lookup a = none from hn] at hx; cases hx
    rw [lookup_setStateObject, if_neg hne]
    exact hc.known x o hx
  created x hx hs := by
    rw [lookup_setStateObject] at hs
    split at hs
    · rename_i hxa; rw [hxa]; exact he
    · exact hc.created x hx hs
  fresh := hc.fresh
  logs := hc.logs

theorem set_same (hc : Covered db₀ es db) {obj : DelegateObject}
    (ho : db.delegateObjects.lookup a = some obj) : Covered db₀ es (db.setStateObject a obj) := by
  have hlook : ∀ x, (db.setStateObject a obj).delegateObjects.lookup x =
      db.delegateObjects.lookup x := by
    intro x
    rw [lookup_setStateObject]
    split
    · rename_i hxa; rw [hxa, ho]
    · rfl
  exact { trie := hc.trie, known := fun x o hx => (hlook x).trans (hc.known x o hx),
          created := fun x hx hs => hc.created x hx (hlook x ▸ hs), fresh := hc.fresh,
          logs := hc.logs }

variable {e : Change}

theorem record (hc : Covered db₀ es db) (hf : db₀.FreshChange e)
    (htrie : db'.trie = db.trie) (hobj : db'.delegateObjects = db.delegateObjects)
    (hlogs : ∀ h, (e :: es).count (.addLog h) ≤ (db'.logs h).length) :
    Covered db₀ (e :: es) db' where
  trie := htrie.trans hc.trie
  known x obj hx := by rw [hobj]; exact hc.known x obj hx
  created x hx hs := mem_cons_of_mem _ (hc.created x hx (hobj ▸ hs))
  fresh := forall_mem_cons.2 ⟨hf, hc.fresh⟩
  logs := hlogs

/-! ## Undoing -/

theorem tail (hc : Covered db₀ (e :: es) db) (h : ∀ x, e ≠ .createObject x) :
    Covered db₀ es db where
  trie := hc.trie
  known := hc.known
  created x hx hs := (List.mem_cons.1 (hc.created x hx hs)).resolve_left fun h' => h x h'.symm
  fresh e he := hc.fresh e (List.mem_cons_of_mem _ he)
  logs x := le_trans (List.count_le_count_cons) (hc.logs x)

theorem undo_createObject (hc : Covered db₀ (.createObject a :: es) db) :
    Covered db₀ es { db with delegateObjects := db.delegateObjects.erase a
                             delegateObjectsDirty := db.delegateObjectsDirty.filter (· ≠ a) } where
  trie := hc.trie
  known x obj hx := by
    have hn := hc.fresh _ mem_cons_self
    have hne : x ≠ a := fun h => by
      rw [h, show db₀.delegateObjects.lookup a = none from hn] at hx; cases hx
    rw [AList.lookup_erase_ne hne]
    exact hc.known x obj hx
  created x hx hs := by
    by_cases hxa : x = a
    · rw [hxa, AList.lookup_erase] at hs; cases hs
    · rw [AList.lookup_erase_ne hxa] at hs
      rcases mem_cons.1 (hc.created x hx hs) with h | h
      · exact absurd (Change.createObject.inj h) hxa
      · exact h
  fresh e he := hc.fresh e (mem_cons_of_mem _ he)
  logs x := le_trans (count_le_count_cons) (hc.logs x)

theorem undo_suicide {prev : Bool} {prevVote : Int} (hl : db₀.Loaded)
    (hc : Covered db₀ (.suicide a prev prevVote :: es) db) :
    ∃ db', db.undo (.suicide a prev prevVote) = some db' ∧ Covered db₀ es db' := by
  have ht := hc.tail (by simp)
  simp only [DelegateDB.undo, hc.getStateObject hl]
  cases h : (db.delegateObjects.lookup a).filter fun obj => !(obj.deleted || obj.data.delete) with
  | none => exact ⟨db, rfl, ht⟩
  | some =>
    have hn := hc.fresh _ mem_cons_self
    obtain ⟨ho, -⟩ := filter_eq_some_iff.1 h
    exact ⟨_, rfl, ht.set_new hn (ht.created a hn (by rw [ho]; rfl)) _⟩

theorem undo_addLog {txhash : Hash} (hc : Covered db₀ (.addLog txhash :: es) db) :
    ∃ db', db.undo (.addLog txhash) = some db' ∧ Covered db₀ es db' := by
  have hlen := hc.logs txhash
  rw [count_cons_self] at hlen
  have hne : db.logs txhash ≠ [] := by
    intro h
    rw [h] at hlen
    simp at hlen
  refine ⟨_, by rw [DelegateDB.undo, if_neg hne], ?_⟩
  have ht := hc.tail (by simp)
  refine { trie := ht.trie, known := ht.known, created := ht.created, fresh := ht.fresh,
           logs := fun h => ?_ }
  dsimp only
  by_cases hh : h = txhash
  · rw [hh, update_self, length_dropLast]
    omega
  · rw [update_of_ne hh]
    exact ht.logs h

theorem undo (hl : db₀.Loaded) (hc : Covered db₀ (e :: es) db) :
    ∃ db', db.undo e = some db' ∧ Covered db₀ es db' := by
  cases e with
  | createObject => exact ⟨_, rfl, hc.undo_createObject⟩
  | resetObject => exact (hc.fresh _ mem_cons_self).elim
  | suicide => exact hc.undo_suicide hl
  | addLog => exact hc.undo_addLog

theorem undoAll {undone : List Change} (hl : db₀.Loaded) (hc : Covered db₀ (undone ++ rest) db) :
    ∃ db', undone.foldlM DelegateDB.undo db = some db' ∧ Covered db₀ rest db' := by
  induction undone generalizing db with
  | nil => exact ⟨db, rfl, hc⟩
  | cons e undone ih =>
    obtain ⟨db1, h1, hc1⟩ := hc.undo hl
    obtain ⟨db2, h2, hc2⟩ := ih hc1
    exact ⟨db2, by rw [foldlM_cons, h1]; exact h2, hc2⟩

theorem setJournal (hc : Covered db₀ es db) (j : Journal Change) :
    Covered db₀ es { db with journal := j } :=
  { trie := hc.trie, known := hc.known, created := hc.created, fresh := hc.fresh, logs := hc.logs }

/-- With every change undone the database answers as at the snapshot. -/
theorem sameView (hc : Covered db₀ [] db) (H : HexForm) : SameView H db₀ db := by
  have hlook : ∀ a, db₀.delegateObjects.lookup a = db.delegateObjects.lookup a := by
    intro a
    cases h : db₀.delegateObjects.lookup a with
    | some obj => rw [hc.known a obj h]
    | none =>
      cases h' : db.delegateObjects.lookup a with
      | none => rfl
      | some => exact absurd (hc.created a h (by rw [h']; rfl)) not_mem_nil
  have htrie : ∀ a, db₀.trie.lookup a = db.trie.lookup a := fun a => by rw [hc.trie]
  exact { exist := fun a => exist_congr (hlook a) (htrie a)
          getVote := fun a => getVote_congr (hlook a) (htrie a)
          getDelegates := getDelegates_congr hlook H }

end Covered

/-! ## Operations after the snapshot -/

/-- `id` can be reverted to, and the changes since then cover `db`. -/
def Tracked (db₀ : DelegateDB) (id : Nat) (db : DelegateDB) : Prop :=
  ∃ es, db.journal.Since id es ∧ Covered db₀ es db

namespace Tracked

variable {obj : DelegateObject}

section

variable (ht : Tracked db₀ id db)
include ht

theorem getVote_eq (hl : db₀.Loaded)
    (ho : db.delegateObjects.lookup a = some obj) : (db.getVote a).2 = obj.data.vote := by
  obtain ⟨es, -, hc⟩ := ht
  simp [getVote, hc.getStateObjectContainDelete hl, ho]

theorem set_new (hn : db₀.New a)
    (ho : db.delegateObjects.lookup a = some obj) (obj' : DelegateObject) :
    Tracked db₀ id (db.setStateObject a obj') := by
  obtain ⟨es, hs, hc⟩ := ht
  exact ⟨es, hs, hc.set_new hn (hc.created a hn (by rw [ho]; rfl)) obj'⟩

theorem set_same
    (ho : db.delegateObjects.lookup a = some obj) : Tracked db₀ id (db.setStateObject a obj) := by
  obtain ⟨es, hs, hc⟩ := ht
  exact ⟨es, hs, hc.set_same ho⟩

section

variable (hl : db₀.Loaded)
include hl

/-- A delegate that is not live is not found, and one that is live is found in memory. -/
theorem live (a : Address) : db.getStateObject a = (db, none) ∧ (db.exist a).2 = false ∨
      ∃ obj, db.getStateObject a = (db, some obj) ∧ db.delegateObjects.lookup a = some obj ∧
        (db.exist a).2 = true := by
  obtain ⟨es, -, hc⟩ := ht
  have hg := hc.getStateObject hl a
  cases ho : (db.delegateObjects.lookup a).filter fun obj => !(obj.deleted || obj.data.delete) with
  | none => exact .inl ⟨hg.trans (by rw [ho]), by rw [exist, hg, ho]; rfl⟩
  | some obj =>
    exact .inr ⟨obj, hg.trans (by rw [ho]), (filter_eq_some_iff.1 ho).1, by rw [exist, hg, ho]; rfl⟩

variable {amount : Int}

theorem addVote
    (h : db₀.New a ∨ amount = 0 ∨ (db.exist a).2 = false) : Tracked db₀ id (db.addVote a amount) := by
  rw [DelegateDB.addVote]
  rcases ht.live hl a with ⟨hg, -⟩ | ⟨obj, hg, ho, he⟩
  · rw [hg]; exact ht
  · rw [hg]
    dsimp only
    split
    · exact ht
    · rename_i h0
      exact ht.set_new (h.resolve_right (by simp [h0, he])) ho _

theorem subVote (h : db₀.New a ∨ amount = 0 ∨ ((db.getVote a).2 = 0 ∧ 0 ≤ amount)) :
    Tracked db₀ id (db.subVote a amount) := by
  have ⟨es, hs, hc⟩ := ht
  simp only [DelegateDB.subVote, hc.getStateObjectContainDelete hl]
  cases ho : db.delegateObjects.lookup a with
  | none => exact ht
  | some obj =>
    rw [ht.getVote_eq hl ho] at h
    dsimp only
    by_cases h0 : amount = 0
    · rw [if_pos h0]; exact ht
    · rw [if_neg h0]
      rcases h with hn | h | ⟨hv, ha⟩
      · split <;> exact ht.set_new hn ho _
      · exact absurd h h0
      · rw [if_pos (by omega)]
        have hsame : { obj with data := { obj.data with vote := 0 } } = obj := by rw [← hv]
        rw [setVoteOf, hsame]
        exact ht.set_same ho

theorem setVote (h : db₀.New a ∨ (db.exist a).2 = false ∨ (db.getVote a).2 = amount) :
    Tracked db₀ id (db.setVote a amount) := by
  rw [DelegateDB.setVote]
  rcases ht.live hl a with ⟨hg, -⟩ | ⟨obj, hg, ho, he⟩
  · rw [hg]; exact ht
  · rw [hg]
    rw [he, ht.getVote_eq hl ho] at h
    rcases h with hn | h | h
    · exact ht.set_new hn ho _
    · cases h
    · have hsame : { obj with data := { obj.data with vote := amount } } = obj := by rw [← h]
      dsimp only
      rw [setVoteOf, hsame]
      exact ht.set_same ho

theorem suicide (h : db₀.New a ∨ (db.exist a).2 = false) : Tracked db₀ id (db.suicide a) := by
  rw [DelegateDB.suicide]
  rcases ht.live hl a with ⟨hg, -⟩ | ⟨obj, hg, ho, he⟩
  · rw [hg]; exact ht
  · rw [hg]
    have hn := h.resolve_right (by simp [he])
    obtain ⟨es, hs, hc⟩ := ht
    have hrec : Tracked db₀ id (db.record (.suicide a obj.suicided obj.data.vote)) :=
      ⟨_, hs.append _, hc.record hn rfl rfl fun h => by
        rw [count_cons_of_ne (by simp)]
        exact hc.logs h⟩
    exact hrec.set_new hn ho _

end

theorem createObject (hn : db₀.New a)
    (hdead : db.getStateObject a = (db, none)) (nickname : Bytes) (time : Nat) :
    Tracked db₀ id (db.createObject a nickname time) := by
  obtain ⟨es, hs, hc⟩ := ht
  rw [DelegateDB.createObject, hdead]
  have hrec : Covered db₀ (.createObject a :: es)
      ((db.markStateObjectDirty a).record (.createObject a)) := hc.record hn rfl rfl fun h => by
    rw [count_cons_of_ne (by simp)]
    exact hc.logs h
  exact ⟨_, hs.append _, hrec.set_new hn mem_cons_self _⟩

theorem register (hl : db₀.Loaded)
    (h : db₀.New a ∨ (db.exist a).2 = true) (nickname : Bytes) (time : Nat) :
    Tracked db₀ id (db.getOrNewStateObject a nickname time) := by
  have ⟨es, _, hc⟩ := ht
  have hcreate (hg : db.getStateObject a = (db, none)) (he : (db.exist a).2 = false) :=
    ht.createObject (h.resolve_right (by simp [he])) hg nickname time
  rw [getOrNewStateObject, hc.getStateObjectContainDelete hl]
  cases ho : db.delegateObjects.lookup a with
  | none =>
    rcases ht.live hl a with ⟨hg, he⟩ | ⟨obj, -, ho', -⟩
    · exact hcreate hg he
    · cases ho.symm.trans ho'
  | some =>
    dsimp only
    split
    · rename_i hd
      have hdead : db.getStateObject a = (db, none) := by
        simp [DelegateDB.getStateObject, ho, hd]
      have he : (db.exist a).2 = false := by rw [exist, hdead]; rfl
      exact (hcreate hdead he).addVote hl (.inl (h.resolve_right (by simp [he])))
    · exact ht

theorem addLog (log : Log) : Tracked db₀ id (db.addLog log) := by
  obtain ⟨es, hs, hc⟩ := ht
  refine ⟨_, hs.append _, hc.record trivial rfl rfl fun h => ?_⟩
  have := hc.logs h
  dsimp only [DelegateDB.addLog]
  by_cases hh : h = db.thash
  · rw [hh] at this ⊢
    simpa using this
  · rw [count_cons_of_ne (by simpa using fun h' => hh h'.symm), update_of_ne hh]
    exact this

theorem snapshot : Tracked db₀ id db.snapshot.2 := by
  obtain ⟨es, hs, hc⟩ := ht
  exact ⟨es, hs.snapshot, hc.setJournal _⟩

/-- Reverting to a later snapshot undoes the newest changes. -/
theorem revert {i : Nat} (hl : db₀.Loaded) (hi : id < i) (hv : ∃ es, db.journal.Since i es) :
    ∃ db', db.revertToSnapshot i = some db' ∧ Tracked db₀ id db' := by
  obtain ⟨es, hs, hc⟩ := ht
  obtain ⟨undone, hu⟩ := hv
  obtain ⟨j', hj⟩ := hu.rollback
  obtain ⟨rest, rfl, hs'⟩ := hs.rollback_newer hi hj
  obtain ⟨db1, h1, hc1⟩ := hc.undoAll hl
  exact ⟨{ db1 with journal := j' }, by simp only [revertToSnapshot, hj, h1, map_some],
    rest, hs', hc1.setJournal j'⟩

end

theorem step {op : Op} (hl : db₀.Loaded) (hp : Spares db₀ id op db) (ht : Tracked db₀ id db) :
    ∃ db', db.step op = some db' ∧ Tracked db₀ id db' := by
  cases op with
  | register a nickname time => exact ⟨_, rfl, ht.register hl hp nickname time⟩
  | addVote => exact ⟨_, rfl, ht.addVote hl (hp.imp_right (.imp_left Int.natCast_eq_zero.2))⟩
  | subVote =>
    exact ⟨_, rfl, ht.subVote hl (hp.imp_right (.imp Int.natCast_eq_zero.2
      fun h => ⟨h, Int.natCast_nonneg _⟩))⟩
  | setVote => exact ⟨_, rfl, ht.setVote hl hp⟩
  | suicide => exact ⟨_, rfl, ht.suicide hl hp⟩
  | addLog log => exact ⟨_, rfl, ht.addLog log⟩
  | exist =>
    have ⟨es, hs, hc⟩ := ht
    refine ⟨_, rfl, ?_⟩
    simp only [exist, hc.getStateObject hl]
    exact ht
  | snapshot => exact ⟨_, rfl, ht.snapshot⟩
  | revert => exact ht.revert hl hp.1 hp.2

end Tracked

/-- **Revert exactness** for operations that spare the delegates live at the snapshot: they run
without a panic, so does the revert, and the database answers as at the snapshot. -/
theorem revert_exact {ops : List Op} (H : HexForm) (hl : db.Loaded)
    (ha : Run.Along step (Spares db db.snapshot.1) ops db.snapshot.2) :
    ∃ db₁ db₂, Run.exec step ops db.snapshot.2 = some db₁ ∧
      db₁.revertToSnapshot db.snapshot.1 = some db₂ ∧ SameView H db db₂ := by
  have h0 : Tracked db db.snapshot.1 db.snapshot.2 :=
    ⟨[], Journal.Since.snapshot_self db.journal, Covered.self db _⟩
  obtain ⟨db₁, h1, es, hs, hc⟩ := Run.progress (fun _ _ hp ht => Tracked.step hl hp ht) ha h0
  obtain ⟨j', hj⟩ := hs.rollback
  obtain ⟨db₂, h2, hc2⟩ := Covered.undoAll hl (by rwa [append_nil])
  refine ⟨db₁, { db₂ with journal := j' }, h1, ?_, (hc2.setJournal j').sameView H⟩
  simp only [revertToSnapshot, hj, h2, map_some]

def empty : DelegateDB :=
  { trie := ∅, delegateObjects := ∅, delegateObjectsDirty := [], thash := 0, bhash := 0,
    txIndex := 0, logs := fun _ => [], logSize := 0, journal := .empty }

def single : DelegateDB := empty.getOrNewStateObject 1 [] 0

theorem single_loaded : single.Loaded := fun _ _ => rfl

theorem revert_exact_register :
    ∃ db₁ db₂, Run.exec step [.register 2 [] 7, .addVote 2 5, .suicide 2, .register 2 [] 9]
        single.snapshot.2 = some db₁ ∧
      db₁.revertToSnapshot single.snapshot.1 = some db₂ ∧ SameView .bytes single db₂ := by
  have hn : single.New 2 := rfl
  refine revert_exact .bytes single_loaded ?_
  exact ⟨.inl hn, fun _ _ => ⟨.inl hn, fun _ _ => ⟨.inl hn, fun _ _ => ⟨.inl hn, fun _ _ =>
    trivial⟩⟩⟩⟩

/-- A vote added to a delegate that was live at the snapshot survives the revert. -/
theorem not_revert_exact_addVote :
    ∃ db₁ db₂, Run.exec step [.addVote 1 1] single.snapshot.2 = some db₁ ∧
      db₁.revertToSnapshot single.snapshot.1 = some db₂ ∧ ∀ H, ¬ SameView H single db₂ := by
  have hrun : ((Run.exec step [.addVote 1 1] single.snapshot.2).bind
      (·.revertToSnapshot single.snapshot.1)).map (fun db => (db.getVote 1).2) = some 1 := by
    decide +kernel
  obtain ⟨db₂, h, hv⟩ := map_eq_some_iff.1 hrun
  obtain ⟨db₁, h1, h2⟩ := bind_eq_some_iff.1 h
  refine ⟨db₁, db₂, h1, h2, fun H hsame => ?_⟩
  have := hsame.getVote 1
  rw [hv] at this
  exact absurd this (by decide)

end DelegateDB

end GoAoa.DelegateState
