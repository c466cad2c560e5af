import GoAoa.Types
import GoAoa.Lib.Journal
import Mathlib.Data.Finmap
import Mathlib.Data.List.Sort

/-!
# The delegate database

`consensus/delegatestate`: the registered delegates and their votes, over a trie. Live objects
are pointers held in the map `delegateObjects`; the model changes the map entry. `newObject`
reports the object dirty and drops the callback, so nothing marks it dirty later. The storage of
delegates and the journal entries that no operation of the database makes are left out.
-/

namespace GoAoa.DelegateState

open List Option

/-- `Delegate`: the record a trie entry decodes to. -/
structure Delegate where
  vote : Int
  nickname : Bytes
  registerTime : Nat
  delete : Bool
  deriving DecidableEq, Repr

structure DelegateObject where
  data : Delegate
  deleted : Bool
  suicided : Bool
  deriving DecidableEq, Repr

def newObject (data : Delegate) : DelegateObject :=
  { data := data, deleted := false, suicided := false }

inductive Change where
  | createObject (account : Address)
  | resetObject (account : Address) (prev : DelegateObject)
  | suicide (account : Address) (prev : Bool) (prevVote : Int)
  | addLog (txhash : Hash)
  deriving DecidableEq, Repr

/-- The decoded entries of the trie. -/
abbrev DelegateTrie :=
  AList fun _ : Address => Delegate

structure DelegateDB where
  trie : DelegateTrie
  delegateObjects : AList fun _ : Address => DelegateObject
  delegateObjectsDirty : List Address
  thash : Hash
  bhash : Hash
  txIndex : Nat
  logs : Hash → List Log
  logSize : Nat
  journal : Journal Change

structure Candidate where
  address : Address
  vote : Nat
  nickname : Bytes
  registerTime : Nat
  deriving DecidableEq, Repr

/-- The order of the ranking: more votes first, then earlier registration, then the text of the
address in descending order. -/
def Candidate.before (H : HexForm) (x y : Candidate) : Bool :=
  if y.vote ≠ x.vote then y.vote < x.vote
  else if y.registerTime ≠ x.registerTime then x.registerTime < y.registerTime
  else H.hex y.address ≤ H.hex x.address

namespace Candidate

variable (H : HexForm) (x y z : Candidate)

theorem before_iff : x.before H y = true ↔
    y.vote < x.vote ∨ (y.vote = x.vote ∧ (x.registerTime < y.registerTime ∨
      (x.registerTime = y.registerTime ∧ H.hex y.address ≤ H.hex x.address))) := by
  unfold before
  by_cases hv : y.vote = x.vote
  · by_cases ht : y.registerTime = x.registerTime
    · simp [hv, ht]
    · have ht' := Ne.symm ht
      simp [hv, ht, ht']
  · simp [hv]

theorem before_total : (x.before H y || y.before H x) = true := by
  rw [Bool.or_eq_true, before_iff, before_iff]
  rcases String.le_total (H.hex y.address) (H.hex x.address) with h | h <;> grind

theorem before_trans (hxy : x.before H y = true) (hyz : y.before H z = true) :
    x.before H z = true := by
  rw [before_iff] at *
  grind

theorem address_of_before (hxy : x.before H y = true) (hyx : y.before H x = true) :
    x.address = y.address := by
  rw [before_iff] at *
  refine H.injective _ _ (String.le_antisymm ?_ ?_) <;> grind

end Candidate

namespace DelegateDB

section

variable (db : DelegateDB)

def setStateObject (a : Address) (obj : DelegateObject) : DelegateDB :=
  { db with delegateObjects := db.delegateObjects.insert a obj }

def markStateObjectDirty (a : Address) : DelegateDB :=
  { db with delegateObjectsDirty := db.delegateObjectsDirty.insert a }

def record (e : Change) : DelegateDB :=
  { db with journal := db.journal.append e }

end

theorem lookup_setStateObject (db : DelegateDB) (a b : Address) (obj : DelegateObject) :
    (db.setStateObject a obj).delegateObjects.lookup b =
      if b = a then some obj else db.delegateObjects.lookup b := by
  split
  · rename_i hb; rw [hb]; exact AList.lookup_insert _
  · rename_i hb; exact AList.lookup_insert_ne hb

section

variable (db : DelegateDB)

/-- The trie entry of `a` becomes a live object. -/
def load (a : Address) : DelegateDB × Option DelegateObject :=
  match db.trie.lookup a with
  | none => (db, none)
  | some data =>
    let obj := newObject data
    ((db.markStateObjectDirty a).setStateObject a obj, some obj)

def getStateObjectContainDelete (a : Address) : DelegateDB × Option DelegateObject :=
  match db.delegateObjects.lookup a with
  | some obj => (db, some obj)
  | none => db.load a

/-- `GetStateObject`: a live object that is deleted does not count, one just loaded does. -/
def getStateObject (a : Address) : DelegateDB × Option DelegateObject :=
  match db.delegateObjects.lookup a with
  | some obj => (db, if obj.deleted || obj.data.delete then none else some obj)
  | none => db.load a

end

section

variable (db : DelegateDB)

/-- `New`: every delegate of the trie is loaded. -/
def new (trie : DelegateTrie) : DelegateDB :=
  trie.keys.foldl (fun db a => (db.getStateObject a).1)
    { trie := trie, delegateObjects := ∅, delegateObjectsDirty := [], thash := 0, bhash := 0
      txIndex := 0, logs := fun _ => [], logSize := 0, journal := .empty }

/-! ## Queries -/

def exist (a : Address) : DelegateDB × Bool :=
  let r := db.getStateObject a
  (r.1, r.2.isSome)

def subExist (a : Address) : DelegateDB × Bool :=
  let r := db.getStateObjectContainDelete a
  (r.1, r.2.isSome)

def getVote (a : Address) : DelegateDB × Int :=
  let r := db.getStateObjectContainDelete a
  (r.1, (r.2.map (·.data.vote)).getD 0)

end

section

variable {db db' : DelegateDB} {a : Address}
  (ho : db.delegateObjects.lookup a = db'.delegateObjects.lookup a)
  (ht : db.trie.lookup a = db'.trie.lookup a)

include ho ht

theorem getStateObjectContainDelete_congr :
    (db.getStateObjectContainDelete a).2 = (db'.getStateObjectContainDelete a).2 := by
  unfold getStateObjectContainDelete load
  rw [ho, ht]
  cases db'.delegateObjects.lookup a with
  | some => rfl
  | none => cases db'.trie.lookup a <;> rfl

theorem getStateObject_congr : (db.getStateObject a).2 = (db'.getStateObject a).2 := by
  unfold getStateObject load
  rw [ho, ht]
  cases db'.delegateObjects.lookup a with
  | some => rfl
  | none => cases db'.trie.lookup a <;> rfl

theorem exist_congr : (db.exist a).2 = (db'.exist a).2 :=
  congrArg isSome (getStateObject_congr ho ht)

theorem getVote_congr : (db.getVote a).2 = (db'.getVote a).2 :=
  congrArg (fun r => (r.map fun obj => obj.data.vote).getD 0)
    (getStateObjectContainDelete_congr ho ht)

end

/-- The candidate of a live object, if it is ranked. -/
def candidate? (e : Sigma fun _ : Address => DelegateObject) : Option Candidate :=
  if e.2.data.delete || e.2.suicided then none
  else some ⟨e.1, u64 e.2.data.vote.natAbs, e.2.data.nickname, e.2.data.registerTime⟩

section

variable (db : DelegateDB)

section

variable (a : Address)

/-- `GetDelegates`: the live objects that are not deleted, ranked. -/
def getDelegates (H : HexForm) (db : DelegateDB) : List Candidate :=
  (db.delegateObjects.entries.filterMap candidate?).mergeSort (Candidate.before H)

/-! ## Changes -/

def setVoteOf (obj : DelegateObject) (vote : Int) : DelegateDB :=
  db.setStateObject a { obj with data := { obj.data with vote := vote } }

def addVote (amount : Int) : DelegateDB :=
  match db.getStateObject a with
  | (db, none) => db
  | (db, some obj) => if amount = 0 then db else db.setVoteOf a obj (obj.data.vote + amount)

/-- `SubVote`: of deleted delegates too, and never below zero. -/
def subVote (amount : Int) : DelegateDB :=
  match db.getStateObjectContainDelete a with
  | (db, none) => db
  | (db, some obj) =>
    if amount = 0 then db
    else if obj.data.vote - amount < 0 then db.setVoteOf a obj 0
    else db.setVoteOf a obj (obj.data.vote - amount)

def setVote (amount : Int) : DelegateDB :=
  match db.getStateObject a with
  | (db, none) => db
  | (db, some obj) => db.setVoteOf a obj amount

def suicide : DelegateDB :=
  match db.getStateObject a with
  | (db, none) => db
  | (db, some obj) =>
    (db.record (.suicide a obj.suicided obj.data.vote)).setStateObject a
      { obj with data := { obj.data with delete := true } }

def createObject (nickname : Bytes) (registerTime : Nat) : DelegateDB :=
  let newobj := newObject ⟨0, nickname, registerTime, false⟩
  match db.getStateObject a with
  | (db, none) => ((db.markStateObjectDirty a).record (.createObject a)).setStateObject a newobj
  | (db, some prev) =>
    ((db.markStateObjectDirty a).record (.resetObject a prev)).setStateObject a newobj

/-- `GetOrNewStateObject`: registers a delegate; one that was deleted keeps its votes. -/
def getOrNewStateObject (nickname : Bytes) (registerTime : Nat) : DelegateDB :=
  match db.getStateObjectContainDelete a with
  | (db, none) => db.createObject a nickname registerTime
  | (db, some obj) =>
    if obj.data.delete then (db.createObject a nickname registerTime).addVote a obj.data.vote
    else db

end

def addLog (log : Log) : DelegateDB :=
  let log := { log with txHash := db.thash, blockHash := db.bhash, txIndex := db.txIndex,
                        index := db.logSize }
  { db.record (.addLog db.thash) with
    logs := Function.update db.logs db.thash (db.logs db.thash ++ [log])
    logSize := db.logSize + 1 }

def prepare (thash bhash : Hash) (txIndex : Nat) : DelegateDB :=
  { db with thash := thash, bhash := bhash, txIndex := txIndex }

/-! ## Snapshots -/

def snapshot : Nat × DelegateDB :=
  let r := db.journal.snapshot
  (r.1, { db with journal := r.2 })

/-- `undo` of a journal entry. -/
def undo : Change → Option DelegateDB
  | .createObject a =>
    some { db with delegateObjects := db.delegateObjects.erase a
                   delegateObjectsDirty := db.delegateObjectsDirty.filter (· ≠ a) }
  | .resetObject a prev => some (db.setStateObject a prev)
  | .suicide a prev prevVote =>
    match db.getStateObject a with
    | (db, none) => some db
    | (db, some obj) => some (db.setVoteOf a { obj with suicided := prev } prevVote)
  | .addLog txhash =>
    -- slicing off the last of no logs panics
    if db.logs txhash = [] then none
    else some { db with logs := Function.update db.logs txhash (db.logs txhash).dropLast
                        logSize := u64 (db.logSize - 1) }

def revertToSnapshot (id : Nat) : Option DelegateDB :=
  match db.journal.rollback id with
  | none => none
  | some (undone, journal) => (undone.foldlM undo db).map fun db => { db with journal := journal }

/-! ## Writing to the trie -/

def clearJournal : DelegateDB := { db with journal := db.journal.clear }

/-- What `Finalise` writes for a dirty address; a dirty address without an object panics. -/
def finaliseOne (a : Address) : Option DelegateDB :=
  match db.delegateObjects.lookup a with
  | none => none
  | some obj =>
    if obj.suicided then
      some { db.setStateObject a { obj with deleted := true } with trie := db.trie.erase a }
    else some { db with trie := db.trie.insert a obj.data }

/-- `Finalise`. The addresses stay dirty. -/
def finalise : Option DelegateDB :=
  (db.delegateObjectsDirty.foldlM finaliseOne db).map clearJournal

/-- What `CommitTo` writes for an object of the map: an object that is not marked stays unwritten. -/
def commitOne (a : Address) : DelegateDB :=
  match db.delegateObjects.lookup a with
  | none => db
  | some obj =>
    let db :=
      if obj.suicided then
        { db.setStateObject a { obj with deleted := true } with trie := db.trie.erase a }
      else if a ∈ db.delegateObjectsDirty then { db with trie := db.trie.insert a obj.data }
      else db
    { db with delegateObjectsDirty := db.delegateObjectsDirty.filter (· ≠ a) }

/-- `CommitTo`. The root it returns is that of the new trie. -/
def commitTo : DelegateDB :=
  (db.delegateObjects.keys.foldl commitOne db).clearJournal

/-! ## The ranking -/

/-- The candidate of the live object of `a`. -/
def ranked (a : Address) : Option Candidate :=
  (db.delegateObjects.lookup a).bind fun obj => candidate? ⟨a, obj⟩

end

theorem address_candidate {e : Sigma fun _ : Address => DelegateObject} {c : Candidate}
    (h : candidate? e = some c) : c.address = e.1 := by
  unfold candidate? at h
  split at h
  · cases h
  · cases h; rfl

theorem address_ranked {db : DelegateDB} {a : Address} {c : Candidate}
    (h : db.ranked a = some c) : c.address = a := by
  obtain ⟨obj, -, hc⟩ := bind_eq_some_iff.1 h
  exact address_candidate hc

section Ranking

variable {db db' : DelegateDB} {l : List (Sigma fun _ => DelegateObject)}

theorem mem_candidates (hl : l.Perm db.delegateObjects.entries) (c : Candidate) :
    c ∈ l.filterMap candidate? ↔ db.ranked c.address = some c := by
  rw [mem_filterMap]
  unfold ranked
  constructor
  · rintro ⟨e, he, hc⟩
    have hlook := AList.mem_lookup_iff.2 (hl.mem_iff.1 he)
    rw [address_candidate hc, hlook]
    exact hc
  · intro h
    obtain ⟨obj, hlook, hc⟩ := bind_eq_some_iff.1 h
    exact ⟨_, hl.mem_iff.2 (AList.mem_lookup_iff.1 hlook), hc⟩

theorem nodup_candidates (hl : l.Perm db.delegateObjects.entries) :
    ((l.filterMap candidate?).map Candidate.address).Nodup := by
  have hkeys := pairwise_map.1 ((perm_nodupKeys hl).2 db.delegateObjects.nodupKeys)
  rw [List.Nodup, pairwise_map]
  refine List.Pairwise.filterMap _ (fun e f hne x hx y hy => ?_) hkeys
  rw [address_candidate hx, address_candidate hy]
  exact hne

variable {H : HexForm}

theorem mem_getDelegates (c : Candidate) : c ∈ db.getDelegates H ↔ db.ranked c.address = some c :=
  (mergeSort_perm _ _).mem_iff.trans (mem_candidates (.refl _) c)

theorem nodup_getDelegates : (db.getDelegates H).Nodup :=
  (mergeSort_perm _ _).nodup_iff.2 ((nodup_candidates (.refl _)).of_map _)

theorem eq_getDelegates {r : List Candidate} (hnodup : r.Nodup)
    (hmem : ∀ c, c ∈ r ↔ db.ranked c.address = some c)
    (hsorted : r.Pairwise fun x y => x.before H y) : r = db.getDelegates H := by
  have hperm : r.Perm (db.getDelegates H) :=
    (perm_ext_iff_of_nodup hnodup nodup_getDelegates).2 fun c =>
      (hmem c).trans (mem_getDelegates c).symm
  refine List.Perm.eq_of_pairwise (fun x y hx hy hxy hyx => ?_) hsorted
    (pairwise_mergeSort (Candidate.before_trans H) (Candidate.before_total H) _) hperm
  have haddr := Candidate.address_of_before H x y hxy hyx
  have hx' := (hmem x).1 hx
  rw [haddr, (mem_getDelegates y).1 hy] at hx'
  exact (some.inj hx').symm

/-- **The ranking is a function of the live objects**, whatever order the map is walked in. -/
theorem getDelegates_eq_iff (H : HexForm) :
    db.getDelegates H = db'.getDelegates H ↔ ∀ a, db.ranked a = db'.ranked a := by
  refine ⟨fun h a => ext fun c => ?_, fun h => ?_⟩
  · by_cases haddr : c.address = a
    · rw [← haddr, ← mem_getDelegates, ← mem_getDelegates, h]
    · exact iff_of_false (mt address_ranked haddr) (mt address_ranked haddr)
  · refine eq_getDelegates nodup_getDelegates (fun c => ?_)
      (pairwise_mergeSort (Candidate.before_trans H) (Candidate.before_total H) _)
    rw [← h]
    exact mem_getDelegates c

theorem getDelegates_congr (h : ∀ a, db.delegateObjects.lookup a = db'.delegateObjects.lookup a)
    (H : HexForm) : db.getDelegates H = db'.getDelegates H :=
  (getDelegates_eq_iff H).2 fun a => by rw [ranked, ranked, h]

end Ranking

end DelegateDB

end GoAoa.DelegateState
