import GoAoa.State.Account
import GoAoa.Lib.Journal

/-!
# The account database

`core/state`: live state objects over a trie, with a journal of changes. Objects are pointers
held in a map; the model changes the map entry. Loading an object from the trie into the map has
no other effect, so reading does not change the database. Preimages and the database errors that
objects remember are left out. `none` is a panic.
-/

namespace GoAoa.State

open Function Account

/-- `onDirty` tells whether the callback that reports the object dirty is still there. -/
structure StateObject where
  data : Account
  suicided : Bool
  touched : Bool
  onDirty : Bool

def newObject (data : Account) : StateObject :=
  { data := data, suicided := false, touched := false, onDirty := true }

/-- An entry of the map of objects. `deleteStateObject` leaves the object there with a flag. -/
inductive Slot where
  | live (obj : StateObject)
  | deleted (obj : StateObject)

/-! ## Journaled changes of one object -/

/-- A field of an account and a value for it. -/
inductive Field where
  | balance (v : Int)
  | lockBalance (v : Int)
  | voteList (v : Slice Address)
  | nonce (v : Nat)
  | storage (key value : Hash)
  | code (v : Bytes)

def Field.set (d : Account) : Field → Account
  | .balance v => { d with balance := v }
  | .lockBalance v => { d with lockBalance := some v }
  | .voteList v => { d with voteList := v }
  | .nonce v => { d with nonce := v }
  | .storage key value => { d with storage := update d.storage key value }
  | .code v => { d with code := v }

def Field.current (d : Account) : Field → Field
  | .balance _ => .balance d.balance
  | .lockBalance _ => .lockBalance (d.lockBalance.getD 0)
  | .voteList _ => .voteList d.voteList
  | .nonce _ => .nonce d.nonce
  | .storage key _ => .storage key (d.storage key)
  | .code _ => .code d.code

/-- The entries of the journal. The six that restore one field are one constructor. -/
inductive Change where
  | createObject (account : Address)
  | resetObject (account : Address) (prev : StateObject)
  | suicide (account : Address) (prev : Bool) (prevbalance : Int)
  | field (account : Address) (prev : Field)
  | refund (prev : Nat)
  | addLog (txhash : Hash)
  | touch (account : Address) (prev prevDirty : Bool)
  | assetBalance (account : Address) (asset : Asset) (preOpIsAdd : Bool)

/-- A change of an object that is entered in the journal and reports the object dirty. -/
inductive Write where
  | field (f : Field)
  | addAsset (a : Asset)
  | subAsset (a : Asset)
  | touch
  | suicide

/-- The change an edit asks for, by the object it finds. -/
abbrev Writer :=
  StateObject → Option Write

def Write.apply (o : StateObject) : Write → StateObject
  | .field f => { o with data := f.set o.data }
  | .addAsset a => { o with data := { o.data with assetList := o.data.assetList.addAsset a } }
  | .subAsset a =>
    { o with data := { o.data with
      assetList := (o.data.assetList.subAsset a).getD o.data.assetList } }
  | .touch => { o with touched := true }
  | .suicide => { o with suicided := true, data := { o.data with balance := 0 } }

def Write.entry (a : Address) (o : StateObject) : Write → Change
  | .field f => .field a (f.current o.data)
  | .addAsset x => .assetBalance a x true
  | .subAsset x => .assetBalance a x false
  | .touch => .touch a o.touched (!o.onDirty)
  | .suicide => .suicide a o.suicided o.data.balance

structure StateDB where
  /-- The decoded entries of the trie. -/
  trie : Trie
  stateObjects : Address → Option Slot
  stateObjectsDirty : List Address
  refund : Nat
  thash : Hash
  bhash : Hash
  txIndex : Nat
  logs : Hash → List Log
  logSize : Nat
  journal : Journal Change

namespace StateDB

/-- `New`: the database over a trie. -/
def new (trie : Trie) : StateDB where
  trie := trie
  stateObjects := fun _ => none
  stateObjectsDirty := []
  refund := 0
  thash := 0
  bhash := 0
  txIndex := 0
  logs := fun _ => []
  logSize := 0
  journal := Journal.empty

def getStateObject (db : StateDB) (a : Address) : Option StateObject :=
  match db.stateObjects a with
  | some (.live o) => some o
  | some (.deleted _) => none
  | none => (db.trie a).map fun s => newObject s.decode

def setStateObject (db : StateDB) (a : Address) (o : StateObject) : StateDB :=
  { db with stateObjects := update db.stateObjects a (some (.live o)) }

/-- Store a changed object and report it dirty, at most once. -/
def write (db : StateDB) (a : Address) (o : StateObject) : StateDB :=
  { db.setStateObject a { o with onDirty := false } with
    stateObjectsDirty := if o.onDirty then db.stateObjectsDirty.insert a else db.stateObjectsDirty }

def record (db : StateDB) (e : Change) : StateDB :=
  { db with journal := db.journal.append e }

/-! ## Creating objects -/

def fresh (balance : Int) : StateObject :=
  { newObject { blank with balance := balance } with onDirty := false }

section

variable (db : StateDB)

section

variable (a : Address)

def createEntry : Change :=
  match db.getStateObject a with
  | none => .createObject a
  | some prev => .resetObject a prev

/-- `createObject`, which replaces an object that is there. -/
def createObject : StateDB :=
  (db.record (db.createEntry a)).write a (newObject blank)

/-- `CreateAccount`: the balance is carried over. -/
def createAccount : StateDB :=
  (db.record (db.createEntry a)).write a (newObject { blank with
    balance := ((db.getStateObject a).map (·.data.balance)).getD 0 })

def getOrNewStateObject : StateDB × StateObject :=
  match db.getStateObject a with
  | some o => (db, o)
  | none => (db.createObject a, fresh 0)

/-! ## Changing objects -/

/-- Get the object of `a`, or a new one, and make the change `f` asks for. -/
def edit (f : Writer) : StateDB :=
  let r := db.getOrNewStateObject a
  match f r.2 with
  | none => r.1
  | some w => (r.1.record (w.entry a r.2)).write a (w.apply r.2)

/-- `AddBalance`: adding nothing to an empty account touches it. -/
def addBalance (amount : Int) : StateDB :=
  db.edit a fun o =>
    if amount = 0 then if o.data.isEmpty then some .touch else none
    else some (.field (.balance (o.data.balance + amount)))

def subBalance (amount : Int) : StateDB :=
  db.edit a fun o =>
    if amount = 0 then none else some (.field (.balance (o.data.balance - amount)))

/-- `AddLockBalance`: a nil lock balance panics once it is needed. -/
def addLockBalance (amount : Int) : Option StateDB :=
  if amount = 0 then
    some (db.edit a fun o => if o.data.isEmpty then some .touch else none)
  else
    match (db.getOrNewStateObject a).2.data.lockBalance with
    | none => none
    | some lock => some (db.edit a fun _ => some (.field (.lockBalance (lock + amount))))

def setVoteList (voteList : Slice Address) : StateDB :=
  db.edit a fun _ => some (.field (.voteList voteList))

def setNonce (nonce : Nat) : StateDB :=
  db.edit a fun _ => some (.field (.nonce nonce))

def setCode (code : Bytes) : StateDB :=
  db.edit a fun _ => some (.field (.code code))

def setState (key value : Hash) : StateDB :=
  db.edit a fun _ => some (.field (.storage key value))

def addAssetBalance (asset : Address) (amount : Int) : StateDB :=
  db.edit a fun _ => some (.addAsset ⟨asset, amount⟩)

/-- `SubAssetBalance`, and whether there was enough. -/
def subAssetBalance (asset : Address) (amount : Int) : Bool × StateDB :=
  let enough := fun o : StateObject => (o.data.assetList.subAsset ⟨asset, amount⟩).isSome
  (enough (db.getOrNewStateObject a).2,
    db.edit a fun o => if enough o then some (.subAsset ⟨asset, amount⟩) else none)

/-- `Suicide`, and whether the account exists. -/
def suicide : Bool × StateDB :=
  match db.getStateObject a with
  | none => (false, db)
  | some _ => (true, db.edit a fun _ => some .suicide)

/-- `SetAssetData` of an object just created. It is not entered in the journal. -/
def setAssetData (data : Bytes) : StateDB :=
  match db.getStateObject a with
  | none => db
  | some o => db.write a { o with data := { o.data with assetData := data } }

/-- The array behind the vote list of `a` has changed under it. -/
def setVoteCells (cells : Slice Address) : StateDB :=
  match db.getStateObject a with
  | none => db
  | some o => db.setStateObject a { o with data := { o.data with voteList := cells } }

end

def addRefund (gas : Nat) : StateDB :=
  { db.record (.refund db.refund) with refund := u64 (db.refund + gas) }

def addLog (log : Log) : StateDB :=
  let log := { log with txHash := db.thash, blockHash := db.bhash, txIndex := db.txIndex,
                        index := db.logSize }
  { db.record (.addLog db.thash) with
    logs := update db.logs db.thash (db.logs db.thash ++ [log])
    logSize := db.logSize + 1 }

def prepare (thash bhash : Hash) (txIndex : Nat) : StateDB :=
  { db with thash := thash, bhash := bhash, txIndex := txIndex }

/-! ## Snapshots -/

def snapshot : Nat × StateDB :=
  let r := db.journal.snapshot
  (r.1, { db with journal := r.2 })

end

/-- The precompiled contract whose touch is never undone. -/
def ripemd : Address := 3

/-- Change the object of `a`; there must be one. -/
def restore (db : StateDB) (a : Address) (f : StateObject → StateObject) : Option StateDB :=
  (db.getStateObject a).map fun o => db.write a (f o)

def revertAssetBalance (asset : Asset) (preOpIsAdd : Bool) (o : StateObject) : StateObject :=
  (if preOpIsAdd then Write.subAsset asset else Write.addAsset asset).apply o

/-- `undo` of a journal entry. -/
def undo (db : StateDB) : Change → Option StateDB
  | .createObject a =>
    some { db with stateObjects := update db.stateObjects a none
                   stateObjectsDirty := db.stateObjectsDirty.filter (· ≠ a) }
  | .resetObject a prev => some (db.setStateObject a prev)
  | .suicide a prev prevbalance =>
    match db.getStateObject a with
    | none => some db
    | some o =>
      some (db.write a { o with suicided := prev, data := { o.data with balance := prevbalance } })
  | .field a prev => db.restore a fun o => { o with data := prev.set o.data }
  | .refund prev => some { db with refund := prev }
  | .addLog txhash =>
    -- slicing off the last of no logs panics
    if db.logs txhash = [] then none
    else some { db with logs := update db.logs txhash (db.logs txhash).dropLast
                        logSize := u64 (db.logSize - 1) }
  | .touch a prev prevDirty =>
    if !prev && a ≠ ripemd then
      (db.getStateObject a).map fun o =>
        let db := db.setStateObject a { o with touched := prev }
        if prevDirty then db
        else { db with stateObjectsDirty := db.stateObjectsDirty.filter (· ≠ a) }
    else some db
  | .assetBalance a asset preOpIsAdd => db.restore a (revertAssetBalance asset preOpIsAdd)

/-- Before the Epiphron block asset balances are not taken back. -/
def undoUnlessAsset (isEpiphron : Bool) (db : StateDB) (e : Change) : Option StateDB :=
  match isEpiphron, e with
  | false, .assetBalance .. => some db
  | _, e => db.undo e

def revertToSnapshot (db : StateDB) (isEpiphron : Bool) (id : Nat) : Option StateDB :=
  match db.journal.rollback id with
  | none => none
  | some (undone, journal) =>
    (undone.foldlM (undoUnlessAsset isEpiphron) db).map fun db => { db with journal := journal }

/-! ## Writing to the trie -/

def clearJournalAndRefund (db : StateDB) : StateDB :=
  { db with journal := db.journal.clear, refund := 0 }

def removes (deleteEmptyObjects : Bool) (o : StateObject) : Bool :=
  o.suicided || (deleteEmptyObjects && o.data.isEmpty)

def Slot.obj : Slot → StateObject
  | .live o => o
  | .deleted o => o

/-- What `Finalise` leaves of a dirty slot in the trie, and the slot. A removed object keeps its
slot; one that was removed before is written again unless it is removed again. -/
def finaliseSlot (deleteEmptyObjects : Bool) (slot : Slot) : Option (Option StoredAccount × Slot) :=
  if removes deleteEmptyObjects (Slot.obj slot) then some (none, .deleted (Slot.obj slot))
  else (Slot.obj slot).data.encode.map fun s => (some s, slot)

/-- What `Finalise` does to a dirty address; a dirty address without an object panics. -/
def finaliseAt (db : StateDB) (deleteEmptyObjects : Bool) (a : Address) :
    Option (Option StoredAccount × Slot) :=
  (db.stateObjects a).bind (finaliseSlot deleteEmptyObjects)

/-- `Finalise`. The addresses stay dirty. -/
def finalise (db : StateDB) (deleteEmptyObjects : Bool) : Option StateDB :=
  if db.stateObjectsDirty.all fun a => (db.finaliseAt deleteEmptyObjects a).isSome then
    some (clearJournalAndRefund { db with
        trie := fun a =>
          if a ∈ db.stateObjectsDirty then
            ((db.finaliseAt deleteEmptyObjects a).map (·.1)).getD none
          else db.trie a
        stateObjects := fun a =>
          if a ∈ db.stateObjectsDirty then (db.finaliseAt deleteEmptyObjects a).map (·.2)
          else db.stateObjects a })
  else none

/-- What `CommitTo` leaves of a slot in the trie, and the slot: only dirty ones are written. -/
def commitSlot (deleteEmptyObjects isDirty : Bool) (stored : Option StoredAccount) (slot : Slot) :
    Option (Option StoredAccount × Slot) :=
  if (Slot.obj slot).suicided || (isDirty && deleteEmptyObjects && (Slot.obj slot).data.isEmpty)
  then some (none, .deleted (Slot.obj slot))
  else if isDirty then (Slot.obj slot).data.encode.map fun s => (some s, slot)
  else some (stored, slot)

def commitAt (db : StateDB) (deleteEmptyObjects : Bool) (a : Address) :
    Option (Option StoredAccount × Slot) :=
  (db.stateObjects a).bind (commitSlot deleteEmptyObjects (a ∈ db.stateObjectsDirty) (db.trie a))

/-- `CommitTo`, which goes through all objects. The root it returns is that of the new trie. -/
def commitTo (db : StateDB) (deleteEmptyObjects : Bool) : Option StateDB :=
  if db.stateObjectsDirty.all fun a =>
      (db.stateObjects a).isNone || (db.commitAt deleteEmptyObjects a).isSome then
    some (clearJournalAndRefund { db with
        trie := fun a =>
          if (db.stateObjects a).isSome then
            ((db.commitAt deleteEmptyObjects a).map (·.1)).getD none
          else db.trie a
        stateObjects := fun a => (db.commitAt deleteEmptyObjects a).map (·.2)
        stateObjectsDirty := db.stateObjectsDirty.filter fun a => (db.stateObjects a).isNone })
  else none

end StateDB

end GoAoa.State
