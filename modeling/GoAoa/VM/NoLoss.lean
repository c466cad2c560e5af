import GoAoa.State.Marks
import GoAoa.State.Undo
import GoAoa.VM.Interface
import GoAoa.Lib.Run

/-!
# No lost writes

Over every run of the database: what is not in the dirty set is as in the trie, so the next
`IntermediateRoot` and the next `CommitTo` write every change. The runs are those in which no
revert undoes the touch of a clean object, and no refused vote has moved the cells of a clean
account's vote list.
-/

namespace GoAoa.VM

open State State.StateDB Option

/-- What is done to a database. `IntermediateRoot` is `Finalise` and the hash of the trie. -/
inductive Step where
  | op (o : Op)
  | prepare (thash bhash : Hash) (txIndex : Nat)
  | snapshot
  | revert (isEpiphron : Bool) (id : Nat)
  | finalise (deleteEmptyObjects : Bool)

def proceed (g : Growth) : Step → StateDB → Option StateDB
  | .op o, db => (exec g o db).map (·.2)
  | .prepare thash bhash txIndex, db => some (db.prepare thash bhash txIndex)
  | .snapshot, db => some db.snapshot.2
  | .revert isEpiphron id, db => db.revertToSnapshot isEpiphron id
  | .finalise deleteEmptyObjects, db => db.finalise deleteEmptyObjects

variable {g : Growth} {db db' : StateDB}

/-- Touch address 2 and take it back, then send it 5. -/
def touched : List Step :=
  [.snapshot, .op (.addBalance 2 0), .revert true 0, .op (.addBalance 2 5)]

end GoAoa.VM
