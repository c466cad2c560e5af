import GoAoa.State.Vote
import GoAoa.Lib.Program

/-!
# The state as the virtual machine sees it

`vm.StateDB` with the functions of the `vm.Context` that change it. Everything the virtual
machine and the state transition read is one answer, `View`.
-/

namespace GoAoa.VM

open State StateDB

/-- What can be read of an account. -/
structure Visible where
  nonce : Nat
  balance : Int
  storage : Hash → Hash
  code : Bytes
  assetList : Assets
  suicided : Bool

structure View where
  account : Address → Option Visible
  refund : Nat

namespace View

variable (v : View)

section

variable (a : Address)

def exist : Bool := (v.account a).isSome
def getNonce : Nat := ((v.account a).map Visible.nonce).getD 0
def getBalance : Int := ((v.account a).map Visible.balance).getD 0
def getCode : Bytes := ((v.account a).map Visible.code).getD []
def getState (key : Hash) : Hash := ((v.account a).map fun x => x.storage key).getD 0

end

def getAssetBalance (a asset : Address) : Int :=
  ((v.account a).map fun x => x.assetList.balanceOf asset).getD 0

def canTransfer (a : Address) (asset : Option Address) (amount : Int) : Bool :=
  match asset with
  | none => amount ≤ v.getBalance a
  | some asset => amount ≤ v.getAssetBalance a asset

end View

def visible (o : StateObject) : Visible where
  nonce := o.data.nonce
  balance := o.data.balance
  storage := o.data.storage
  code := o.data.code
  assetList := o.data.assetList
  suicided := o.suicided

def view (db : StateDB) : View where
  account a := (db.getStateObject a).map visible
  refund := db.refund

/-- `Vote` is called with the delegates of the chain head, as `vm.Context` has them. -/
inductive Op where
  | view
  | createAccount (a : Address)
  | createObject (a : Address)
  | addBalance (a : Address) (amount : Int)
  | subBalance (a : Address) (amount : Int)
  | addAssetBalance (a asset : Address) (amount : Int)
  | subAssetBalance (a asset : Address) (amount : Int)
  | setAssetData (a : Address) (data : Bytes)
  | setNonce (a : Address) (nonce : Nat)
  | setCode (a : Address) (code : Bytes)
  | setState (a : Address) (key value : Hash)
  | addRefund (gas : Nat)
  | addLog (log : Log)
  | suicide (a : Address)
  | vote (user : Address) (votes : List Vote) (delegateList : Option (List Address))
    (maxElectDelegate : Int)

@[reducible] def Ans : Op → Type
  | .view => View
  | .subAssetBalance .. => Bool
  | .suicide .. => Bool
  | .vote .. => Bool
  | _ => Unit

/-- A property of a call and the state it is made in. -/
abbrev OpPred :=
  Op → StateDB → Prop

abbrev M := Prog Op Ans

abbrev act (o : Op) : M (Ans o) := Prog.call o

def exec (g : Growth) : (o : Op) → StateDB → Option (Ans o × StateDB)
  | .view, db => some (view db, db)
  | .createAccount a, db => some ((), db.createAccount a)
  | .createObject a, db => some ((), db.createObject a)
  | .addBalance a amount, db => some ((), db.addBalance a amount)
  | .subBalance a amount, db => some ((), db.subBalance a amount)
  | .addAssetBalance a asset amount, db => some ((), db.addAssetBalance a asset amount)
  | .subAssetBalance a asset amount, db => some (db.subAssetBalance a asset amount)
  | .setAssetData a data, db => some ((), db.setAssetData a data)
  | .setNonce a nonce, db => some ((), db.setNonce a nonce)
  | .setCode a code, db => some ((), db.setCode a code)
  | .setState a key value, db => some ((), db.setState a key value)
  | .addRefund gas, db => some ((), db.addRefund gas)
  | .addLog log, db => some ((), db.addLog log)
  | .suicide a, db => some (db.suicide a)
  | .vote user votes delegateList maxElectDelegate, db =>
    db.vote g maxElectDelegate delegateList user votes

/-- The writes that a call makes to the object of an account. -/
inductive Writes : Op → Address → StateObject → Write → Prop where
  | touch {a : Address} {ob : StateObject} : Writes (.addBalance a 0) a ob .touch
  | addBalance {a : Address} {ob : StateObject} {n : Int} :
    Writes (.addBalance a n) a ob (.field (.balance (ob.data.balance + n)))
  | subBalance {a : Address} {ob : StateObject} {n : Int} :
    Writes (.subBalance a n) a ob (.field (.balance (ob.data.balance - n)))
  | addAsset {a id : Address} {ob : StateObject} {n : Int} :
    Writes (.addAssetBalance a id n) a ob (.addAsset ⟨id, n⟩)
  | subAsset {a id : Address} {ob : StateObject} {n : Int} :
    (ob.data.assetList.subAsset ⟨id, n⟩).isSome →
      Writes (.subAssetBalance a id n) a ob (.subAsset ⟨id, n⟩)
  | nonce {a : Address} {ob : StateObject} {n : Nat} : Writes (.setNonce a n) a ob (.field (.nonce n))
  | code {a : Address} {ob : StateObject} {c : Bytes} : Writes (.setCode a c) a ob (.field (.code c))
  | storage {a : Address} {ob : StateObject} {key value : Hash} :
    Writes (.setState a key value) a ob (.field (.storage key value))
  | suicide {a : Address} {ob : StateObject} : Writes (.suicide a) a ob .suicide

/-- What a call does: nothing, an entry in the journal, a new object, an edit of one, the
description of an asset, or a vote. -/
inductive Executed (g : Growth) (db : StateDB) : Op → StateDB → Prop where
  | idle {o : Op} : Executed g db o db
  | refund {gas : Nat} : Executed g db (.addRefund gas) (db.addRefund gas)
  | log {l : Log} : Executed g db (.addLog l) (db.addLog l)
  | account {a : Address} : Executed g db (.createAccount a) (db.createAccount a)
  | object {a : Address} : Executed g db (.createObject a) (db.createObject a)
  | edit {o : Op} {a : Address} {f : Writer}
    (writes : ∀ ob w, f ob = some w → Writes o a ob w) : Executed g db o (db.edit a f)
  | describe {a : Address} {data : Bytes} {ob : StateObject} (get : db.getStateObject a = some ob) :
    Executed g db (.setAssetData a data)
      (db.write a { ob with data := { ob.data with assetData := data } })
  | vote {user : Address} {votes : List Vote} {dl : Option (List Address)} {m : Int} {ok : Bool}
    {db' : StateDB} (run : db.vote g m dl user votes = some (ok, db')) :
    Executed g db (.vote user votes dl m) db'

theorem executed {g : Growth} {o : Op} {x : Ans o} {db db' : StateDB}
    (hx : exec g o db = some (x, db')) : Executed g db o db' := by
  cases o with
  | view => cases hx; exact .idle
  | createAccount => cases hx; exact .account
  | createObject => cases hx; exact .object
  | addRefund => cases hx; exact .refund
  | addLog => cases hx; exact .log
  | addBalance =>
    cases hx
    refine .edit fun ob w hw => ?_
    split at hw
    · rename_i hn
      subst hn
      split at hw
      · cases hw; exact .touch
      · cases hw
    · cases hw; exact .addBalance
  | subBalance =>
    cases hx
    refine .edit fun ob w hw => ?_
    split at hw
    · cases hw
    · cases hw; exact .subBalance
  | subAssetBalance =>
    cases hx
    refine .edit fun ob w hw => ?_
    split at hw
    · rename_i hsome
      cases hw
      exact .subAsset hsome
    · cases hw
  | addAssetBalance | setNonce | setCode | setState =>
    cases hx
    exact .edit fun ob w hw => by cases hw; constructor
  | setAssetData =>
    cases hx
    unfold setAssetData
    split
    · exact .idle
    · exact .describe ‹_›
  | suicide =>
    obtain rfl := congrArg Prod.snd (Option.some.inj hx)
    unfold suicide
    split
    · exact .idle
    · exact .edit (f := fun _ => some .suicide) fun ob w hw => by cases hw; exact .suicide
  | vote => exact .vote hx

/-- The database as the meaning of the interface. -/
def semantics (g : Growth) (isEpiphron : Bool) : Semantics Op Ans StateDB Nat where
  exec := exec g
  snapshot := snapshot
  revert id db := db.revertToSnapshot isEpiphron id

def transfer (sender recipient : Address) (asset : Option Address) (amount : Int) : M Unit :=
  match asset with
  | none => do
    act (.subBalance sender amount)
    act (.addBalance recipient amount)
  | some asset => do
    let ok ← act (.subAssetBalance sender asset amount)
    if ok then act (.addAssetBalance recipient asset amount)

end GoAoa.VM
