import GoAoa.Core.Transition
import GoAoa.VM.Walk

/-!
# The stages of a state transition

`preCheck` as a function of the state before it, and what `TransitionDb` does after it, as one
case distinction (`transition_cases`) that later proofs start from.
-/

namespace GoAoa.Core

open Option Prod State State.StateDB VM Semantics

def ensured (db : StateDB) (a : Address) : StateDB :=
  if (view db).exist a then db else db.createAccount a

def Message.gasCost (msg : Message) : Int := msg.gasLimit * msg.gasPrice

def bought (msg : Message) (db : StateDB) : StateDB :=
  (ensured db msg.sender).subBalance msg.sender msg.gasCost

def admission (msg : Message) (gp : Nat) (db : StateDB) : Except TxErr Action :=
  match Action.ofCode msg.action with
  | none => .error .illegalAction
  | some action =>
    if (view db).getNonce msg.sender < msg.nonce then .error .nonceTooHigh
    else if msg.nonce < (view db).getNonce msg.sender then .error .nonceTooLow
    else if (view db).getBalance msg.sender < msg.gasCost then .error .insufficientBalanceForGas
    else if gp < msg.gasLimit then .error .gasLimitReached
    else .ok action

theorem admission_ok {msg : Message} {gp : Nat} {db : StateDB} {action : Action}
    (h : admission msg gp db = .ok action) :
    Action.ofCode msg.action = some action ∧ (view db).getNonce msg.sender = msg.nonce ∧
      msg.gasCost ≤ (view db).getBalance msg.sender ∧ msg.gasLimit ≤ gp := by
  unfold admission at h
  split at h
  · cases h
  rename_i hact
  split at h
  · cases h
  split at h
  · cases h
  split at h
  · cases h
  rename_i hbal
  split at h
  · cases h
  rename_i hgp
  cases h
  exact ⟨hact, by omega, Int.not_lt.1 hbal, Nat.not_lt.1 hgp⟩

/-- The state `preCheck` leaves: a message that is refused may have had its sender made. -/
def checked (msg : Message) (gp : Nat) (db : StateDB) : StateDB :=
  match admission msg gp db with
  | .ok _ => bought msg db
  | .error .illegalAction => db
  | .error _ => ensured db msg.sender

section

variable {g : Growth} {ep : Bool} {db db' : StateDB} {msg : Message} {gp : Nat} {E : EVM}
  {enc : InfoEncoder} {a b : Address}

theorem exist_ensured (db : StateDB) (a : Address) : (view (ensured db a)).exist a = true := by
  unfold ensured
  split
  · assumption
  · rw [view_exist, shown_createAccount, if_pos rfl]; rfl

theorem ensured_of_exist (h : (view db).exist a = true) : ensured db a = db := if_pos h

theorem reading_ensured (db : StateDB) (a b : Address) : reading (ensured db a) b = reading db b := by
  unfold ensured
  split
  · rfl
  · exact reading_createAccount db a b ‹_›

theorem balance_ensured (db : StateDB) (a b : Address) :
    (view (ensured db a)).getBalance b = (view db).getBalance b := by
  rw [(reads _ b).2.1, reading_ensured, (reads db b).2.1]

theorem nonce_ensured (db : StateDB) (a b : Address) :
    (view (ensured db a)).getNonce b = (view db).getNonce b := by
  rw [(reads _ b).1, reading_ensured, (reads db b).1]

theorem exist_subBalance (db : StateDB) (a b : Address) (x : Int)
    (h : (view db).exist b = true) : (view (db.subBalance a x)).exist b = true := by
  rw [view_exist] at h ⊢
  rw [StateDB.subBalance, shown_edit]
  split
  · rfl
  · exact h

theorem nonce_subBalance (db : StateDB) (a b : Address) (x : Int) :
    (view (db.subBalance a x)).getNonce b = (view db).getNonce b := by
  rw [(reads _ b).1, (reads db b).1]
  refine reading_edit_of_eq db a b (·.nonce) fun o w hf => ?_
  split at hf <;> cases hf
  rfl

theorem nonce_bought (msg : Message) (db : StateDB) (b : Address) :
    (view (bought msg db)).getNonce b = (view db).getNonce b := by
  rw [bought, nonce_subBalance, nonce_ensured]

theorem exist_bought (msg : Message) (db : StateDB) :
    (view (bought msg db)).exist msg.sender = true :=
  exist_subBalance _ _ _ _ (exist_ensured db msg.sender)

theorem run_ensure (db : StateDB) (a : Address) :
    (semantics g ep).run (ensure a) db = some ((), ensured db a) := by
  unfold ensure ensured
  show (semantics g ep).run (if (view db).exist a then pure () else act (.createAccount a)) db = _
  split
  · rfl
  · exact run_call _

theorem run_preCheck (msg : Message) (gp : Nat) (db : StateDB) :
    (semantics g ep).run (preCheck msg gp) db =
      some ((admission msg gp db).map fun action => (action, gp - msg.gasLimit),
        checked msg gp db) := by
  unfold checked admission preCheck
  cases Action.ofCode msg.action with
  | none => rfl
  | some =>
    have hexist := ensured_of_exist (exist_ensured db msg.sender)
    rw [run_bind, run_ensure, bind_some, run_bind, run_call]
    show (semantics g ep).run _ (ensured db msg.sender) = _
    rw [nonce_ensured]
    by_cases hhigh : (view db).getNonce msg.sender < msg.nonce
    · simp only [if_pos hhigh]; rfl
    by_cases hlow : msg.nonce < (view db).getNonce msg.sender
    · simp only [if_neg hhigh, if_pos hlow]; rfl
    simp only [if_neg hhigh, if_neg hlow]
    rw [run_bind, buyGas, run_bind, run_ensure, hexist, bind_some, run_bind, run_call]
    show bind ((semantics g ep).run _ (ensured db msg.sender)) _ = _
    rw [balance_ensured]
    by_cases hbal : (view db).getBalance msg.sender < msg.gasLimit * msg.gasPrice
    · have hbal' : (view db).getBalance msg.sender < msg.gasCost := hbal
      simp only [if_pos hbal, if_pos hbal']; rfl
    have hbal' : ¬ (view db).getBalance msg.sender < msg.gasCost := hbal
    by_cases hgp : gp < msg.gasLimit
    · simp only [if_neg hbal, if_neg hbal', if_pos hgp]; rfl
    · simp only [if_neg hbal, if_neg hbal', if_neg hgp]; rfl

def gasForExecution (msg : Message) (action : Action) : Nat :=
  msg.gasLimit - intrinsicGas msg.data action

/-- **The stages of `TransitionDb`.** A message is refused by `preCheck`; or its gas is bought
and does not cover the intrinsic gas; or it is executed, and execution fails, ends with an error
that is one of the transition, or is settled. -/
theorem transition_cases {gp' : Nat} {res : Except TxErr (Nat × Bool)}
    (h : (semantics g ep).run (transitionDb E enc msg gp) db = some ((gp', res), db')) :
    (∃ e, admission msg gp db = .error e ∧ res = .error e ∧ gp' = gp ∧ db' = checked msg gp db) ∨
    ∃ action, admission msg gp db = .ok action ∧
      ((msg.gasLimit < intrinsicGas msg.data action ∧ res = .error (.vm .outOfGas) ∧
          gp' = gp - msg.gasLimit ∧ db' = bought msg db) ∨
        (intrinsicGas msg.data action ≤ msg.gasLimit ∧ ∃ r db1,
          (semantics g ep).run (execute E enc msg action (gasForExecution msg action))
            (bought msg db) = some (r, db1) ∧
          ((∃ e, r = .error e ∧ res = .error e ∧ gp' = gp - msg.gasLimit ∧ db' = db1) ∨
            (∃ reply e, r = .ok reply ∧ isConsensusErr reply.err = some e ∧
              res = .error (.vm e) ∧ gp' = gp - msg.gasLimit ∧ db' = db1) ∨
            ∃ reply, r = .ok reply ∧ isConsensusErr reply.err = none ∧
              (semantics g ep).run (settle E msg (gp - msg.gasLimit) reply) db1 =
                some ((gp', res), db')))) := by
  unfold transitionDb at h
  rw [run_bind, run_preCheck, bind_some] at h
  cases hadm : admission msg gp db with
  | error e =>
    rw [hadm] at h
    cases h
    exact .inl ⟨e, rfl, rfl, rfl, rfl⟩
  | ok action =>
    refine .inr ⟨action, rfl, ?_⟩
    have hst : checked msg gp db = bought msg db := by unfold checked; rw [hadm]
    rw [hadm, hst] at h
    dsimp only [Except.map] at h
    rw [run_bind, run_ensure, ensured_of_exist (exist_bought msg db), bind_some] at h
    split at h
    · rename_i hlow
      cases h
      exact .inl ⟨hlow, rfl, rfl, rfl⟩
    · rename_i hlow
      refine .inr ⟨Nat.le_of_not_lt hlow, ?_⟩
      rw [run_bind] at h
      obtain ⟨⟨r, db1⟩, hexec, h⟩ := bind_eq_some_iff.1 h
      refine ⟨r, db1, hexec, ?_⟩
      cases r with
      | error e =>
        cases h
        exact .inl ⟨e, rfl, rfl, rfl, rfl⟩
      | ok reply =>
        dsimp only at h
        cases herr : isConsensusErr reply.err with
        | some e =>
          rw [herr] at h
          cases h
          exact .inr (.inl ⟨reply, e, rfl, herr, rfl, rfl, rfl⟩)
        | none =>
          rw [herr] at h
          exact .inr (.inr ⟨reply, rfl, herr, h⟩)

/-! ## Execution and settlement -/

theorem run_publishAsset (addr : Address) (ai : AssetInfo) (db : StateDB) :
    (semantics g ep).run (publishAsset E enc addr ai) db =
      match isAssetInfoValid ai with
      | .error e => some (.error e, db)
      | .ok supply =>
        let nonce := (view db).getNonce addr
        let asset := E.createAddress addr nonce
        let db := (db.setNonce addr (u64 (nonce + 1))).createObject asset
        if supply < 0 then some (.error .negativeSupply, db)
        else some (.ok (), (db.setAssetData asset (enc addr ai)).addAssetBalance addr asset supply) := by
  unfold publishAsset
  cases isAssetInfoValid ai with
  | error => rfl
  | ok =>
    dsimp only
    split <;> rfl

def published (E : EVM) (enc : InfoEncoder) (addr : Address) (ai : AssetInfo)
    (supply : Int) (db : StateDB) : StateDB :=
  let asset := E.createAddress addr ((view db).getNonce addr)
  (((numbered db addr).createObject asset).setAssetData asset (enc addr ai)).addAssetBalance addr
    asset supply

/-- **The publication of an asset.** -/
theorem execute_publish {gas : Nat} {reply : Reply} (hexist : (view db).exist msg.sender = true)
    (h : (semantics g ep).run (execute E enc msg .publishAsset gas) db = some (.ok reply, db')) :
    reply = ⟨[], gas, none⟩ ∧ ∃ supply, isAssetInfoValid msg.assetInfo = .ok supply ∧ 0 ≤ supply ∧
      db' = published E enc msg.sender msg.assetInfo supply db.snapshot.2 := by
  obtain ⟨r, db1, hwithin, h⟩ := of_run_bind h
  obtain ⟨undo, db2, hbody, hleave⟩ := of_run_within hwithin
  have hexist' : (view ((semantics g ep).snapshot db).2).exist msg.sender = true := hexist
  rw [run_bind, run_ensure, bind_some, ensured_of_exist hexist', run_bind,
    run_publishAsset] at hbody
  cases hinfo : isAssetInfoValid msg.assetInfo with
  | error =>
    rw [hinfo] at hbody
    cases hbody
    cases h
  | ok supply =>
    rw [hinfo] at hbody
    dsimp only at hbody
    split at hbody
    · cases hbody
      cases h
    · rename_i hpos
      cases hbody
      cases hleave
      cases h
      exact ⟨rfl, supply, rfl, Int.not_lt.1 hpos, rfl⟩

/-- The gas that is given back at the end: what is left, and the refund. -/
def returned (msg : Message) (r : Reply) (counter : Nat) : Nat :=
  u64 (r.gas + refundOf (u64 (msg.gasLimit - r.gas)) counter)

/-- What the settlement leaves: the unused gas is paid back, and the rest goes to the coinbase. -/
def settled (E : EVM) (msg : Message) (r : Reply) (db : StateDB) : StateDB :=
  ((ensured db msg.sender).addBalance msg.sender (returned msg r db.refund * msg.gasPrice)).addBalance
    E.coinbase (u64 (msg.gasLimit - returned msg r db.refund) * msg.gasPrice)

theorem run_settle (r : Reply) : (semantics g ep).run (settle E msg gp r) db =
      if 2 ^ 64 - 1 < gp + returned msg r db.refund then none
      else some ((gp + returned msg r db.refund,
        .ok (u64 (msg.gasLimit - returned msg r db.refund), r.err.isSome)), settled E msg r db) := by
  show (semantics g ep).run (ensure msg.sender >>= _) db = _
  rw [run_bind, run_ensure, bind_some, run_bind, run_call]
  show (semantics g ep).run (ite (2 ^ 64 - 1 < gp + returned msg r db.refund) _ _) _ = _
  split <;> rfl

/-- **A message that is accepted** is executed and settled. -/
theorem transition_ok {gp' : Nat} {v : Nat × Bool}
    (h : (semantics g ep).run (transitionDb E enc msg gp) db = some ((gp', .ok v), db')) :
    ∃ action reply db1, admission msg gp db = .ok action ∧
      intrinsicGas msg.data action ≤ msg.gasLimit ∧
      (semantics g ep).run (execute E enc msg action (gasForExecution msg action))
        (bought msg db) = some (.ok reply, db1) ∧ isConsensusErr reply.err = none ∧
      (semantics g ep).run (settle E msg (gp - msg.gasLimit) reply) db1 =
        some ((gp', .ok v), db') ∧ db' = settled E msg reply db1 := by
  rcases transition_cases h with ⟨_, -, hres, -⟩ | ⟨action, hadm, ⟨-, hres, -⟩ | ⟨hgas, r, db1, hexec,
    ⟨_, -, hres, -⟩ | ⟨_, _, -, -, hres, -⟩ | ⟨reply, rfl, herr, hsettle⟩⟩⟩
  iterate 4 cases hres
  refine ⟨action, reply, db1, hadm, hgas, hexec, herr, hsettle, ?_⟩
  rw [run_settle] at hsettle
  split at hsettle
  · cases hsettle
  · cases hsettle
    rfl

theorem returned_le {r : Reply} (hlimit : msg.gasLimit < 2 ^ 64) (hle : r.gas ≤ msg.gasLimit)
    (counter : Nat) : r.gas ≤ returned msg r counter ∧
      returned msg r counter ≤ r.gas + (msg.gasLimit - r.gas) / 2 := by
  have hused : u64 ((msg.gasLimit : Int) - r.gas) = msg.gasLimit - r.gas := by
    rw [show (msg.gasLimit : Int) - r.gas = ((msg.gasLimit - r.gas : Nat) : Int) by omega]
    exact u64_of_lt (by omega)
  have hrefund : refundOf (msg.gasLimit - r.gas) counter ≤ (msg.gasLimit - r.gas) / 2 :=
    Nat.min_le_left _ _
  have hsum : returned msg r counter = r.gas + refundOf (msg.gasLimit - r.gas) counter := by
    unfold returned
    rw [hused, ← Int.natCast_add]
    exact u64_of_lt (by omega)
  omega

theorem used_eq {r : Reply} (hlimit : msg.gasLimit < 2 ^ 64) (hle : r.gas ≤ msg.gasLimit)
    (counter : Nat) : returned msg r counter ≤ msg.gasLimit ∧
      u64 (msg.gasLimit - returned msg r counter) = msg.gasLimit - returned msg r counter := by
  have hret := returned_le hlimit hle counter
  refine ⟨by omega, ?_⟩
  rw [show (msg.gasLimit : Int) - returned msg r counter =
    ((msg.gasLimit - returned msg r counter : Nat) : Int) by omega]
  exact u64_of_lt (by omega)

/-! ## Execution keeps to the guard -/

def Message.callee (msg : Message) : Address := msg.recipient.getD 0

/-- The state `Call` starts from: the nonce is taken and the recipient made. -/
def called (msg : Message) (db : StateDB) : StateDB :=
  let db := db.setNonce msg.sender (u64 ((view db).getNonce msg.sender + 1))
  match msg.recipient with
  | none => db
  | some a => ensured db a

theorem run_callee (msg : Message) (db : StateDB) :
    (semantics g ep).run (callee msg) db = some (msg.callee,
      match msg.recipient with
      | none => db
      | some a => ensured db a) := by
  unfold callee Message.callee
  cases msg.recipient with
  | none => rfl
  | some =>
    rw [run_bind, run_ensure]
    rfl

def calls : Action → Bool
  | .createContract | .publishAsset => false
  | _ => true

variable {action : Action}

theorem calls_of_isVote (hv : isVote action = true) : calls action = true := by
  cases action <;> first | rfl | cases hv

theorem execute_call {gas : Nat} (hc : calls action = true) :
    execute E enc msg action gas = executeCall E msg action gas := by
  cases action <;> first | rfl | cases hc

def callArgs (msg : Message) (action : Action) (gas : Nat) : CallArgs :=
  ⟨msg.sender, msg.callee, msg.data, gas, action, msg.amount, msg.vote, msg.asset, false⟩

/-- A transaction that passes the checks before its vote. -/
structure ReachesVote (E : EVM) (msg : Message) (gp : Nat) (action : Action) (db : StateDB) :
    Prop where
  admitted : admission msg gp db = .ok action
  isVote : isVote action = true
  paysGas : intrinsicGas msg.data action ≤ msg.gasLimit
  canPay : canPay (view (called msg (bought msg db))) ⟨msg.sender, msg.callee, msg.data,
    gasForExecution msg action, action, msg.amount, msg.vote, msg.asset, false⟩ = true
  goes : (view (called msg (bought msg db))).exist msg.callee = true ∨
    (E.precompiled msg.callee).isSome = true ∨ msg.amount ≠ 0
  votes : msg.vote ≠ []

theorem run_execute_call {gas : Nat} (hc : calls action = true) :
    (semantics g ep).run (execute E enc msg action gas) db =
      ((semantics g ep).run (call E (nestedCalls E) (callArgs msg action gas))
        (called msg db)).map fun r => (.ok r.1, r.2) := by
  rw [execute_call hc, executeCall, run_bind, run_call]
  show (semantics g ep).run (callee msg >>= _) (numbered db msg.sender) = _
  rw [run_bind, run_callee, bind_some]
  show (semantics g ep).run (call E (nestedCalls E) (callArgs msg action gas) >>= _)
    (called msg db) = _
  rw [run_bind]
  cases (semantics g ep).run (call E (nestedCalls E) (callArgs msg action gas)) (called msg db) <;>
    rfl

section Discipline

variable {V S : Address → Prop} {G : OpPred} {I : StateDB → Prop}
  (D : Discipline g ep E.createAddress V S G I)

include D

theorem abides_ensure (a : Address) : Abides g ep G I (ensure a) := by
  intro db h
  refine D.does_view ?_
  split
  · exact does_pure trivial
  · rename_i hne
    have habs := view_absent db a (Bool.not_eq_true _ ▸ hne)
    exact (does_one (D.createAccount habs.1 habs.2.1 (D.absent h hne))).mono fun _ _ _ _ => trivial

theorem does_ensure_of_exist (h : I db) (hexist : (view db).exist a = true) :
    (semantics g ep).Does G (ensure a) db fun _ t => t = db := by
  refine ⟨(abides_ensure D a db h).meets, fun x t hr => ?_⟩
  rw [run_ensure, ensured_of_exist hexist] at hr
  exact (congrArg snd (some.inj hr)).symm

theorem abides_settle (msg : Message) (gp : Nat) (r : Reply) :
    Abides g ep G I (settle E msg gp r) := by
  refine D.bind (.act fun _ _ => D.idle trivial) fun v => ?_
  refine D.bind (abides_ensure D _) fun _ => ?_
  refine D.bind (.act fun _ _ => D.addBalance (Int.mul_nonneg (by omega) (by omega))) fun _ => ?_
  split
  · exact .fail
  · refine D.bind (.act fun _ _ => D.addBalance ?_) fun _ => .pure _
    exact Int.mul_nonneg (Int.natCast_nonneg _) (Int.natCast_nonneg _)

theorem does_publishAsset {addr : Address} {ai : AssetInfo} (h : I db)
    (hnonce : G (.setNonce addr (u64 ((view db).getNonce addr + 1))) db)
    (hid : G (.createObject (E.createAddress addr ((view db).getNonce addr))) (numbered db addr)) :
    (semantics g ep).Does G (publishAsset E enc addr ai) db fun _ _ => True := by
  unfold publishAsset
  split
  · exact does_pure trivial
  · refine D.does_view ?_
    refine does_bind (does_one hnonce) fun _ t hs hx => ?_
    have hI := D.steps h hs
    obtain rfl := congrArg snd (some.inj hx)
    refine D.andThen (does_one hid) hI fun _ => ?_
    split
    · exact .pure _
    · rename_i hsupply
      refine D.bind (.act fun _ _ => D.idle trivial) fun _ => ?_
      exact D.bind (.act fun _ _ => D.addAssetBalance (by omega)) fun _ => .pure _

/-- **Execution keeps to the guard.** -/
theorem does_execute {gas : Nat} (h : I db) (hexist : (view db).exist msg.sender = true)
    (hspend : transfers action = true → V msg.sender → S msg.sender)
    (hnonce : ∀ t, G (.setNonce msg.sender (u64 ((view db).getNonce msg.sender + 1))) t)
    (hid : action = .publishAsset →
      G (.createObject (E.createAddress msg.sender ((view db).getNonce msg.sender)))
        (numbered db.snapshot.2 msg.sender)) (hvote : isVote action = true → msg.vote ≠ [] →
      canPay (view (called msg db)) (callArgs msg action gas) = true →
      ((view (called msg db)).exist msg.callee = true ∨
        (E.precompiled msg.callee).isSome = true ∨ msg.amount ≠ 0) →
      Votable E G msg.sender msg.vote msg.callee (called msg db)) :
    (semantics g ep).Does G (execute E enc msg action gas) db fun _ _ => True := by
  have hcall : (semantics g ep).Does G (executeCall E msg action gas) db fun _ _ => True := by
    refine D.does_view ?_
    refine does_bind (does_one (hnonce db)) fun _ t hs hx => ?_
    have hI := D.steps h hs
    obtain rfl := congrArg snd (some.inj hx)
    have hcallee : (semantics g ep).Does G (callee msg)
        (db.setNonce msg.sender (u64 ((view db).getNonce msg.sender + 1)))
        fun a t => a = msg.callee ∧ t = called msg db := by
      have hdoes : Abides g ep G I (callee msg) := by
        unfold callee
        split
        · exact .pure _
        · exact D.bind (abides_ensure D _) fun _ => .pure _
      refine ⟨(hdoes _ hI).meets, fun a t hr => ?_⟩
      rw [run_callee] at hr
      cases hr
      exact ⟨rfl, rfl⟩
    refine does_bind hcallee fun a t hs ht => ?_
    have hI' := D.steps hI hs
    obtain ⟨rfl, rfl⟩ := ht
    exact D.andThen (D.call (D.nested _) hI' hspend hvote) hI' fun _ => .pure _
  unfold execute
  cases action
  case createContract =>
    dsimp only
    split
    · exact does_pure trivial
    · exact D.andThen (D.create (D.nested _) h (hspend rfl) (hnonce db)) h fun _ => .pure _
  case publishAsset =>
    have hsnap := D.snapshot h
    refine D.andThen (Q := fun _ _ => True) ?_ h fun r => by cases r <;> exact .pure _
    refine does_within (R := fun _ _ => True) ?_ fun _ _ _ _ _ _ => trivial
    refine does_bind (does_ensure_of_exist D hsnap hexist) fun _ t hs ht => ?_
    subst ht
    exact D.andThen (does_publishAsset D hsnap (hnonce _) (hid rfl)) hsnap fun _ => .pure _
  all_goals exact hcall

theorem does_buyGas (h : I db) (hspend : V msg.sender → S msg.sender) :
    (semantics g ep).Does G (buyGas msg gp) db fun _ _ => True := by
  refine D.andThen (abides_ensure D _ db h) h fun _ db h => ?_
  refine D.does_view ?_
  split
  · exact does_pure trivial
  · rename_i hpay
    split
    · exact does_pure trivial
    · refine D.andThen (does_one (D.subBalance hspend ?_ (by omega))) h fun _ => .pure _
      exact Int.mul_nonneg (Int.natCast_nonneg _) (Int.natCast_nonneg _)

theorem does_preCheck (h : I db) (hspend : V msg.sender → S msg.sender) :
    (semantics g ep).Does G (preCheck msg gp) db fun r t =>
      r = ((admission msg gp db).map fun action => (action, gp - msg.gasLimit)) ∧
        t = checked msg gp db := by
  have hdoes : (semantics g ep).Does G (preCheck msg gp) db fun _ _ => True := by
    unfold preCheck
    split
    · exact does_pure trivial
    · refine D.andThen (abides_ensure D _ db h) h fun _ => ?_
      refine D.bind (.act fun _ _ => D.idle trivial) fun v => ?_
      split
      · exact .pure _
      split
      · exact .pure _
      · exact D.bind (fun _ h => does_buyGas D h hspend) fun _ => .pure _
  refine ⟨hdoes.meets, fun r t hr => ?_⟩
  rw [run_preCheck] at hr
  cases hr
  exact ⟨rfl, rfl⟩

/-- **A transition keeps to the guard**, however it ends. -/
theorem does_transition (h : I db) (hspend : V msg.sender → S msg.sender)
    (hnonce : ∀ t, G (.setNonce msg.sender (u64 ((view db).getNonce msg.sender + 1))) t)
    (hid : Action.ofCode msg.action = some .publishAsset →
      G (.createObject (E.createAddress msg.sender ((view (bought msg db)).getNonce msg.sender)))
        (numbered (bought msg db).snapshot.2 msg.sender))
    (hvote : ∀ action, ReachesVote E msg gp action db →
      Votable E G msg.sender msg.vote msg.callee (called msg (bought msg db))) :
    (semantics g ep).Does G (transitionDb E enc msg gp) db fun _ _ => True := by
  refine does_bind (does_preCheck D h hspend) fun r t hs hr => ?_
  have hI := D.steps h hs
  obtain ⟨rfl, rfl⟩ := hr
  cases hadm : admission msg gp db with
  | error => exact does_pure trivial
  | ok action =>
    have hact := (admission_ok hadm).1
    have hst : checked msg gp db = bought msg db := by unfold checked; rw [hadm]
    rw [hst] at hI ⊢
    refine does_bind (does_ensure_of_exist D hI (exist_bought msg db)) fun _ t _ ht => ?_
    subst ht
    split
    · exact does_pure trivial
    · rename_i hgas
      refine D.andThen (does_execute D hI (exist_bought msg db) (fun _ => hspend)
        (by rw [nonce_bought]; exact hnonce) (fun hpub => hid (hpub ▸ hact))
        fun hv hne hpay hgoes => hvote action ⟨hadm, hv, Nat.not_lt.1 hgas, hpay, hgoes, hne⟩) hI
        fun r => ?_
      cases r with
      | error => exact .pure _
      | ok =>
        dsimp only
        split
        · exact .pure _
        · exact abides_settle D _ _ _

end Discipline

section Guard

variable {V : Address → Prop} {W : OpPred}

/-- An asset can be published in the scope a transaction opens. -/
def Publishable (E : EVM) (V : Address → Prop) (W : OpPred) (addr : Address)
    (db : StateDB) : Prop :=
  let id := E.createAddress addr ((view db).getNonce addr)
  ¬ V id ∧ W (.createObject id) (numbered db.snapshot.2 addr)

theorem keeping_settle (msg : Message) (gp : Nat) (r : Reply) :
    Keeping g ep V W (settle E msg gp r) :=
  abides_settle (discipline_guard g ep E.createAddress V W) msg gp r

theorem steps_ensured (h : Protected V db) (a : Address) :
    (semantics g ep).Steps (Guard V W) db (ensured db a) := by
  unfold ensured
  split
  · exact .refl db
  · rename_i hne
    have habs := view_absent db a (Bool.not_eq_true _ ▸ hne)
    exact .exec (o := .createAccount a) (.refl db) ⟨habs.1, habs.2.1,
      (discipline_guard g ep (fun a _ => a) V W).absent h hne⟩ rfl

theorem steps_bought (h : Protected V db) (hpay : msg.gasCost ≤ (view db).getBalance msg.sender) :
    (semantics g ep).Steps (Guard V W) db (bought msg db) := by
  refine .exec (o := .subBalance msg.sender msg.gasCost) (steps_ensured h msg.sender)
    ⟨Int.mul_nonneg (by omega) (by omega), ?_⟩ rfl
  rw [balance_ensured]
  exact hpay

theorem steps_called (h : Protected V db)
    (hnonce : V msg.sender → 1 ≤ u64 ((view db).getNonce msg.sender + 1)) :
    (semantics g ep).Steps (Guard V W) db (called msg db) := by
  have hset : (semantics g ep).Steps (Guard V W) db
      (db.setNonce msg.sender (u64 ((view db).getNonce msg.sender + 1))) :=
    .exec (o := .setNonce ..) (.refl db) hnonce rfl
  unfold called
  cases msg.recipient with
  | none => exact hset
  | some a => exact hset.trans (steps_ensured (h.steps hset).1 a)

theorem does_transitionDb (h : Protected V db)
    (hnonce : V msg.sender → 1 ≤ u64 ((view db).getNonce msg.sender + 1))
    (hid : Action.ofCode msg.action = some .publishAsset →
      Publishable E V W msg.sender (bought msg db))
    (hW : ∀ action, ReachesVote E msg gp action db →
      Votable E W msg.sender msg.vote msg.callee (called msg (bought msg db))) :
    (semantics g ep).Does (Guard V W) (transitionDb E enc msg gp) db fun _ _ => True :=
  does_transition (discipline_guard g ep E.createAddress V W) h (fun _ => trivial)
    (fun _ => hnonce) hid hW

end Guard

/-! ## The sender when the call starts -/

theorem shown_ensured_self (db : StateDB) (a : Address) :
    (ensured db a).shown a = some (reading db a, ((db.shown a).map snd).getD false) := by
  unfold ensured reading
  rw [view_exist]
  cases h : db.shown a with
  | none =>
    rw [isSome_none, if_neg Bool.false_ne_true, shown_createAccount, if_pos rfl, h]
    rfl
  | some => rw [isSome_some, if_pos rfl, h]; rfl

theorem shown_ensured_of_some {x : Shown} (h : db.shown b = some x) (a : Address) :
    (ensured db a).shown b = some x := by
  unfold ensured
  split
  · exact h
  · rename_i hne
    rw [shown_createAccount, if_neg, h]
    rintro rfl
    rw [view_exist, h] at hne
    exact hne rfl

variable {d : Account} {s : Bool}

section

variable (h : db.shown a = some (d, s))
include h

theorem shown_subBalance_self (x : Int) :
    (db.subBalance a x).shown a = some ({ d with balance := d.balance - x }, s) := by
  obtain ⟨o, ho, heq⟩ := shown_eq_some db a h
  cases heq
  have hget : (db.getOrNewStateObject a).2 = o := by unfold getOrNewStateObject; rw [ho]
  rw [StateDB.subBalance, shown_edit, if_pos rfl]
  unfold edited
  rw [hget]
  by_cases hx : x = 0
  · simp [hx]
  · simp [hx, Write.apply, Field.set]

theorem shown_addBalance_self (x : Int) :
    (db.addBalance a x).shown a = some ({ d with balance := d.balance + x }, s) := by
  by_cases hx : x = 0
  · subst hx
    have htouch : (db.addBalance a 0).shown a = db.shown a :=
      shown_edit_touch db a h (fun o w hf => by
        rw [if_pos rfl] at hf
        split at hf <;> cases hf
        rfl) a
    rw [htouch, h, Int.add_zero]
  · exact ((edit_field db a (f := fun o => if x = 0 then if o.data.isEmpty then some .touch else none
      else some (.field (.balance (o.data.balance + x)))) (v := .balance (d.balance + x)) h
      fun o ho => by rw [if_neg hx, ho]).1 a).trans (if_pos rfl)

theorem shown_setNonce_self (n : Nat) :
    (db.setNonce a n).shown a = some ({ d with nonce := n }, s) :=
  ((edit_field db a (f := fun _ => some (.field (.nonce n))) h fun _ _ => rfl).1
    a).trans (if_pos rfl)

end

/-- When the call starts the sender has paid for the gas and used a nonce; nothing else of it
has changed. -/
theorem shown_called (msg : Message) (db : StateDB) :
    (called msg (bought msg db)).shown msg.sender = some ({ reading db msg.sender with
        balance := (reading db msg.sender).balance - msg.gasCost
        nonce := u64 ((view db).getNonce msg.sender + 1) },
        ((db.shown msg.sender).map snd).getD false) := by
  have hb := shown_subBalance_self (shown_ensured_self db msg.sender) msg.gasCost
  have hn := shown_setNonce_self hb (u64 ((view (bought msg db)).getNonce msg.sender + 1))
  rw [nonce_bought] at hn
  unfold called
  rw [nonce_bought]
  cases msg.recipient with
  | none => exact hn
  | some a =>
    exact shown_ensured_of_some hn a

theorem votable_of_shown (hW : ∀ t : StateDB,
    t.shown msg.sender = (called msg (bought msg db)).shown msg.sender →
      W (.vote msg.sender msg.vote E.delegateList E.maxElectDelegate) t) :
    Votable E W msg.sender msg.vote msg.callee (called msg (bought msg db)) := by
  refine ⟨hW _ rfl, fun habs => hW _ ?_⟩
  rw [shown_createAccount, if_neg]
  · rfl
  · intro heq
    rw [← heq, view_exist, shown_called] at habs
    cases habs

end

/-! ## A small chain -/

def smallTrie (balance : Nat) : Trie :=
  fun a => if a = 1 then some (plainAccount 0 balance) else
    if a = 2 then some (plainAccount 0 0) else none

/-- Address 1 votes for the delegate, with a transaction of value zero to address 2. -/
def smallVote : Message :=
  { sender := 1, recipient := some 2, nonce := 0, gasLimit := 30000, gasPrice := 1, amount := 0
    data := [], action := 2, vote := [⟨some 7, 0⟩], asset := none
    assetInfo := ⟨"", "", none, ""⟩, abi := [] }

end GoAoa.Core
