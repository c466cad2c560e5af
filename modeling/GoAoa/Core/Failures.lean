import GoAoa.Core.Bytecode
import GoAoa.Core.GasAccounting
import GoAoa.VM.Leave
import GoAoa.VM.Refusal

/-!
# Failures that do not pay

`TransitionDb` tells errors of the transition from failures of code by their value. What a
transaction's own code returns when an asset transfer is refused is the same value as that of a
call that cannot be paid for. So the transaction is not a failed one that pays for its gas, but an
invalid one. Where an instruction of the code panics, nothing is returned at all.
-/

namespace GoAoa.Core

open Option State State.StateDB VM Semantics Prog

variable {g : Growth} {ep : Bool} {E : EVM} {n : Nested} {db db' : StateDB} {c : Context} {fuel : Nat}

/-! ## Calls -/

/-- The error is one of the transition. -/
def Invalidates (r : Reply) : Prop := isConsensusErr r.err ≠ none

variable {r : Reply}

theorem invalidates_iff :
    Invalidates r ↔ r.err = some .insufficientBalance ∨ r.err = some .vote := by
  unfold Invalidates isConsensusErr
  split <;> simp_all

/-- The program returns, with a reply that is no error of the transition. -/
def Pays {α : Type} (g : Growth) (ep : Bool) (p : M α) (reply : α → Reply) (db : StateDB) : Prop :=
  ∃ x db', (semantics g ep).run p db = some (x, db') ∧ ¬ Invalidates (reply x)

/-- The votes of a call are accepted, if it comes to them. -/
def VotesAccepted (g : Growth) (E : EVM) (args : CallArgs) (db : StateDB) : Prop :=
  CountsVotes args → comesToAction E args (view db) = true →
    ∃ db₁, (entered db args.addr).vote g E.maxElectDelegate E.delegateList args.caller args.votes =
      some (true, db₁)

variable {args : CallArgs} {x : Bool × Reply}

theorem err_finish (r : Reply) : (finish r).2.err = r.err := by
  unfold finish
  split
  · rfl
  · dsimp only
    split <;> rfl

/-- A frame fails with an error of the transition, or not at all, through its own code only. -/
theorem pays_run (hE : E.interp = interpret c fuel) {f : Frame} : Pays g ep (VM.run E n f) id db ↔
      (E.precompiled f.codeAddr = none → f.code ≠ [] → Grants g ep n f (E.interp f) db) := by
  unfold VM.run
  cases hpre : E.precompiled f.codeAddr with
  | some p =>
    refine iff_of_true ⟨_, db, rfl, ?_⟩ fun h => by cases h
    rw [invalidates_iff]
    unfold runPrecompiled
    split
    · simp
    · split <;> simp
  | none =>
    by_cases hcode : f.code = []
    · rw [if_pos hcode]
      exact iff_of_true ⟨_, db, rfl, by simp [invalidates_iff]⟩ fun _ h => absurd hcode h
    · rw [if_neg hcode]
      have hpays : Pays g ep (runCode n f (E.interp f)) id db ↔ Grants g ep n f (E.interp f) db := by
        unfold Pays
        simp only [hE, invalidates_iff, not_or]
        exact grants_iff.symm
      exact hpays.trans ⟨fun h _ _ => h, fun h => h rfl hcode⟩

theorem pays_invoke {f : Frame} : Pays g ep (invoke E n f) Prod.snd db ↔
      Pays g ep (VM.run E n { f with code := (view db).getCode f.codeAddr }) id db := by
  constructor
  · rintro ⟨x, db', hrun, hx⟩
    obtain ⟨r, hr, rfl⟩ := of_run_invoke hrun
    refine ⟨r, db', hr, ?_⟩
    unfold Invalidates at hx ⊢
    rwa [err_finish] at hx
  · rintro ⟨r, db', hr, hx⟩
    refine ⟨finish r, db', ?_, ?_⟩
    · show (semantics g ep).run (VM.run E n { f with code := (view db).getCode f.codeAddr } >>= _) db = _
      rw [run_bind, hr]
      rfl
    · unfold Invalidates
      rwa [err_finish]

/-- If the code of the recipient starts, it runs to its end and no transfer of its own is refused. -/
def CodeEnds (g : Growth) (ep : Bool) (E : EVM) (n : Nested) (args : CallArgs) (db : StateDB) :
    Prop :=
  ∀ db₁, CodeStarts g ep E args db db₁ →
    Grants g ep n (args.running (view db₁)) (E.interp (args.running (view db₁))) db₁

theorem invalidates_stopped {db₁ : StateDB}
    (h : (semantics g ep).run (opening E args) db.snapshot.2 = some (some x, db₁)) :
    Invalidates x.2 ↔ ¬ VotesAccepted g E args db := by
  unfold VotesAccepted
  rw [run_opening] at h
  rw [invalidates_iff]
  split at h
  · rename_i hcomes
    rcases prologue_cases h with ⟨hearly, -, hx⟩ | ⟨hcounts, ok, hv, hx⟩ | ⟨-, -, hx, -⟩
    · cases hx
      refine iff_of_false ?_ fun hr => hr fun hcounts => absurd hcounts hearly.not_counts
      split <;> simp
    · cases ok <;> cases hx
      refine iff_of_true (.inr rfl) fun hr => ?_
      obtain ⟨db2, hv'⟩ := hr hcounts hcomes
      cases hv.symm.trans hv'
    · cases hx
  · rename_i hcomes
    cases h
    simp [hcomes]

theorem votesAccepted_of_opened {db₁ : StateDB}
    (h : (semantics g ep).run (opening E args) db.snapshot.2 = some (none, db₁)) :
    VotesAccepted g E args db := by
  intro hcounts hcomes
  rw [run_opening, if_pos hcomes] at h
  exact ⟨db₁, vote_of_prologue hcounts.1 h⟩

theorem exists_transfer (g : Growth) (ep : Bool) (sender recipient : Address)
    (asset : Option Address) (amount : Int) (db : StateDB) :
    ∃ db', (semantics g ep).run (transfer sender recipient asset amount) db = some ((), db') := by
  cases asset with
  | none => exact ⟨_, rfl⟩
  | some asset =>
    show ∃ db', ((semantics g ep).run (act (.subAssetBalance sender asset amount) >>= _) db) = _
    rw [run_bind, run_call]
    show ∃ db', (semantics g ep).run (ite ((db.subAssetBalance sender asset amount).1 = true) _ _) _ = _
    split <;> exact ⟨_, rfl⟩

/-- A call comes to the code, or to an end before it. -/
theorem exists_opening (hlist : args.action = .register → E.delegateList ≠ none)
    (hvotes : VotesAccepted g E args db) :
    ∃ x db₁, (semantics g ep).run (opening E args) db.snapshot.2 = some (x, db₁) := by
  rw [run_opening]
  split
  · rename_i hcomes
    unfold prologue
    cases hact : args.action
    case addVote | subVote =>
      dsimp only
      split
      · exact ⟨_, _, rfl⟩
      · rename_i hne
        obtain ⟨db₁, hv⟩ := hvotes ⟨by rw [hact]; rfl, hne⟩ hcomes
        refine ⟨none, db₁, ?_⟩
        rw [run_bind, run_call]
        show (StateDB.vote ..).bind _ = _
        rw [hv]
        rfl
    case register =>
      obtain ⟨d, hd⟩ := ne_none_iff_exists'.1 (hlist hact)
      rw [hd]
      exact ⟨_, _, rfl⟩
    all_goals
      obtain ⟨db₁, htr⟩ := exists_transfer g ep args.caller args.addr args.asset args.value
        (entered db args.addr)
      refine ⟨none, db₁, ?_⟩
      dsimp only
      rw [run_bind, htr]
      rfl
  · exact ⟨_, _, rfl⟩

/-- **When a call pays**: it can be paid for, its votes are accepted, and the code of the recipient
ends. -/
theorem pays_call (hE : E.interp = interpret c fuel)
    (hlist : args.action = .register → E.delegateList ≠ none) :
    Pays g ep (call E n args) id db ↔
      canPay (view db) args = true ∧ VotesAccepted g E args db ∧
        CodeEnds g ep E n args db := by
  have hstart : ∀ {db₁}, (semantics g ep).run (opening E args)
      db.snapshot.2 = some (none, db₁) → canPay (view db) args = true →
      (Pays g ep (invoke E n args.frame) Prod.snd db₁ ↔
        CodeEnds g ep E n args db) := by
    intro db₁ hopen hpay
    rw [pays_invoke, pays_run hE]
    constructor
    · intro h db2 hstarts
      cases hopen.symm.trans hstarts.opens
      exact h hstarts.plain hstarts.code
    · exact fun h hplain hcode => h db₁ ⟨hpay, hopen, hplain, hcode⟩
  constructor
  · rintro ⟨r, db', hrun, hr⟩
    rcases call_cases hrun with ⟨-, rfl, -⟩ | ⟨hpay, x, db₁, undo, t, hopen, hgo, -⟩
    · exact absurd (invalidates_iff.2 (.inl rfl)) hr
    cases x with
    | some =>
      cases hgo
      refine ⟨hpay, not_not.1 fun hv => hr ((invalidates_stopped hopen).2 hv), ?_⟩
      intro db2 hstarts
      cases hopen.symm.trans hstarts.opens
    | none => exact ⟨hpay, votesAccepted_of_opened hopen, (hstart hopen hpay).1 ⟨_, t, hgo, hr⟩⟩
  · rintro ⟨hpay, hvotes, hends⟩
    obtain ⟨x, db₁, hopen⟩ := exists_opening hlist hvotes
    have hgo : Pays g ep (afterOpening E n args x) Prod.snd db₁ := by
      cases x with
      | some x => exact ⟨x, db₁, rfl, fun hx => (invalidates_stopped hopen).1 hx hvotes⟩
      | none => exact (hstart hopen hpay).2 hends
    obtain ⟨⟨undo, r⟩, t, hgo, hr⟩ := hgo
    have hbody : (semantics g ep).run (opening E args >>=
        afterOpening E n args) db.snapshot.2 = some ((undo, r), t) := by
      rw [run_bind, hopen]
      exact hgo
    obtain ⟨u, hu⟩ := exists_within hbody
    refine ⟨r, u, ?_, hr⟩
    rw [call_eq]
    show (semantics g ep).run (ite (canPay (view db) args = true) _ _) db = _
    rw [if_pos hpay]
    exact hu

/-! ## Creations -/

/-- What is done with the code that a creation returns does not change whether it is invalid. -/
theorem invalidates_deposit {a : Address} {abiLen : Nat}
    (h : (semantics g ep).run (deposit a abiLen r) db = some (x, db')) :
    Invalidates x.2 ↔ Invalidates r := by
  rw [invalidates_iff, invalidates_iff]
  unfold deposit at h
  dsimp only at h
  split at h
  · rename_i hok
    rw [hok.1]
    split at h
    · obtain ⟨_, _, -, heq⟩ := of_run_bind h
      cases heq
      rw [hok.1]
    · cases h
      simp
  · split at h
    · cases h
      cases r.err <;> simp
    · cases h
      exact Iff.rfl

/-- The code of a creation starts in `db₁`. -/
structure CreationStarts (g : Growth) (ep : Bool) (E : EVM) (f : Frame) (db db₁ : StateDB) : Prop where
  pays : (view db).canTransfer f.caller f.asset f.value = true
  addr : f.self = E.createAddress f.caller ((view db).getNonce f.caller) ∧ f.codeAddr = f.self
  free : Vacant E f.caller db
  founds : (semantics g ep).run (transfer f.caller f.self f.asset f.value)
    ((numbered db f.caller).snapshot.2.createAccount f.self) = some ((), db₁)
  plain : E.precompiled f.self = none
  code : f.code ≠ []

def creationFrame (E : EVM) (db : StateDB) (caller : Address) (code : Bytes) (gas : Nat)
    (asset : Option Address) (value : Nat) (readOnly : Bool) : Frame :=
  let addr := E.createAddress caller ((view db).getNonce caller)
  ⟨caller, addr, addr, code, [], gas, asset, value, readOnly⟩

/-- If the code of a creation starts, it runs to its end and no transfer of its own is refused. -/
def CreationEnds (g : Growth) (ep : Bool) (E : EVM) (n : Nested) (f : Frame) (db : StateDB) : Prop :=
  ∀ db₁, CreationStarts g ep E f db db₁ → Grants g ep n f (E.interp f) db₁

theorem exists_deposit (g : Growth) (ep : Bool) (a : Address) (abiLen : Nat) (r : Reply)
    (db : StateDB) :
    ∃ x db', (semantics g ep).run (deposit a abiLen r) db = some (x, db') := by
  unfold deposit
  dsimp only
  split <;> split <;> exact ⟨_, _, rfl⟩

theorem run_creation {caller addr : Address} {code : Bytes} {gas value : Nat}
    {asset : Option Address} {readOnly : Bool} :
    (semantics g ep).run (creation E n caller addr code gas asset value readOnly) db =
      ((semantics g ep).run (transfer caller addr asset value) (db.createAccount addr)).bind
        fun r => (semantics g ep).run
          (VM.run E n ⟨caller, addr, addr, code, [], gas, asset, value, readOnly⟩) r.2 := by
  unfold creation
  rw [run_bind, run_call]
  exact run_bind _ _

/-- **When a creation pays**: it can be paid for, and its code ends. -/
theorem pays_create (hE : E.interp = interpret c fuel) {caller : Address} {code : Bytes} {gas value abiLen : Nat}
    {asset : Option Address} {readOnly : Bool} :
    Pays g ep (create E n caller code gas asset value abiLen readOnly)
        Prod.snd db ↔
      (view db).canTransfer caller asset value = true ∧ CreationEnds g ep
        E n (creationFrame E db caller code gas asset value readOnly)
          db := by
  constructor
  · rintro ⟨x, db', hrun, hx⟩
    rcases create_cases hrun with ⟨-, rfl, -⟩ | ⟨hpay, hcase⟩
    · exact absurd (invalidates_iff.2 (.inl rfl)) hx
    refine ⟨hpay, fun db2 hstart => ?_⟩
    rcases hcase with ⟨hcol, -⟩ | ⟨-, r, t, undo, u, hcreation, hdeposit, -⟩
    · exact absurd hstart.free hcol
    obtain ⟨db₁, hfounds, hrun⟩ := of_run_creation hcreation
    cases hfounds.symm.trans hstart.founds
    rw [invalidates_deposit hdeposit] at hx
    exact (pays_run hE).1 ⟨r, t, hrun, hx⟩ hstart.plain hstart.code
  · rintro ⟨hpay, hends⟩
    unfold Pays
    rw [create_eq]
    show ∃ x db', (semantics g ep).run (ite ((view db).canTransfer caller asset value = true) _ _)
      db = _ ∧ _
    rw [if_pos hpay]
    show ∃ x db', (semantics g ep).run (ite (Vacant E caller db) _ _) (numbered db caller) = _ ∧ _
    split
    · rename_i hfree
      obtain ⟨db₁, hfounds⟩ := exists_transfer g ep caller
        (E.createAddress caller ((view db).getNonce caller)) asset value
        ((numbered db caller).snapshot.2.createAccount
          (E.createAddress caller ((view db).getNonce caller)))
      obtain ⟨r, t, hrun, hr⟩ := (pays_run hE).2 fun hplain hcode =>
        hends db₁ ⟨hpay, ⟨rfl, rfl⟩, hfree, hfounds, hplain, hcode⟩
      obtain ⟨⟨undo, reply⟩, u, hdeposit⟩ := exists_deposit g ep
        (E.createAddress caller ((view db).getNonce caller)) abiLen r t
      have hbody : (semantics g ep).run (creation E n caller
          (E.createAddress caller ((view db).getNonce caller)) code gas asset value readOnly >>=
            deposit (E.createAddress caller ((view db).getNonce caller)) abiLen)
          (numbered db caller).snapshot.2 = some ((undo, reply), u) := by
        rw [run_bind, run_creation, hfounds, bind_some]
        exact bind_eq_some_iff.2 ⟨_, hrun, hdeposit⟩
      obtain ⟨w, hw⟩ := exists_within hbody
      refine ⟨(E.createAddress caller ((view db).getNonce caller), reply), w, ?_,
        (invalidates_deposit hdeposit).not.2 hr⟩
      rw [run_bind]
      exact bind_eq_some_iff.2 ⟨_, hw, rfl⟩
    · exact ⟨_, _, rfl, by simp [invalidates_iff]⟩

/-! ## Transactions -/

/-- The transaction is sound in itself: there is code to create, the asset is well described, the
deposit of a registration is covered, and the votes are accepted. -/
def Sound (g : Growth) (E : EVM) (msg : Message) (action : Action) (gas : Nat) (db : StateDB) : Prop :=
  match action with
  | .createContract => msg.data ≠ []
  | .publishAsset => ∃ supply, isAssetInfoValid msg.assetInfo = .ok supply ∧ 0 ≤ supply
  | action => (action = .register → registerCost ≤ (view db).getBalance msg.sender) ∧
      VotesAccepted g E (callArgs msg action gas) (called msg db)

/-- The code of the transaction's own frame, if it starts, runs to its end and no asset transfer it
asks for is refused. -/
def OwnCodeEnds (g : Growth) (ep : Bool) (E : EVM) (msg : Message) (action : Action)
    (gas : Nat) (db : StateDB) : Prop :=
  match action with
  | .createContract => CreationEnds g ep E (nestedCalls E)
      (creationFrame E db msg.sender msg.data gas msg.asset msg.amount false) db
  | .publishAsset => True
  | action => CodeEnds g ep E (nestedCalls E) (callArgs msg action gas) (called msg db)

section Transition

variable {enc : InfoEncoder} {msg : Message} {action : Action} {gas : Nat}

theorem holding_ensured (db : StateDB) (a b : Address) (x : Option Address) :
    (view (ensured db a)).holding b x = (view db).holding b x := by
  unfold ensured
  split
  · rfl
  · rename_i hexist
    exact holding_createAccount db a b x (shown_of_absent db a hexist)

theorem holding_called (msg : Message) (db : StateDB) (b : Address) (x : Option Address) :
    (view (called msg db)).holding b x = (view db).holding b x := by
  have hnonce : ∀ n, (view (db.setNonce msg.sender n)).holding b x = (view db).holding b x :=
    fun n => holding_same b x (amount_setNonce n)
  unfold called
  cases msg.recipient with
  | none => exact hnonce _
  | some => rw [holding_ensured]; exact hnonce _

theorem canTransfer_iff {v : View} {a : Address} {asset : Option Address} {amount : Int} :
    v.canTransfer a asset amount = true ↔ amount ≤ v.holding a asset := by
  cases asset <;> exact decide_eq_true_iff

/-- The value of the transaction can be transferred, if its action asks for that. Of a withdrawn vote
the value counts as negative. -/
def ValueCovered (msg : Message) (action : Action) (v : View) : Prop :=
  action ≠ .publishAsset → v.canTransfer msg.sender msg.asset
    (if action = .subVote then -(msg.amount : Int) else msg.amount) = true

theorem valueCovered_of_canTransfer {v : View}
    (h : v.canTransfer msg.sender msg.asset msg.amount = true) : ValueCovered msg action v := by
  intro _
  rw [canTransfer_iff] at h ⊢
  split <;> omega

theorem canPay_iff {v v' : View} (hsame : ∀ b x, v'.holding b x = v.holding b x)
    (hp : action ≠ .publishAsset) :
    canPay v' (callArgs msg action gas) = true ↔ ValueCovered msg action v ∧
      (action = .register → registerCost ≤ v.getBalance msg.sender) := by
  have hdeposit : v.getBalance msg.sender = v.holding msg.sender none := rfl
  unfold canPay ValueCovered
  rw [Bool.and_eq_true, Bool.or_eq_true, decide_eq_true_iff, canTransfer_iff, canTransfer_iff,
    canTransfer_iff, hsame, hsame, hdeposit]
  exact and_congr ⟨fun h _ => h, fun h => h hp⟩ (by tauto)

/-- The execution returns, and not with an error of the transition. -/
def Executes (g : Growth) (ep : Bool) (E : EVM) (enc : InfoEncoder) (msg : Message)
    (action : Action) (gas : Nat) (db : StateDB) : Prop :=
  ∃ reply db', (semantics g ep).run (execute E enc msg action gas) db = some (.ok reply, db') ∧
    ¬ Invalidates reply

theorem executes_publish : Executes g ep E enc msg .publishAsset gas db ↔
      ∃ supply, isAssetInfoValid msg.assetInfo = .ok supply ∧ 0 ≤ supply := by
  constructor
  · rintro ⟨reply, db', h, -⟩
    obtain ⟨p, db2, hwithin, h⟩ := of_run_bind h
    obtain ⟨undo, t, hbody, -⟩ := of_run_within hwithin
    obtain ⟨_, _, -, hbody⟩ := of_run_bind hbody
    obtain ⟨_, db4, hpub, heq⟩ := of_run_bind hbody
    cases heq
    cases p with
    | error => cases h
    | ok =>
      rw [run_publishAsset] at hpub
      cases hinfo : isAssetInfoValid msg.assetInfo with
      | error => rw [hinfo] at hpub; cases hpub
      | ok supply =>
        rw [hinfo] at hpub
        dsimp only at hpub
        split at hpub
        · cases hpub
        · exact ⟨supply, rfl, Int.not_lt.1 ‹_›⟩
  · rintro ⟨supply, hinfo, hpos⟩
    have hbody : ∃ t, (semantics g ep).run (ensure msg.sender >>= fun _ =>
        publishAsset E enc msg.sender msg.assetInfo >>= fun r => pure (r.toBool.not, r))
          db.snapshot.2 = some ((false, .ok ()), t) := by
      rw [run_bind, run_ensure, bind_some, run_bind, run_publishAsset, hinfo]
      dsimp only
      rw [if_neg (Int.not_lt.2 hpos)]
      exact ⟨_, rfl⟩
    obtain ⟨t, hbody⟩ := hbody
    obtain ⟨u, hu⟩ := exists_within hbody
    refine ⟨⟨[], gas, none⟩, u, ?_, by simp [invalidates_iff]⟩
    show (semantics g ep).run (Prog.within _ >>= _) db = _
    rw [run_bind]
    exact bind_eq_some_iff.2 ⟨_, hu, rfl⟩

theorem executes_create (hdata : msg.data ≠ []) : Executes g ep E enc msg .createContract gas db ↔
      Pays g ep (create E (nestedCalls E) msg.sender msg.data gas msg.asset msg.amount
        msg.abi.length false) Prod.snd db := by
  unfold Executes execute
  dsimp only
  rw [if_neg hdata]
  constructor
  · rintro ⟨reply, db', h, hr⟩
    obtain ⟨x, t, hrun, heq⟩ := of_run_bind h
    cases heq
    exact ⟨x, _, hrun, hr⟩
  · rintro ⟨x, t, hrun, hr⟩
    exact ⟨x.2, t, by rw [run_bind, hrun]; rfl, hr⟩

theorem executes_call (hc : calls action = true) : Executes g ep E enc msg action gas db ↔
      Pays g ep (call E (nestedCalls E) (callArgs msg action gas)) id (called msg db) := by
  unfold Executes
  rw [run_execute_call hc]
  constructor
  · rintro ⟨reply, db', h, hr⟩
    obtain ⟨⟨r, t⟩, hrun, heq⟩ := map_eq_some_iff.1 h
    cases heq
    exact ⟨_, _, hrun, hr⟩
  · rintro ⟨r, t, hrun, hr⟩
    exact ⟨r, t, by rw [hrun]; rfl, hr⟩

theorem executes_iff (hE : E.interp = interpret c fuel)
    (hlist : action = .register → E.delegateList ≠ none) :
    Executes g ep E enc msg action gas db ↔
      (ValueCovered msg action (view db) ∧ Sound g E msg action gas db) ∧
        OwnCodeEnds g ep E msg action gas db := by
  cases action
  case createContract =>
    by_cases hdata : msg.data = []
    · refine iff_of_false ?_ fun h => h.1.2 hdata
      rintro ⟨reply, db', h, -⟩
      unfold execute at h
      dsimp only at h
      rw [if_pos hdata] at h
      cases h
    · rw [executes_create hdata, pays_create hE]
      exact and_congr_left fun _ => ⟨fun h => ⟨fun _ => h, hdata⟩, fun h => h.1 (by simp)⟩
  case publishAsset =>
    exact executes_publish.trans ⟨fun h => ⟨⟨fun hp => absurd rfl hp, h⟩, trivial⟩, fun h => h.1.2⟩
  all_goals
    refine (executes_call rfl).trans ((pays_call hE hlist).trans and_assoc.symm) |>.trans ?_
    rw [canPay_iff (holding_called msg db) (by simp), and_assoc (a := ValueCovered ..)]
    rfl

/-- The transition returns no error if the execution returns none, and leaves no more gas than it was
given. -/
theorem transitionDb_ok_iff {gp : Nat} (hadm : admission msg gp db = .ok action)
    (hgas : intrinsicGas msg.data action ≤ msg.gasLimit) (hgp : gp < 2 ^ 64)
    (hevm : ReturnsGas g ep E enc msg action db) :
    (∃ gp' used failed db', (semantics g ep).run (transitionDb E enc msg gp) db =
        some ((gp', .ok (used, failed)), db')) ↔
      Executes g ep E enc msg action (gasForExecution msg action) (bought msg db) := by
  constructor
  · rintro ⟨gp', used, failed, db', h⟩
    obtain ⟨action', reply, db₁, hadm', -, hexec, herr, -⟩ := transition_ok h
    cases hadm.symm.trans hadm'
    exact ⟨reply, db₁, hexec, fun hi => hi herr⟩
  · rintro ⟨reply, db₁, hexec, hr⟩
    obtain ⟨gp', used, db', hrun, -⟩ :=
      exists_run_of_execute hgp hadm hgas hexec (not_not.1 hr) (hevm reply db₁ hexec)
    exact ⟨gp', used, _, db', hrun⟩

/-- **When a transaction is valid.** An admitted transaction that pays the intrinsic gas and whose
value is covered is one that pays for its gas, failed or not, if and only if it is sound in itself
and the code of its own frame runs to its end without a refused asset transfer. -/
theorem transition_valid_iff {gp : Nat} (hadm : admission msg gp db = .ok action)
    (hgas : intrinsicGas msg.data action ≤ msg.gasLimit) (hgp : gp < 2 ^ 64)
    (hvalue : (view (bought msg db)).canTransfer msg.sender msg.asset msg.amount = true)
    (hlist : action = .register → E.delegateList ≠ none)
    (hevm : ReturnsGas g ep (E.running (interpret c fuel)) enc msg action db) :
    (∃ gp' used failed db', (semantics g ep).run (transitionDb (E.running (interpret c fuel)) enc msg
        gp) db = some ((gp', .ok (used, failed)), db')) ↔
      Sound g E msg action (gasForExecution msg action) (bought msg db) ∧
        OwnCodeEnds g ep (E.running (interpret c fuel)) msg action (gasForExecution msg action)
          (bought msg db) := by
  rw [transitionDb_ok_iff hadm hgas hgp hevm, executes_iff (E := E.running (interpret c fuel)) rfl hlist]
  exact and_congr_left fun _ => and_iff_right (valueCovered_of_canTransfer hvalue)

end Transition

/-! ## A refused asset transfer -/

/-- Address 5 sends `amount` of asset 7, which it does not have, to address 2. -/
def payingTrie (amount : UInt8) : Trie :=
  fun a => if a = 1 then some (plainAccount 0 100000) else
    if a = 5 then some { plainAccount 1 0 with code := [0x60, 2, 0x60, 7, 0x60, amount, 0xe1] }
    else none

def bytecodeEvm : EVM := smallEvm.running (interpret bytecodeContext 100)

theorem transition_valid_zero :
    Sound doubling smallEvm (smallMessage 6) .callContract 5000 (bought (smallMessage 6)
        (.new (payingTrie 0))) ∧
      OwnCodeEnds doubling true bytecodeEvm (smallMessage 6) .callContract 5000
        (bought (smallMessage 6) (.new (payingTrie 0))) := by
  have hrun : ((semantics doubling true).run (transitionDb bytecodeEvm (fun _ _ => [])
      (smallMessage 6) 100000) (.new (payingTrie 0))).map (fun x => x.1) =
        some (74402, .ok (25598, false)) := by decide +kernel
  obtain ⟨⟨⟨gp, res⟩, db'⟩, hrun, heq⟩ := map_eq_some_iff.1 hrun
  cases heq
  refine (transition_valid_iff (by decide +kernel) (by decide +kernel) (by decide +kernel)
    (by decide +kernel) (by simp) fun reply executed hexec => ?_).1 ⟨_, _, _, _, hrun⟩
  have hleft := of_check (Q := fun r => r.1.toOption.all (fun reply => reply.gas ≤ 5000) = true)
    (by decide +kernel) hexec
  exact of_decide_eq_true hleft

/-- **A contract that sends an asset it does not have makes the transaction invalid.** -/
theorem not_transition_valid_refused :
    admission (smallMessage 6) 100000 (.new (payingTrie 1)) = .ok .callContract ∧
      intrinsicGas (smallMessage 6).data .callContract ≤ (smallMessage 6).gasLimit ∧
      (view (bought (smallMessage 6) (.new (payingTrie 1)))).canTransfer (smallMessage 6).sender
        (smallMessage 6).asset (smallMessage 6).amount = true ∧
      ((semantics doubling true).run (transitionDb bytecodeEvm (fun _ _ => [])
        (smallMessage 6) 100000) (.new (payingTrie 1))).map (fun x => x.1) =
          some (70000, .error (.vm .insufficientBalance)) := by
  decide +kernel

/-! ## A negative balance on the stack -/

/-- Address 5 loads from the memory at the position that the balance of its caller is. -/
def loadingTrie (balance : Nat) : Trie :=
  fun a => if a = 1 then some (plainAccount 0 balance) else
    if a = 5 then some { plainAccount 1 0 with code := [0x33, 0x31, 0x51] } else none

/-- **A vote can make the code that it calls panic.** The vote locks one AOA, the sender is left
with a balance of -40, and the contract uses that as an offset. -/
theorem vote_loading_panics : admission { smallVote with recipient := some 5 } 100000
        (.new (loadingTrie (30000 + 10 ^ 18 - 40))) = .ok .addVote ∧
      ((semantics doubling true).run (transitionDb bytecodeEvm (fun _ _ => [])
        { smallVote with recipient := some 5 } 100000)
        (.new (loadingTrie (30000 + 10 ^ 18 - 40)))).isNone = true := by
  decide +kernel

end GoAoa.Core
