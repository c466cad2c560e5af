import GoAoa.State.Holdings
import GoAoa.VM.Cut
import GoAoa.VM.Walk

/-!
# The value of a call

Code sees the value it is called with, and takes it as moved to its own account. `Call` moves it
for most actions, before the code starts, but votes and registrations run the recipient's code with
a value that stays where it was (`moved_iff`). And a delegated frame keeps the value of its parent
but not its asset, so an amount of an asset is reported as AOA (`observed_delegated_iff`).
-/

namespace GoAoa.VM

open Option State State.StateDB Semantics Prog

/-! ## What accounts hold -/

/-- The spendable balance of an asset, or of AOA. -/
def View.holding (v : View) (a : Address) : Option Address → Int
  | none => v.getBalance a
  | some asset => v.getAssetBalance a asset

def currency : Option Address → Holding
  | none => .balance
  | some asset => .asset asset

theorem currency_balance {x : Option Address} : currency x = .balance ↔ x = none := by
  cases x <;> simp [currency]

theorem currency_asset {x : Option Address} {id : Address} :
    currency x = .asset id ↔ x = some id := by
  cases x <;> simp [currency]

section Holding

variable (db : StateDB) (a b : Address) (x : Option Address)

theorem holding_amount : (view db).holding b x = db.amount (currency x) b := by
  cases x with
  | none => exact view_balance db b
  | some =>
    simp only [View.holding, View.getAssetBalance, view, amount, StateDB.shown, map_map]
    rfl

variable {db a}

theorem holding_same {db' : StateDB} (h : db'.amount (currency x) = db.amount (currency x)) :
    (view db').holding b x = (view db).holding b x := by
  rw [holding_amount, h, holding_amount]

theorem holding_added {db' : StateDB} {n : Int} (h : db'.amount (currency x) =
      Function.update (db.amount (currency x)) a (db.amount (currency x) a + n)) :
    (view db').holding b x = (view db).holding b x + if b = a then n else 0 := by
  rw [holding_amount, h, holding_amount]
  by_cases hb : b = a
  · rw [if_pos hb, hb, Function.update_self]
  · rw [if_neg hb, Function.update_of_ne hb, Int.add_zero]

variable (db a)

theorem holding_addBalance (amount : Int) : (view (db.addBalance a amount)).holding b x =
      (view db).holding b x + if b = a then (if x = none then amount else 0) else 0 := by
  simpa only [currency_balance] using holding_added b x (amount_addBalance amount)

theorem holding_subBalance (amount : Int) : (view (db.subBalance a amount)).holding b x =
      (view db).holding b x + if b = a then (if x = none then -amount else 0) else 0 := by
  simpa only [currency_balance] using holding_added b x (amount_subBalance amount)

theorem holding_addAssetBalance (asset : Address) (amount : Int) :
    (view (db.addAssetBalance a asset amount)).holding b x =
      (view db).holding b x + if b = a then (if x = some asset then amount else 0) else 0 := by
  simpa only [currency_asset] using holding_added b x (amount_addAssetBalance asset amount)

theorem holding_subAssetBalance {asset : Address} {amount : Int} (hpos : 0 < amount)
    (h : amount ≤ (view db).holding a (some asset)) :
    (db.subAssetBalance a asset amount).1 = true ∧
      (view (db.subAssetBalance a asset amount).2).holding b x =
        (view db).holding b x + if b = a then (if x = some asset then -amount else 0) else 0 := by
  have hok : (db.subAssetBalance a asset amount).1 = true := by
    rw [holding_amount, ← amount_getOrNew] at h
    refine isSome_iff_ne_none.2 fun hnone => ?_
    have hlow := Assets.lt_of_subAsset_none (Int.le_of_lt hpos) hnone
    exact hlow.elim (Int.not_lt.2 h) (Int.ne_of_gt hpos)
  have hadd := holding_added b x (@amount_subAssetBalance db _ a asset amount)
  simpa only [currency_asset, and_true, true_and, hok] using hadd

theorem holding_createAccount (h : db.shown a = none) :
    (view (db.createAccount a)).holding b x = (view db).holding b x := by
  refine holding_same b x ?_
  rw [amount_createAccount, amount_of_none h, ite_self, ← amount_of_none h, Function.update_eq_self]

theorem holding_vote {g : Growth} {m : Int} {delegateList : Option (List Address)}
    {votes : List Vote} {db' : StateDB} (h : db.vote g m delegateList a votes = some (true, db')) :
    ∃ ms, votes.mapM markOf = some ms ∧ (view db').holding b x =
        (view db).holding b x +
          if b = a then (if x = none then -(Ballot.total ms * aoa) else 0) else 0 := by
  obtain ⟨d, e, result, -, hc, ⟨hok, -⟩ | ⟨-, diff, lock, db₁, rfl, -, -, hlock, rfl⟩⟩ := vote_cases h
  · cases hok
  · obtain ⟨ms, hms, -, hdiff⟩ := changeVoteList_cast hc
    have hcur : currency x ≠ .lock := by cases x <;> simp [currency]
    refine ⟨ms, hms, ?_⟩
    rw [holding_same b x (amount_setVoteList _), holding_added b x (amount_addLockBalance hlock),
      if_neg hcur, ite_self, Int.add_zero, holding_subBalance, holding_same b x (amount_setVoteCells _),
      hdiff, Int.zero_add]

end Holding

/-! ## Where the recipient's code starts -/

/-- What the action does before the code of the recipient: `none` if the code is run. -/
def prologue (E : EVM) (c : CallArgs) : M (Option (Bool × Reply)) :=
  match c.action with
  | .addVote | .subVote =>
    if c.votes = [] then pure (some (false, ⟨[], c.gas, some .emptyVoteList⟩))
    else do
      let ok ← act (.vote c.caller c.votes E.delegateList E.maxElectDelegate)
      pure (if ok then none else some (true, ⟨[], c.gas, some .vote⟩))
  | .register =>
    match E.delegateList with
    | none => .fail
    | some d =>
      pure (if c.caller ∈ d then some (false, ⟨[], c.gas, some .alreadyRegistered⟩) else none)
  | _ => do
    transfer c.caller c.addr c.asset c.value
    pure none

/-- `Call` from the snapshot to where the code of the recipient starts. -/
def opening (E : EVM) (c : CallArgs) : M (Option (Bool × Reply)) := do
  let v ← act .view
  if v.exist c.addr then prologue E c
  else if (E.precompiled c.addr).isNone && c.value == 0 then
    pure (some (false, ⟨[], c.gas, none⟩))
  else do
    act (.createAccount c.addr)
    prologue E c

/-- The code of the recipient, if it is run. -/
def afterOpening (E : EVM) (n : Nested) (c : CallArgs) : Option (Bool × Reply) → M (Bool × Reply)
  | some x => pure x
  | none => invoke E n c.frame

variable {g : Growth} {ep : Bool} {E : EVM} {n : Nested} {c : CallArgs} {db db₁ db' : StateDB}
  {r : Reply}

section Opening

variable {f : Frame}

theorem callBody_eq : callBody E n c = prologue E c >>= afterOpening E n c := by
  unfold callBody prologue
  cases c.action
  case addVote | subVote =>
    dsimp only
    split
    · rfl
    · rw [bind_bind]
      congr 1
      funext ok
      cases ok <;> rfl
  case register =>
    cases E.delegateList with
    | none => rfl
    | some =>
      dsimp only
      split <;> rfl
  all_goals
    rw [bind_bind]
    rfl

/-- **`Call` is its opening and the code of the recipient**, in a scope. -/
theorem call_eq : call E n c = (act .view >>= fun v =>
      if canPay v c then Prog.within (opening E c >>= afterOpening E n c)
      else pure ⟨[], c.gas, some .insufficientBalance⟩) := by
  unfold call opening
  congr 1
  funext v
  split
  · congr 1
    rw [bind_bind]
    congr 1
    funext v
    split
    · exact callBody_eq
    · split
      · rfl
      · rw [bind_bind, callBody_eq]
  · rfl

theorem call_cases (h : (semantics g ep).run (call E n c) db = some (r, db')) :
    (canPay (view db) c = false ∧ r = ⟨[], c.gas, some .insufficientBalance⟩ ∧ db' = db) ∨
    (canPay (view db) c = true ∧ ∃ x db₁ undo t,
      (semantics g ep).run (opening E c) db.snapshot.2 = some (x, db₁) ∧
      (semantics g ep).run (afterOpening E n c x) db₁ = some ((undo, r), t) ∧
      (semantics g ep).leave db.snapshot.1 undo t = some db') := by
  rw [call_eq] at h
  replace h : (semantics g ep).run (ite (canPay (view db) c = true) _ _) db = some (r, db') := h
  split at h
  · rename_i hpay
    obtain ⟨undo, t, hbody, hleave⟩ := of_run_within h
    obtain ⟨x, db₁, hopen, hgo⟩ := of_run_bind hbody
    exact .inr ⟨hpay, x, db₁, undo, t, hopen, hgo, hleave⟩
  · rename_i hpay
    cases h
    exact .inl ⟨Bool.eq_false_iff.2 hpay, rfl, rfl⟩

theorem of_run_invoke {x : Bool × Reply} (h : (semantics g ep).run (invoke E n f) db = some (x, db')) :
    ∃ r, (semantics g ep).run (run E n { f with code := (view db).getCode f.codeAddr }) db =
      some (r, db') ∧ x = finish r := by
  obtain ⟨r, _, hr, heq⟩ := of_run_bind (p := run E n { f with code := _ }) h
  cases heq
  exact ⟨r, hr, rfl⟩

def entered (db : StateDB) (a : Address) : StateDB :=
  if (view db).exist a then db.snapshot.2 else db.snapshot.2.createAccount a

/-- A call of nothing with no value ends at once. -/
def comesToAction (E : EVM) (c : CallArgs) (v : View) : Bool :=
  v.exist c.addr || (E.precompiled c.addr).isSome || c.value != 0

theorem run_opening : (semantics g ep).run (opening E c) db.snapshot.2 =
      if comesToAction E c (view db) then (semantics g ep).run (prologue E c) (entered db c.addr)
      else some (some (false, ⟨[], c.gas, none⟩), db.snapshot.2) := by
  unfold opening comesToAction entered
  show (semantics g ep).run (ite ((view db).exist c.addr = true) _ _) db.snapshot.2 = _
  by_cases hexist : (view db).exist c.addr = true
  · rw [if_pos hexist, if_pos hexist, hexist]
    rfl
  · rw [if_neg hexist, if_neg hexist, Bool.eq_false_iff.2 hexist]
    cases hpre : E.precompiled c.addr with
    | none =>
      by_cases hvalue : c.value = 0
      · rw [hvalue]; rfl
      · have hne := beq_eq_false_iff_ne.2 hvalue
        have hne' := bne_iff_ne.2 hvalue
        rw [hne, hne', if_neg (by simp), if_pos (by simp), run_bind, run_call]
        rfl
    | some =>
      rfl

theorem holding_entered (db : StateDB) (a b : Address) (x : Option Address) :
    (view (entered db a)).holding b x = (view db).holding b x := by
  unfold entered
  split
  · rfl
  · rename_i hexist
    exact holding_createAccount db.snapshot.2 a b x (shown_of_absent db a hexist)

/-- `Call` ends with an error before the code of the recipient, and does not revert. -/
def StopsEarly (E : EVM) (c : CallArgs) : Prop :=
  (isVote c.action = true ∧ c.votes = []) ∨
    (c.action = .register ∧ ∃ d, E.delegateList = some d ∧ c.caller ∈ d)

def CountsVotes (c : CallArgs) : Prop := isVote c.action = true ∧ c.votes ≠ []

theorem StopsEarly.not_counts (h : StopsEarly E c) : ¬ CountsVotes c := by
  rintro ⟨hv, hne⟩
  rcases h with ⟨-, hempty⟩ | ⟨hreg, -⟩
  · exact hne hempty
  · rw [hreg] at hv
    cases hv

/-- **How the action ends.** -/
theorem prologue_cases {x : Option (Bool × Reply)}
    (h : (semantics g ep).run (prologue E c) db = some (x, db₁)) :
    (StopsEarly E c ∧ db₁ = db ∧ x = some (false, ⟨[], c.gas,
      some (if isVote c.action then .emptyVoteList else .alreadyRegistered)⟩)) ∨
    (CountsVotes c ∧ ∃ ok,
      db.vote g E.maxElectDelegate E.delegateList c.caller c.votes = some (ok, db₁) ∧
      x = if ok then none else some (true, ⟨[], c.gas, some .vote⟩)) ∨
    (isVote c.action = false ∧ ¬ StopsEarly E c ∧ x = none ∧
      if transfers c.action then
        (semantics g ep).run (transfer c.caller c.addr c.asset c.value) db = some ((), db₁)
      else c.action = .register ∧ db₁ = db) := by
  unfold prologue at h
  unfold StopsEarly CountsVotes
  cases hact : c.action <;> rw [hact] at h
  case addVote | subVote =>
    dsimp only at h
    split at h
    · rename_i hempty
      cases h
      exact .inl ⟨.inl ⟨rfl, hempty⟩, rfl, rfl⟩
    · rename_i hne
      obtain ⟨ok, db2, hv, heq⟩ := of_run_bind h
      cases heq
      exact .inr (.inl ⟨⟨rfl, hne⟩, ok, (run_call _).symm.trans hv, rfl⟩)
  case register =>
    cases hlist : E.delegateList with
    | none => rw [hlist] at h; cases h
    | some l =>
      rw [hlist] at h
      cases h
      by_cases hmem : c.caller ∈ l
      · rw [if_pos hmem]
        exact .inl ⟨.inr ⟨rfl, l, rfl, hmem⟩, rfl, rfl⟩
      · rw [if_neg hmem]
        refine .inr (.inr ⟨rfl, ?_, rfl, rfl, rfl⟩)
        rintro (h | ⟨-, l', heq, hmem'⟩)
        · cases h.1
        · cases heq
          exact hmem hmem'
  all_goals
    obtain ⟨u, db2, htr, heq⟩ := of_run_bind h
    cases heq
    refine .inr (.inr ⟨rfl, ?_, rfl, htr⟩)
    rintro (h | h) <;> cases h.1

/-- The code of the recipient starts in `db₁` if `Call` is made in `db`. -/
structure CodeStarts (g : Growth) (ep : Bool) (E : EVM) (c : CallArgs) (db db₁ : StateDB) :
    Prop where
  pays : canPay (view db) c = true
  opens : (semantics g ep).run (opening E c) db.snapshot.2 = some (none, db₁)
  plain : E.precompiled c.addr = none
  code : (view db₁).getCode c.addr ≠ []

def CallArgs.running (c : CallArgs) (v : View) : Frame := { c.frame with code := v.getCode c.addr }

end Opening

/-! ## Creations -/

def creation (E : EVM) (n : Nested) (caller contractAddr : Address) (code : Bytes) (gas : Nat)
    (asset : Option Address) (value : Nat) (readOnly : Bool) : M Reply := do
  act (.createAccount contractAddr)
  transfer caller contractAddr asset value
  run E n ⟨caller, contractAddr, contractAddr, code, [], gas, asset, value, readOnly⟩

/-- There is no contract at the address of the next creation. -/
def Vacant (E : EVM) (caller : Address) (db : StateDB) : Prop :=
  let addr := E.createAddress caller ((view db).getNonce caller)
  (view (numbered db caller)).getNonce addr = 0 ∧ (view (numbered db caller)).getCode addr = []

instance {E caller db} : Decidable (Vacant E caller db) := inferInstanceAs (Decidable (_ ∧ _))

section Create

variable {caller addr : Address}
  {code : Bytes} {gas value abiLen : Nat} {asset : Option Address} {readOnly : Bool}
  {x : Address × Reply}

/-- **`Create` is the creation and the deposit of the code**, in a scope. -/
theorem create_eq :
    VM.create E n caller code gas asset value abiLen readOnly = (act .view >>= fun v =>
      if v.canTransfer caller asset value then
        act (.setNonce caller (u64 (v.getNonce caller + 1))) >>= fun _ => act .view >>= fun v' =>
          let addr := E.createAddress caller (v.getNonce caller)
          if v'.getNonce addr = 0 ∧ v'.getCode addr = [] then
            Prog.within (creation E n caller addr code gas asset value readOnly >>= deposit addr abiLen)
              >>= fun r => pure (addr, r)
          else pure (0, ⟨[], 0, some .contractAddressCollision⟩)
      else pure (0, ⟨[], gas, some .insufficientBalance⟩)) := by
  unfold VM.create creation
  simp only [bind_bind]

theorem create_cases
    (h : (semantics g ep).run (VM.create E n caller code gas asset value abiLen readOnly) db =
      some (x, db')) :
    ((view db).canTransfer caller asset value = false ∧
      x = (0, ⟨[], gas, some .insufficientBalance⟩) ∧ db' = db) ∨
    (view db).canTransfer caller asset value = true ∧
      ((¬ Vacant E caller db ∧ x = (0, ⟨[], 0, some .contractAddressCollision⟩) ∧
          db' = numbered db caller) ∨
        Vacant E caller db ∧ ∃ r t undo u, (semantics g ep).run (creation E n caller
            (E.createAddress caller ((view db).getNonce caller)) code gas asset value readOnly)
              (numbered db caller).snapshot.2 = some (r, t) ∧
          (semantics g ep).run (deposit (E.createAddress caller ((view db).getNonce caller)) abiLen r)
            t = some ((undo, x.2), u) ∧
          (semantics g ep).leave (numbered db caller).snapshot.1 undo u = some db') := by
  rw [create_eq] at h
  replace h : (semantics g ep).run (ite ((view db).canTransfer caller asset value = true) _ _) db =
    some (x, db') := h
  split at h
  · rename_i hpay
    refine .inr ⟨hpay, ?_⟩
    replace h : (semantics g ep).run (ite (Vacant E caller db) _ _) (numbered db caller) =
      some (x, db') := h
    split at h
    · rename_i hfree
      obtain ⟨reply, w, hwithin, heq⟩ := of_run_bind h
      cases heq
      obtain ⟨undo, u, hbody, hleave⟩ := of_run_within hwithin
      obtain ⟨r, t, hcreation, hdeposit⟩ := of_run_bind hbody
      exact .inr ⟨hfree, r, t, undo, u, hcreation, hdeposit, hleave⟩
    · rename_i hcol
      cases h
      exact .inl ⟨hcol, rfl, rfl⟩
  · rename_i hpay
    cases h
    exact .inl ⟨Bool.eq_false_iff.2 hpay, rfl, rfl⟩

theorem of_run_creation
    (h : (semantics g ep).run (creation E n caller addr code gas asset value readOnly) db =
      some (r, db')) :
    ∃ db₁, (semantics g ep).run (transfer caller addr asset value) (db.createAccount addr) =
        some ((), db₁) ∧
      (semantics g ep).run (run E n ⟨caller, addr, addr, code, [], gas, asset, value, readOnly⟩) db₁ =
        some (r, db') := by
  obtain ⟨_, db₁, htr, hrun⟩ := of_run_bind (p := transfer caller addr asset value) h
  exact ⟨db₁, htr, hrun⟩

end Create

/-! ## Whether the value was moved -/

/-- An amount of an asset went from one account to another, and nothing else of it moved. -/
def Moved (v v' : View) (sender recipient : Address) (asset : Option Address) (amount : Int) : Prop :=
  ∀ b, v'.holding b asset =
    v.holding b asset - (if b = sender then amount else 0) + if b = recipient then amount else 0

def netVotes (votes : List Vote) : Int := ((votes.mapM markOf).map Ballot.total).getD 0

theorem moved_transfer {sender recipient : Address} {asset : Option Address} {amount : Int}
    (hpos : 0 < amount) (hpay : amount ≤ (view db).holding sender asset)
    (h : (semantics g ep).run (transfer sender recipient asset amount) db = some ((), db₁)) :
    Moved (view db) (view db₁) sender recipient asset amount := by
  intro b
  cases asset with
  | none =>
    cases h
    rw [holding_addBalance, holding_subBalance, if_pos rfl, if_pos rfl]
    split <;> split <;> omega
  | some asset =>
    obtain ⟨hok, hsub⟩ := holding_subAssetBalance db sender b (some asset) hpos hpay
    have h : (semantics g ep).run (ite ((db.subAssetBalance sender asset amount).1 = true) _ _)
      (db.subAssetBalance sender asset amount).2 = some ((), db₁) := h
    rw [if_pos hok] at h
    cases h
    rw [holding_addAssetBalance, hsub, if_pos rfl, if_pos rfl]
    split <;> split <;> omega

/-- A vote that goes on to the code is accepted. -/
theorem vote_of_prologue (hact : isVote c.action = true)
    (h : (semantics g ep).run (prologue E c) db = some (none, db₁)) :
    db.vote g E.maxElectDelegate E.delegateList c.caller c.votes = some (true, db₁) := by
  rcases prologue_cases h with ⟨-, -, hx⟩ | ⟨-, ok, hv, hx⟩ | ⟨hno, -⟩
  · cases hx
  · cases ok with
    | false => cases hx
    | true => exact hv
  · cases hact.symm.trans hno

theorem holding_votePrologue (hact : isVote c.action = true)
    (h : (semantics g ep).run (prologue E c) db = some (none, db₁)) (b : Address)
    (x : Option Address) :
    (view db₁).holding b x = (view db).holding b x +
      if b = c.caller then (if x = none then -(netVotes c.votes * aoa) else 0) else 0 := by
  obtain ⟨ms, hms, hhold⟩ := holding_vote db c.caller b x (vote_of_prologue hact h)
  have hnet : netVotes c.votes = Ballot.total ms := by unfold netVotes; rw [hms]; rfl
  rw [hhold, hnet]

/-- The opening ends with the prologue, from a state in which everybody holds what they did. -/
theorem CodeStarts.prologue (h : CodeStarts g ep E c db db₁) :
    ∃ db0, (∀ b x, (view db0).holding b x = (view db).holding b x) ∧
      (semantics g ep).run (VM.prologue E c) db0 = some (none, db₁) := by
  have hopen := h.opens
  rw [run_opening] at hopen
  split at hopen
  · exact ⟨entered db c.addr, holding_entered db c.addr, hopen⟩
  · cases hopen

/-- If the caller only gave up a stake, the value was moved from nobody to nobody at best. -/
theorem moved_iff_stake {v v' : View} {sender recipient : Address} {asset : Option Address}
    {amount stake : Int} (hpos : 0 < amount)
    (h : ∀ b, v'.holding b asset = v.holding b asset + if b = sender then -stake else 0) :
    Moved v v' sender recipient asset amount ↔ sender = recipient ∧ stake = 0 := by
  constructor
  · intro hm
    have hsame : sender = recipient := by
      by_contra hne
      have hr := hm recipient
      rw [h recipient, if_neg (Ne.symm hne), if_neg (Ne.symm hne), if_pos rfl] at hr
      omega
    have hs := hm sender
    rw [h sender, if_pos rfl, if_pos rfl, if_pos hsame] at hs
    exact ⟨hsame, by omega⟩
  · rintro ⟨rfl, rfl⟩ b
    rw [h b]
    split <;> omega

/-- **Whether the value was moved when the code starts**: it was for all actions but votes and
registrations, and for these only if an account called itself. -/
theorem moved_iff (hpos : 0 < c.value) (h : CodeStarts g ep E c db db₁) :
    Moved (view db) (view db₁) c.caller c.addr c.asset c.value ↔
      transfers c.action ∨ (c.caller = c.addr ∧
        (c.asset ≠ none ∨ c.action = .register ∨ netVotes c.votes = 0)) := by
  obtain ⟨db0, hsame, hrun⟩ := h.prologue
  have hpos' := Int.natCast_pos.2 hpos
  by_cases hvote : isVote c.action = true
  · have hstake : ∀ b, (view db₁).holding b c.asset = (view db).holding b c.asset +
        if b = c.caller then -(if c.asset = none then netVotes c.votes * aoa else 0) else 0 := by
      intro b
      rw [holding_votePrologue hvote hrun, hsame]
      by_cases hx : c.asset = none
      · rw [if_pos hx, if_pos hx]
      · rw [if_neg hx, if_neg hx, Int.neg_zero]
    have hnot : transfers c.action = false ∧ c.action ≠ .register := by
      cases hc : c.action <;> rw [hc] at hvote <;> first | exact ⟨rfl, by decide⟩ | cases hvote
    rw [moved_iff_stake hpos' hstake, hnot.1]
    have haoa : aoa ≠ 0 := by decide
    cases c.asset with
    | none => simp [hnot.2, haoa]
    | some => simp
  · have hvote := Bool.eq_false_iff.2 hvote
    have hpay : (c.value : Int) ≤ (view db0).holding c.caller c.asset := by
      rw [hsame]
      have hp := (Bool.and_eq_true_iff.1 h.pays).1
      rw [if_neg fun hsub => by rw [hsub] at hvote; cases hvote] at hp
      cases hasset : c.asset with
      | none | some => rw [hasset] at hp; exact of_decide_eq_true hp
    obtain ⟨-, -, hx⟩ | ⟨hcount, -⟩ | ⟨-, -, -, hend⟩ := prologue_cases hrun
    · cases hx
    · cases hvote.symm.trans hcount.1
    split at hend
    · rename_i ht
      have hm : Moved (view db) (view db₁) c.caller c.addr c.asset c.value := fun b => by
        rw [moved_transfer hpos' hpay hend b, hsame]
      exact ⟨fun _ => .inl ht, fun _ => hm⟩
    · rename_i ht
      obtain ⟨hreg, rfl⟩ := hend
      have hstake : ∀ b, (view db₁).holding b c.asset = (view db).holding b c.asset +
          if b = c.caller then -0 else 0 := by
        intro b
        rw [hsame, Int.neg_zero, ite_self, Int.add_zero]
      rw [moved_iff_stake hpos' hstake]
      exact ⟨fun hm => .inr ⟨hm.1, .inr (.inl hreg)⟩, fun hm => ⟨(hm.resolve_left ht).1, rfl⟩⟩

def callTrie : Trie :=
  fun a => if a = 1 then some (plainAccount 0 (2 * 10 ^ 18)) else
    if a = 5 then some { plainAccount 1 0 with code := [0] } else none

def smallCall (action : Action) : CallArgs :=
  { caller := 1, addr := 5, input := [], gas := 100000, action := action, value := 10 ^ 18
    votes := [⟨some 7, 0⟩], asset := none, readOnly := false }

theorem codeStarts_small (action : Action) (haction : action = .trans ∨ action = .addVote) :
    ∃ db₁, CodeStarts doubling true smallEvm (smallCall action) (.new callTrie) db₁ := by
  have hopen : ((semantics doubling true).run (opening smallEvm (smallCall action))
      (StateDB.new callTrie).snapshot.2).map (fun r => (r.1, (view r.2).getCode 5)) =
        some (none, [0]) := by
    rcases haction with rfl | rfl <;> decide +kernel
  obtain ⟨⟨r, db₁⟩, hr, rfl, hcode⟩ := map_mk_eq_some.1 hopen
  have hpays : canPay (view (.new callTrie)) (smallCall action) = true := by
    rcases haction with rfl | rfl <;> decide +kernel
  exact ⟨db₁, hpays, hr, rfl, fun h => by cases hcode.symm.trans h⟩

theorem moved_iff_small :
    ∃ db₁, CodeStarts doubling true smallEvm (smallCall .trans) (.new callTrie) db₁ ∧
      Moved (view (.new callTrie)) (view db₁) 1 5 none (10 ^ 18 : Nat) := by
  obtain ⟨db₁, h⟩ := codeStarts_small .trans (.inl rfl)
  exact ⟨db₁, h, (moved_iff (by decide) h).2 (.inl rfl)⟩

/-- **A vote runs the recipient's code with a value that was not moved to it.** -/
theorem not_moved_vote :
    ∃ db₁, CodeStarts doubling true smallEvm (smallCall .addVote) (.new callTrie) db₁ ∧
      ((smallCall .addVote).running (view db₁)).callValue = 10 ^ 18 ∧
      ¬ Moved (view (.new callTrie)) (view db₁) 1 5 none (10 ^ 18 : Nat) := by
  obtain ⟨db₁, h⟩ := codeStarts_small .addVote (.inr rfl)
  refine ⟨db₁, h, rfl, fun hm => ?_⟩
  obtain ⟨db0, hsame, hrun⟩ := h.prologue
  -- the contract holds what it held, which is nothing
  have hcontract := hm 5
  rw [holding_votePrologue rfl hrun, hsame] at hcontract
  exact absurd hcontract (by decide +kernel)

/-! ## Delegated frames -/

/-- What code can learn of its caller and its value. -/
structure Observed where
  caller : Address
  callValue : Nat
  assetId : Address
  assetValue : Nat
  deriving DecidableEq, Repr

/-- `CALLER`, `CALLVALUE`, `ASSET` and `ASSETVALUE`. -/
def Frame.observed (f : Frame) : Observed := ⟨f.caller, f.callValue, f.assetId, f.assetValue⟩

/-- The second frame runs some code that the first has delegated to. -/
def Delegates (f f' : Frame) : Prop :=
  ∃ addr input gas code, f' = { f.delegated addr input gas with code := code }

/-- Along delegations the caller and the value stay, and the asset is gone. -/
theorem delegated_chain {f f' : Frame} (h : Relation.TransGen Delegates f f') :
    f'.caller = f.caller ∧ f'.value = f.value ∧ f'.asset = none := by
  induction h with
  | single h =>
    obtain ⟨-, -, -, -, rfl⟩ := h
    exact ⟨rfl, rfl, rfl⟩
  | tail _ h ih =>
    obtain ⟨-, -, -, -, rfl⟩ := h
    exact ⟨ih.1, ih.2.1, rfl⟩

/-- **What a frame at the end of a chain of delegations observes** is what the first frame does
if that has no asset, or nothing of the zero asset. -/
theorem observed_delegated_iff {f f' : Frame} (h : Relation.TransGen Delegates f f') :
    f'.observed = f.observed ↔ f.asset = none ∨ (f.asset = some 0 ∧ f.value = 0) := by
  obtain ⟨hcaller, hvalue, hasset⟩ := delegated_chain h
  unfold Frame.observed Frame.callValue Frame.assetId Frame.assetValue isAOA
  rw [hcaller, hvalue, hasset]
  cases f.asset with
  | none => simp
  | some =>
    simp only [isNone_none, isNone_some, if_true, getD_none, getD_some,
      Bool.false_eq_true, if_false, Observed.mk.injEq, true_and, reduceCtorEq, false_or,
      some.injEq]
    exact ⟨fun ⟨hv, ha, _⟩ => ⟨ha.symm, hv⟩, fun ⟨ha, hv⟩ => ⟨hv, ha.symm, hv.symm⟩⟩

def sentFrame (asset : Option Address) (code : Bytes) : Frame :=
  { caller := 1, self := 5, codeAddr := 5, code := code, input := [], gas := 2000, asset := asset
    value := 100, readOnly := false }

theorem observed_delegated_aoa :
    ((sentFrame none []).delegated 6 [] 1000).observed = (sentFrame none []).observed := by
  have hd : Delegates (sentFrame none []) ((sentFrame none []).delegated 6 [] 1000) :=
    ⟨6, [], 1000, [], rfl⟩
  exact (observed_delegated_iff (.single hd)).2 (.inl rfl)

/-- Return the value of the call, and what the code of address 6 returns when delegated to. -/
def delegatingCode : Bytes :=
  [0x34, 0x60, 0, 0x52, 0x60, 32, 0x60, 32, 0x60, 0, 0x60, 0, 0x60, 6, 0x60, 200, 0xf4,
    0x60, 64, 0x60, 0, 0xf3]

def valueCode : Bytes := [0x34, 0x60, 0, 0x52, 0x60, 32, 0x60, 0, 0xf3]

def delegateTrie : Trie :=
  fun a => if a = 6 then some { plainAccount 1 0 with code := valueCode } else none

/-- **An amount of an asset is reported as AOA**: `CALLVALUE` is 0 in the frame that was sent 100
of asset 7, and 100 in the frame it delegates to. -/
theorem not_observed_delegated_asset :
    ∃ r db', (semantics doubling true).run (bytecode smallEvm bytecodeContext 100 1024
        (sentFrame (some 7) delegatingCode)
        (interpret bytecodeContext 100 (sentFrame (some 7) delegatingCode))) (.new delegateTrie) =
          some (r, db') ∧
      r.ret = Word.paddedBytes 0 ++ Word.paddedBytes 100 := by
  exact exists₂_of_check (fun r _ => r.ret = _) (by decide +kernel) fun _ _ _ => id

end GoAoa.VM
