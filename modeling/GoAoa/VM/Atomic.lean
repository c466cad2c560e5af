import GoAoa.VM.CallValue
import GoAoa.VM.Reverts

/-!
# Errors and what they leave behind

The entry points of the machine, and what is left of them if they return an error. Almost always
the scope is taken back, and then the accounts are as before. The exceptions are the errors that
come after the snapshot and do not revert to it, and the votes, which work on the stored list.
-/

namespace GoAoa.VM

open Option State State.StateDB Semantics Prog

/-- The accounts read the same, and the same accounts are there. -/
structure SameAccounts (s t : StateDB) : Prop where
  reading : ∀ a, SameReading (reading s a) (reading t a)
  exist : ∀ a, (view t).exist a = (view s).exist a

variable {t : StateDB}

section

variable {s : StateDB}

theorem SameAccounts.refl (s : StateDB) : SameAccounts s s := ⟨fun _ => .refl _, fun _ => rfl⟩

theorem sameAccounts_of_alike (h : Alike .byBalance s t) : SameAccounts s t := by
  refine ⟨sameReading_of_alike h, fun a => ?_⟩
  rw [view_exist, view_exist]
  have hshow := h.shown a
  generalize s.shown a = x at hshow
  generalize t.shown a = y at hshow
  cases hshow <;> rfl

theorem SameAccounts.voteList (h : SameAccounts s t) (a : Address) :
    (t.getVoteList a).view = (s.getVoteList a).view := by
  rw [(reads s a).2.2.2.2.2.2, (reads t a).2.2.2.2.2.2]
  exact (h.reading a).voteList

end

/-! ## Entry points -/

/-- A use of the machine, with its arguments. -/
inductive Entry where
  | call (c : CallArgs)
  | callCode (f : Frame) (addr : Address) (input : Bytes) (gas value : Nat)
  | delegateCall (f : Frame) (addr : Address) (input : Bytes) (gas : Nat)
  | staticCall (f : Frame) (addr : Address) (input : Bytes) (gas : Nat)
  | create (caller : Address) (code : Bytes) (gas : Nat) (asset : Option Address)
    (value abiLen : Nat) (readOnly : Bool)

def Entry.run (E : EVM) (n : Nested) : Entry → M Reply
  | .call c => VM.call E n c
  | .callCode f addr input gas value => VM.callCode E n f addr input gas value
  | .delegateCall f addr input gas => VM.delegateCall E n f addr input gas
  | .staticCall f addr input gas => VM.staticCall E n f addr input gas
  | .create caller code gas asset value abiLen readOnly => do
    let x ← VM.create E n caller code gas asset value abiLen readOnly
    pure x.2

variable {g : Growth} {E : EVM} {d : Nat} {db db' : StateDB} {r : Reply}

section Scopes

variable {f : Frame}

theorem undoable_invoke {x : Bool × Reply} (hs : Sane db)
    (h : (semantics g true).run (invoke E (nested E d) f) db = some (x, t)) :
    Undoable .byBalance db t ∧ Sane t := by
  have hkeep := keeping_invoke (E := E) (f := f)
    (keeps_nested E g true (fun _ => False) (KeepsLists g) d) (.inl id)
  have hsteps := (hkeep db (protected_none db)).steps h
  exact ((keeps_sane g _).steps hsteps hs).symm

/-- A frame that ends with an error asks for the revert. -/
theorem undo_of_invoke {n : Nested} {ep : Bool} {x : Bool × Reply}
    (h : (semantics g ep).run (invoke E n f) db = some (x, t)) (herr : x.2.err ≠ none) :
    x.1 = true := by
  obtain ⟨reply, -, rfl⟩ := of_run_invoke h
  unfold finish at herr ⊢
  split
  · rename_i hnone
    rw [hnone] at herr
    exact absurd hnone herr
  · rfl

/-- **A scope around the code of a frame leaves no trace of an error.** -/
theorem alike_invoke (hs : Sane db)
    (h : (semantics g true).run (.within (invoke E (nested E d) f)) db = some (r, db'))
    (herr : r.err ≠ none) : Alike .byBalance db db' := by
  obtain ⟨undo, t, hbody, hleave⟩ := of_run_within h
  obtain rfl := undo_of_invoke hbody herr
  exact ((undoable_invoke hs.snapshot hbody).1.revert hleave).1

end Scopes

/-! ## Calls -/

section Call

variable {c : CallArgs} {db1 : StateDB}

/-- The database with the cells of the stored vote list as counting the votes leaves them. -/
def recast (g : Growth) (E : EVM) (c : CallArgs) (db : StateDB) : StateDB :=
  match E.delegateList with
  | none => db
  | some l =>
    match changeVoteList g l c.votes (Edit.start (db.getVoteList c.caller)) 0 with
    | none => db
    | some (e, _) => db.setVoteCells c.caller e.prev

theorem Sane.entered (hs : Sane db) (a : Address) : Sane (entered db a) := by
  unfold VM.entered
  split
  · exact hs.snapshot
  · exact hs.snapshot.createAccount a

/-- Making the recipient does not change the list of the caller. -/
theorem getVoteList_entered (db : StateDB) (a b : Address) :
    (entered db a).getVoteList b = db.getVoteList b := by
  unfold VM.entered
  split
  · rfl
  · rename_i hexist
    have hnone := shown_of_absent db a hexist
    rw [getVoteList_shown, getVoteList_shown, shown_createAccount]
    by_cases hb : b = a
    · rw [if_pos hb, hb, hnone]; rfl
    · rw [if_neg hb]; rfl

theorem undoable_votes {ok : Bool} (hs : Sane db)
    (h : (entered db c.addr).vote g E.maxElectDelegate E.delegateList c.caller c.votes =
      some (ok, t)) :
    Undoable .byBalance (recast g E c db).snapshot.2 t ∧ Sane t := by
  have hent := hs.entered c.addr
  obtain ⟨l, e, res, hl, he, hvote, hg⟩ := undoable_vote_cells hent.grounded h
  rw [getVoteList_entered] at he
  have howes := hent.owes.exec (V := fun _ => False) (W := fun _ _ => True)
      (o := .vote c.caller c.votes E.delegateList E.maxElectDelegate) trivial h
  refine ⟨Undoable.trans ?_ hvote, hg, howes⟩
  have hrecast : recast g E c db = db.setVoteCells c.caller e.prev := by
    unfold VM.recast
    rw [hl]
    dsimp only
    rw [he]
  have hsnap : (db.setVoteCells c.caller e.prev).snapshot.2 =
      db.snapshot.2.setVoteCells c.caller e.prev := by
    unfold setVoteCells
    rw [show db.snapshot.2.getStateObject c.caller = db.getStateObject c.caller from rfl]
    cases db.getStateObject c.caller <;> rfl
  rw [hrecast, hsnap]
  unfold VM.entered
  split
  · exact .refl _ _
  · rename_i hexist
    have hnone := shown_of_absent db c.addr hexist
    obtain ⟨htrie, hlogs, hrefund, hj⟩ := rest_setVoteCells db.snapshot.2 c.caller e.prev
    obtain ⟨htrie', hlogs', hrefund', hj'⟩ :=
      rest_setVoteCells (db.snapshot.2.createAccount c.addr) c.caller e.prev
    have hentry : ∀ s : StateDB, s.shown c.addr = none →
        s.createEntry c.addr = .createObject c.addr := by
      intro s hs
      unfold createEntry
      rw [map_eq_none_iff.1 hs]
    have hnone' : (db.snapshot.2.setVoteCells c.caller e.prev).shown c.addr = none := by
      rw [shown_setVoteCells]
      split
      · rename_i heq
        rw [← heq]
        exact map_eq_none_iff.2 hnone
      · exact hnone
    refine undoable_create (a := c.addr) (hs.snapshot.grounded.setVoteCells e.prev)
      ?_ (htrie'.trans htrie.symm) (hlogs'.trans hlogs.symm) (hrefund'.trans hrefund.symm) fun b hb => ?_
    · rw [hj', hj, hentry _ hnone']
      show db.snapshot.2.journal.append (db.snapshot.2.createEntry c.addr) = _
      rw [hentry db.snapshot.2 hnone]
    · rw [shown_setVoteCells, shown_setVoteCells]
      split
      · rename_i heq
        rw [shown_createAccount, if_neg (heq ▸ hb)]
      · rw [shown_createAccount, if_neg hb]

theorem undoable_entered (hs : Sane db) (a : Address) :
    Undoable .byBalance db.snapshot.2 (entered db a) := by
  unfold VM.entered
  split
  · exact .refl _ _
  · exact undoable_made hs.snapshot.grounded _

theorem undoable_transfer (hs : Sane db) (hpay : canPay (view db) c = true)
    (hno : isVote c.action = false)
    (h : (semantics g true).run (transfer c.caller c.addr c.asset c.value) (entered db c.addr) =
      some ((), t)) : Undoable .byBalance (entered db c.addr) t ∧ Sane t := by
  have hne : c.action ≠ .subVote := by
    intro hact
    rw [hact] at hno
    cases hno
  have hbal : c.asset = none → (c.value : Int) ≤ (view (entered db c.addr)).getBalance c.caller := by
    intro hasset
    have hcan := (Bool.and_eq_true _ _ ▸ hpay).1
    rw [if_neg hne, hasset] at hcan
    have hcan := of_decide_eq_true hcan
    unfold VM.entered
    split
    · exact hcan
    · rw [balance_createAccount]; exact hcan
  have hsteps := steps_transfer (W := KeepsLists g) (protected_none (entered db c.addr)) hbal h
  exact ((keeps_sane g _).steps hsteps (hs.entered c.addr)).symm

/-- **What is left of a call that returns an error.** -/
theorem call_error (hs : Sane db) (hpay : canPay (view db) c = true)
    (h : (semantics g true).run (VM.call E (nested E d) c) db = some (r, db')) (herr : r.err ≠ none) :
    (StopsEarly E c ∧ db' = entered db c.addr) ∨
    (CountsVotes c ∧ (∃ l e res, E.delegateList = some l ∧
        changeVoteList g l c.votes (Edit.start (db.getVoteList c.caller)) 0 = some (e, res)) ∧
      Alike .byBalance (recast g E c db) db') ∨
    (¬ StopsEarly E c ∧ ¬ CountsVotes c ∧ Alike .byBalance db db') := by
  rcases call_cases h with ⟨hno, -⟩ | ⟨-, x, db1, undo, t, hopen, hgo, hleave⟩
  · cases hpay.symm.trans hno
  rw [run_opening] at hopen
  -- once the action is over, an error comes from the code, and the scope is taken back
  have hcode : ∀ {s}, x = none → s.snapshot.1 = db.snapshot.1 →
      Undoable .byBalance s.snapshot.2 db1 → Sane db1 → Alike .byBalance s db' := by
    rintro s rfl hid hund hsane
    obtain rfl := undo_of_invoke hgo herr
    have hleave := hleave
    rw [← hid] at hleave
    exact ((hund.trans (undoable_invoke hsane hgo).1).revert hleave).1
  split at hopen
  swap
  · cases hopen
    cases hgo
    exact absurd rfl herr
  rcases prologue_cases hopen with ⟨hearly, rfl, rfl⟩ | ⟨hcount, ok, hv, rfl⟩ |
    ⟨hno, hearly, rfl, htr⟩
  · cases hgo
    exact .inl ⟨hearly, (some.inj hleave).symm⟩
  · obtain ⟨hund, hsane⟩ := undoable_votes hs hv
    obtain ⟨l, e, res, hl, he, -⟩ := vote_cases hv
    rw [getVoteList_entered] at he
    have hid : (recast g E c db).snapshot.1 = db.snapshot.1 := by
      unfold VM.recast
      rw [hl]
      dsimp only
      rw [he]
      show (db.setVoteCells c.caller e.prev).journal.nextRevisionId = _
      rw [(rest_setVoteCells db c.caller e.prev).2.2.2]
      rfl
    refine .inr (.inl ⟨hcount, ⟨l, e, res, hl, he⟩, ?_⟩)
    cases ok with
    | true => exact hcode rfl hid hund hsane
    | false =>
      cases hgo
      have hleave := hleave
      rw [← hid] at hleave
      exact (hund.revert hleave).1
  · refine .inr (.inr ⟨hearly, fun hcount => (by cases hno.symm.trans hcount.1), ?_⟩)
    split at htr
    · obtain ⟨hund, hsane⟩ := undoable_transfer hs hpay hno htr
      exact hcode rfl rfl ((undoable_entered hs c.addr).trans hund) hsane
    · obtain ⟨-, rfl⟩ := htr
      exact hcode rfl rfl (undoable_entered hs c.addr) (hs.entered c.addr)

/-- The condition under which an error of `Call` leaves no trace. -/
def CallReverts (g : Growth) (E : EVM) (c : CallArgs) (db : StateDB) : Prop :=
  canPay (view db) c = true → (StopsEarly E c → (view db).exist c.addr = true) ∧
      (CountsVotes c → KeepsVoteList g E.delegateList c.caller c.votes db)

/-- Counting the votes shows if and only if it has changed what the stored list shows. -/
theorem sameAccounts_recast {l : List Address} {e : Edit Address} {res : Option Int}
    (hl : E.delegateList = some l)
    (he : changeVoteList g l c.votes (Edit.start (db.getVoteList c.caller)) 0 = some (e, res))
    (h : Alike .byBalance (recast g E c db) db') :
    SameAccounts db db' ↔ KeepsVoteList g E.delegateList c.caller c.votes db := by
  have hrecast : recast g E c db = db.setVoteCells c.caller e.prev := by
    unfold VM.recast
    rw [hl]
    dsimp only
    rw [he]
  rw [hrecast] at h
  have hkeep : KeepsVoteList g E.delegateList c.caller c.votes db ↔
      e.prev.view = (db.getVoteList c.caller).view := by
    refine ⟨fun hk => hk l e res hl he, fun hview l' e' res' hl' he' => ?_⟩
    cases hl.symm.trans hl'
    cases he.symm.trans he'
    exact hview
  rw [hkeep]
  constructor
  · intro hsame
    have hview := (sameAccounts_of_alike h).voteList c.caller
    rw [hsame.voteList] at hview
    rw [hview, getVoteList_shown (db.setVoteCells c.caller e.prev), shown_setVoteCells, if_pos rfl]
    cases hx : db.shown c.caller with
    | some => rfl
    | none =>
      -- there is no list whose cells could have moved
      have hlen := len_prev_changeVoteList he
      have hlist : db.getVoteList c.caller = Slice.ofList [] 0 0 := by
        rw [getVoteList_shown, hx]; rfl
      rw [hlist] at hlen
      refine List.eq_nil_of_length_eq_zero ?_
      rw [Slice.length_view]
      exact hlen
  · exact fun hview => sameAccounts_of_alike ((alike_setVoteCells hview).trans h)

/-- **An error of `Call` leaves no trace** if and only if the condition holds. -/
theorem sameAccounts_call_iff (hs : Sane db)
    (h : (semantics g true).run (VM.call E (nested E d) c) db = some (r, db')) (herr : r.err ≠ none) :
    SameAccounts db db' ↔ CallReverts g E c db := by
  unfold CallReverts
  by_cases hpay : canPay (view db) c = true
  · simp only [hpay, true_imp_iff]
    rcases call_error hs hpay h herr with ⟨hearly, rfl⟩ | ⟨hcount, ⟨l, e, res, hl, he⟩, halike⟩ |
      ⟨hearly, hcount, halike⟩
    · constructor
      · intro hsame
        refine ⟨fun _ => ?_, fun hc => absurd hc hearly.not_counts⟩
        rw [← hsame.exist c.addr]
        unfold VM.entered
        split
        · assumption
        · rw [view_exist, shown_createAccount, if_pos rfl]; rfl
      · rintro ⟨hexist, -⟩
        unfold VM.entered
        rw [if_pos (hexist hearly)]
        exact ⟨fun _ => .refl _, fun _ => rfl⟩
    · rw [sameAccounts_recast hl he halike]
      exact ⟨fun hk => ⟨fun he => absurd hcount he.not_counts, fun _ => hk⟩, fun hk => hk.2 hcount⟩
    · exact ⟨fun _ => ⟨fun he => absurd he hearly, fun hc => absurd hc hcount⟩,
        fun _ => sameAccounts_of_alike halike⟩
  · rcases call_cases h with ⟨-, -, rfl⟩ | ⟨hpay', -⟩
    · exact ⟨fun _ hp => absurd hp hpay, fun _ => .refl _⟩
    · exact absurd hpay' hpay

end Call

/-! ## Creations -/

/-- The code is not too long, but the gas does not pay for storing it. -/
def Unpaid (abiLen : Nat) (r : Reply) : Prop :=
  r.ret.length ≤ maxCodeSize ∧ (r.err = some .codeStoreOutOfGas ∨
      r.err = none ∧ r.gas < u64 (r.ret.length * createDataGas + abiLen * txABIGas))

section Create

variable {ep : Bool} {caller : Address}
  {code : Bytes} {gas value abiLen : Nat} {asset : Option Address} {readOnly : Bool}

/-- What becomes of the error of a creation: a scope that is kept has unpaid code. -/
theorem deposit_error {a : Address} {x : Bool × Reply}
    (h : (semantics g ep).run (deposit a abiLen r) db = some (x, t))
    (herr : x.2.err ≠ none) : t = db ∧ (x.1 = false ↔ Unpaid abiLen r) := by
  unfold deposit at h
  dsimp only at h
  split at h
  · rename_i hok
    split at h
    · obtain ⟨_, _, -, heq⟩ := of_run_bind h
      cases heq
      exact absurd hok.1 herr
    · rename_i hgas
      cases h
      exact ⟨rfl, iff_of_true rfl ⟨Nat.not_lt.1 hok.2, .inr ⟨hok.1, Nat.not_le.1 hgas⟩⟩⟩
  · rename_i hok
    split at h
    · rename_i hbad
      cases h
      refine ⟨rfl, iff_of_false (by simp) ?_⟩
      rintro ⟨hlen, herr' | ⟨herr', -⟩⟩
      · rcases hbad with hlong | hne
        · omega
        · exact hne herr'
      · exact hok ⟨herr', Nat.not_lt.2 hlen⟩
    · rename_i hbad
      cases h
      obtain ⟨hlen, hst⟩ := not_or.1 hbad
      refine ⟨rfl, iff_of_true rfl ⟨Nat.not_lt.1 hlen, .inl (not_not.1 hst)⟩⟩

theorem Sane.numbered (hs : Sane db) (a : Address) : Sane (numbered db a) := by
  unfold VM.numbered StateDB.setNonce
  refine ⟨hs.grounded.edit _, hs.owes.edit fun o w hw hold => ?_⟩
  cases hw
  exact hold

theorem undoable_creation {addr : Address} (hs : Sane db)
    (hpay : asset = none → (value : Int) ≤ (view db).getBalance caller)
    (h : (semantics g true).run (creation E (nested E d) caller addr code gas asset value readOnly) db =
      some (r, t)) : Undoable .byBalance db t := by
  obtain ⟨db2, htr, hrun⟩ := of_run_creation h
  have hbal : asset = none → (value : Int) ≤ (view (db.createAccount addr)).getBalance caller :=
    fun hasset => by rw [balance_createAccount]; exact hpay hasset
  have hsteps := steps_transfer (W := KeepsLists g) (protected_none (db.createAccount addr)) hbal htr
  obtain ⟨hsane, hund⟩ := (keeps_sane g _).steps hsteps (hs.createAccount addr)
  have hkeep := keeping_run (E := E) (f := ⟨caller, addr, addr, code, [], gas, asset, value, readOnly⟩)
    (keeps_nested E g true (fun _ => False) (KeepsLists g) d) fun _ => id
  have hcode := ((keeps_sane g _).steps ((hkeep db2 (protected_none db2)).steps hrun) hsane).2
  exact (undoable_made hs.grounded _).trans (hund.trans hcode)

/-- The condition under which an error of `Create` leaves no trace: it does not come to code whose
storage is unpaid, or the creation changes nothing. -/
def CreateReverts (g : Growth) (E : EVM) (n : Nested) (caller : Address) (code : Bytes) (gas : Nat)
    (asset : Option Address) (value abiLen : Nat) (readOnly : Bool) (db : StateDB) : Prop :=
  let addr := E.createAddress caller ((view db).getNonce caller)
  (view db).canTransfer caller asset value = true →
    (view (numbered db caller)).getNonce addr = 0 ∧ (view (numbered db caller)).getCode addr = [] →
    ∀ r t, (semantics g true).run (creation E n caller addr code gas asset value readOnly)
      (numbered db caller).snapshot.2 = some (r, t) → Unpaid abiLen r →
        SameAccounts (numbered db caller) t

/-- What `Create` is compared with: the nonce of the creator is taken if the value is covered. -/
def attempted (caller : Address) (asset : Option Address) (value : Nat) (db : StateDB) : StateDB :=
  if (view db).canTransfer caller asset value then numbered db caller else db

/-- **An error of `Create` leaves no trace** but the nonce if and only if the condition holds. -/
theorem sameAccounts_create_iff {x : Address × Reply} (hs : Sane db)
    (h : (semantics g true).run
      (VM.create E (nested E d) caller code gas asset value abiLen readOnly) db =
      some (x, db')) (herr : x.2.err ≠ none) :
    SameAccounts (attempted caller asset value db) db' ↔
      CreateReverts g E (nested E d) caller code gas asset value abiLen readOnly db := by
  unfold CreateReverts attempted
  rcases create_cases h with ⟨hpay, -, rfl⟩ | ⟨hpay, ⟨hcol, -, rfl⟩ |
    ⟨hfree, r, t, undo, u, hcreation, hdeposit, hleave⟩⟩
  · rw [hpay]
    exact ⟨fun _ hp => (by cases hp), fun _ => .refl _⟩
  · rw [if_pos hpay]
    exact ⟨fun _ _ hfree => absurd hfree hcol, fun _ => .refl _⟩
  rw [if_pos hpay]
  simp only [hpay, show _ ∧ _ from hfree, true_imp_iff, and_self]
  obtain ⟨rfl, hundo⟩ := deposit_error hdeposit herr
  have hnum := hs.numbered caller
  have hbal : asset = none →
      (value : Int) ≤ (view (numbered db caller).snapshot.2).getBalance caller := by
    intro hasset
    rw [hasset] at hpay
    show _ ≤ (view (db.setNonce caller _)).getBalance caller
    rw [balance_setNonce]
    exact of_decide_eq_true hpay
  have hund := undoable_creation hnum.snapshot hbal hcreation
  cases undo with
  | true =>
    have halike := (hund.revert hleave).1
    refine ⟨fun _ r2 t2 h2 hunpaid => ?_, fun _ => sameAccounts_of_alike halike⟩
    cases hcreation.symm.trans h2
    cases hundo.2 hunpaid
  | false =>
    cases hleave
    constructor
    · intro hsame r2 t2 h2 _
      cases hcreation.symm.trans h2
      exact hsame
    · exact fun hc => hc r _ hcreation (hundo.1 rfl)

end Create

/-! ## Every entry point -/

/-- What an entry point is compared with if it returns an error. -/
def Entry.before : Entry → StateDB → StateDB
  | .create caller _ _ asset value _ _, db => attempted caller asset value db
  | _, db => db

/-- The condition under which an error leaves no trace. -/
def Entry.Reverts (g : Growth) (E : EVM) (n : Nested) : Entry → StateDB → Prop
  | .call c, db => CallReverts g E c db
  | .create caller code gas asset value abiLen readOnly, db =>
    CreateReverts g E n caller code gas asset value abiLen readOnly db
  | _, _ => True

/-- **An error leaves no trace** if and only if the condition of the entry point holds. -/
theorem error_leaves_no_trace_iff {g : Growth} {E : EVM} {d : Nat} {entry : Entry} {db db' : StateDB}
    {r : Reply} (hs : Sane db)
    (h : (semantics g true).run (entry.run E (nested E d)) db = some (r, db')) (herr : r.err ≠ none) :
    SameAccounts (entry.before db) db' ↔ entry.Reverts g E (nested E d) db := by
  cases entry with
  | call => exact sameAccounts_call_iff hs h herr
  | create =>
    obtain ⟨x, t, hcreate, heq⟩ := of_run_bind h
    cases heq
    exact sameAccounts_create_iff hs hcreate herr
  | callCode f addr input gas value =>
    refine iff_of_true ?_ trivial
    have h : (semantics g true).run (VM.callCode E (nested E d) f addr input gas value) db =
      some (r, db') := h
    have h : (semantics g true).run (ite ((view db).canTransfer f.self none value = true) _ _) db =
      some (r, db') := h
    split at h
    · exact sameAccounts_of_alike (alike_invoke hs h herr)
    · cases h
      exact .refl db
  | delegateCall | staticCall =>
    exact iff_of_true (sameAccounts_of_alike (alike_invoke hs h herr)) trivial

/-- A machine whose code returns one byte or an error, and uses up the gas. -/
def wastefulEvm (err : Option VMErr) : EVM := { smallEvm with interp := fun _ => pure ⟨[0], 0, err⟩ }

theorem error_leaves_no_trace_call :
    ∃ r db', (semantics doubling true).run ((Entry.call (smallCall .trans)).run
        (wastefulEvm (some .outOfGas)) (nested (wastefulEvm (some .outOfGas)) 3)) (.new callTrie) =
          some (r, db') ∧ r.err ≠ none ∧ SameAccounts (.new callTrie) db' := by
  refine exists₂_of_check (fun r _ => r.err ≠ none) (by decide +kernel) fun r db' hrun hne => ?_
  refine ⟨hne, (error_leaves_no_trace_iff (sane_new callTrie) hrun hne).2 fun _ => ?_⟩
  refine ⟨?_, fun hc => ?_⟩
  · rintro (⟨hv, -⟩ | ⟨hr, -⟩)
    · cases hv
    · cases hr
  · cases hc.1

/-- **A creation whose code cannot be stored returns an error and leaves the account.** -/
theorem not_error_leaves_no_trace_create :
    ∃ r db', (semantics doubling true).run ((Entry.create 1 [0] 100 none 0 0 false).run
        (wastefulEvm none) (nested (wastefulEvm none) 3)) (.new callTrie) = some (r, db') ∧
      r.err = some .codeStoreOutOfGas ∧
      (view (numbered (.new callTrie) 1)).exist (smallEvm.createAddress 1 0) = false ∧
      (view db').exist (smallEvm.createAddress 1 0) = true ∧
      ¬ SameAccounts (numbered (.new callTrie) 1) db' := by
  have hbefore : (view (numbered (.new callTrie) 1)).exist (smallEvm.createAddress 1 0) = false := by
    decide +kernel
  refine exists₂_of_check (fun r db => r.err = some .codeStoreOutOfGas ∧
      (view db).exist (smallEvm.createAddress 1 0) = true) (by decide +kernel)
    fun r db' _ ⟨herr, hexist⟩ => ⟨herr, hbefore, hexist, fun hsame => ?_⟩
  have hkeep := hsame.exist (smallEvm.createAddress 1 0)
  rw [hbefore, hexist] at hkeep
  cases hkeep

end GoAoa.VM
