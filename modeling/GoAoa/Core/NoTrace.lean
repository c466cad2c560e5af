import GoAoa.Core.Miner
import GoAoa.VM.Gas

/-!
# What a failed transaction leaves behind

`commitTransaction` takes both databases back when a transaction fails, but not the gas pool. A
failed transaction leaves no trace if it fails before its gas is taken from the pool, or if it has
no gas. If no code gains gas these are the only ones; code that does could make up for what the
pool is owed.
-/

namespace GoAoa.Core

open Option State State.StateDB VM Semantics
open DelegateState (DelegateDB)

/-- Accounts, delegates, the gas pool and the gas used are as before. -/
structure NoTrace (L L' : Ledger) : Prop where
  accounts : ∀ a, L'.state.shown a = L.state.shown a
  exist : ∀ a, (L'.delegates.exist a).2 = (L.delegates.exist a).2
  votes : ∀ a, (L'.delegates.getVote a).2 = (L.delegates.getVote a).2
  gp : L'.gp = L.gp
  usedGas : L'.usedGas = L.usedGas

/-- An account that `Finalise` deleted is not in the trie any more. -/
def Coherent (db : StateDB) : Prop :=
  ∀ a o, db.stateObjects a = some (.deleted o) → db.trie a = none

def Admitted (P : ProcessEnv) (tx : Transaction) (L : Ledger) : Prop :=
  ∃ msg action, asMessage P tx = some msg ∧ admission msg L.gp L.state = .ok action

variable {P : ProcessEnv} {ctx : BlockContext} {tx : Transaction} {L L' : Ledger} {db db' : StateDB}
  {g : Growth} {ep : Bool} {msg : Message} {a : Address}

/-! ## Taking back what the checks did -/

theorem Coherent.trie_of_absent (h : Coherent db) (habs : db.getStateObject a = none) :
    db.trie a = none := by
  rcases get_none_cases habs with ⟨o, ho⟩ | ⟨-, ht⟩
  · exact h a o ho
  · exact ht

theorem shown_revert_snapshot (h : db.snapshot.2.revertToSnapshot ep db.snapshot.1 = some db') :
    ∀ a, db'.shown a = db.shown a := by
  obtain ⟨db1, h1, j, rfl, -⟩ := revertToSnapshot_eq (.refl _) h
  cases h1
  exact fun _ => rfl

/-- The checks make at most an account that the journal takes back. -/
theorem ensured_cases (db : StateDB) (a : Address) : ensured db.snapshot.2 a = db.snapshot.2 ∨
      db.getStateObject a = none ∧ ensured db.snapshot.2 a = db.snapshot.2.createAccount a ∧
        db.snapshot.2.journal.Extends (db.snapshot.2.createAccount a).journal [.createObject a] := by
  unfold ensured
  split
  · exact .inl rfl
  · rename_i hne
    have habs : db.getStateObject a = none := by
      have hs := Bool.not_eq_true _ ▸ hne
      rw [view_exist, isSome_eq_false_iff, isNone_iff_eq_none] at hs
      exact map_eq_none_iff.1 hs
    have hentry : db.snapshot.2.createEntry a = .createObject a := by
      unfold createEntry
      rw [show db.snapshot.2.getStateObject a = none from habs]
    have hjournal : (db.snapshot.2.createAccount a).journal =
        db.snapshot.2.journal.append (.createObject a) := hentry ▸ rfl
    exact .inr ⟨habs, rfl, hjournal ▸ .append _ _⟩

theorem shown_revert_ensured (hc : Coherent db)
    (h : (ensured db.snapshot.2 a).revertToSnapshot ep db.snapshot.1 = some db') :
    ∀ b, db'.shown b = db.shown b := by
  rcases ensured_cases db a with heq | ⟨habs, heq, hx⟩ <;> rw [heq] at h
  · exact shown_revert_snapshot h
  · obtain ⟨db1, h1, j, rfl, -⟩ := revertToSnapshot_eq hx h
    obtain ⟨db2, h2, h1⟩ := bind_eq_some_iff.1 h1
    cases h1
    have hundo : (db.snapshot.2.createAccount a).undo (.createObject a) = some db1 := by
      unfold StateDB.undoUnlessAsset at h2
      split at h2
      · rename_i heq; cases heq
      · exact h2
    intro b
    refine (shown_undo_createObject hundo b).trans ?_
    have htrie : (db.snapshot.2.createAccount a).trie = db.trie := rfl
    rw [htrie, hc.trie_of_absent habs]
    by_cases hb : b = a
    · rw [if_pos hb, hb, StateDB.shown, habs]; rfl
    · rw [if_neg hb, shown_createAccount, if_neg hb]
      rfl

theorem bought_zero (h : msg.gasLimit = 0) : bought msg db = ensured db msg.sender := by
  have hcost : msg.gasCost = 0 := by rw [Message.gasCost, h]; simp
  unfold bought
  rw [hcost]
  have hexist := exist_ensured db msg.sender
  rw [view_exist, isSome_iff_exists] at hexist
  obtain ⟨x, hx⟩ := hexist
  obtain ⟨o, ho, -⟩ := shown_eq_some _ _ hx
  unfold StateDB.subBalance StateDB.edit getOrNewStateObject
  rw [ho]
  rfl

/-! ## The gas pool -/

theorem intrinsicGas_pos {data : Bytes} (h : data.length < 2 ^ 61) (action : Action) :
    0 < intrinsicGas data action := by
  have hnz : data.countP (· ≠ 0) ≤ data.length := List.countP_le_length
  have hgas : 0 < actionGas action ∧ actionGas action ≤ 100000 := by cases action <;> decide
  unfold intrinsicGas
  dsimp only
  generalize data.countP (· ≠ 0) = nz at hnz ⊢
  unfold txDataNonZeroGas txDataZeroGas
  split
  · omega
  · split <;> omega

theorem gas_execute {E : EVM} (hE : E.Thrifty g ep) (enc : InfoEncoder)
    (msg : Message) (action : Action) (gas : Nat) :
    (semantics g ep).Returns (execute E enc msg action gas)
      fun r => ∀ reply, r = .ok reply → reply.gas ≤ gas := by
  have hcall : (semantics g ep).Returns (executeCall E msg action gas)
      fun r => ∀ reply, r = .ok reply → reply.gas ≤ gas := by
    refine returns_bind (returns_any _) fun v _ => returns_bind (returns_any _) fun _ _ => ?_
    refine returns_bind (returns_any _) fun addr _ =>
      returns_bind (bounded_call bounded_le (hE _) _) fun r hr => ?_
    exact returns_pure fun reply heq => by cases heq; exact hr
  unfold execute
  cases action
  case createContract =>
    dsimp only
    split
    · exact returns_pure fun reply heq => by cases heq
    · refine returns_bind (bounded_create bounded_le (hE _) _ _ _ _ _ _ _) fun r hr =>
        returns_pure fun reply heq => ?_
      cases heq
      exact hr
  case publishAsset =>
    refine returns_bind (returns_any _) fun r _ => ?_
    cases r with
    | error => exact returns_pure fun reply heq => by cases heq
    | ok => exact returns_pure fun reply heq => by cases heq; exact Nat.le_refl _
  all_goals exact hcall

theorem settle_gp {E : EVM} {gp gp' : Nat} {r : Reply} {res : Except TxErr (Nat × Bool)}
    (hlimit : msg.gasLimit < 2 ^ 64) (hused : r.gas < msg.gasLimit)
    (h : (semantics g ep).run (settle E msg gp r) db = some ((gp', res), db')) :
    gp' < gp + msg.gasLimit ∧ ∃ x, res = .ok x := by
  have hle := returned_le hlimit (Nat.le_of_lt hused) db.refund
  rw [run_settle] at h
  split at h
  · cases h
  · cases h
    exact ⟨by omega, _, rfl⟩

theorem gp_lt_of_admission {E : EVM} {enc : InfoEncoder} {gp gp' : Nat}
    {action : Action} {res : Except TxErr (Nat × Bool)}
    (hE : E.Thrifty g ep) (hgp : gp < 2 ^ 64) (hdata : msg.data.length < 2 ^ 61)
    (hlimit : msg.gasLimit ≠ 0) (hadm : admission msg gp db = .ok action)
    (h : (semantics g ep).run (transitionDb E enc msg gp) db = some ((gp', res), db')) :
    gp' < gp := by
  obtain ⟨-, -, -, hle⟩ := admission_ok hadm
  rcases transition_cases h with ⟨e, herr, -⟩ | ⟨action', hadm', hcase⟩
  · rw [hadm] at herr
    cases herr
  obtain rfl := Except.ok.inj (hadm.symm.trans hadm')
  have hpos := intrinsicGas_pos hdata action
  rcases hcase with ⟨-, -, rfl, -⟩ | ⟨hintr, r, db1, hexec, hcase⟩
  · omega
  rcases hcase with ⟨e, -, -, rfl, -⟩ | ⟨reply, e, -, -, -, rfl, -⟩ | ⟨reply, rfl, -, hsettle⟩
  · omega
  · omega
  · have hgas := gas_execute hE enc msg action _ _ _ _ hexec reply rfl
    unfold gasForExecution at hgas
    have := (settle_gp (by omega) (by omega) hsettle).1
    omega

/-! ## The transaction as a whole -/

theorem gp_lt_of_admitted {e : TxErr} {L1 : Ledger} {action : Action}
    (hE : (newEVM P ctx msg).Thrifty P.growth (P.config.isEpiphron ctx.number)) (hgp : L.gp < 2 ^ 64)
    (hdata : tx.payload.length < 2 ^ 61) (hlimit : tx.gasLimit ≠ 0)
    (hmsg : asMessage P tx = some msg) (hadm : admission msg L.gp L.state = .ok action)
    (h : applyTransaction P ctx tx L = some (.error e, L1)) : L1.gp < L.gp := by
  obtain ⟨vote, info, sender, -, -, rfl⟩ := asMessage_eq hmsg
  rcases applyTransaction_cases h with ⟨hnone, -⟩ | ⟨msg', gp, t, db, hmsg', hrun, hcase⟩
  · rw [hmsg] at hnone
    cases hnone
  cases hmsg.symm.trans hmsg'
  have hlt := gp_lt_of_admission hE hgp hdata hlimit hadm hrun
  rcases hcase with ⟨_, -, -, rfl⟩ | ⟨gas, failed, v, delegates, -, -, ⟨_, -, -, rfl⟩ | hok⟩
  · exact hlt
  · exact hlt
  · obtain ⟨root, db', -, -, -, hres⟩ := hok
    cases hres

theorem delegates_revert (delegates : DelegateDB) :
    ∃ j, delegates.snapshot.2.revertToSnapshot delegates.snapshot.1 =
      some { delegates with journal := j } := by
  obtain ⟨j, hj, -⟩ := Journal.Extends.rollback (.refl delegates.journal.snapshot.2)
  have hj : delegates.snapshot.2.journal.rollback delegates.snapshot.1 = some ([], j) := hj
  unfold DelegateDB.revertToSnapshot
  rw [hj]
  exact ⟨j, rfl⟩

/-- A transaction that fails in the checks, or for want of gas, leaves the accounts of before or
one more that is empty. -/
theorem state_of_refused {e : TxErr} {L1 : Ledger} (hdata : tx.payload.length < 2 ^ 61)
    (h : applyTransaction P ctx tx L = some (.error e, L1))
    (hrefused : ¬ Admitted P tx L ∨ tx.gasLimit = 0) :
    L1.delegates = L.delegates ∧ L1.gp = L.gp ∧ L1.usedGas = L.usedGas ∧
      ∃ a, L1.state = L.state ∨ L1.state = ensured L.state a := by
  rcases applyTransaction_cases h with ⟨-, -, rfl⟩ | ⟨msg, gp, t, db, hmsg, hrun, hcase⟩
  · exact ⟨rfl, rfl, rfl, 0, .inl rfl⟩
  have hstage : gp = L.gp ∧ (∃ e, t = .error e) ∧ (db = L.state ∨ db = ensured L.state msg.sender) := by
    rcases transition_cases hrun with ⟨e', hadm, rfl, rfl, rfl⟩ | ⟨action, hadm, hstage⟩
    · refine ⟨rfl, ⟨e', rfl⟩, ?_⟩
      unfold checked
      rw [hadm]
      cases e'
      case illegalAction => exact .inl rfl
      all_goals exact .inr rfl
    · rcases hrefused with hrefused | hlimit
      · exact absurd ⟨msg, action, hmsg, hadm⟩ hrefused
      · obtain ⟨vote, info, sender, -, -, rfl⟩ := asMessage_eq hmsg
        have hlimit' : (asMessage.message tx vote info sender).gasLimit = 0 := hlimit
        have hpos := intrinsicGas_pos hdata action
        rcases hstage with ⟨-, rfl, rfl, rfl⟩ | ⟨hintr, -⟩
        · exact ⟨by omega, ⟨_, rfl⟩, .inr (bought_zero hlimit')⟩
        · have hintr : intrinsicGas tx.payload action ≤ tx.gasLimit := hintr
          omega
  obtain ⟨rfl, ⟨e', rfl⟩, hdb⟩ := hstage
  rcases hcase with ⟨_, -, -, rfl⟩ | ⟨gas, failed, v, delegates, hok, -⟩
  · exact ⟨rfl, rfl, rfl, msg.sender, hdb⟩
  · cases hok

/-- **A failed transaction leaves no trace if it is refused before its gas is bought, or has no
gas; and only then, if no code gains gas.** -/
theorem noTrace_iff {e : TxErr} (hc : Coherent L.state) (hgp : L.gp < 2 ^ 64)
    (hdata : tx.payload.length < 2 ^ 61) (h : commitTransaction P ctx tx L = some (.error e, L')) :
    (¬ Admitted P tx L ∨ tx.gasLimit = 0 → NoTrace L L') ∧
      ((∀ msg, (newEVM P ctx msg).Thrifty P.growth (P.config.isEpiphron ctx.number)) →
        NoTrace L L' → ¬ Admitted P tx L ∨ tx.gasLimit = 0) := by
  obtain ⟨L1, state, delegates, happ, hstate, hdel, rfl⟩ := commitTransaction_error h
  constructor
  · intro hrefused
    obtain ⟨hdel1, hgp1, hused, a, hst⟩ := state_of_refused hdata happ hrefused
    obtain ⟨j, hj⟩ := delegates_revert L.delegates
    cases hj.symm.trans (hdel1 ▸ hdel)
    refine ⟨?_, fun _ => DelegateDB.exist_congr rfl rfl, fun _ => DelegateDB.getVote_congr rfl rfl,
      hgp1, hused⟩
    rcases hst with hst | hst
    · exact shown_revert_snapshot (hst ▸ hstate)
    · exact shown_revert_ensured hc (hst ▸ hstate)
  · intro hE htrace
    by_contra hadm
    obtain ⟨hadm, hlimit⟩ := not_or.1 hadm
    obtain ⟨msg, action, hmsg, hadm⟩ := not_not.1 hadm
    have hlt := gp_lt_of_admitted (L := { L with
      state := L.state.snapshot.2, delegates := L.delegates.snapshot.2 }) (hE msg) hgp hdata hlimit
      hmsg hadm happ
    exact absurd htrace.gp (Nat.ne_of_lt hlt)

def smallLedger : Ledger := ⟨.new (smallTrie (2 * 10 ^ 18)), smallDelegates, 100000, 0⟩

theorem coherent_new (trie : Trie) : Coherent (.new trie) :=
  fun _ _ h => by cases h

def errorOf : Except TxErr Receipt → Option TxErr
  | .ok _ => none
  | .error e => some e

theorem errorOf_eq_some {r : Except TxErr Receipt} {e : TxErr} (h : errorOf r = some e) :
    r = .error e := by
  cases r with
  | ok => cases h
  | error _ => exact congrArg _ (some.inj h)

theorem noTrace_iff_nonce :
    ∃ L', commitTransaction smallEnv smallContext { smallTx with accountNonce := 1 } smallLedger =
      some (.error .nonceTooHigh, L') ∧ NoTrace smallLedger L' := by
  have hrun : ((commitTransaction smallEnv smallContext { smallTx with accountNonce := 1 }
      smallLedger).map fun r => errorOf r.1) = some (some .nonceTooHigh) := by decide +kernel
  obtain ⟨⟨r, L'⟩, h, herr⟩ := map_eq_some_iff.1 hrun
  obtain rfl := errorOf_eq_some herr
  refine ⟨L', h, (noTrace_iff (coherent_new _) (by decide) (by decide) h).1 (.inl ?_)⟩
  rintro ⟨msg, action, hmsg, hadm⟩
  cases hmsg
  exact absurd (admission_ok hadm).2.1 (by decide +kernel)

/-- **The slip.** The gas of a transaction that cannot pay for its intrinsic gas is not given
back to the pool. -/
theorem not_noTrace_outOfGas :
    ∃ L', commitTransaction smallEnv smallContext { smallTx with gasLimit := 20000 } smallLedger =
      some (.error (.vm .outOfGas), L') ∧ L'.gp = 80000 ∧ ¬ NoTrace smallLedger L' := by
  have hrun : ((commitTransaction smallEnv smallContext { smallTx with gasLimit := 20000 }
      smallLedger).map fun r => (errorOf r.1, r.2.gp)) = some (some (.vm .outOfGas), 80000) := by
    decide +kernel
  obtain ⟨⟨r, L'⟩, h, herr, hgp⟩ := map_mk_eq_some.1 hrun
  obtain rfl := errorOf_eq_some herr
  refine ⟨L', h, hgp, fun htrace => ?_⟩
  have hsame := htrace.gp
  rw [hgp] at hsame
  exact absurd hsame (by decide)

end GoAoa.Core
