import GoAoa.Core.Blocks
import GoAoa.DelegateState.Commit
import GoAoa.State.Pinned
import GoAoa.VM.CallValue
import GoAoa.VM.Frugal

/-!
# Active delegates are funded

A delegate pays the registration with what it has left after the gas, and the sender of a
transaction is cancelled if it has less than the registration afterwards. So an active delegate
falls below it only without being the sender: its code spends for it, or a contract is made over
it, or its account is lost when a block is closed.
-/

namespace GoAoa.Core

open List Option Prod State State.StateDB VM Semantics DelegateState

def Active (db : DelegateDB) (a : Address) : Prop := (db.exist a).2 = true

def Funded (L : Ledger) : Prop :=
  ∀ a, Active L.delegates a → registerCost ≤ (view L.state).getBalance a

/-! ## The delegates -/

variable {a : Address}

section Delegates

variable {db db' : DelegateDB} {time : Nat}

/-- A database since `New`, with every object marked. -/
structure AllMarked (db : DelegateDB) : Prop where
  opened : db.Open
  marked : ∀ a obj, db.delegateObjects.lookup a = some obj → a ∈ db.delegateObjectsDirty

theorem allMarked_new (tr : DelegateTrie) : AllMarked (.new tr) :=
  ⟨DelegateDB.open_new tr, fun a obj ha =>
    ((DelegateDB.loading_new tr).1.dirty a).2 (by rw [ha]; rfl)⟩

theorem AllMarked.prepare (h : AllMarked db) (thash bhash : Hash) (i : Nat) :
    AllMarked (db.prepare thash bhash i) :=
  ⟨⟨h.opened.loaded, h.opened.live, h.opened.dirty, h.opened.clean⟩, h.marked⟩

theorem active_iff (hl : db.Loaded) :
    Active db a ↔ ∃ obj, db.delegateObjects.lookup a = some obj ∧ obj.dead = false := by
  unfold Active
  rw [DelegateDB.exist_eq hl]
  cases db.delegateObjects.lookup a with
  | none => exact ⟨nofun, fun ⟨_, h, _⟩ => nomatch h⟩
  | some => simp [Option.any]

theorem exist_fst (hl : db.Loaded) (a : Address) : (db.exist a).1 = db := by
  unfold DelegateDB.exist
  rw [hl.getStateObject]

variable (h : AllMarked db)
include h

theorem AllMarked.edits {f : DelegateObject → DelegateObject} (he : DelegateDB.Edits a f db db')
    (hf : ∀ obj, (f obj).deleted = obj.deleted ∧ (f obj).suicided = obj.suicided ∧
      (obj.data.delete = true → (f obj).data.delete = true)) :
    AllMarked db' ∧ ∀ b, Active db' b → Active db b := by
  have hopen := he.opened h.opened fun obj => ⟨(hf obj).1, (hf obj).2.1⟩
  refine ⟨⟨hopen, fun b obj hb => ?_⟩, fun b hb => ?_⟩
  · rw [he.dirty]
    rw [he.lookup] at hb
    split at hb
    · rename_i heq
      obtain ⟨o, ho, -⟩ := map_eq_some_iff.1 hb
      exact heq ▸ h.marked a o ho
    · exact h.marked b obj hb
  · obtain ⟨obj, hobj, hdead⟩ := (active_iff hopen.loaded).1 hb
    refine (active_iff h.opened.loaded).2 ?_
    rw [he.lookup] at hobj
    split at hobj
    · rename_i heq
      obtain ⟨o, ho, rfl⟩ := map_eq_some_iff.1 hobj
      refine ⟨o, heq ▸ ho, ?_⟩
      obtain ⟨hd, -, hdel⟩ := hf o
      unfold DelegateObject.dead at hdead ⊢
      rw [hd] at hdead
      cases hod : o.data.delete with
      | false => rw [hod] at *; simpa using (Bool.or_eq_false_iff.1 hdead).1
      | true => rw [hdel hod, Bool.or_true] at hdead; cases hdead
    · exact ⟨obj, hobj, hdead⟩

/-- **One candidacy**: only registration makes a delegate active, and a cancelled one is not. -/
theorem active_voteCount {c : Candidacy} (hv : voteCount time db c = (.ok (), db')) :
    AllMarked db' ∧ ∀ a, Active db' a → (Active db a ∧ c ≠ .cancel a) ∨ ∃ n, c = .register a n := by
  have hl := h.opened.loaded
  cases c with
  | register b nickname =>
    simp only [voteCount] at hv
    split at hv
    · cases hv
    · rename_i db1 hex
      obtain rfl := (exist_fst hl b).symm.trans (congrArg fst hex)
      cases hv
      rcases DelegateDB.register_cases h.opened nickname time with
        ⟨obj, -, -, heq⟩ | ⟨-, hc⟩
      · rw [heq]
        exact ⟨h, fun a ha => .inl ⟨ha, by simp⟩⟩
      · have hopen := hc.opened h.opened ⟨rfl, rfl⟩
        refine ⟨⟨hopen, fun a obj ha => ?_⟩, fun a ha => ?_⟩
        · rw [hc.dirty, mem_insert_iff]
          rw [hc.lookup] at ha
          split at ha
          · rename_i heq; exact .inl heq
          · exact .inr (h.marked a obj ha)
        · by_cases hab : a = b
          · exact .inr ⟨nickname, by rw [hab]⟩
          · refine .inl ⟨?_, by simp⟩
            obtain ⟨obj, hobj, hdead⟩ := (active_iff hopen.loaded).1 ha
            rw [hc.lookup, if_neg hab] at hobj
            exact (active_iff hl).2 ⟨obj, hobj, hdead⟩
  | addVote b vote =>
    simp only [voteCount] at hv
    split at hv
    · cases hv
    · rename_i db1 hex
      obtain rfl := (exist_fst hl b).symm.trans (congrArg fst hex)
      cases hv
      obtain ⟨hm, hact⟩ := h.edits (DelegateDB.edits_addVote hl vote) fun obj => by
        unfold DelegateObject.addVote
        split <;> exact ⟨rfl, rfl, id⟩
      exact ⟨hm, fun a ha => .inl ⟨hact a ha, by simp⟩⟩
  | subVote b vote =>
    simp only [voteCount, DelegateDB.subExist, hl.getStateObjectContainDelete] at hv
    split at hv
    · cases hv
    · rename_i db1 hex
      obtain rfl := congrArg fst hex
      simp only [DelegateDB.getVote, hl.getStateObjectContainDelete] at hv
      split at hv
      · cases hv
      · cases hv
        obtain ⟨hm, hact⟩ := h.edits (DelegateDB.edits_subVote hl vote) fun obj => by
          unfold DelegateObject.subVote
          split <;> exact ⟨rfl, rfl, id⟩
        exact ⟨hm, fun a ha => .inl ⟨hact a ha, by simp⟩⟩
  | cancel b =>
    simp only [voteCount] at hv
    split at hv
    · cases hv
    · rename_i db1 hex
      obtain rfl := (exist_fst hl b).symm.trans (congrArg fst hex)
      cases hv
      have he := DelegateDB.edits_suicide (a := b) hl
      obtain ⟨hm, hact⟩ := h.edits he fun obj => by
        unfold DelegateObject.suicide
        split
        · exact ⟨rfl, rfl, id⟩
        · exact ⟨rfl, rfl, fun _ => rfl⟩
      refine ⟨hm, fun a ha => .inl ⟨hact a ha, ?_⟩⟩
      rintro ⟨⟩
      obtain ⟨obj, hobj, hdead⟩ := (active_iff hm.opened.loaded).1 ha
      rw [he.lookup, if_pos rfl] at hobj
      obtain ⟨o, -, rfl⟩ := map_eq_some_iff.1 hobj
      unfold DelegateObject.suicide at hdead
      split at hdead
      · rename_i hd; rw [hd] at hdead; cases hdead
      · unfold DelegateObject.dead at hdead
        rw [Bool.or_true] at hdead
        cases hdead

theorem active_voteCounts {cs : List Candidacy} (hv : voteCounts time cs db = (.ok (), db')) :
    AllMarked db' ∧ ∀ a, Active db' a →
      (Active db a ∧ .cancel a ∉ cs) ∨ ∃ n, .register a n ∈ cs := by
  induction cs generalizing db with
  | nil =>
    cases hv
    exact ⟨h, fun a ha => .inl ⟨ha, not_mem_nil⟩⟩
  | cons c cs ih =>
    unfold voteCounts at hv
    split at hv
    · cases hv
    · rename_i u db1 hc
      obtain ⟨h1, hact1⟩ := active_voteCount h hc
      obtain ⟨h', hact⟩ := ih h1 hv
      refine ⟨h', fun a ha => ?_⟩
      rcases hact a ha with ⟨ha1, hnot⟩ | ⟨n, hn⟩
      · rcases hact1 a ha1 with ⟨ha0, hne⟩ | ⟨n, rfl⟩
        · exact .inl ⟨ha0, fun hm => (mem_cons.1 hm).elim (fun heq => hne heq.symm) hnot⟩
        · exact .inr ⟨n, mem_cons_self⟩
      · exact .inr ⟨n, mem_cons_of_mem _ hn⟩

/-- **The votes of a transaction**: an active delegate was active and is not a sender that has
spent the registration, or it is the sender of a registration. -/
theorem active_voteChange {sender : Address} {msg : Message} {nickname : Bytes} {state : StateDB}
    (hv : voteChangeToDelegateState sender msg nickname state time db = some (.ok (), db')) :
    AllMarked db' ∧ ∀ a, Active db' a →
      (Active db a ∧ (a = sender → registerCost ≤ (view state).getBalance sender)) ∨
        (a = sender ∧ msg.action = 1) := by
  obtain ⟨⟨cs, db1⟩, hcount, hv⟩ := map_eq_some_iff.1 hv
  obtain ⟨candidates, hcand, heq⟩ := map_eq_some_iff.1 hcount
  cases heq
  rw [exist_fst h.opened.loaded] at hv
  obtain ⟨h', hact⟩ := active_voteCounts h hv
  refine ⟨h', fun a ha => ?_⟩
  -- registrations are not among the votes, so they come from the first candidate
  have hreg : ∀ n, .register a n ∈ candidates → a = sender ∧ msg.action = 1 := by
    intro n hn
    split at hcand
    · obtain ⟨votes, -, rfl⟩ := map_eq_some_iff.1 hcand
      obtain ⟨e, -, he⟩ := mem_map.1 hn
      unfold Candidacy.ofVotes at he
      split at he <;> cases he
    · split at hcand
      · rename_i haction
        cases hcand
        cases mem_singleton.1 hn
        exact ⟨rfl, haction⟩
      · cases hcand
        cases hn
  rcases hact a ha with ⟨ha0, hnot⟩ | ⟨n, hn⟩
  · refine .inl ⟨ha0, fun heq => ?_⟩
    subst heq
    by_contra hlow
    refine hnot ?_
    rw [if_pos ⟨ha0, Int.not_le.1 hlow⟩]
    exact mem_append_right _ (mem_singleton.2 rfl)
  · refine .inr ?_
    split at hn
    · rcases mem_append.1 hn with hn | hn
      · exact hreg n hn
      · cases mem_singleton.1 hn
    · exact hreg n hn

theorem active_reopened (hf : db.finalise = some db')
    (ha : Active (.new db'.trie) a) : Active db a := by
  obtain ⟨db1, hfin, hw, -⟩ := h.opened.finalise
  cases hf.symm.trans hfin
  obtain ⟨obj, hobj, hdead⟩ := (active_iff (DelegateDB.loading_new _).2).1 ha
  rw [DelegateDB.lookup_new, hw.trie] at hobj
  obtain ⟨d, hd, rfl⟩ := map_eq_some_iff.1 hobj
  refine (active_iff h.opened.loaded).2 ?_
  cases ho : db.delegateObjects.lookup a with
  | none =>
    have htrie := h.opened.loaded a ho
    split at hd
    · rw [ho] at hd; cases hd
    · rw [htrie] at hd; cases hd
  | some o =>
    rw [if_pos (h.marked a o ho), ho] at hd
    cases hd
    refine ⟨o, rfl, ?_⟩
    unfold DelegateObject.dead at hdead ⊢
    rw [(h.opened.live a o ho).1]
    exact hdead

end Delegates

/-! ## The accounts -/

variable {db : StateDB} {d : Account}

section Accounts

variable {createAddress : Address → Nat → Address} {S : Address → Prop} {db' : StateDB}

/-- An account that only its key spends from: it has no code, and no contract gets its address. -/
def KeyHeld (createAddress : Address → Nat → Address) (db : StateDB) (a : Address) : Prop :=
  (∃ d, db.shown a = some (d, false) ∧ d.code = []) ∧ ∀ b n, createAddress b n ≠ a

/-- The accounts that code may spend from owe nothing. -/
def NoDebts (createAddress : Address → Nat → Address) (db : StateDB) : Prop :=
  ∀ a, ¬ KeyHeld createAddress db a → 0 ≤ (view db).getBalance a

theorem exists_floor (hn : NoDebts createAddress db) (hS : ∀ a, S a → KeyHeld createAddress db a) :
    ∃ floor, Floor (KeyHeld createAddress db) S floor ∧
      Holds db.trie (Secured (KeyHeld createAddress db) S floor) db ∧
      ∀ a, KeyHeld createAddress db a → floor a = (view db).getBalance a := by
  classical
  refine ⟨fun a => if KeyHeld createAddress db a then (view db).getBalance a else 0,
    ⟨hS, fun a h => if_neg h⟩, ⟨rfl, fun a => ⟨fun h => h.1, fun _ => ?_⟩⟩, fun a h => if_pos h⟩
  rw [purse, ← view_balance]
  show (if KeyHeld createAddress db a then (view db).getBalance a else 0) ≤ _
  split
  · exact Int.le_refl _
  · exact hn a ‹_›

theorem spared_of_secured {floor : Address → Int} {T : Trie}
    (hF : Floor (KeyHeld createAddress db) S floor)
    (hfloor : ∀ a, KeyHeld createAddress db a → floor a = (view db).getBalance a)
    (h : Holds T (Secured (KeyHeld createAddress db) S floor) db') :
    (∀ a, KeyHeld createAddress db a → KeyHeld createAddress db' a) ∧ NoDebts createAddress db' ∧
      ∀ a, KeyHeld createAddress db a → ¬ S a →
        (view db).getBalance a ≤ (view db').getBalance a := by
  have hheld : ∀ a, KeyHeld createAddress db a → KeyHeld createAddress db' a :=
    fun a ha => ⟨(h.shown a).1 ha, ha.2⟩
  refine ⟨hheld, fun a ha => ?_, fun a ha hS => ?_⟩
  · have := hF.nonneg (fun hV => ha (hheld a hV)) (h.shown a)
    rwa [purse, ← view_balance] at this
  · have := (h.shown a).2 hS
    rwa [hfloor a ha, purse, ← view_balance] at this

variable {g : Growth} {ep : Bool} {E : EVM} {enc : InfoEncoder} {msg : Message}
  {gp gp' gas : Nat} {failed : Bool} {action : Action} {r : Nat × Except TxErr (Nat × Bool)}

theorem register_pays {reply : Reply}
    (h : (semantics g ep).run (execute E enc msg .register gas) db = some (.ok reply, db'))
    (herr : isConsensusErr reply.err = none) :
    registerCost ≤ (view db).getBalance msg.sender := by
  rw [run_execute_call rfl] at h
  obtain ⟨⟨r, t⟩, hcall, heq⟩ := map_eq_some_iff.1 h
  cases heq
  rcases call_cases hcall with ⟨-, rfl, -⟩ | ⟨hpay, -⟩
  · cases herr
  · have hcan := (Bool.and_eq_true _ _ ▸ hpay).2
    have hle : registerCost ≤ (view (called msg db)).getBalance msg.sender := of_decide_eq_true hcan
    have hsame : (view (called msg db)).getBalance msg.sender =
        (view db).getBalance msg.sender := by
      unfold called
      cases msg.recipient with
      | none => exact balance_setNonce ..
      | some => exact (balance_ensured ..).trans (balance_setNonce ..)
    rwa [hsame] at hle

theorem secured_settled {V : Address → Prop} {floor : Address → Int} {T : Trie} {reply : Reply}
    {db1 : StateDB} (hF : Floor V S floor) (hfree : ∀ a n, ¬ V (E.createAddress a n))
    (hspend : transfers action = true → V msg.sender → S msg.sender)
    (hvote : isVote action = true → S msg.sender) (h : Holds T (Secured V S floor) (bought msg db))
    (hexec : (semantics g ep).run (execute E enc msg action gas) (bought msg db) =
      some (.ok reply, db1))
    (hsettle : (semantics g ep).run (settle E msg gp reply) db1 = some (r, db')) :
    Holds T (Secured V S floor) db' := by
  have D : Discipline g ep E.createAddress V S (Frugal V S) (Holds T (Secured V S floor)) :=
    hF.discipline hfree
  have hexecuted := D.steps h ((does_execute D h (exist_bought msg db) hspend (fun _ => trivial)
    (fun _ => hfree _ _) fun hv _ _ _ => ⟨hvote hv, fun _ => hvote hv⟩).steps hexec)
  exact D.steps hexecuted ((abides_settle D msg gp reply db1 hexecuted).steps hsettle)

theorem noDebts_ensured (hn : NoDebts createAddress db) (a : Address) :
    NoDebts createAddress (ensured db a) := by
  intro b hb
  rw [balance_ensured]
  refine hn b fun hheld => hb ?_
  obtain ⟨⟨d, hshown, hc⟩, hfree⟩ := hheld
  exact ⟨⟨d, shown_ensured_of_some hshown a, hc⟩, hfree⟩

/-- **An accepted message spends for its sender only**, and a sender that registers has the cost
left. -/
theorem spared_transition (hn : NoDebts E.createAddress db)
    (hkey : KeyHeld E.createAddress (ensured db msg.sender) msg.sender)
    (hrun : (semantics g ep).run (transitionDb E enc msg gp) db =
      some ((gp', .ok (gas, failed)), db')) :
    (∀ a, KeyHeld E.createAddress (ensured db msg.sender) a → KeyHeld E.createAddress db' a) ∧
      NoDebts E.createAddress db' ∧
      (∀ a, KeyHeld E.createAddress (ensured db msg.sender) a → a ≠ msg.sender →
        (view db).getBalance a ≤ (view db').getBalance a) ∧
      (msg.action = 1 → registerCost ≤ (view db').getBalance msg.sender) := by
  have hfree : ∀ {t : StateDB} a n,
      ¬ KeyHeld E.createAddress t (E.createAddress a n) := fun a n h => h.2 a n rfl
  obtain ⟨action, reply, db1, hadm, -, hexec, herr, hsettle, -⟩ := transition_ok hrun
  have hact := (admission_ok hadm).1
  -- the gas is bought by the sender, which is the only one that pays
  obtain ⟨floor, hF, hstart, hfloor⟩ := exists_floor (S := fun a => a = msg.sender)
    (noDebts_ensured hn msg.sender) fun a ha => ha ▸ hkey
  have hbought : Holds _ (Secured _ _ floor) (bought msg db) :=
    (hF.exec (g := g) (o := .subBalance msg.sender msg.gasCost) hstart (.inl rfl) rfl).1
  have hend := secured_settled hF hfree (fun _ _ => rfl) (fun _ => rfl) hbought hexec hsettle
  obtain ⟨hheld, hdebts, hkeeps⟩ := spared_of_secured hF hfloor hend
  refine ⟨hheld, hdebts, fun a ha hne => ?_, fun hreg => ?_⟩
  · have := hkeeps a ha hne
    rwa [balance_ensured] at this
  · -- nobody pays after the gas of a registration is bought
    rw [hreg] at hact
    cases hact
    obtain ⟨hheld1, hdebts1, -⟩ := spared_of_secured hF hfloor hbought
    obtain ⟨floor1, hF1, hstart1, hfloor1⟩ := exists_floor (S := fun _ => False) hdebts1
      fun _ hS => hS.elim
    have hend1 := secured_settled hF1 hfree (fun ht => by cases ht) (fun hv => by cases hv) hstart1
      hexec hsettle
    exact (register_pays hexec herr).trans
      ((spared_of_secured hF1 hfloor1 hend1).2.2 _ (hheld1 _ hkey) id)

theorem shown_finalise_of_funded {b : Bool} (hf : db.finalise b = some db')
    (hs : db.shown a = some (d, false)) (hfund : registerCost ≤ d.balance) :
    db'.shown a = some (d, false) := by
  rcases shown_finalise hf a with heq | ⟨-, o, ho, hrem⟩
  · exact heq.trans hs
  · rw [shown_of_get db a ho] at hs
    obtain ⟨rfl, hsui⟩ := mk.inj (some.inj hs)
    unfold removes at hrem
    rw [hsui, Bool.false_or, Bool.and_eq_true] at hrem
    have hempty := hrem.2
    unfold Account.isEmpty at hempty
    simp only [Bool.and_eq_true, beq_iff_eq] at hempty
    unfold registerCost at hfund
    omega

theorem noDebts_finalise {b : Bool} (hf : db.finalise b = some db')
    (hn : NoDebts createAddress db) : NoDebts createAddress db' := by
  intro a ha
  rw [view_balance]
  rcases shown_finalise hf a with heq | ⟨hnone, -⟩
  · rw [heq, ← view_balance]
    refine hn a fun hheld => ha ?_
    unfold KeyHeld at hheld ⊢
    rwa [heq]
  · rw [hnone]
    exact Int.le_refl 0

end Accounts

/-! ## The chain -/

/-- The accounts of the sender and of the active delegates are spent from by their keys only; and
when a block is closed, an account of an active delegate that is not marked is as in the trie. -/
def KeysSpend (P : ProcessEnv) : ChainStep → Ledger → Prop
  | .transaction _ _ _ _ tx, L => ∀ msg, asMessage P tx = some msg →
      ∀ a, a = msg.sender ∨ Active L.delegates a →
        (∀ d s, L.state.shown a = some (d, s) → d.code = [] ∧ s = false) ∧
          ∀ b n, P.createAddress b n ≠ a
  | .close .., L => ∀ a, Active L.delegates a → ∀ o, L.state.stateObjects a = some (.live o) →
      a ∈ L.state.stateObjectsDirty ∨ L.state.Stored a o

/-- What holds between the steps. -/
structure FundedChain (P : ProcessEnv) (L : Ledger) : Prop where
  delegates : AllMarked L.delegates
  funded : ∀ a, Active L.delegates a →
    ∃ d, L.state.shown a = some (d, false) ∧ registerCost ≤ d.balance
  debts : NoDebts P.createAddress L.state

section Chain

variable {P : ProcessEnv} {L L' : Ledger}

theorem balance_of_shown {s : Bool}
    (h : db.shown a = some (d, s)) : (view db).getBalance a = d.balance := by
  rw [view_balance, h]
  rfl

theorem FundedChain.out (h : FundedChain P L) : Funded L := by
  intro a ha
  obtain ⟨d, hs, hfund⟩ := h.funded a ha
  rwa [balance_of_shown hs]

theorem keyHeld_ensured {createAddress : Address → Nat → Address}
    (hplain : ∀ d s, db.shown a = some (d, s) → d.code = [] ∧ s = false)
    (hfree : ∀ b n, createAddress b n ≠ a) : KeyHeld createAddress (ensured db a) a := by
  refine ⟨⟨reading db a, ?_, ?_⟩, hfree⟩
  · rw [shown_ensured_self]
    cases hs : db.shown a with
    | none => rfl
    | some x => rw [map_some, getD_some, (hplain x.1 x.2 hs).2]
  · unfold reading
    cases hs : db.shown a with
    | none => rfl
    | some x => exact (hplain x.1 x.2 hs).1

variable {ctx : BlockContext}

theorem FundedChain.transaction {poll : List Address} {blockHash : Hash}
    {i : Nat} {tx : Transaction} (h : FundedChain P L)
    (hc : KeysSpend P (.transaction poll ctx blockHash i tx) L)
    (hstep : chainStep P (.transaction poll ctx blockHash i tx) L = some L') :
    FundedChain P L' := by
  obtain ⟨receipt, happ⟩ := chainStep_transaction hstep
  obtain ⟨msg, gp, v, db, hmsg, hrun, hvote, hfin⟩ := applyTransaction_ok happ
  have hkeys := hc msg hmsg
  obtain ⟨hplain, hfree⟩ := hkeys msg.sender (.inl rfl)
  have hstart : NoDebts P.createAddress (L.prepare (P.txHash tx) blockHash i).state := h.debts
  have hkey : KeyHeld P.createAddress
      (ensured (L.prepare (P.txHash tx) blockHash i).state msg.sender) msg.sender :=
    keyHeld_ensured hplain hfree
  obtain ⟨hheld, hdebts, hkeeps, hreg⟩ := spared_transition
    (E := newEVM (P.withPoll poll) ctx msg) hstart hkey hrun
  obtain ⟨hmarked, hactive⟩ := active_voteChange (h.delegates.prepare _ blockHash i) hvote
  refine ⟨hmarked, fun a ha => ?_, noDebts_finalise hfin hdebts⟩
  have hend : KeyHeld P.createAddress db a ∧ registerCost ≤ (view db).getBalance a := by
    rcases hactive a ha with ⟨ha0, hsender⟩ | ⟨rfl, hone⟩
    · by_cases heq : a = msg.sender
      · subst heq
        exact ⟨hheld _ hkey, hsender rfl⟩
      · have hsame : (L.delegates.exist a).2 =
            ((L.prepare (P.txHash tx) blockHash i).delegates.exist a).2 :=
          DelegateDB.exist_congr rfl rfl
        have ha0 := hsame.trans ha0
        obtain ⟨d, hshown, hfund⟩ := h.funded a ha0
        have hshown : (L.prepare (P.txHash tx) blockHash i).state.shown a = some (d, false) := hshown
        obtain ⟨hplain', hfree'⟩ := hkeys a (.inr ha0)
        have hold : KeyHeld P.createAddress
            (ensured (L.prepare (P.txHash tx) blockHash i).state msg.sender) a :=
          ⟨⟨d, shown_ensured_of_some hshown _, (hplain' d false hshown).1⟩, hfree'⟩
        refine ⟨hheld a hold, hfund.trans ?_⟩
        rw [← balance_of_shown hshown]
        exact hkeeps a hold heq
    · exact ⟨hheld _ hkey, hreg hone⟩
  obtain ⟨⟨⟨d, hshown, -⟩, -⟩, hfund⟩ := hend
  rw [balance_of_shown hshown] at hfund
  exact ⟨d, shown_finalise_of_funded hfin hshown hfund, hfund⟩

theorem shown_rewarded (P : ProcessEnv) (ctx : BlockContext)
    (h : db.shown a = some (d, false)) : ∃ d', (accumulateRewards P ctx db).shown a = some (d', false) ∧
      d.balance ≤ d'.balance := by
  unfold accumulateRewards
  generalize hr : (if P.config.isByzantium ctx.number then P.config.byzantiumBlockReward
    else P.config.frontierBlockReward) = r
  by_cases hb : a = ctx.coinbase
  · subst hb
    refine ⟨_, shown_addBalance_self h r, ?_⟩
    show d.balance ≤ d.balance + r
    omega
  · refine ⟨d, ?_, Int.le_refl _⟩
    rw [StateDB.addBalance, shown_edit, if_neg hb]
    exact h

theorem stored_of_funded {state : StateDB}
    (hs : L.state.shown a = some (d, false)) (hfund : registerCost ≤ d.balance)
    (hmark : ∀ o, L.state.stateObjects a = some (.live o) →
      a ∈ L.state.stateObjectsDirty ∨ L.state.Stored a o)
    (hf : (accumulateRewards P ctx L.state).finalise false = some state) :
    ∃ s, state.trie a = some s ∧ registerCost ≤ s.decode.balance := by
  rcases finalise_at hf a with ⟨-, slot, slot', hslot, -, hfin⟩ | ⟨hclean, -, htrie⟩
  · -- the marked account is written as it is after the reward
    obtain ⟨d', hs', hle⟩ := shown_rewarded P ctx hs
    obtain ⟨o, ho, heq⟩ := shown_eq_some _ a hs'
    obtain ⟨rfl, hsui⟩ := mk.inj heq
    obtain rfl := slot_of_get ho hslot
    rcases finaliseSlot_cases hfin with ⟨hrem, -, -⟩ | ⟨-, -, s, henc, htrie⟩
    · have hrem : (o.suicided || (false && o.data.isEmpty)) = true := hrem
      rw [← hsui] at hrem
      cases hrem
    · refine ⟨s, htrie, ?_⟩
      have hbal := (Account.encode_eq_some henc).2.1
      show registerCost ≤ (s.balance : Int)
      rw [hbal]
      exact hfund.trans hle
  · rw [htrie, accumulateRewards, StateDB.addBalance, trie_edit]
    obtain ⟨o, ho, heq⟩ := shown_eq_some _ a hs
    obtain ⟨rfl, -⟩ := mk.inj heq
    rcases get_cases ho with hslot | ⟨-, s, hs', rfl⟩
    · rcases hmark o hslot with hd | ⟨-, s, hs', henc⟩
      · exact absurd ((Adds.edit L.state ctx.coinbase _).dirty a hd) hclean
      · refine ⟨s, hs', ?_⟩
        have hbal := (Account.encode_eq_some henc).2.1
        show registerCost ≤ (s.balance : Int)
        rw [hbal]
        exact hfund
    · exact ⟨s, hs', hfund⟩

theorem noDebts_new {createAddress : Address → Nat → Address}
    (trie : Trie) : NoDebts createAddress (.new trie) := by
  intro a _
  rw [view_balance, shown_new]
  cases trie a with
  | none => exact Int.le_refl 0
  | some => exact Int.natCast_nonneg _

theorem FundedChain.close {gasLimit : Nat} (h : FundedChain P L)
    (hc : KeysSpend P (.close ctx gasLimit) L)
    (hstep : chainStep P (.close ctx gasLimit) L = some L') : FundedChain P L' := by
  obtain ⟨state, delegates, hstate, hdel, rfl⟩ := chainStep_close hstep
  refine ⟨allMarked_new _, fun a ha => ?_, noDebts_new _⟩
  · have ha0 := active_reopened h.delegates hdel ha
    obtain ⟨d, hs, hfund⟩ := h.funded a ha0
    obtain ⟨s, htrie, hle⟩ := stored_of_funded hs hfund (hc a ha0) hstate
    refine ⟨s.decode, ?_, hle⟩
    rw [shown_new, htrie]
    rfl

theorem fundedChain_genesis {trie : Trie} {delegates : DelegateTrie} {gasLimit : Nat}
    (h : Funded (.genesis trie delegates gasLimit)) :
    FundedChain P (.genesis trie delegates gasLimit) := by
  refine ⟨allMarked_new _, fun a ha => ?_, noDebts_new _⟩
  have hfund : registerCost ≤ (view (StateDB.new trie)).getBalance a := h a ha
  rw [view_balance, shown_new] at hfund
  show ∃ d, (StateDB.new trie).shown a = _ ∧ _
  rw [shown_new]
  cases ht : trie a with
  | none => rw [ht] at hfund; exact absurd hfund (by decide)
  | some s => rw [ht] at hfund; exact ⟨s.decode, rfl, hfund⟩

end Chain

/-- **Active delegates are funded.** In every state of a chain whose steps let keys spend only,
from a genesis block in which they are. -/
theorem funded_of_keysSpend (P : ProcessEnv) (trie : Trie)
    (delegates : DelegateTrie) (gasLimit : Nat) (steps : List ChainStep)
    (L : Ledger) (hgenesis : Funded (.genesis trie delegates gasLimit))
    (hkeys : Run.Along (chainStep P) (KeysSpend P) steps (.genesis trie delegates gasLimit))
    (hrun : Run.exec (chainStep P) steps (.genesis trie delegates gasLimit) = some L) :
    Funded L := by
  refine (Run.invariant (I := FundedChain P) (fun c s s' hc hs hstep => ?_) hkeys
    (fundedChain_genesis hgenesis) hrun).out
  cases c with
  | transaction => exact hs.transaction hc hstep
  | close => exact hs.close hc hstep

/-! ## A delegate that pays and a delegate that is spent -/

/-- The small chain, where contracts get the addresses 100 and 101 and all code sends 1000 to
address 2. -/
def spendingEnv : ProcessEnv :=
  { smallEnv with
    createAddress := fun a _ => if a = 100 then 101 else 100
    createAddress_ne := fun a _ => by
      split
      · rename_i h; rw [h]; decide
      · rename_i h; exact fun heq => h heq.symm
    interp := fun _ _ f => do
      let _ ← effect (.call .call 2 [] 0 1000)
      pure ⟨[], f.gas, none⟩ }

def delegatesTrie : Trie := fun a =>
  if a = 1 then some (plainAccount 0 (5000000 * 10 ^ 18 + 100000)) else
  if a = 2 then some (plainAccount 0 1) else
  if a = 5 then some { plainAccount 1 (5000000 * 10 ^ 18) with code := [1] } else
  if a = 7 then some (plainAccount 0 (5000000 * 10 ^ 18)) else none

def delegatesOf (a : Address) : DelegateTrie :=
  ((∅ : DelegateTrie).insert 1 ⟨0, [], 0, false⟩).insert a ⟨0, [], 0, false⟩

def payment (recipient : Address) (amount : Nat) : ChainStep :=
  .transaction [7] smallContext 0 0
    { smallTx with action := 0, vote := none, recipient := some recipient, amount := amount }

theorem active_delegatesOf {b : Address}
    (h : Active (Ledger.genesis delegatesTrie (delegatesOf b) 100000).delegates a) :
    a = 1 ∨ a = b := by
  obtain ⟨obj, hobj, -⟩ := (active_iff (DelegateDB.loading_new _).2).1 h
  rw [DelegateDB.lookup_new, delegatesOf] at hobj
  by_cases hb : a = b
  · exact .inr hb
  · rw [AList.lookup_insert_ne hb] at hobj
    by_cases h1 : a = 1
    · exact .inl h1
    · rw [AList.lookup_insert_ne h1] at hobj
      cases hobj

theorem funded_delegatesOf {b : Address}
    (hb : registerCost ≤ (view (StateDB.new delegatesTrie)).getBalance b) :
    Funded (.genesis delegatesTrie (delegatesOf b) 100000) := by
  intro a ha
  rcases active_delegatesOf ha with rfl | rfl
  · show registerCost ≤ (view (StateDB.new delegatesTrie)).getBalance 1
    decide +kernel
  · exact hb

/-- The delegate 1 pays and is cancelled for it, and the delegate 7 stays. -/
theorem funded_of_keysSpend_payment :
    ∃ L, Run.exec (chainStep spendingEnv) [payment 2 90000]
        (.genesis delegatesTrie (delegatesOf 7) 100000) =
        some L ∧ ¬ Active L.delegates 1 ∧ Active L.delegates 7 ∧ Funded L := by
  refine exists_of_check (fun L => (L.delegates.exist 1).2 = false ∧ (L.delegates.exist 7).2 = true)
    (by decide +kernel) fun L hL ⟨h1, h7⟩ => ?_
  refine ⟨by unfold Active; rw [h1]; exact Bool.false_ne_true, h7,
    funded_of_keysSpend spendingEnv delegatesTrie (delegatesOf 7) 100000 [payment 2 90000] L
      (funded_delegatesOf (by decide +kernel)) ⟨fun msg hmsg a ha => ?_, fun _ _ => trivial⟩ hL⟩
  have hcases : a = 1 ∨ a = 7 := by
    rcases ha with rfl | ha
    · cases hmsg
      exact .inl rfl
    · exact active_delegatesOf ha
  have hplain : ∀ d s, (StateDB.new delegatesTrie).shown a = some (d, s) → d.code = [] ∧ s = false := by
    intro d s hs
    rw [shown_new] at hs
    rcases hcases with rfl | rfl <;> (cases hs; exact ⟨rfl, rfl⟩)
  refine ⟨hplain, fun b n => ?_⟩
  show (if b = 100 then (101 : Address) else 100) ≠ a
  rcases hcases with rfl | rfl <;> split <;> decide

/-- **The slip.** The delegate 5 is a contract, and it is not the sender when address 1 pays it. Its
code sends on more than it gets, and it stays a delegate without the registration. -/
theorem not_funded_contract : Funded (.genesis delegatesTrie (delegatesOf 5) 100000) ∧
    ∃ L, Run.exec (chainStep spendingEnv) [payment 5 100]
        (.genesis delegatesTrie (delegatesOf 5) 100000) = some L ∧ Active L.delegates 5 ∧
      (view L.state).getBalance 5 = registerCost - 900 ∧ ¬ Funded L := by
  refine ⟨funded_delegatesOf (by decide +kernel), ?_⟩
  refine exists_of_check (fun L => (L.delegates.exist 5).2 = true ∧
      (view L.state).getBalance 5 = registerCost - 900) (by decide +kernel)
    fun L hL ⟨hact, hbal⟩ => ?_
  refine ⟨hact, hbal, fun hfund => ?_⟩
  have hle := hfund 5 hact
  omega

end GoAoa.Core
