import GoAoa.Core.Admission
import GoAoa.State.Voting
import GoAoa.VM.CallValue

/-!
# Votes sent to plain accounts

A vote whose recipient has no code is counted and nothing runs after it, so the call of the
transaction ends in one of a few known ways (`execute_vote_cases`).
-/

namespace GoAoa.Core

open State State.StateDB VM Semantics

/-- An account without code, and not a precompiled contract. -/
def Plain (E : EVM) (db : StateDB) (a : Address) : Prop :=
  (view db).getCode a = [] ∧ E.precompiled a = none

variable {g : Growth} {ep : Bool} {E : EVM} {n : Nested} {db db' : StateDB} {c : CallArgs}
  {msg : Message} {enc : InfoEncoder} {a b : Address} {x : Account} {s : Bool}

/-! ## Code does not change before the call -/

theorem code_ensured (db : StateDB) (a b : Address) :
    (view (ensured db a)).getCode b = (view db).getCode b := by
  rw [(reads _ b).2.2.1, reading_ensured, (reads db b).2.2.1]

theorem code_edit {f : Writer}
    (hf : ∀ o w, f o = some w → (w.apply o).data.code = o.data.code) (b : Address) :
    (view (db.edit a f)).getCode b = (view db).getCode b := by
  rw [(reads _ b).2.2.1, (reads db b).2.2.1]
  exact reading_edit_of_eq db a b (·.code) hf

theorem code_bought (msg : Message) (db : StateDB) (b : Address) :
    (view (bought msg db)).getCode b = (view db).getCode b := by
  unfold bought StateDB.subBalance
  rw [code_edit, code_ensured]
  intro o w hf
  split at hf
  · cases hf
  · cases hf; rfl

theorem code_called (msg : Message) (db : StateDB) (b : Address) :
    (view (called msg db)).getCode b = (view db).getCode b := by
  have hnonce : ∀ k, (view (db.setNonce msg.sender k)).getCode b = (view db).getCode b := fun k =>
    code_edit (fun o w hf => by cases hf; rfl) b
  unfold called
  cases msg.recipient with
  | none => exact hnonce _
  | some a => exact (code_ensured _ a b).trans (hnonce _)

/-! ## The call -/

theorem run_invoke_plain {f : Frame} (h : Plain E db f.codeAddr) :
    (semantics g ep).run (invoke E n f) db = some ((false, ⟨[], f.gas, none⟩), db) := by
  unfold invoke VM.run
  rw [run_bind, run_call]
  show (semantics g ep).run _ db = _
  rw [h.1, h.2]
  rfl

/-- How the call of a vote to a plain account can end: the error, and the state unless the whole
transaction fails. -/
inductive VoteEnd (g : Growth) (E : EVM) (user : Address) (votes : List Vote) (addr : Address)
    (value : Nat) (db : StateDB) : Option VMErr → StateDB → Prop
  | insufficient (t : StateDB) :
      VoteEnd g E user votes addr value db (some .insufficientBalance) t
  /-- The recipient is not there and gets nothing. -/
  | skipped (habs : (view db).exist addr = false) (hvalue : value = 0) :
      VoteEnd g E user votes addr value db none db.snapshot.2
  | empty (hnil : votes = []) :
      VoteEnd g E user votes addr value db (some .emptyVoteList) (ensured db.snapshot.2 addr)
  | refused (t : StateDB) : VoteEnd g E user votes addr value db (some .vote) t
  | accepted (t : StateDB) (hne : votes ≠ [])
      (hvote : (ensured db.snapshot.2 addr).vote g E.maxElectDelegate E.delegateList user votes =
        some (true, t)) : VoteEnd g E user votes addr value db none t

theorem call_vote_cases {r : Reply} (hv : isVote c.action = true) (hplain : Plain E db c.addr)
    (hs : db.shown c.caller = some (x, s))
    (h : (semantics g ep).run (call E n c) db = some (r, db')) :
    VoteEnd g E c.caller c.votes c.addr c.value db r.err db' := by
  rcases call_cases h with ⟨-, rfl, -⟩ | ⟨-, y, db1, undo, t, hopen, hgo, hleave⟩
  · exact .insufficient _
  rw [run_opening] at hopen
  split at hopen
  · rcases prologue_cases hopen with ⟨hearly, rfl, rfl⟩ | ⟨⟨-, hne⟩, ok, hvote, rfl⟩ | ⟨hno, -⟩
    · cases hgo
      cases hleave
      rcases hearly with ⟨-, hnil⟩ | ⟨hreg, -⟩
      · rw [hv]
        exact .empty hnil
      · rw [hreg] at hv
        cases hv
    · cases ok with
      | false =>
        cases hgo
        exact .refused _
      | true =>
        have hs' : db.snapshot.2.shown c.caller = some (x, s) := hs
        have hplain1 : Plain E db1 c.addr := by
          obtain ⟨_, _, _, _, -, -, -, -, -, hshown, -⟩ :=
            vote_accepted (shown_ensured_of_some hs' c.addr) hvote
          refine ⟨.trans ?_ ((code_ensured db.snapshot.2 c.addr _).trans hplain.1), hplain.2⟩
          rw [view_code, view_code, hshown]
          by_cases heq : c.addr = c.caller
          · rw [if_pos heq, heq, shown_ensured_of_some hs']; rfl
          · rw [if_neg heq]
        cases (run_invoke_plain hplain1).symm.trans hgo
        cases hleave
        exact .accepted _ hne hvote
    · cases hv.symm.trans hno
  · rename_i hskip
    cases hopen
    cases hgo
    cases hleave
    simp only [comesToAction, Bool.or_eq_true, not_or, bne_iff_ne, ne_eq, not_not] at hskip
    exact .skipped (Bool.not_eq_true _ ▸ hskip.1.1) hskip.2

/-- **How a vote to a plain account is executed.** -/
theorem execute_vote_cases {action : Action} {gas : Nat} {r : Except TxErr Reply}
    (hv : isVote action = true) (hplain : Plain E db msg.callee)
    (hs : (called msg db).shown msg.sender = some (x, s))
    (h : (semantics g ep).run (execute E enc msg action gas) db = some (r, db')) :
    ∃ reply, r = .ok reply ∧
      VoteEnd g E msg.sender msg.vote msg.callee msg.amount (called msg db) reply.err db' := by
  rw [run_execute_call (calls_of_isVote hv)] at h
  obtain ⟨⟨reply, db1⟩, hcall, heq⟩ := Option.map_eq_some_iff.1 h
  cases heq
  exact ⟨reply, rfl, call_vote_cases hv ⟨(code_called msg db _).trans hplain.1, hplain.2⟩ hs hcall⟩

end GoAoa.Core
