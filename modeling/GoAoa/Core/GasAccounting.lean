import GoAoa.Core.NoTrace
import GoAoa.VM.CallValue
import Mathlib.Algebra.BigOperators.Group.Finset.Piecewise

/-!
# The gas of one transaction

Gas is paid for in advance and taken from the block's pool; what execution leaves of it, and a
refund, are given back at the end, and the rest goes to the coinbase. For a virtual machine that
leaves no more gas than it was given the four payments add up (`gas_accounting`).
-/

namespace GoAoa.Core

open State State.StateDB VM Semantics Option

section

variable {g : Growth} {ep : Bool} {db db' : StateDB} {msg : Message} {gp gp' : Nat} {E : EVM}
  {enc : InfoEncoder} {a : Address}

/-! ## Balances -/

theorem balance_addBalance (db : StateDB) (a b : Address) (x : Int) :
    (view (db.addBalance a x)).getBalance b = (view db).getBalance b + if b = a then x else 0 := by
  have h := holding_addBalance db a b none x
  rwa [if_pos rfl] at h

theorem balance_subBalance (db : StateDB) (a b : Address) (x : Int) :
    (view (db.subBalance a x)).getBalance b = (view db).getBalance b - if b = a then x else 0 := by
  have h := holding_subBalance db a b none x
  refine h.trans ?_
  split
  · exact Int.sub_eq_add_neg.symm
  · rw [Int.add_zero, Int.sub_zero]
    rfl

theorem balance_bought (msg : Message) (db : StateDB) (a : Address) :
    (view (bought msg db)).getBalance a =
      (view db).getBalance a - if a = msg.sender then msg.gasCost else 0 := by
  rw [bought, balance_subBalance, balance_ensured]

theorem balance_settled (E : EVM) (msg : Message) (r : Reply) (db : StateDB) (a : Address) :
    (view (settled E msg r db)).getBalance a = (view db).getBalance a +
      (if a = msg.sender then (returned msg r db.refund : Int) * msg.gasPrice else 0) +
      if a = E.coinbase then
        (u64 (msg.gasLimit - returned msg r db.refund) : Int) * msg.gasPrice else 0 := by
  rw [settled, balance_addBalance, balance_addBalance, balance_ensured]

/-! ## The accounts of a transition -/

/-- What the gas changes of a balance: what is paid before execution, which leads from the second
state to the third, and what is paid back and out after it. -/
def gasChange (msg : Message) (db executed db' : StateDB) (a : Address) : Int :=
  ((view (bought msg db)).getBalance a - (view db).getBalance a) +
    ((view db').getBalance a - (view executed).getBalance a)

/-- The accounts of a transition that used `used` of its gas: `reply` and `executed` are what
execution left. -/
structure GasAccounts (E : EVM) (msg : Message) (gp gp' used : Nat) (reply : Reply)
    (db executed db' : StateDB) : Prop where
  limit : used ≤ msg.gasLimit
  refund : ∃ refund, refund ≤ (msg.gasLimit - reply.gas) / 2 ∧
    used + refund + reply.gas = msg.gasLimit
  pool : gp' + used = gp
  change : ∀ a, gasChange msg db executed db' a =
    (if a = E.coinbase then (used : Int) * msg.gasPrice else 0) -
      if a = msg.sender then (used : Int) * msg.gasPrice else 0

/-- The execution leaves no more gas than it was given. -/
abbrev ReturnsGas (g : Growth) (ep : Bool) (E : EVM) (enc : InfoEncoder) (msg : Message)
    (action : Action) (db : StateDB) : Prop :=
  ∀ reply executed, (semantics g ep).run (execute E enc msg action (gasForExecution msg action))
    (bought msg db) = some (.ok reply, executed) → reply.gas ≤ gasForExecution msg action

variable {reply : Reply} {executed : StateDB}

theorem GasAccounts.sum_change {used : Nat}
    (h : GasAccounts E msg gp gp' used reply db executed db') {s : Finset Address}
    (hsender : msg.sender ∈ s) (hcoinbase : E.coinbase ∈ s) :
    ∑ a ∈ s, gasChange msg db executed db' a = 0 := by
  simp only [h.change, Finset.sum_sub_distrib, Finset.sum_ite_eq', hsender, hcoinbase, if_true,
    sub_self]

theorem run_settle_of_le (db : StateDB) (hgp : gp < 2 ^ 64)
    (hlimit : msg.gasLimit ≤ gp) (hle : reply.gas ≤ msg.gasLimit) :
    ∃ gp' used db', (semantics g ep).run (settle E msg (gp - msg.gasLimit) reply) executed =
        some ((gp', .ok (used, reply.err.isSome)), db') ∧
      GasAccounts E msg gp gp' used reply db executed db' := by
  obtain ⟨-, hused⟩ := used_eq (by omega : msg.gasLimit < 2 ^ 64) hle executed.refund
  have hret := returned_le (by omega : msg.gasLimit < 2 ^ 64) hle executed.refund
  refine ⟨_, _, _, (run_settle reply).trans (if_neg (by omega)), ?_⟩
  rw [hused]
  refine ⟨Nat.sub_le _ _, ⟨returned msg reply executed.refund - reply.gas, by omega, by omega⟩,
    by omega, fun a => ?_⟩
  have hcost : msg.gasCost = ((msg.gasLimit - returned msg reply executed.refund : Nat) : Int) *
      msg.gasPrice + (returned msg reply executed.refund : Int) * msg.gasPrice := by
    rw [Message.gasCost, ← add_mul]
    congr 1
    omega
  unfold gasChange
  rw [balance_bought, balance_settled, hused, hcost]
  split <;> split <;> ring

theorem exists_run_of_execute {action : Action} (hgp : gp < 2 ^ 64)
    (hadm : admission msg gp db = .ok action) (hintr : intrinsicGas msg.data action ≤ msg.gasLimit)
    (hexec : (semantics g ep).run (execute E enc msg action (gasForExecution msg action))
      (bought msg db) = some (.ok reply, executed)) (herr : isConsensusErr reply.err = none)
    (hle : reply.gas ≤ gasForExecution msg action) :
    ∃ gp' used db', (semantics g ep).run (transitionDb E enc msg gp) db =
        some ((gp', .ok (used, reply.err.isSome)), db') ∧
      GasAccounts E msg gp gp' used reply db executed db' := by
  have hst : checked msg gp db = bought msg db := by
    unfold checked
    rw [hadm]
  unfold gasForExecution at hexec hle
  unfold transitionDb
  rw [run_bind, run_preCheck, bind_some, hadm, hst]
  dsimp only [Except.map]
  rw [run_bind, run_ensure, ensured_of_exist (exist_bought msg db), bind_some]
  rw [if_neg (by omega), run_bind, hexec, bind_some]
  dsimp only
  rw [herr]
  exact run_settle_of_le db hgp (admission_ok hadm).2.2.2 (by omega)

theorem accounts_of_run {used : Nat} {failed : Bool} (hgp : gp < 2 ^ 64)
    (hevm : ∀ action, admission msg gp db = .ok action → ReturnsGas g ep E enc msg action db)
    (h : (semantics g ep).run (transitionDb E enc msg gp) db =
      some ((gp', .ok (used, failed)), db')) :
    ∃ action reply executed, admission msg gp db = .ok action ∧ (semantics g ep).run
        (execute E enc msg action (gasForExecution msg action)) (bought msg db) =
        some (.ok reply, executed) ∧
      GasAccounts E msg gp gp' used reply db executed db' := by
  obtain ⟨action, reply, executed, hadm, hintr, hexec, herr, -⟩ := transition_ok h
  obtain ⟨gp1, used1, db1, hrun, haccounts⟩ :=
    exists_run_of_execute hgp hadm hintr hexec herr (hevm action hadm reply executed hexec)
  cases hrun.symm.trans h
  exact ⟨action, reply, executed, hadm, hexec, haccounts⟩

/-- **The gas of a transaction.** Whatever the virtual machine does, as long as it leaves no more
gas than it was given: the accounts of a transition that returns no error are right, the payments
cancel out, and an execution without an error of the transition is settled. -/
theorem gas_accounting (hgp : gp < 2 ^ 64) (hevm : ∀ action reply executed,
      admission msg gp db = .ok action → (semantics g ep).run
        (execute E enc msg action (gasForExecution msg action)) (bought msg db) =
      some (.ok reply, executed) → reply.gas ≤ gasForExecution msg action) :
    (∀ gp' used failed db', (semantics g ep).run (transitionDb E enc msg gp) db =
        some ((gp', .ok (used, failed)), db') →
      ∃ action reply executed, admission msg gp db = .ok action ∧ (semantics g ep).run
          (execute E enc msg action (gasForExecution msg action)) (bought msg db) =
          some (.ok reply, executed) ∧
        GasAccounts E msg gp gp' used reply db executed db' ∧
        ∀ s : Finset Address, msg.sender ∈ s → E.coinbase ∈ s →
          ∑ a ∈ s, gasChange msg db executed db' a = 0) ∧
    ∀ action reply executed, admission msg gp db = .ok action →
      intrinsicGas msg.data action ≤ msg.gasLimit →
      (semantics g ep).run (execute E enc msg action (gasForExecution msg action))
        (bought msg db) = some (.ok reply, executed) →
      isConsensusErr reply.err = none →
      ((semantics g ep).run (transitionDb E enc msg gp) db).isSome := by
  refine ⟨fun gp' used failed db' h => ?_, fun action reply executed hadm hintr hexec herr => ?_⟩
  · obtain ⟨action, reply, executed, hadm, hexec, haccounts⟩ :=
      accounts_of_run hgp (fun action hadm reply executed => hevm action reply executed hadm) h
    exact ⟨action, reply, executed, hadm, hexec, haccounts,
      fun s hsender hcoinbase => haccounts.sum_change hsender hcoinbase⟩
  · obtain ⟨gp1, used1, db1, hrun, -⟩ :=
      exists_run_of_execute hgp hadm hintr hexec herr (hevm action reply executed hadm hexec)
    rw [hrun]
    rfl

end

theorem thrifty_smallEvm (g : Growth) (ep : Bool) : smallEvm.Thrifty g ep :=
  fun _ f => returns_pure (Nat.zero_le f.gas)

theorem gas_accounting_vote : ∃ reply executed db',
    (semantics doubling true).run (transitionDb smallEvm (fun _ _ => []) smallVote 100000)
        (.new (smallTrie (2 * 10 ^ 18))) = some ((75000, .ok (25000, false)), db') ∧
      GasAccounts smallEvm smallVote 100000 75000 25000 reply (.new (smallTrie (2 * 10 ^ 18)))
        executed db' := by
  have hrun : ((semantics doubling true).run
      (transitionDb smallEvm (fun _ _ => []) smallVote 100000)
      (.new (smallTrie (2 * 10 ^ 18)))).map (fun r => (r.1.1, r.1.2.toOption)) =
        some (75000, some (25000, false)) := by decide +kernel
  obtain ⟨⟨⟨gp, res⟩, db'⟩, hrun, hgp, hres⟩ := map_mk_eq_some.1 hrun
  subst hgp
  cases res with
  | error => cases hres
  | ok =>
    obtain rfl := some.inj hres
    obtain ⟨action, reply, executed, -, -, haccounts, -⟩ := (gas_accounting (by decide)
      fun action reply executed _ hexec => gas_execute (thrifty_smallEvm _ _) _ _ action _ _ _ _ hexec
        reply rfl).1 _ _ _ _ hrun
    exact ⟨reply, executed, db', hrun, haccounts⟩

end GoAoa.Core
