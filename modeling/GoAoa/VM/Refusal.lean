import GoAoa.VM.Effects

/-!
# Asset transfers that are refused

The error values of the interpreter. An asset transfer of more than the contract has is an error of
the instruction, and it is the very error with which a call is refused that cannot be paid for. It
is the only way for code to end with it (`grants_iff`).
-/

namespace GoAoa.VM

open List State Prog

/-- The answers of effects but for an asset transfer that is refused. -/
def granted : (e : Effect) → Effect.Ans e → Bool
  | .transferAsset .., ok => ok
  | _, _ => true

def Unrefusable (e : Effect) : Prop := ∀ x, granted e x = true

/-- The errors with which the machine refuses a call are not an instruction's. -/
def Blameless (e : VMErr) : Prop := e ≠ .insufficientBalance ∧ e ≠ .vote

def Fine : Result → Prop
  | .ok _ => True
  | .error e => Blameless e

theorem fine_of_kept {gas : Nat} {r : Result} (h : Kept gas r) : Fine r := by
  cases r with
  | ok => trivial
  | error => rcases h with rfl | rfl <;> exact ⟨by decide, by decide⟩

/-- An instruction that ends with `insufficientBalance` if an asset transfer is refused, and with a
blameless error otherwise. -/
structure Honest (c : Context) (o : Operation) : Prop where
  gasCost : ∀ f m size, (o.gasCost c f m size).Ends Unrefusable (fun _ _ => True)
    (Priced (fun _ => 0) m)
  cut : ∀ f m, Cut (fun r => r = .error .insufficientBalance) ((o.execute c f m).assume granted)
    (o.execute c f m)
  fine : ∀ f m, (o.execute c f m).Ends (fun _ => True) (fun e x => granted e x = true) Fine

section Honest

variable {c : Context} {o : Operation}

/-- An instruction that cannot be refused. -/
def Sure (x : ExecutionFunc) : Prop :=
  ∀ c f m, (x c f m).Ends Unrefusable (fun _ _ => True) Fine

variable {x : ExecutionFunc}

theorem Asks.sure {P : Machine → Effect → Prop} (hx : Asks P x)
    (hP : ∀ m e, P m e → Unrefusable e) : Sure x :=
  fun c f m => (hx c f m).mono (hP m) (fun _ _ _ h => h) fun _ h => fine_of_kept h

theorem Local.sure (hx : Local x) : Sure x := Asks.sure hx fun _ _ h => h ▸ fun _ => rfl

theorem sure_opCalls (kind : CallKind) (addr value : Int) (m : Machine) :
    (opCalls kind addr value m).Ends Unrefusable (fun _ _ => True) Fine :=
  ends_opCalls (fun _ _ => rfl) fun _ _ _ =>
    ⟨fun _ => ⟨by decide, by decide⟩, fun _ _ _ => trivial⟩

theorem sure_opCreate : Sure opCreate := fun _ _ _ =>
  ends_opCreate (fun _ _ => rfl) fun _ _ _ => ⟨fun _ => ⟨by decide, by decide⟩, fun _ _ _ => trivial⟩

theorem Sure.cut (hx : Sure x) (f : Frame) (m : Machine) :
    Cut (fun r => r = .error .insufficientBalance) ((x c f m).assume granted) (x c f m) :=
  .assume_of_ends (hx c f m)

/-- A refused transfer ends the instruction. -/
theorem cut_opTransferAsset (f : Frame) (m : Machine) :
    Cut (fun r => r = .error .insufficientBalance) ((opTransferAsset c f m).assume granted)
      (opTransferAsset c f m) := by
  unfold opTransferAsset Machine.pop
  match m.stack with
  | [] | [_] | [_, _] => exact .refl _
  | value :: aid :: recipient :: s =>
    refine .op _ fun ok => ?_
    cases ok with
    | true => exact .refl _
    | false => exact .fail rfl

theorem fine_opTransferAsset (f : Frame) (m : Machine) :
    (opTransferAsset c f m).Ends (fun _ => True) (fun e x => granted e x = true) Fine := by
  refine ends_pop fun _ _ _ => ends_pop fun _ _ _ => ends_pop fun _ _ _ => ?_
  refine ⟨trivial, fun ok hok => ?_⟩
  have hok : ok = true := hok
  rw [hok]
  trivial

/-- Only an asset transfer can be refused. -/
theorem sure_or_transfer :
    ∀ e ∈ instructionSet, Sure e.2.execute ∨ e.2.execute = opTransferAsset := by
  refine forall_instructionSet (fun e he => .inl (local_plain e he).sure)
    (fun e he => .inl (local_priced e he).sure) ?_ ?_ ?_
  · simp only [haltingOperations, ← forall_iff_forall_mem, Forall]
    refine ⟨.inl local_opStop.sure, .inl local_opReturn.sure, .inl local_opReturn.sure, .inl ?_⟩
    exact asks_opSuicide.sure (by rintro _ _ ⟨_, rfl⟩ _; rfl)
  · refine forall_mem_append.2 ⟨?_, forall_mem_map.2 fun i _ => .inl ?_⟩
    · simp only [← forall_iff_forall_mem, Forall]
      refine ⟨.inl ?_, .inr trivial, .inr trivial⟩
      exact asks_opSstore.sure (by rintro _ _ ⟨_, _, rfl⟩ _; rfl)
    · exact (asks_makeLog i).sure (by rintro _ _ ⟨_, _, _, rfl⟩ _; rfl)
  · simp only [callingOperations, ← forall_iff_forall_mem, Forall]
    refine ⟨.inl sure_opCreate, .inl fun c f m => ?_, .inl fun c f m => ?_, .inl fun c f m => ?_,
      .inl fun c f m => ?_⟩
    · refine ends_pop fun _ _ _ => ends_pop fun _ _ _ => ends_pop fun _ _ _ => ?_
      exact sure_opCalls .call _ _ _
    · refine ends_pop fun _ _ _ => ends_pop fun _ _ _ => ends_pop fun _ _ _ => ?_
      exact sure_opCalls .callCode _ _ _
    · exact ends_pop fun _ _ _ => ends_pop fun _ _ _ => sure_opCalls .delegateCall _ _ _
    · exact ends_pop fun _ _ _ => ends_pop fun _ _ _ => sure_opCalls .staticCall _ _ _

/-- **Every instruction is honest.** -/
theorem honest_instructionSet (c : Context) : ∀ e ∈ instructionSet, Honest c e.2 := by
  intro e he
  have hgas : ∀ f m size, (e.2.gasCost c f m size).Ends Unrefusable (fun _ _ => True)
      (Priced (fun _ => 0) m) := by
    obtain ⟨low, hp⟩ := prices_instructionSet e he
    intro f m size
    refine (hp c f m size).mono (fun x hx => ?_) (fun _ _ _ h => h)
      fun _ h => h.mono fun _ => Nat.zero_le _
    rcases hx.1 with rfl | ⟨gas, rfl⟩ <;> exact fun _ => rfl
  rcases sure_or_transfer e he with hx | hx
  · exact ⟨hgas, hx.cut,
      fun f m => (hx c f m).mono (fun _ _ => trivial) (fun _ _ _ _ => trivial) fun _ h => h⟩
  · refine ⟨hgas, fun f m => ?_, fun f m => ?_⟩
    · rw [hx]; exact cut_opTransferAsset f m
    · rw [hx]; exact fine_opTransferAsset f m

/-! ## Rounds and runs -/

/-- A reply with the error of a refused transfer. -/
def RefusedReply (r : Reply) : Prop := r.err = some .insufficientBalance

/-- No reply with an error that is not an instruction's. -/
def BlamelessReply (r : Reply) : Prop := ∀ e, r.err = some e → Blameless e

def RefusedOutcome : Outcome → Prop
  | .next _ => False
  | .halt r => RefusedReply r

def BlamelessOutcome : Outcome → Prop
  | .next _ => True
  | .halt r => BlamelessReply r

theorem cut_perform (ho : Honest c o) (f : Frame) (m : Machine) :
    Cut RefusedOutcome ((perform c f o m).assume granted) (perform c f o m) := by
  unfold perform
  rw [assume_bind]
  refine (ho.cut f m).bind (fun r => .assume_of_ends (R := fun _ => True) ?_) fun r hr => ?_
  · -- nothing is asked for after the instruction
    cases r with
    | error => exact ends_pure trivial
    | ok =>
      dsimp only
      split
      · exact ends_pure trivial
      · split <;> exact ends_pure trivial
  · subst hr
    exact rfl

theorem blameless_perform (ho : Honest c o) (f : Frame) (m : Machine) :
    (perform c f o m).Ends (fun _ => True) (fun e x => granted e x = true) BlamelessOutcome := by
  refine ends_perform (ho.fine f m) (fun e he e' heq => ?_) (fun m' ret _ => ?_)
    fun _ _ _ _ _ _ => trivial
  · cases heq
    exact he
  · constructor
    · intro e h
      cases h
    · intro e h
      cases h
      exact ⟨by decide, by decide⟩

theorem blameless_chargeErrors : ∀ e ∈ chargeErrors, Blameless e := by
  unfold Blameless
  decide

theorem unrefusable_charge (ho : Honest c o) (f : Frame) (m : Machine) :
    (charge c f o m).Ends Unrefusable (fun _ _ => True) fun r =>
      ∀ e, r = .error e → Blameless e := by
  refine (ends_charge fun _ => ho.gasCost f m).imp fun r hr e heq => ?_
  subst heq
  exact blameless_chargeErrors e hr

theorem cut_step (c : Context) (f : Frame) (m : Machine) :
    Cut RefusedOutcome ((step c f m).assume granted) (step c f m) := by
  unfold step
  cases ho : operationOf (f.getOp m.pc) with
  | none => exact .refl _
  | some =>
    have hh := honest_instructionSet c _ (mem_instructionSet ho)
    rw [assume_bind]
    refine (Cut.assume_of_ends (Q := fun _ => False) (unrefusable_charge hh f m)).bind
      (fun r => ?_) fun _ h => h.elim
    cases r with
    | error => exact .refl _
    | ok paid => exact cut_perform hh f paid

theorem blameless_step (c : Context) (f : Frame) (m : Machine) :
    (step c f m).Ends (fun _ => True) (fun e x => granted e x = true) BlamelessOutcome := by
  unfold step
  cases ho : operationOf (f.getOp m.pc) with
  | none =>
    refine ends_pure fun e h => ?_
    cases h
    exact ⟨VMErr.noConfusion, VMErr.noConfusion⟩
  | some =>
    have hh := honest_instructionSet c _ (mem_instructionSet ho)
    refine ends_bind ((unrefusable_charge hh f m).mono (fun _ _ => trivial) (fun _ _ _ _ => trivial)
      fun _ h => h) fun r hr => ?_
    cases r with
    | error e =>
      refine ends_pure fun e' h => ?_
      cases h
      exact hr e rfl
    | ok paid => exact blameless_perform hh f paid

end Honest

section Loop

variable {c : Context} {f : Frame}

theorem cut_loop_granted (fuel : Nat) (m : Machine) :
    Cut RefusedReply ((loop (step c f) fuel m).assume granted) (loop (step c f) fuel m) := by
  induction fuel generalizing m with
  | zero => exact .refl _
  | succ fuel ih =>
    unfold loop
    rw [assume_bind]
    refine (cut_step c f m).bind (fun r => ?_) fun r hr => ?_
    · cases r with
      | halt => exact .refl _
      | next m => exact ih m
    · cases r with
      | halt => exact hr
      | next => exact hr.elim

theorem blameless_loop (fuel : Nat) (m : Machine) :
    (loop (step c f) fuel m).Ends (fun _ => True) (fun e x => granted e x = true)
      BlamelessReply := by
  induction fuel generalizing m with
  | zero =>
    refine ends_pure fun e h => ?_
    cases h
    exact ⟨by decide, by decide⟩
  | succ fuel ih =>
    refine ends_bind (blameless_step c f m) fun r hr => ?_
    cases r with
    | halt => exact hr
    | next m => exact ih m

end Loop

/-- Code runs to its end from `db`, and the transfers it asks for itself are not refused. -/
def Grants (g : Growth) (ep : Bool) (n : Nested) (f : Frame) (code : Code Reply) (db : StateDB) :
    Prop :=
  ((semantics g ep).run (runCode n f (code.assume granted)) db).isSome

/-- **Code ends with `insufficientBalance` only if a transfer it asks for is refused**, and never
with the error of a refused vote. -/
theorem grants_iff {g : Growth} {ep : Bool} {c : Context} {fuel : Nat} {n : Nested} {f : Frame}
    {db : StateDB} : Grants g ep n f (interpret c fuel f) db ↔
      ∃ r db', (semantics g ep).run (runCode n f (interpret c fuel f)) db = some (r, db') ∧
        r.err ≠ some .insufficientBalance ∧ r.err ≠ some .vote := by
  have hcut : Cut RefusedReply (runCode n f ((interpret c fuel f).assume granted))
      (runCode n f (interpret c fuel f)) :=
    (cut_loop_granted fuel (.start f)).handle fun _ => .refl _
  constructor
  · intro hgrants
    obtain ⟨⟨r, db'⟩, hrun⟩ := Option.isSome_iff_exists.1 hgrants
    have hblameless : BlamelessReply r := Semantics.returns_handle
      (fun e _ => Semantics.returns_any _) (ends_assume (blameless_loop fuel (.start f))) db r db' hrun
    exact ⟨r, db', Semantics.run_cut hcut hrun, fun herr => (hblameless _ herr).1 rfl,
      fun herr => (hblameless _ herr).2 rfl⟩
  · rintro ⟨r, db', hrun, hne, -⟩
    exact Option.isSome_iff_exists.2 ⟨_, Semantics.run_of_cut hcut hrun hne⟩

end GoAoa.VM
