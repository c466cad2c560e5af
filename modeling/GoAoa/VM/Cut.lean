import GoAoa.VM.Gas
import GoAoa.VM.Interpreter

/-!
# Runs whose instructions meet a condition

`interpretWhere ok` is the interpreter that fails before an instruction that does not meet `ok`. A
run of a machine with this interpreter is a run of the machine in which all instructions meet the
condition, at every depth (`cut_nested`).
-/

namespace GoAoa.VM

open State
open Prog (Cuts)

/-- What the first of two machines below is cut off from the second. -/
structure Nested.IsCut (n n' : Nested) : Prop where
  call : ∀ kind f addr input gas value,
    Cuts (n.call kind f addr input gas value) (n'.call kind f addr input gas value)
  create : ∀ f code gas value, Cuts (n.create f code gas value) (n'.create f code gas value)

section

variable {E : EVM} {interp : Frame → Code Reply} {n n' : Nested} {f : Frame}

theorem cut_runCode {α : Type} {code code' : Code α} (hn : n.IsCut n') (h : Cuts code code') :
    Cuts (runCode n f code) (runCode n' f code') := by
  refine Cuts.handle (fun e => ?_) h
  cases e with
  | call kind addr input gas value => exact hn.call kind f addr input gas value
  | create code gas value => exact hn.create f code gas value
  | _ => exact .refl _

theorem cut_run (hi : ∀ f, Cuts (interp f) (E.interp f)) (hn : n.IsCut n') :
    Cuts (run (E.running interp) n f) (run E n' f) := by
  unfold run
  have hp : (E.running interp).precompiled = E.precompiled := rfl
  rw [hp]
  split
  · exact .refl _
  · split
    · exact .refl _
    · exact cut_runCode hn (hi f)

theorem walks_cuts : Walks (fun p p' _ => Cuts p p') fun _ _ => True where
  toBounded := bounded_true
  pure _ := .refl _
  fail := .refl _
  act _ := .refl _
  transfer _ _ _ _ := .refl _
  bind := .bind
  bindReply hp hk := .bind hp fun r => hk r trivial
  within := .within

theorem cut_invoke (hi : ∀ f, Cuts (interp f) (E.interp f)) (hn : n.IsCut n') :
    Cuts (invoke (E.running interp) n f) (invoke E n' f) :=
  walks_cuts.invoke (fun _ => cut_run hi hn) f

/-- **The machine with a cut interpreter is cut off from the machine**, at every depth. -/
theorem cut_nested (hi : ∀ f, Cuts (interp f) (E.interp f)) (d : Nat) :
    (nested (E.running interp) d).IsCut (nested E d) := by
  have h := walks_cuts.nested (E := E) (fun hn _ => cut_run hi ⟨hn.call, hn.create⟩) d
  exact ⟨h.call, h.create⟩

end

/-! ## Conditions on instructions -/

/-- A condition on an instruction: the frame, the machine before it, and the machine that has paid
for it. -/
abbrev Condition := Frame → Machine → Machine → Bool

/-- A round of the loop, if the instruction meets the condition. -/
def stepWhere (ok : Condition) (c : Context) (f : Frame) (m : Machine) : Code Outcome :=
  match operationOf (f.getOp m.pc) with
  | none => pure (.halt ⟨[], m.gas, some (.invalidOpcode (f.getOp m.pc))⟩)
  | some o => do
    let r ← charge c f o m
    match r with
    | .error e => pure (.halt ⟨[], m.gas, some e⟩)
    | .ok paid => if ok f m paid then perform c f o paid else .fail

/-- `Run`, if all instructions meet the condition. -/
def interpretWhere (ok : Condition) (c : Context) (fuel : Nat) (f : Frame) : Code Reply :=
  loop (stepWhere ok c f) fuel (.start f)

theorem cut_stepWhere (ok : Condition) (c : Context) (f : Frame) (m : Machine) :
    Cuts (stepWhere ok c f m) (step c f m) := by
  unfold stepWhere step
  cases operationOf (f.getOp m.pc) with
  | none => exact .refl _
  | some =>
    refine .bind (.refl _) fun r => ?_
    cases r with
    | error => exact .refl _
    | ok =>
      dsimp only
      split
      · exact .refl _
      · exact .fail _

theorem cut_loop {round round' : Machine → Code Outcome} (h : ∀ m, Cuts (round m) (round' m))
    (fuel : Nat) (m : Machine) : Cuts (loop round fuel m) (loop round' fuel m) := by
  induction fuel generalizing m with
  | zero => exact .refl _
  | succ fuel ih =>
    refine .bind (h m) fun r => ?_
    cases r with
    | next m => exact ih m
    | halt => exact .refl _

theorem cut_interpretWhere (ok : Condition) (c : Context) (fuel : Nat) (f : Frame) :
    Cuts (interpretWhere ok c fuel f) (interpret c fuel f) :=
  cut_loop (cut_stepWhere ok c f) fuel _

/-- Code in a frame with `d` levels of calls of bytecode below it. -/
def bytecode {α : Type} (E : EVM) (c : Context) (fuel d : Nat) (f : Frame) (code : Code α) : M α :=
  runCode (nested (E.running (interpret c fuel)) d) f code

/-- The same, where all instructions below meet the condition. -/
def bytecodeWhere {α : Type} (ok : Condition) (E : EVM) (c : Context) (fuel d : Nat) (f : Frame)
    (code : Code α) : M α :=
  runCode (nested (E.running (interpretWhere ok c fuel)) d) f code

/-- **A run in which all instructions meet the condition is a run.** -/
theorem run_bytecodeWhere {α : Type} {g : Growth} {ep : Bool} {ok : Condition} {E : EVM}
    {c : Context} {fuel d : Nat} {f : Frame} {code code' : Code α} (h : Cuts code code')
    {db : StateDB} {r : α × StateDB}
    (hr : (semantics g ep).run (bytecodeWhere ok E c fuel d f code) db = some r) :
    (semantics g ep).run (bytecode E c fuel d f code') db = some r := by
  have hn := cut_nested (E := E.running (interpret c fuel)) (cut_interpretWhere ok c fuel) d
  exact Semantics.run_cut (cut_runCode hn h) hr

end GoAoa.VM
