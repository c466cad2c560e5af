import GoAoa.VM.Evm

/-!
# One walk over calls

What is to be shown of the machine is put together along its functions, from transfers to nested
calls of every depth. `Walks` lists what that takes; a property of replies `Q` may depend on the gas
supplied, and has to allow for what the machine itself returns (`Bounded`): less gas, and errors of
its own. The walk compares two machines that differ in how they run code.
-/

namespace GoAoa.VM

open State Semantics

structure Bounded (Q : Nat → Reply → Prop) : Prop where
  reply : ∀ {ret gas gas' e}, gas' ≤ gas → e ≠ some .unfinished → Q gas ⟨ret, gas', e⟩
  less : ∀ {gas r gas'}, Q gas r → gas' ≤ r.gas → Q gas { r with gas := gas' }
  error : ∀ {gas r e}, Q gas r → e ≠ .unfinished → Q gas { r with err := some e }

theorem bounded_le : Bounded fun gas r => r.gas ≤ gas :=
  ⟨fun h _ => h, fun h h' => Nat.le_trans h' h, fun h _ => h⟩

theorem bounded_true : Bounded fun _ _ => True :=
  ⟨fun _ _ => trivial, fun _ _ => trivial, fun _ _ => trivial⟩

def EVM.running (E : EVM) (interp : Frame → Code Reply) : EVM := { E with interp := interp }

def moves : Op → Bool
  | .addBalance .. | .subBalance .. | .addAssetBalance .. | .subAssetBalance .. => true
  | _ => false

/-- `Φ p p' Q` can be shown of `p` and `p'`, which return values in `Q`, along the programs. -/
structure Walks (Φ : {α : Type} → M α → M α → (α → Prop) → Prop) (Q : Nat → Reply → Prop) : Prop
    extends Bounded Q where
  pure : ∀ {α : Type} {x : α} {P : α → Prop}, P x → Φ (pure x) (pure x) P
  fail : ∀ {α : Type} {P : α → Prop}, Φ .fail .fail P
  act : ∀ {o : Op}, moves o = false → Φ (act o) (act o) fun _ => True
  transfer : ∀ sender recipient asset amount, Φ (transfer sender recipient asset amount)
    (transfer sender recipient asset amount) fun _ => True
  bind : ∀ {α β : Type} {p p' : M α} {k k' : α → M β} {P : β → Prop}, Φ p p' (fun _ => True) →
    (∀ a, Φ (k a) (k' a) P) → Φ (p >>= k) (p' >>= k') P
  bindReply : ∀ {β : Type} {p p' : M Reply} {k k' : Reply → M β} {P : β → Prop} {gas : Nat},
    Φ p p' (Q gas) → (∀ r, Q gas r → Φ (k r) (k' r) P) → Φ (p >>= k) (p' >>= k') P
  within : ∀ {α : Type} {p p' : M (Bool × α)} {P : α → Prop}, Φ p p' (fun r => P r.2) →
    Φ (.within p) (.within p') P

/-- What the walk finds of the machines below. -/
structure Below (Φ : {α : Type} → M α → M α → (α → Prop) → Prop) (Q : Nat → Reply → Prop)
    (n n' : Nested) : Prop where
  call : ∀ kind f addr input gas value,
    Φ (n.call kind f addr input gas value) (n'.call kind f addr input gas value) (Q gas)
  create : ∀ f code gas value,
    Φ (n.create f code gas value) (n'.create f code gas value) fun r => Q gas r.2

section Walk

variable {Q : Nat → Reply → Prop} {n m : Nested} {E : EVM} {I : Frame → Code Reply}
  {Φ : {α : Type} → M α → M α → (α → Prop) → Prop}

theorem bounded_finish (hQ : Bounded Q) {gas : Nat} {r : Reply} (h : Q gas r) :
    Q gas (finish r).2 := by
  unfold finish
  split
  · exact h
  · dsimp only
    split
    · exact h
    · exact hQ.less h (Nat.zero_le _)

theorem Bounded.own (hQ : Bounded Q) {gas : Nat} {e : Option VMErr} (he : e ≠ some .unfinished) :
    Q gas ⟨[], gas, e⟩ :=
  hQ.reply (Nat.le_refl _) he

namespace Walks

variable (W : Walks Φ Q)
  (hrun : ∀ f, Φ (run (E.running I) n f) (run E m f) (Q f.gas))

include W

theorem deposit (a : Address) (abiLen : Nat) {gas : Nat} {r : Reply} (h : Q gas r) :
    Φ (deposit a abiLen r) (deposit a abiLen r) fun x => Q gas x.2 := by
  have hspent : Q gas { r with gas := if r.err = some .executionReverted then r.gas else 0 } := by
    refine W.less h ?_
    split
    · exact Nat.le_refl _
    · exact Nat.zero_le _
  unfold VM.deposit
  dsimp only
  split
  · split
    · exact W.bind (W.act rfl) fun _ => W.pure (W.less h (by omega))
    · exact W.pure (W.error h (by decide))
  · split
    · refine W.pure ?_
      cases herr : r.err with
      | none =>
        rw [herr] at hspent
        exact W.error hspent (by decide)
      | some e =>
        have heq : r = { r with err := some e } := by rw [← herr]
        rw [heq] at hspent
        exact hspent
    · exact W.pure h

include hrun

theorem invoke (f : Frame) : Φ (invoke (E.running I) n f) (invoke E m f) fun r => Q f.gas r.2 :=
  W.bind (W.act rfl) fun _ => W.bindReply (hrun _) fun _ h => W.pure (bounded_finish W.toBounded h)

theorem callBody (c : CallArgs) :
    Φ (callBody (E.running I) n c) (callBody E m c) fun r => Q c.gas r.2 := by
  have hinvoke := W.invoke hrun c.frame
  have hd : (E.running I).delegateList = E.delegateList := rfl
  have hm : (E.running I).maxElectDelegate = E.maxElectDelegate := rfl
  unfold VM.callBody
  rw [hd, hm]
  cases c.action
  case addVote | subVote =>
    dsimp only
    split
    · exact W.pure (W.own (by decide))
    · refine W.bind (W.act rfl) fun ok => ?_
      cases ok
      · exact W.pure (W.own (by decide))
      · exact hinvoke
  case register =>
    cases E.delegateList with
    | none => exact W.fail
    | some =>
      dsimp only
      split
      · exact W.pure (W.own (by decide))
      · exact hinvoke
  all_goals exact W.bind (W.transfer _ _ _ _) fun _ => hinvoke

theorem call (c : CallArgs) : Φ (call (E.running I) n c) (call E m c) (Q c.gas) := by
  have hp : (E.running I).precompiled = E.precompiled := rfl
  unfold VM.call
  rw [hp]
  refine W.bind (W.act rfl) fun v => ?_
  split
  · refine W.within (W.bind (W.act rfl) fun v => ?_)
    split
    · exact W.callBody hrun c
    · split
      · exact W.pure (W.own (by decide))
      · exact W.bind (W.act rfl) fun _ => W.callBody hrun c
  · exact W.pure (W.own (by decide))

theorem create (caller : Address) (code : Bytes) (gas : Nat) (asset : Option Address)
    (value abiLen : Nat) (readOnly : Bool) :
    Φ (create (E.running I) n caller code gas asset value abiLen readOnly)
      (create E m caller code gas asset value abiLen readOnly) fun r => Q gas r.2 := by
  have ha : (E.running I).createAddress = E.createAddress := rfl
  unfold VM.create
  rw [ha]
  refine W.bind (W.act rfl) fun v => ?_
  split
  · refine W.bind (W.act rfl) fun _ => W.bind (W.act rfl) fun v => ?_
    split
    · refine W.bindReply (W.within ?_) fun r h => W.pure h
      refine W.bind (W.act rfl) fun _ => W.bind (W.transfer _ _ _ _) fun _ => ?_
      exact W.bindReply (hrun _) fun r h => W.deposit _ _ h
    · exact W.pure (W.reply (Nat.zero_le _) (by decide))
  · exact W.pure (W.own (by decide))

omit hrun

/-- **The walk at every depth**: what holds of all code that runs with such machines below it holds
of the machines. -/
theorem nested (hrun : ∀ {n m}, Below Φ Q n m → ∀ f,
      Φ (run (E.running I) n f) (run E m f) (Q f.gas)) (d : Nat) :
    Below Φ Q (nested (E.running I) d) (nested E d) := by
  induction d with
  | zero =>
    exact ⟨fun _ _ _ _ _ _ => W.pure (W.own (by decide)), fun _ _ _ _ => W.pure (W.own (by decide))⟩
  | succ d ih =>
    have hrun := hrun ih
    refine ⟨fun kind f addr input gas value => ?_, fun f code gas value => W.create hrun _ _ _ _ _ _ _⟩
    cases kind with
    | call => exact W.call hrun _
    | callCode =>
      refine W.bind (W.act rfl) fun v => ?_
      split
      · exact W.within (W.invoke hrun _)
      · exact W.pure (W.own (by decide))
    | delegateCall | staticCall => exact W.within (W.invoke hrun _)

end Walks

end Walk

/-! ## What calls return -/

/-- What code can rely on if all frames have `Q`. -/
def Answers (Q : Nat → Reply → Prop) : (e : Effect) → Effect.Ans e → Prop
  | .call _ _ _ gas _, r => Q gas r
  | .create _ gas _, r => Q gas r.2
  | _, _ => True

variable {g : Growth} {ep : Bool} {E : EVM} {n : Nested} {Q : Nat → Reply → Prop}

theorem walks_returns (g : Growth) (ep : Bool) (hQ : Bounded Q) :
    Walks (fun p _ P => (semantics g ep).Returns p P) Q where
  toBounded := hQ
  pure := returns_pure
  fail := returns_fail
  act _ := returns_any _
  transfer _ _ _ _ := returns_any _
  bind hp hk := returns_bind hp fun a _ => hk a
  bindReply := returns_bind
  within := returns_within

/-- All code that runs with `n` below it returns with `Q`. -/
def Frames (g : Growth) (ep : Bool) (E : EVM) (n : Nested) (Q : Nat → Reply → Prop) : Prop :=
  ∀ f, (semantics g ep).Returns (runCode n f (E.interp f)) (Q f.gas)

theorem bounded_run (hQ : Bounded Q) (hr : Frames g ep E n Q) (f : Frame) :
    (semantics g ep).Returns (run E n f) (Q f.gas) := by
  unfold run
  split
  · refine returns_pure ?_
    unfold runPrecompiled
    split
    · exact hQ.own (by decide)
    · split <;> exact hQ.reply (by omega) (by decide)
  · split
    · exact returns_pure (hQ.own (by decide))
    · exact hr f

theorem bounded_call (hQ : Bounded Q) (hr : Frames g ep E n Q) (c : CallArgs) :
    (semantics g ep).Returns (call E n c) (Q c.gas) :=
  (walks_returns g ep hQ).call (m := n) (bounded_run hQ hr) c

theorem bounded_create (hQ : Bounded Q) (hr : Frames g ep E n Q) (caller : Address) (code : Bytes)
    (gas : Nat) (asset : Option Address) (value abiLen : Nat) (readOnly : Bool) :
    (semantics g ep).Returns (create E n caller code gas asset value abiLen readOnly)
      fun r => Q gas r.2 :=
  (walks_returns g ep hQ).create (m := n) (bounded_run hQ hr) _ _ _ _ _ _ _

/-- **If all code returns with `Q` as long as the code it calls does, then all calls do**, at every
depth. -/
theorem answers_nested (hQ : Bounded Q) (d : Nat)
    (hcode : ∀ f, (E.interp f).Ends (fun _ => True) (Answers Q) (Q f.gas)) (f : Frame) (e : Effect) :
    (semantics g ep).Returns (runEffect (nested E d) f e) (Answers Q e) := by
  have answers : ∀ {n n'}, Below (fun p _ P => (semantics g ep).Returns p P) Q n n' → ∀ f e,
      (semantics g ep).Returns (runEffect n f e) (Answers Q e) := by
    intro n n' hn f e
    cases e
    case call => exact hn.call _ _ _ _ _ _
    case create => exact hn.create _ _ _ _
    all_goals exact returns_any _
  refine answers ((walks_returns g ep hQ).nested (E := E) (fun hn => ?_) d) f e
  exact bounded_run hQ fun f => returns_handle (fun e _ => answers hn f e) (hcode f)

/-- No code leaves more gas than it is given, with any number of calls below it. -/
def EVM.Thrifty (E : EVM) (g : Growth) (ep : Bool) : Prop :=
  ∀ d, Frames g ep E (nested E d) fun gas r => r.gas ≤ gas

end GoAoa.VM
