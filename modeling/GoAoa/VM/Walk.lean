import GoAoa.VM.Discipline

/-!
# The machine keeps to the guard

`Guard V W` is a discipline over the states in which the accounts in `V` are protected, so the
machine keeps to it at every depth.
-/

namespace GoAoa.VM

open State State.StateDB Semantics

variable {V : Address → Prop} {W : OpPred} {db db' : StateDB}
  {g : Growth} {ep : Bool} {E : EVM} {n : Nested} {f : Frame} {a : Address}

theorem discipline_guard (g : Growth) (ep : Bool) (createAddress : Address → Nat → Address)
    (V : Address → Prop) (W : OpPred) :
    Discipline g ep createAddress V (fun _ => True) (Guard V W) (Protected V) where
  steps h hs := (h.steps hs).1
  code h hV := (h.nonce_code hV).2
  present {db a} h hV := by
    obtain ⟨d, s, heq, -⟩ := h.shown a hV
    rw [view_exist, heq]
    rfl
  vacant h hnonce _ hV := by
    have := (h.nonce_code hV).1
    omega
  idle {_ o} ho := by
    cases o <;> trivial
  createAccount hn hc hV := ⟨hn, hc, hV⟩
  addBalance hx := .inl hx
  bequest {_ _ b} _ := .inr ⟨b, rfl⟩
  subBalance _ hx hle := ⟨hx, hle⟩
  addAssetBalance hx := hx
  subAssetBalance hx := hx
  setNonce hV h := absurd h hV
  setCode hV := hV
  suicide hV := hV

/-- A program keeps to the guard from every protected state. -/
def Keeping (g : Growth) (ep : Bool) (V : Address → Prop) (W : OpPred)
    {α : Type} (p : M α) : Prop :=
  ∀ db, Protected V db → (semantics g ep).Does (Guard V W) p db fun _ _ => True

structure Nested.Keeps (n : Nested) (g : Growth) (ep : Bool) (V : Address → Prop)
    (W : OpPred) : Prop where
  call : ∀ kind f addr input gas value, ¬ V f.self →
    Keeping g ep V W (n.call kind f addr input gas value)
  create : ∀ f code gas value, ¬ V f.self → Keeping g ep V W (n.create f code gas value)

theorem Nested.Keeps.abides (hn : n.Keeps g ep V W) : n.Abides g ep V (Guard V W) (Protected V) :=
  ⟨hn.call, hn.create⟩

theorem steps_transfer {sender recipient : Address} {asset : Option Address} {amount : Nat}
    {x : Unit} (h : Protected V db)
    (hpay : asset = none → (amount : Int) ≤ (view db).getBalance sender)
    (hrun : (semantics g ep).run (transfer sender recipient asset amount) db = some (x, db')) :
    (semantics g ep).Steps (Guard V W) db db' :=
  ((discipline_guard g ep (fun a _ => a) V W).transfer h (fun _ => trivial) hpay).steps hrun

theorem keeping_run (hn : n.Keeps g ep V W) (hself : f.code ≠ [] → ¬ V f.self) :
    Keeping g ep V W (run E n f) :=
  (discipline_guard g ep E.createAddress V W).run hn.abides hself

theorem keeping_invoke (hn : n.Keeps g ep V W) (hself : ¬ V f.self ∨ f.codeAddr = f.self) :
    Keeping g ep V W (invoke E n f) :=
  (discipline_guard g ep E.createAddress V W).invoke hn.abides hself

theorem keeps_nested (E : EVM) (g : Growth) (ep : Bool) (V : Address → Prop)
    (W : OpPred) (d : Nat) : (nested E d).Keeps g ep V W := by
  have hn := (discipline_guard g ep E.createAddress V W).nested d
  exact ⟨hn.call, hn.create⟩

end GoAoa.VM
