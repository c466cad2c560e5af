import Mathlib.Tactic.Common

/-!
# Outcomes of a call

A call returns a value, returns an error, or panics. `Outcome` keeps the three apart: an
error is a value the caller can inspect, a panic ends the computation.
-/

namespace GoAoa

inductive Outcome (ε α : Type) where
  | ok (a : α)
  | err (e : ε)
  | panic
  deriving DecidableEq, Repr

namespace Outcome

variable {ε α β : Type}

def ofExcept : Except ε α → Outcome ε α
  | .ok a => .ok a
  | .error e => .err e

def bind (x : Outcome ε α) (f : α → Outcome ε β) : Outcome ε β :=
  match x with
  | .ok a => f a
  | .err e => .err e
  | .panic => .panic

def fold {γ : Type} (x : Outcome ε α) (onOk : α → γ) (onErr : ε → γ) (onPanic : γ) : γ :=
  match x with
  | .ok a => onOk a
  | .err e => onErr e
  | .panic => onPanic

@[simp] theorem fold_ok {γ : Type} (a : α) (f : α → γ) (g : ε → γ) (c : γ) :
    (ok a).fold f g c = f a := rfl

@[simp] theorem fold_err {γ : Type} (e : ε) (f : α → γ) (g : ε → γ) (c : γ) :
    (err e).fold f g c = g e := rfl

@[simp] theorem fold_panic {γ : Type} (f : α → γ) (g : ε → γ) (c : γ) :
    (panic : Outcome ε α).fold f g c = c := rfl

@[simp] theorem ofExcept_eq_ok {x : Except ε α} {a : α} : ofExcept x = .ok a ↔ x = .ok a := by
  cases x <;> simp [ofExcept]

@[simp] theorem bind_eq_ok {x : Outcome ε α} {f : α → Outcome ε β} {b : β} :
    x.bind f = .ok b ↔ ∃ a, x = .ok a ∧ f a = .ok b := by
  cases x <;> simp [bind]

end Outcome

end GoAoa
