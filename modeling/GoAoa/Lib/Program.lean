import Mathlib.Data.Option.Basic
import Mathlib.Tactic.Common

/-!
# Programs over a state with snapshots

A program calls operations of an interface and reads their answers. It may open a scope: the
state is remembered, the body runs, and the body says whether its effects are taken back.
`Semantics` gives an interface its meaning, with `none` for a panic.

`Keeps.steps` carries an invariant of the operations to all programs, where `Steps` lists what a
program has done under a guard on its calls (`Meets`).

`handle` gives the calls of a program the meaning of programs over another interface. What is
known of the answers then carries over to what the program returns (`returns_handle`).

`Cut Q p q` says that `p` is `q` with some of its branches replaced by failure, and that these
branches return only values in `Q`. A run of `p` that ends is the run of `q` that does not take
these branches (`run_cut`), and a run of `q` that returns no value in `Q` does not take them
(`run_of_cut`).
-/

namespace GoAoa

open Option

inductive Prog (Op : Type) (Ans : Op → Type) : Type → Type 1
  | ret {α : Type} (a : α) : Prog Op Ans α
  | fail {α : Type} : Prog Op Ans α
  | op {α : Type} (o : Op) (k : Ans o → Prog Op Ans α) : Prog Op Ans α
  | scope {α β : Type} (body : Prog Op Ans (Bool × β)) (k : β → Prog Op Ans α) : Prog Op Ans α

variable {Op α β : Type} {Ans : Op → Type}

variable {Q : α → Prop}

namespace Prog

variable {p p' : Prog Op Ans α} {f f' : α → Prog Op Ans β} {Op' : Type} {Ans' : Op' → Type}

protected def bind : {α : Type} → Prog Op Ans α → (α → Prog Op Ans β) → Prog Op Ans β
  | _, .ret a, f => f a
  | _, .fail, _ => .fail
  | _, .op o k, f => .op o fun x => (k x).bind f
  | _, .scope body k, f => .scope body fun b => (k b).bind f

instance : Monad (Prog Op Ans) where
  pure := .ret
  bind := Prog.bind

theorem bind_bind {γ : Type} (p : Prog Op Ans α) (f : α → Prog Op Ans β)
    (h : β → Prog Op Ans γ) : p >>= f >>= h = p >>= fun a => f a >>= h := by
  show (p.bind f).bind h = p.bind fun a => (f a).bind h
  induction p with
  | ret => rfl
  | fail => rfl
  | op o k ih =>
    simp only [Prog.bind]
    congr 1; funext x; exact ih x f
  | scope body k _ ih =>
    simp only [Prog.bind]
    congr 1; funext b; exact ih b f

def call (o : Op) : Prog Op Ans (Ans o) := .op o .ret

/-- Run `body` in a scope; its effects are taken back if it answers `true`. -/
def within (body : Prog Op Ans (Bool × β)) : Prog Op Ans β := .scope body .ret

/-- Carry out each call as a program of another interface. -/
def handle {Op' : Type} {Ans' : Op' → Type} (h : (o : Op) → Prog Op' Ans' (Ans o)) :
    {α : Type} → Prog Op Ans α → Prog Op' Ans' α
  | _, .ret a => .ret a
  | _, .fail => .fail
  | _, .op o k => h o >>= fun x => (k x).handle h
  | _, .scope body k => .scope (body.handle h) fun b => (k b).handle h

/-- As long as the answers of the calls have `R`, the program makes only calls in `P`, and what it
returns has `Q`. -/
def Ends (P : Op → Prop) (R : (o : Op) → Ans o → Prop) :
    {α : Type} → Prog Op Ans α → (α → Prop) → Prop
  | _, .ret a, Q => Q a
  | _, .fail, _ => True
  | _, .op o k, Q => P o ∧ ∀ x, R o x → (k x).Ends P R Q
  | _, .scope body k, Q => body.Ends P R fun r => (k r.2).Ends P R Q

variable {P : Op → Prop}

section Ends

variable {P' : Op → Prop} {R R' : (o : Op) → Ans o → Prop}

theorem ends_pure {a : α} (h : Q a) : Ends P R (pure a : Prog Op Ans α) Q := h

theorem ends_fail : Ends P R (.fail : Prog Op Ans α) Q := trivial

theorem Ends.mono {Q' : α → Prop} (hp : p.Ends P R Q) (hP : ∀ o, P o → P' o)
    (hR : ∀ o x, P o → R' o x → R o x) (h : ∀ a, Q a → Q' a) : p.Ends P' R' Q' := by
  induction p with
  | ret a => exact h a hp
  | fail => trivial
  | op o k ih => exact ⟨hP o hp.1, fun x hx => ih x (hp.2 x (hR o x hp.1 hx)) h⟩
  | scope body k ihb ihk => exact ihb hp fun r hr => ihk r.2 hr h

theorem Ends.imp {Q' : α → Prop} (hp : p.Ends P R Q) (h : ∀ a, Q a → Q' a) : p.Ends P R Q' :=
  hp.mono (fun _ h => h) (fun _ _ _ h => h) h

theorem ends_bind {Q' : β → Prop}
    (hp : p.Ends P R Q) (hf : ∀ a, Q a → (f a).Ends P R Q') : (p >>= f).Ends P R Q' := by
  induction p with
  | ret a => exact hf a hp
  | fail => trivial
  | op o k ih => exact ⟨hp.1, fun x hx => ih x (hp.2 x hx) hf⟩
  | scope body k _ ihk =>
    have hp : body.Ends P R fun r => (k r.2).Ends P R Q := hp
    exact hp.imp fun r hr => ihk r.2 hr hf

end Ends

/-- Whatever the calls answer, the program does not fail, and what it returns has `Q`. -/
def Completes : {α : Type} → Prog Op Ans α → (α → Prop) → Prop
  | _, .ret a, Q => Q a
  | _, .fail, _ => False
  | _, .op _ k, Q => ∀ x, (k x).Completes Q
  | _, .scope body k, Q => body.Completes fun r => (k r.2).Completes Q

theorem Completes.imp {Q' : α → Prop} (hp : p.Completes Q)
    (h : ∀ a, Q a → Q' a) : p.Completes Q' := by
  induction p with
  | ret a => exact h a hp
  | fail => exact hp
  | op o k ih => exact fun x => ih x (hp x) h
  | scope body k ihb ihk => exact ihb hp fun r hr => ihk r.2 hr h

/-- The program that fails at an answer that is not `ok`. -/
def assume (ok : (o : Op) → Ans o → Bool) : {α : Type} → Prog Op Ans α → Prog Op Ans α
  | _, .ret a => .ret a
  | _, .fail => .fail
  | _, .op o k => .op o fun x => if ok o x then (k x).assume ok else .fail
  | _, .scope body k => .scope (body.assume ok) fun b => (k b).assume ok

section Assume

variable {ok : (o : Op) → Ans o → Bool}

theorem assume_bind (p : Prog Op Ans α) (f : α → Prog Op Ans β) :
    (p >>= f).assume ok = p.assume ok >>= fun a => (f a).assume ok := by
  show (p.bind f).assume ok = (p.assume ok).bind fun a => (f a).assume ok
  induction p with
  | ret => rfl
  | fail => rfl
  | op o k ih =>
    simp only [Prog.bind, assume]
    congr 1; funext x
    split
    · exact ih x f
    · rfl
  | scope body k _ ih =>
    simp only [Prog.bind, assume]
    congr 1; funext b; exact ih b f

/-- What is known of a program as long as the answers are `ok`. -/
theorem ends_assume (hp : p.Ends P (fun o x => ok o x = true) Q) :
    (p.assume ok).Ends P (fun _ _ => True) Q := by
  induction p with
  | ret => exact hp
  | fail => trivial
  | op o k ih =>
    refine ⟨hp.1, fun x _ => ?_⟩
    dsimp only
    split
    · exact ih x (hp.2 x ‹_›)
    · trivial
  | scope body k ihb ihk =>
    exact (ihb hp).imp fun r hr => ihk r.2 hr

end Assume

/-- Whatever the calls answer, what the program returns has `Q`. -/
abbrev Yields (p : Prog Op Ans α) (Q : α → Prop) : Prop := p.Ends (fun _ => True) (fun _ _ => True) Q

theorem Ends.of_forall {R : (o : Op) → Ans o → Prop}
    (hP : ∀ o, P o) (hQ : ∀ a, Q a) : p.Ends P R Q := by
  induction p with
  | ret a => exact hQ a
  | fail => trivial
  | op o k ih => exact ⟨hP o, fun x _ => ih x hQ⟩
  | scope body k ihb ihk => exact ihb fun r => ihk r.2 hQ

/-- The first program is the second with some branches replaced by failure. The branches that are
cut off return only values in `Q`. -/
inductive Cut : {α : Type} → (α → Prop) → Prog Op Ans α → Prog Op Ans α → Prop
  | fail {α : Type} {Q : α → Prop} {q : Prog Op Ans α} (h : q.Yields Q) : Cut Q .fail q
  | ret {α : Type} {Q : α → Prop} (a : α) : Cut Q (.ret a) (.ret a)
  | op {α : Type} {Q : α → Prop} (o : Op) {k k' : Ans o → Prog Op Ans α}
      (hk : ∀ x, Cut Q (k x) (k' x)) : Cut Q (.op o k) (.op o k')
  | scope {α β : Type} {Q : α → Prop} {body body' : Prog Op Ans (Bool × β)}
      {k k' : β → Prog Op Ans α} (B : β → Prop) (hB : body'.Yields fun r => B r.2)
      (hb : Cut (fun r => (k' r.2).Yields Q) body body') (hk : ∀ b, B b → Cut Q (k b) (k' b)) :
      Cut Q (.scope body k) (.scope body' k')

namespace Cut

variable {Q' : α → Prop}

theorem scope_all {body body' : Prog Op Ans (Bool × β)} {k k' : β → Prog Op Ans α}
    (hb : Cut (fun r => (k' r.2).Yields Q) body body') (hk : ∀ b, Cut Q (k b) (k' b)) :
    Cut Q (.scope body k) (.scope body' k') :=
  .scope (fun _ => True) (.of_forall (fun _ => trivial) fun _ => trivial) hb fun b _ => hk b

theorem refl (p : Prog Op Ans α) : Cut Q p p := by
  induction p with
  | ret a => exact .ret a
  | fail => exact .fail ends_fail
  | op o k ih => exact .op o fun x => ih x
  | scope body k ihb ihk => exact .scope_all ihb fun b => ihk b

/-- In a program whose answers are all `ok` nothing is cut off. -/
theorem assume_of_ends {ok : (o : Op) → Ans o → Bool} {R : α → Prop}
    (hp : p.Ends (fun o => ∀ x, ok o x = true) (fun _ _ => True) R) : Cut Q (p.assume ok) p := by
  induction p with
  | ret a => exact .ret a
  | fail => exact .fail ends_fail
  | op o k ih =>
    refine .op o fun x => ?_
    rw [if_pos (hp.1 x)]
    exact ih x (hp.2 x trivial)
  | scope body k ihb ihk =>
    have hp : body.Ends (fun o => ∀ x, ok o x = true) (fun _ _ => True)
      fun r => (k r.2).Ends (fun o => ∀ x, ok o x = true) (fun _ _ => True) R := hp
    refine .scope (fun b => (k b).Ends _ (fun _ _ => True) R) ?_ (ihb hp) fun b hb => ihk b hb
    exact hp.mono (fun _ _ => trivial) (fun _ _ _ h => h) fun _ h => h

theorem mono (h : Cut Q p p') (hQ : ∀ a, Q a → Q' a) : Cut Q' p p' := by
  induction h with
  | fail h => exact .fail (h.imp hQ)
  | ret a => exact .ret a
  | op o _ ih => exact .op o fun x => ih x hQ
  | scope B hB _ _ ihb ihk => exact .scope B hB (ihb fun r hr => hr.imp hQ) fun b hb => ihk b hb hQ

/-- What follows a branch that is cut off must return only values in `Q'`. -/
theorem bind {Q' : β → Prop} (hp : Cut Q p p')
    (hf : ∀ a, Cut Q' (f a) (f' a)) (hQ : ∀ a, Q a → (f' a).Yields Q') :
    Cut Q' (p >>= f) (p' >>= f') := by
  induction hp with
  | fail h => exact .fail (ends_bind h hQ)
  | ret a => exact hf a
  | op o _ ih => exact .op o fun x => ih x hf hQ
  | scope B hB hb _ _ ihk =>
    exact .scope B hB (hb.mono fun r hr => ends_bind hr hQ) fun b hb => ihk b hb hf hQ

theorem within {body body' : Prog Op Ans (Bool × α)} (h : Cut (fun r => Q r.2) body body') :
    Cut Q (.within body) (.within body') :=
  .scope_all h .ret

theorem yields_handle (h : (o : Op) → Prog Op' Ans' (Ans o))
    (hp : p.Yields Q) : (p.handle h).Yields Q := by
  induction p with
  | ret => exact hp
  | fail => trivial
  | op o k ih =>
    exact ends_bind (.of_forall (fun _ => trivial) fun _ => trivial)
      fun x _ => ih x (hp.2 x trivial)
  | scope body k ihb ihk =>
    exact (ihb hp).imp fun r hr => ihk r.2 hr

/-- The answers themselves may be cut off only if nothing is asked of the result. -/
theorem handle {h h' : (o : Op) → Prog Op' Ans' (Ans o)}
    (hp : Cut Q p p')
    (hh : ∀ o, Cut (fun _ => ∀ a, Q a) (h o) (h' o)) : Cut Q (p.handle h) (p'.handle h') := by
  induction hp with
  | fail hq => exact .fail (yields_handle h' hq)
  | ret a => exact .ret a
  | op o _ ih =>
    exact (hh o).bind (fun x => ih x hh) fun x hall => .of_forall (fun _ => trivial) hall
  | scope B hB _ _ ihb ihk =>
    refine .scope B (yields_handle h' hB)
      ((ihb fun o => (hh o).mono fun _ hall r => ?_).mono fun r hr => ?_) fun b hb => ihk b hb hh
    · exact .of_forall (fun _ => trivial) hall
    · exact yields_handle h' hr

end Cut

/-- The first program is the second with some branches replaced by failure. -/
def Cuts (p q : Prog Op Ans α) : Prop := Cut (fun _ => True) p q

namespace Cuts

theorem fail (q : Prog Op Ans α) : Cuts .fail q :=
  Cut.fail (.of_forall (fun _ => trivial) fun _ => trivial)

theorem refl (p : Prog Op Ans α) : Cuts p p := Cut.refl p

/-- A program that fails at some answers is cut off there. -/
theorem assume (ok : (o : Op) → Ans o → Bool) (p : Prog Op Ans α) : Cuts (p.assume ok) p := by
  induction p with
  | ret a => exact .ret a
  | fail => exact .fail _
  | op o k ih =>
    refine .op o fun x => ?_
    split
    · exact ih x
    · exact .fail (.of_forall (fun _ => trivial) fun _ => trivial)
  | scope body k ihb ihk =>
    refine .scope_all ?_ ihk
    exact Cut.mono ihb fun _ _ => .of_forall (fun _ => trivial) fun _ => trivial

theorem bind (hp : Cuts p p')
    (hf : ∀ a, Cuts (f a) (f' a)) : Cuts (p >>= f) (p' >>= f') :=
  Cut.bind hp hf fun _ _ => .of_forall (fun _ => trivial) fun _ => trivial

theorem within {body body' : Prog Op Ans (Bool × β)} (h : Cuts body body') :
    Cuts (.within body) (.within body') :=
  Cut.within h

theorem handle {h h' : (o : Op) → Prog Op' Ans' (Ans o)}
    (hh : ∀ o, Cuts (h o) (h' o)) (hp : Cuts p p') :
    Cuts (p.handle h) (p'.handle h') :=
  Cut.handle hp fun o => (hh o).mono fun _ _ _ => trivial

end Cuts

end Prog

/-- The meaning of an interface: its operations, and snapshots with identifiers in `ι`. -/
structure Semantics (Op : Type) (Ans : Op → Type) (σ ι : Type) where
  exec : (o : Op) → σ → Option (Ans o × σ)
  snapshot : σ → ι × σ
  revert : ι → σ → Option σ

namespace Semantics

variable {σ ι : Type} {S : Semantics Op Ans σ ι} {p p' : Prog Op Ans α} {f : α → Prog Op Ans β}
  {Op' : Type} {Ans' : Op' → Type}
  {s t u w : σ} {G : Op → σ → Prop}

def leave (S : Semantics Op Ans σ ι) (id : ι) (undo : Bool) (s : σ) : Option σ :=
  if undo then S.revert id s else some s

def run (S : Semantics Op Ans σ ι) : {α : Type} → Prog Op Ans α → σ → Option (α × σ)
  | _, .ret a, s => some (a, s)
  | _, .fail, _ => none
  | _, .op o k, s => (S.exec o s).bind fun r => S.run (k r.1) r.2
  | _, .scope body k, s =>
    (S.run body (S.snapshot s).2).bind fun r =>
      (S.leave (S.snapshot s).1 r.1.1 r.2).bind fun t => S.run (k r.1.2) t

@[simp] theorem run_call (o : Op) : S.run (Prog.call o) s = S.exec o s := by
  show (S.exec o s).bind (fun r => some (r.1, r.2)) = _
  cases S.exec o s <;> rfl

@[simp] theorem run_bind (p : Prog Op Ans α) (f : α → Prog Op Ans β) :
    S.run (p >>= f) s = (S.run p s).bind fun r => S.run (f r.1) r.2 := by
  show S.run (p.bind f) s = _
  induction p generalizing s with
  | ret => rfl
  | fail => rfl
  | op o k ih =>
    simp only [Prog.bind, run, bind_assoc]
    congr 1; funext r; exact ih r.1 f
  | scope body k _ ih =>
    simp only [Prog.bind, run, bind_assoc]
    congr 1; funext r; congr 1; funext t; exact ih r.1.2 f

theorem run_within (body : Prog Op Ans (Bool × β)) :
    S.run (Prog.within body) s = (S.run body (S.snapshot s).2).bind fun r =>
      (S.leave (S.snapshot s).1 r.1.1 r.2).map fun t => (r.1.2, t) := by
  show (S.run body (S.snapshot s).2).bind _ = _
  congr 1; funext r
  cases S.leave (S.snapshot s).1 r.1.1 r.2 <;> rfl

theorem of_run_bind {b : β}
    (h : S.run (p >>= f) s = some (b, u)) :
    ∃ a t, S.run p s = some (a, t) ∧ S.run (f a) t = some (b, u) := by
  rw [run_bind] at h
  obtain ⟨⟨a, t⟩, hp, hf⟩ := bind_eq_some_iff.1 h
  exact ⟨a, t, hp, hf⟩

theorem of_run_within {body : Prog Op Ans (Bool × β)} {b : β}
    (h : S.run (.within body) s = some (b, u)) :
    ∃ undo t, S.run body (S.snapshot s).2 = some ((undo, b), t) ∧
      S.leave (S.snapshot s).1 undo t = some u := by
  rw [run_within] at h
  obtain ⟨⟨⟨undo, _⟩, t⟩, hb, h⟩ := bind_eq_some_iff.1 h
  obtain ⟨_, hl, heq⟩ := map_eq_some_iff.1 h
  cases heq
  exact ⟨undo, t, hb, hl⟩

theorem run_yields (hp : p.Yields Q) {a : α}
    (hr : S.run p s = some (a, t)) : Q a := by
  induction p generalizing s t with
  | ret =>
    cases hr
    exact hp
  | fail => cases hr
  | op o k ih =>
    obtain ⟨x, -, hr⟩ := bind_eq_some_iff.1 hr
    exact ih x.1 (hp.2 x.1 trivial) hr
  | scope body k ihb ihk =>
    obtain ⟨x, hx, hr⟩ := bind_eq_some_iff.1 hr
    obtain ⟨u, -, hr⟩ := bind_eq_some_iff.1 hr
    exact ihk x.1.2 (ihb hp hx) hr

/-- **A run of a program with branches cut off is a run of the program.** -/
theorem run_cut (h : Prog.Cut Q p p') {r : α × σ}
    (hr : S.run p s = some r) : S.run p' s = some r := by
  induction h generalizing s with
  | fail => cases hr
  | ret => exact hr
  | op o _ ih =>
    obtain ⟨x, hx, hr⟩ := bind_eq_some_iff.1 hr
    exact bind_eq_some_iff.2 ⟨x, hx, ih x.1 hr⟩
  | scope B hB _ _ ihb ihk =>
    obtain ⟨x, hx, hr⟩ := bind_eq_some_iff.1 hr
    obtain ⟨t, ht, hr⟩ := bind_eq_some_iff.1 hr
    have hk := ihk x.1.2 (run_yields hB (ihb hx)) hr
    exact bind_eq_some_iff.2 ⟨x, ihb hx, bind_eq_some_iff.2 ⟨t, ht, hk⟩⟩

/-- **A run that does not return a value in `Q` does not take the branches cut off.** -/
theorem run_of_cut (h : Prog.Cut Q p p') {a : α}
    (hr : S.run p' s = some (a, t)) (hQ : ¬ Q a) : S.run p s = some (a, t) := by
  induction h generalizing s t with
  | fail hq => exact absurd (run_yields hq hr) hQ
  | ret => exact hr
  | op o _ ih =>
    obtain ⟨x, hx, hr⟩ := bind_eq_some_iff.1 hr
    exact bind_eq_some_iff.2 ⟨x, hx, ih x.1 hr hQ⟩
  | scope B hB _ _ ihb ihk =>
    obtain ⟨x, hx, hr⟩ := bind_eq_some_iff.1 hr
    obtain ⟨u, hu, hr⟩ := bind_eq_some_iff.1 hr
    have hb := ihb hx fun hy => hQ (run_yields hy hr)
    have hk := ihk x.1.2 (run_yields hB hx) hr hQ
    exact bind_eq_some_iff.2 ⟨x, hb, bind_eq_some_iff.2 ⟨u, hu, hk⟩⟩

/-! ## What a program returns -/

/-- Whatever the state, what `p` returns has `Q`. -/
def Returns (S : Semantics Op Ans σ ι) (p : Prog Op Ans α) (Q : α → Prop) : Prop :=
  ∀ s a t, S.run p s = some (a, t) → Q a

theorem returns_pure {a : α} (h : Q a) : S.Returns (pure a) Q := by
  intro s b t hr
  cases hr
  exact h

theorem returns_fail : S.Returns (.fail : Prog Op Ans α) Q := by
  intro s b t hr
  cases hr

theorem returns_any (p : Prog Op Ans α) : S.Returns p fun _ => True := fun _ _ _ _ => trivial

theorem returns_bind {Q : β → Prop} {R : α → Prop}
    (hp : S.Returns p R) (hf : ∀ a, R a → S.Returns (f a) Q) : S.Returns (p >>= f) Q := by
  intro s b u hr
  obtain ⟨a, t, hp', hf'⟩ := of_run_bind hr
  exact hf a (hp s a t hp') t b u hf'

theorem returns_within {body : Prog Op Ans (Bool × α)} (hb : S.Returns body fun r => Q r.2) :
    S.Returns (.within body) Q := by
  intro s a u hr
  obtain ⟨undo, t, hb', -⟩ := of_run_within hr
  exact hb _ _ t hb'

/-- **What is known of the answers of the calls carries over.** -/
theorem returns_handle {h : (o : Op') → Prog Op Ans (Ans' o)}
    {P : Op' → Prop} {R : (o : Op') → Ans' o → Prop} (hh : ∀ o, P o → S.Returns (h o) (R o))
    {p : Prog Op' Ans' α} (hp : p.Ends P R Q) : S.Returns (p.handle h) Q := by
  induction p with
  | ret => exact returns_pure hp
  | fail => exact returns_fail
  | op o k ih => exact returns_bind (hh o hp.1) fun x hx => ih x (hp.2 x hx)
  | scope body k ihb ihk =>
    refine returns_bind (p := .within (body.handle h)) (R := fun b => (k b).Ends P R Q)
      (returns_within (ihb hp)) fun b hb => ?_
    exact ihk b hb

/-! ## What a program does -/

/-- The states reached by calls that meet the guard `G`, and by scopes of such calls. -/
inductive Steps (S : Semantics Op Ans σ ι) (G : Op → σ → Prop) : σ → σ → Prop
  | refl (s : σ) : Steps S G s s
  | exec {s t u : σ} {o : Op} {x : Ans o} :
      Steps S G s t → G o t → S.exec o t = some (x, u) → Steps S G s u
  | keep {s t u : σ} : Steps S G s t → Steps S G (S.snapshot t).2 u → Steps S G s u
  | revert {s t u w : σ} :
      Steps S G s t → Steps S G (S.snapshot t).2 u → S.revert (S.snapshot t).1 u = some w →
        Steps S G s w

theorem Steps.trans (hst : S.Steps G s t) (htu : S.Steps G t u) : S.Steps G s u := by
  induction htu with
  | refl => exact hst
  | exec _ hg hx ih => exact .exec (ih hst) hg hx
  | keep _ hb ih => exact .keep (ih hst) hb
  | revert _ hb hr ih => exact .revert (ih hst) hb hr

theorem Steps.mono {G' : Op → σ → Prop} (h : S.Steps G s t) (himp : ∀ o s, G o s → G' o s) :
    S.Steps G' s t := by
  induction h with
  | refl => exact .refl _
  | exec _ hg hx ih => exact .exec ih (himp _ _ hg) hx
  | keep _ _ ih ihb => exact .keep ih ihb
  | revert _ _ hr ih ihb => exact .revert ih ihb hr

theorem Steps.leave {id : ι} {undo : Bool} (hid : (S.snapshot s).1 = id)
    (h : S.Steps G (S.snapshot s).2 t) (hl : S.leave id undo t = some u) : S.Steps G s u := by
  subst hid
  unfold Semantics.leave at hl
  split at hl
  · exact .revert (.refl s) h hl
  · cases hl
    exact .keep (.refl s) h

/-- Every call that the program makes from `s` meets `G`. -/
def Meets (S : Semantics Op Ans σ ι) (G : Op → σ → Prop) :
    {α : Type} → Prog Op Ans α → σ → Prop
  | _, .ret _, _ => True
  | _, .fail, _ => True
  | _, .op o k, s => G o s ∧ ∀ r, S.exec o s = some r → S.Meets G (k r.1) r.2
  | _, .scope body k, s =>
    S.Meets G body (S.snapshot s).2 ∧ ∀ r t, S.run body (S.snapshot s).2 = some r →
      S.leave (S.snapshot s).1 r.1.1 r.2 = some t → S.Meets G (k r.1.2) t

theorem meets_call {o : Op} : S.Meets G (.call o) s ↔ G o s :=
  ⟨fun h => h.1, fun h => ⟨h, fun _ _ => trivial⟩⟩

theorem meets_bind : S.Meets G (p >>= f) s ↔
    S.Meets G p s ∧ ∀ r, S.run p s = some r → S.Meets G (f r.1) r.2 := by
  induction p generalizing s with
  | ret a =>
    refine ⟨fun h => ⟨trivial, fun r hr => ?_⟩, fun h => h.2 (a, s) rfl⟩
    cases hr
    exact h
  | fail => exact ⟨fun _ => ⟨trivial, fun _ hr => nomatch hr⟩, fun _ => trivial⟩
  | op o k ih =>
    constructor
    · intro h
      refine ⟨⟨h.1, fun r hr => ((ih r.1).1 (h.2 r hr)).1⟩, fun r hr => ?_⟩
      obtain ⟨x, hx, hr⟩ := bind_eq_some_iff.1 hr
      exact ((ih x.1).1 (h.2 x hx)).2 r hr
    · intro h
      refine ⟨h.1.1, fun x hx => (ih x.1).2 ⟨h.1.2 x hx, fun r hr => ?_⟩⟩
      exact h.2 r (bind_eq_some_iff.2 ⟨x, hx, hr⟩)
  | scope body k _ ih =>
    constructor
    · intro h
      refine ⟨⟨h.1, fun r t hr ht => ((ih r.1.2).1 (h.2 r t hr ht)).1⟩, fun r hr => ?_⟩
      obtain ⟨x, hx, hr⟩ := bind_eq_some_iff.1 hr
      obtain ⟨t, ht, hr⟩ := bind_eq_some_iff.1 hr
      exact ((ih x.1.2).1 (h.2 x t hx ht)).2 r hr
    · intro h
      refine ⟨h.1.1, fun x t hx ht => (ih x.1.2).2 ⟨h.1.2 x t hx ht, fun r hr => ?_⟩⟩
      exact h.2 r (bind_eq_some_iff.2 ⟨x, hx, bind_eq_some_iff.2 ⟨t, ht, hr⟩⟩)

theorem meets_within {body : Prog Op Ans (Bool × α)} :
    S.Meets G (.within body) s ↔ S.Meets G body (S.snapshot s).2 :=
  ⟨fun h => h.1, fun h => ⟨h, fun _ _ _ _ => trivial⟩⟩

theorem Meets.mono {G' : Op → σ → Prop} (h : S.Meets G p s)
    (himp : ∀ o s, G o s → G' o s) : S.Meets G' p s := by
  induction p generalizing s with
  | ret => trivial
  | fail => trivial
  | op o k ih => exact ⟨himp o s h.1, fun r hr => ih r.1 (h.2 r hr)⟩
  | scope body k ihb ihk => exact ⟨ihb h.1, fun r t hr ht => ihk r.1.2 (h.2 r t hr ht)⟩

/-- `Meets`, by running the program. -/
def checks (S : Semantics Op Ans σ ι) (G : Op → σ → Bool) :
    {α : Type} → Prog Op Ans α → σ → Bool
  | _, .ret _, _ => true
  | _, .fail, _ => true
  | _, .op o k, s => G o s && ((S.exec o s).map fun r => S.checks G (k r.1) r.2).getD true
  | _, .scope body k, s =>
    S.checks G body (S.snapshot s).2 && ((S.run body (S.snapshot s).2).map fun r =>
      ((S.leave (S.snapshot s).1 r.1.1 r.2).map fun t => S.checks G (k r.1.2) t).getD true).getD true

theorem meets_of_checks {G : Op → σ → Bool} (h : S.checks G p s = true) :
    S.Meets (fun o s => G o s = true) p s := by
  induction p generalizing s with
  | ret => trivial
  | fail => trivial
  | op o k ih =>
    simp only [checks, Bool.and_eq_true] at h
    refine ⟨h.1, fun r hr => ih r.1 ?_⟩
    rw [hr] at h
    exact h.2
  | scope body k ihb ihk =>
    simp only [checks, Bool.and_eq_true] at h
    refine ⟨ihb h.1, fun r t hr ht => ihk r.1.2 ?_⟩
    rw [hr, map_some, getD_some, ht] at h
    exact h.2

theorem Meets.and {G' : Op → σ → Prop} (h : S.Meets G p s)
    (h' : S.Meets G' p s) : S.Meets (fun o s => G o s ∧ G' o s) p s := by
  induction p generalizing s with
  | ret => trivial
  | fail => trivial
  | op o k ih => exact ⟨⟨h.1, h'.1⟩, fun r hr => ih r.1 (h.2 r hr) (h'.2 r hr)⟩
  | scope body k ihb ihk =>
    exact ⟨ihb h.1 h'.1, fun r t hr ht => ihk r.1.2 (h.2 r t hr ht) (h'.2 r t hr ht)⟩

/-- **What a run has done.** -/
theorem Meets.steps {a : α} (h : S.Meets G p s) (hr : S.run p s = some (a, t)) : S.Steps G s t := by
  induction p generalizing s t with
  | ret =>
    cases hr
    exact .refl _
  | fail => cases hr
  | op o k ih =>
    obtain ⟨x, hx, hr⟩ := bind_eq_some_iff.1 hr
    exact (Steps.exec (.refl s) h.1 hx).trans (ih x.1 (h.2 x hx) hr)
  | scope body k ihb ihk =>
    obtain ⟨x, hx, hr⟩ := bind_eq_some_iff.1 hr
    obtain ⟨u, hu, hr⟩ := bind_eq_some_iff.1 hr
    exact ((ihb h.1 hx).leave rfl hu).trans (ihk x.1.2 (h.2 x u hx hu) hr)

/-- From `s` the program `p` makes only calls that meet `G`, and ends as `Q` says. -/
structure Does (S : Semantics Op Ans σ ι) (G : Op → σ → Prop) (p : Prog Op Ans α) (s : σ)
    (Q : α → σ → Prop) : Prop where
  meets : S.Meets G p s
  ends : ∀ a t, S.run p s = some (a, t) → Q a t

section Does

variable {Q : α → σ → Prop}

theorem Does.steps {a : α} (h : S.Does G p s Q) (hr : S.run p s = some (a, t)) : S.Steps G s t :=
  h.meets.steps hr

theorem does_pure {a : α} (h : Q a s) : S.Does G (pure a) s Q := by
  refine ⟨trivial, fun b t hr => ?_⟩
  cases hr
  exact h

theorem does_fail : S.Does G (.fail : Prog Op Ans α) s Q := ⟨trivial, fun _ _ hr => nomatch hr⟩

theorem does_call {o : Op} {Q : Ans o → σ → Prop} (hg : G o s)
    (h : ∀ x t, S.exec o s = some (x, t) → Q x t) : S.Does G (.call o) s Q := by
  refine ⟨meets_call.2 hg, fun x t hr => ?_⟩
  rw [run_call] at hr
  exact h x t hr

theorem does_bind {R : α → σ → Prop}
    {Q : β → σ → Prop} (hp : S.Does G p s R)
    (hf : ∀ a t, S.Steps G s t → R a t → S.Does G (f a) t Q) : S.Does G (p >>= f) s Q := by
  refine ⟨meets_bind.2 ⟨hp.meets, fun r hr => ?_⟩, fun b u hr => ?_⟩
  · exact (hf r.1 r.2 (hp.steps hr) (hp.ends _ _ hr)).meets
  · obtain ⟨a, t, hp', hf'⟩ := of_run_bind hr
    exact (hf a t (hp.steps hp') (hp.ends a t hp')).ends b u hf'

theorem does_within {body : Prog Op Ans (Bool × α)} {R : Bool × α → σ → Prop}
    (hb : S.Does G body (S.snapshot s).2 R)
    (h : ∀ r t u, R r t → S.leave (S.snapshot s).1 r.1 t = some u → S.Steps G s u → Q r.2 u) :
    S.Does G (.within body) s Q := by
  refine ⟨meets_within.2 hb.meets, fun a u hr => ?_⟩
  obtain ⟨undo, t, hb', hl⟩ := of_run_within hr
  exact h _ t u (hb.ends _ t hb') hl ((hb.steps hb').leave rfl hl)

theorem Does.mono {R : α → σ → Prop} (hp : S.Does G p s R)
    (h : ∀ a t, S.Steps G s t → R a t → Q a t) : S.Does G p s Q :=
  ⟨hp.meets, fun a t hr => h a t (hp.steps hr) (hp.ends a t hr)⟩

theorem does_all (p : Prog Op Ans α) (s : σ) : S.Does (fun _ _ => True) p s fun _ _ => True := by
  induction p generalizing s with
  | ret => exact does_pure trivial
  | fail => exact does_fail
  | op o k ih =>
    refine does_bind (p := .call o) (does_call trivial fun _ _ _ => trivial) ?_
    exact fun x t _ _ => ih x t
  | scope body k ihb ihk =>
    refine does_bind (p := .within body) (R := fun _ _ => True) ?_ fun b t _ _ => ihk b t
    exact does_within (ihb _) fun _ _ _ _ _ _ => trivial

end Does

/-! ## Invariants -/

/-- `I` is kept by the calls that meet `G`, and `E` relates a state to those reached from it
closely enough for a scope that is taken back to keep `I`. -/
structure Keeps (S : Semantics Op Ans σ ι) (G : Op → σ → Prop) (I : σ → Prop)
    (E : σ → σ → Prop) : Prop where
  refl : ∀ s, E s s
  trans : ∀ {s t u}, E s t → E t u → E s u
  exec : ∀ {s t o} {x : Ans o}, I s → G o s → S.exec o s = some (x, t) → I t ∧ E s t
  snapshot : ∀ {s}, I s → I (S.snapshot s).2 ∧ E s (S.snapshot s).2
  revert : ∀ {s t u}, I s → I t → E (S.snapshot s).2 t →
    S.revert (S.snapshot s).1 t = some u → I u ∧ E s u

/-- **Invariant rule.** What the guarded calls keep, every state reached by them keeps. -/
theorem Keeps.steps {I : σ → Prop} {E : σ → σ → Prop} (h : S.Keeps G I E) (hs : S.Steps G s t)
    (hI : I s) : I t ∧ E s t := by
  induction hs with
  | refl => exact ⟨hI, h.refl _⟩
  | exec _ hg hx ih =>
    obtain ⟨hIt, hE⟩ := ih hI
    obtain ⟨hIu, hE'⟩ := h.exec hIt hg hx
    exact ⟨hIu, h.trans hE hE'⟩
  | keep _ _ ih ihb =>
    obtain ⟨hIt, hE⟩ := ih hI
    obtain ⟨hIt', hE'⟩ := h.snapshot hIt
    obtain ⟨hIu, hE''⟩ := ihb hIt'
    exact ⟨hIu, h.trans hE (h.trans hE' hE'')⟩
  | revert _ _ hr ih ihb =>
    obtain ⟨hIt, hE⟩ := ih hI
    obtain ⟨hIu, hE'⟩ := ihb (h.snapshot hIt).1
    obtain ⟨hIw, hE''⟩ := h.revert hIt hIu hE' hr
    exact ⟨hIw, h.trans hE hE''⟩

/-- From states with `I` the program keeps `I`, leads to states that `E` relates, and returns
something with `Q`. -/
def Preserves (S : Semantics Op Ans σ ι) (I : σ → Prop) (E : σ → σ → Prop) (p : Prog Op Ans α)
    (Q : α → Prop) : Prop :=
  ∀ s a t, I s → S.run p s = some (a, t) → (I t ∧ E s t) ∧ Q a

section Preserves

variable {I : σ → Prop} {E : σ → σ → Prop}

variable (h : S.Keeps G I E)
include h

theorem Keeps.preserves_pure {a : α} (hQ : Q a) : S.Preserves I E (pure a) Q := by
  intro s b t hI hr
  cases hr
  exact ⟨⟨hI, h.refl s⟩, hQ⟩

theorem Keeps.preserves_bind
    {R : β → Prop} (hp : S.Preserves I E p Q) (hf : ∀ a, Q a → S.Preserves I E (f a) R) :
    S.Preserves I E (p >>= f) R := by
  intro s b u hI hr
  obtain ⟨a, t, hp', hf'⟩ := of_run_bind hr
  obtain ⟨⟨hIt, hE⟩, hQ⟩ := hp s a t hI hp'
  obtain ⟨⟨hIu, hE'⟩, hR⟩ := hf a hQ t b u hIt hf'
  exact ⟨⟨hIu, h.trans hE hE'⟩, hR⟩

theorem Keeps.preserves_within {body : Prog Op Ans (Bool × α)}
    (hb : S.Preserves I E body fun r => Q r.2) : S.Preserves I E (.within body) Q := by
  intro s a u hI hr
  obtain ⟨undo, t, hb', hl⟩ := of_run_within hr
  obtain ⟨hIs, hEs⟩ := h.snapshot hI
  obtain ⟨⟨hIt, hE⟩, hQ⟩ := hb _ _ t hIs hb'
  refine ⟨?_, hQ⟩
  unfold leave at hl
  split at hl
  · exact h.revert hI hIt hE hl
  · cases hl
    exact ⟨hIt, h.trans hEs hE⟩

/-- **Calls that preserve as long as they answer `ok`.** -/
theorem Keeps.preserves_handle
    {handler : (o : Op') → Prog Op Ans (Ans' o)} {ok : (o : Op') → Ans' o → Bool} {P : Op' → Prop}
    (hh : ∀ o, P o → ∀ s x t, I s → S.run (handler o) s = some (x, t) → ok o x = true → I t ∧ E s t)
    {p : Prog Op' Ans' α} (hp : p.Ends P (fun o x => ok o x = true) Q) :
    S.Preserves I E ((p.assume ok).handle handler) Q := by
  induction p with
  | ret => exact h.preserves_pure hp
  | fail => exact fun s a t _ hr => by cases hr
  | op o k ih =>
    intro s a u hI hr
    have hr : S.run (handler o >>= fun x =>
      (if ok o x then (k x).assume ok else .fail).handle handler) s = some (a, u) := hr
    obtain ⟨x, t, hx, hr⟩ := of_run_bind hr
    split at hr
    · rename_i hok
      obtain ⟨hIt, hE⟩ := hh o hp.1 s x t hI hx hok
      obtain ⟨⟨hIu, hE'⟩, hQ⟩ := ih x (hp.2 x hok) t a u hIt hr
      exact ⟨⟨hIu, h.trans hE hE'⟩, hQ⟩
    · cases hr
  | scope body k ihb ihk =>
    refine h.preserves_bind (p := .within ((body.assume ok).handle handler))
      (Q := fun b => (k b).Ends P (fun o x => ok o x = true) Q)
      (h.preserves_within (ihb hp)) fun b hb => ihk b hb

end Preserves

end Semantics

end GoAoa
