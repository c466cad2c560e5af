import GoAoa.Lib.Program
import Mathlib.Algebra.BigOperators.Group.Finset.Basic
import Mathlib.Data.Fintype.Basic

/-!
# Quantities that programs keep

A quantity `μ` of states is kept by a program if the state it ends in has the same `μ`. The calls
of the program need not keep it one by one: what one call takes another may give. `Conserves` has
a rule for each way to build a program. A scope that is taken back keeps the quantity if the
semantics says so (`Recovers`), which may depend on what was done in it (`Reverts`).

Where the calls do keep the quantity one by one, only those that are not taken back have to
(`Lasting`). `Meets.along` adds to the guard of a program what is known to hold in every state it
reaches. The last section is about sums over all keys of a finite type.
-/

namespace GoAoa.Semantics

open Option

variable {Op : Type} {Ans : Op → Type} {σ ι α β γ : Type} {S : Semantics Op Ans σ ι}
  {s t u : σ} {G : Op → σ → Prop}

variable {p : Prog Op Ans α}

theorem Meets.along {I : σ → Prop} {E : σ → σ → Prop} (hk : S.Keeps G I E)
    (h : S.Meets G p s) (hI : I s) : S.Meets (fun o s => G o s ∧ I s) p s := by
  induction p generalizing s with
  | ret => trivial
  | fail => trivial
  | op o k ih =>
    refine ⟨⟨h.1, hI⟩, fun r hr => ih r.1 (h.2 r hr) (hk.exec hI h.1 hr).1⟩
  | scope body k ihb ihk =>
    refine ⟨ihb h.1 (hk.snapshot hI).1, fun r t hr ht => ihk r.1.2 (h.2 r t hr ht) ?_⟩
    have hs := Steps.leave rfl (Meets.steps h.1 hr) ht
    exact (hk.steps hs hI).1

/-! ## Scopes that are taken back -/

/-- Whenever a scope of the program is taken back, `R` relates the state it was opened in to the one
it is taken back in. -/
def Reverts (S : Semantics Op Ans σ ι) (R : σ → σ → Prop) :
    {α : Type} → Prog Op Ans α → σ → Prop
  | _, .ret _, _ => True
  | _, .fail, _ => True
  | _, .op o k, s => ∀ r, S.exec o s = some r → S.Reverts R (k r.1) r.2
  | _, .scope body k, s =>
    S.Reverts R body (S.snapshot s).2 ∧ ∀ r t, S.run body (S.snapshot s).2 = some r →
      S.leave (S.snapshot s).1 r.1.1 r.2 = some t →
        (r.1.1 = true → R s r.2) ∧ S.Reverts R (k r.1.2) t

variable {R : σ → σ → Prop}

theorem Reverts.of_forall (h : ∀ s t, R s t) (p : Prog Op Ans α) (s : σ) : S.Reverts R p s := by
  induction p generalizing s with
  | ret => trivial
  | fail => trivial
  | op o k ih => exact fun r _ => ih r.1 r.2
  | scope body k ihb ihk => exact ⟨ihb _, fun r t _ _ => ⟨fun _ => h s r.2, ihk r.1.2 t⟩⟩

theorem Reverts.bind {f : α → Prog Op Ans β} (h : S.Reverts R (p >>= f) s) :
    S.Reverts R p s ∧ ∀ r, S.run p s = some r → S.Reverts R (f r.1) r.2 := by
  induction p generalizing s with
  | ret =>
    refine ⟨trivial, fun r hr => ?_⟩
    cases hr
    exact h
  | fail => exact ⟨trivial, fun _ hr => nomatch hr⟩
  | op o k ih =>
    refine ⟨fun r hr => (ih r.1 (h r hr)).1, fun r hr => ?_⟩
    obtain ⟨x, hx, hr⟩ := bind_eq_some_iff.1 hr
    exact (ih x.1 (h x hx)).2 r hr
  | scope body k _ ih =>
    refine ⟨⟨h.1, fun r t hr ht => ⟨(h.2 r t hr ht).1, (ih r.1.2 (h.2 r t hr ht).2).1⟩⟩,
      fun r hr => ?_⟩
    obtain ⟨x, hx, hr⟩ := bind_eq_some_iff.1 hr
    obtain ⟨t, ht, hr⟩ := bind_eq_some_iff.1 hr
    exact (ih x.1.2 (h.2 x t hx ht).2).2 r hr

/-- The calls of the program that are not taken back meet `G`. -/
def Lasting (S : Semantics Op Ans σ ι) (G : Op → σ → Prop) :
    {α : Type} → Prog Op Ans α → σ → Prop
  | _, .ret _, _ => True
  | _, .fail, _ => True
  | _, .op o k, s => G o s ∧ ∀ r, S.exec o s = some r → S.Lasting G (k r.1) r.2
  | _, .scope body k, s => ∀ r t, S.run body (S.snapshot s).2 = some r →
      S.leave (S.snapshot s).1 r.1.1 r.2 = some t →
        (r.1.1 = false → S.Lasting G body (S.snapshot s).2) ∧ S.Lasting G (k r.1.2) t

theorem Meets.lasting (h : S.Meets G p s) : S.Lasting G p s := by
  induction p generalizing s with
  | ret => trivial
  | fail => trivial
  | op o k ih => exact ⟨h.1, fun r hr => ih r.1 (h.2 r hr)⟩
  | scope body k ihb ihk => exact fun r t hr ht => ⟨fun _ => ihb h.1, ihk r.1.2 (h.2 r t hr ht)⟩

theorem Lasting.bind {f : α → Prog Op Ans β} (h : S.Lasting G (p >>= f) s) :
    S.Lasting G p s ∧ ∀ r, S.run p s = some r → S.Lasting G (f r.1) r.2 := by
  induction p generalizing s with
  | ret =>
    refine ⟨trivial, fun r hr => ?_⟩
    cases hr
    exact h
  | fail => exact ⟨trivial, fun _ hr => nomatch hr⟩
  | op o k ih =>
    refine ⟨⟨h.1, fun r hr => (ih r.1 (h.2 r hr)).1⟩, fun r hr => ?_⟩
    obtain ⟨x, hx, hr⟩ := bind_eq_some_iff.1 hr
    exact (ih x.1 (h.2 x hx)).2 r hr
  | scope body k _ ih =>
    refine ⟨fun r t hr ht => ⟨(h r t hr ht).1, (ih r.1.2 (h r t hr ht).2).1⟩, fun r hr => ?_⟩
    obtain ⟨x, hx, hr⟩ := bind_eq_some_iff.1 hr
    obtain ⟨t, ht, hr⟩ := bind_eq_some_iff.1 hr
    exact (ih x.1.2 (h x t hx ht).2).2 r hr

/-- **What the lasting calls keep, the program keeps**, if scopes that are taken back give it
back. -/
theorem Lasting.eq {L : Op → σ → Prop} {ν : σ → γ}
    (hexec : ∀ {o s x t}, G o s → L o s → S.exec o s = some (x, t) → ν t = ν s)
    (hsnap : ∀ s, ν (S.snapshot s).2 = ν s)
    (hrev : ∀ {s t u}, S.Steps G (S.snapshot s).2 t → S.revert (S.snapshot s).1 t = some u →
      ν u = ν s) {a : α} (hm : S.Meets G p s) (h : S.Lasting L p s)
    (hr : S.run p s = some (a, t)) : ν t = ν s := by
  induction p generalizing s t with
  | ret =>
    cases hr
    rfl
  | fail => cases hr
  | op o k ih =>
    obtain ⟨x, hx, hr⟩ := bind_eq_some_iff.1 hr
    exact (ih x.1 (hm.2 x hx) (h.2 x hx) hr).trans (hexec hm.1 h.1 hx)
  | scope body k ihb ihk =>
    obtain ⟨⟨⟨undo, b⟩, u⟩, hb, hr⟩ := bind_eq_some_iff.1 hr
    obtain ⟨w, hw, hr⟩ := bind_eq_some_iff.1 hr
    obtain ⟨hlast, hrest⟩ := h _ w hb hw
    refine (ihk b (hm.2 _ w hb hw) hrest hr).trans ?_
    cases undo with
    | true => exact hrev (hm.1.steps hb) hw
    | false =>
      cases hw
      exact (ihb hm.1 (hlast rfl) hb).trans (hsnap s)

/-! ## Programs -/

/-- The program leaves `μ` as it is, whenever its calls meet the guard and its scopes are taken back
as `R` says. -/
def Conserves (S : Semantics Op Ans σ ι) (G : Op → σ → Prop) (R : σ → σ → Prop) (μ : σ → γ)
    (p : Prog Op Ans α) : Prop :=
  ∀ s a t, S.Meets G p s → S.Reverts R p s → S.run p s = some (a, t) → μ t = μ s

/-- Taking back what has kept `μ` keeps it. -/
structure Recovers (S : Semantics Op Ans σ ι) (G : Op → σ → Prop) (R : σ → σ → Prop)
    (μ : σ → γ) : Prop where
  snapshot : ∀ s, μ (S.snapshot s).2 = μ s
  revert : ∀ {s t u}, S.Steps G (S.snapshot s).2 t → R s t → μ t = μ s →
    S.revert (S.snapshot s).1 t = some u → μ u = μ s

section Conserves

variable {μ : σ → γ} {p : Prog Op Ans α} {f : α → Prog Op Ans β}

theorem conserves_pure (a : α) : S.Conserves G R μ (pure a : Prog Op Ans α) := by
  intro s b t _ _ hr
  cases hr
  rfl

theorem conserves_fail : S.Conserves G R μ (.fail : Prog Op Ans α) := fun _ _ _ _ _ hr => nomatch hr

theorem conserves_call {o : Op} (h : ∀ s x t, G o s → S.exec o s = some (x, t) → μ t = μ s) :
    S.Conserves G R μ (.call o) := by
  intro s x t hm _ hr
  rw [run_call] at hr
  exact h s x t (meets_call.1 hm) hr

theorem Conserves.bind (hp : S.Conserves G R μ p) (hf : ∀ a, S.Conserves G R μ (f a)) :
    S.Conserves G R μ (p >>= f) := by
  intro s b u hm hv hr
  obtain ⟨a, t, hp', hf'⟩ := of_run_bind hr
  obtain ⟨hmp, hmf⟩ := meets_bind.1 hm
  obtain ⟨hvp, hvf⟩ := hv.bind
  exact (hf a t b u (hmf _ hp') (hvf _ hp') hf').trans (hp s a t hmp hvp hp')

theorem Conserves.within {body : Prog Op Ans (Bool × α)} (hμ : S.Recovers G R μ)
    (hb : S.Conserves G R μ body) : S.Conserves G R μ (.within body) := by
  intro s a u hm hv hr
  obtain ⟨undo, t, hb', hl⟩ := of_run_within hr
  have hmb := meets_within.1 hm
  have hbody := (hb _ _ _ hmb hv.1 hb').trans (hμ.snapshot s)
  cases undo with
  | true => exact hμ.revert (hmb.steps hb') ((hv.2 _ _ hb' hl).1 rfl) hbody hl
  | false =>
    cases hl
    exact hbody

theorem conserves_handle {Op' : Type} {Ans' : Op' → Type}
    {handler : (o : Op') → Prog Op Ans (Ans' o)} (hμ : S.Recovers G R μ)
    (hh : ∀ o, S.Conserves G R μ (handler o)) (p : Prog Op' Ans' α) :
    S.Conserves G R μ (p.handle handler) := by
  induction p with
  | ret a => exact conserves_pure a
  | fail => exact conserves_fail
  | op o k ih => exact .bind (hh o) ih
  | scope body k ihb ihk => exact .bind (.within hμ ihb) ihk

end Conserves

end GoAoa.Semantics

namespace GoAoa

open Finset

/-! ## Sums over all keys -/

variable {κ : Type} [Fintype κ] [DecidableEq κ]

theorem sum_eq_add_sub {f g : κ → Int} {k : κ} (h : ∀ i, i ≠ k → g i = f i) :
    ∑ i, g i = ∑ i, f i + (g k - f k) := by
  have hrest : ∑ i ∈ univ.erase k, g i = ∑ i ∈ univ.erase k, f i :=
    sum_congr rfl fun i hi => h i (ne_of_mem_erase hi)
  have hf := add_sum_erase univ f (mem_univ k)
  have hg := add_sum_erase univ g (mem_univ k)
  omega

end GoAoa
