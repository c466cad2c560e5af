import Mathlib.Data.List.Basic

/-!
# Runs of a partial step function

`exec step ls s` feeds the labels `ls` to `step` one after the other; `none` is a run that got
stuck. `Along step P ls s` says that every step the run takes meets the side condition `P` in
the state before it. An invariant kept by the steps that meet `P` holds at the end of every such
run, and so in every state it passes through. `count` is a loop with a counter.
-/

namespace GoAoa.Run

open List Option

variable {σ ℓ : Type} {step : ℓ → σ → Option σ} {P : ℓ → σ → Prop} {I : σ → Prop}

def exec (step : ℓ → σ → Option σ) : List ℓ → σ → Option σ
  | [], s => some s
  | l :: ls, s => (step l s).bind (exec step ls)

def Along (step : ℓ → σ → Option σ) (P : ℓ → σ → Prop) : List ℓ → σ → Prop
  | [], _ => True
  | l :: ls, s => P l s ∧ ∀ s', step l s = some s' → Along step P ls s'

variable {ls : List ℓ}

theorem exec_cons_eq_some {l : ℓ} {s t : σ} :
    exec step (l :: ls) s = some t ↔ ∃ s', step l s = some s' ∧ exec step ls s' = some t := by
  simp [exec, bind_eq_some_iff]

theorem exec_append {ms : List ℓ} {s : σ} :
    exec step (ls ++ ms) s = (exec step ls s).bind (exec step ms) := by
  induction ls generalizing s with
  | nil => rfl
  | cons l ls ih =>
    simp only [cons_append, exec, bind_assoc]
    congr 1
    funext s'
    exact ih

theorem Along.of_forall (h : ∀ l ∈ ls, ∀ s, P l s) (s : σ) : Along step P ls s := by
  induction ls generalizing s with
  | nil => trivial
  | cons l ls ih =>
    exact ⟨h l mem_cons_self s, fun s' _ => ih (fun m hm => h m (mem_cons_of_mem _ hm)) s'⟩

theorem along_append {ms : List ℓ} {s : σ} : Along step P (ls ++ ms) s ↔
      Along step P ls s ∧ ∀ t, exec step ls s = some t → Along step P ms t := by
  induction ls generalizing s with
  | nil => simp [Along, exec]
  | cons l ls ih =>
    simp only [cons_append, Along, exec_cons_eq_some]
    constructor
    · rintro ⟨hl, hrest⟩
      refine ⟨⟨hl, fun s' hs => (ih.1 (hrest s' hs)).1⟩, ?_⟩
      rintro t ⟨s', hs, ht⟩
      exact (ih.1 (hrest s' hs)).2 t ht
    · rintro ⟨⟨hl, hrest⟩, hms⟩
      exact ⟨hl, fun s' hs => ih.2 ⟨hrest s' hs, fun t ht => hms t ⟨s', hs, ht⟩⟩⟩

/-- A side condition that can be computed holds along the run. -/
def checkAlong (step : ℓ → σ → Option σ) (ok : ℓ → σ → Bool) : List ℓ → σ → Bool
  | [], _ => true
  | l :: ls, s => ok l s && (step l s).all (checkAlong step ok ls)

theorem along_of_check {ok : ℓ → σ → Bool} (hstep : ∀ l s s', I s → step l s = some s' → I s')
    (hok : ∀ l s, I s → ok l s = true → P l s) {s : σ} (hI : I s)
    (h : checkAlong step ok ls s = true) : Along step P ls s := by
  induction ls generalizing s with
  | nil => trivial
  | cons l ls ih =>
    obtain ⟨hl, hrest⟩ := Bool.and_eq_true_iff.1 h
    refine ⟨hok l s hI hl, fun s' hs => ih (hstep l s s' hI hs) ?_⟩
    rw [hs] at hrest
    exact hrest

/-- **Invariant rule.** What every admissible step keeps, every admissible run keeps. -/
theorem invariant (hstep : ∀ l s s', P l s → I s → step l s = some s' → I s')
    {s t : σ} (ha : Along step P ls s) (hI : I s) (hr : exec step ls s = some t) : I t := by
  induction ls generalizing s with
  | nil => simp only [exec, some.injEq] at hr; exact hr ▸ hI
  | cons l ls ih =>
    obtain ⟨s', hs, hr⟩ := exec_cons_eq_some.1 hr
    exact ih (ha.2 s' hs) (hstep l s s' ha.1 hI hs) hr

/-- If every admissible step is possible and keeps `I`, an admissible run reaches its end. -/
theorem progress (hstep : ∀ l s, P l s → I s → ∃ s', step l s = some s' ∧ I s')
    {s : σ} (ha : Along step P ls s) (hI : I s) : ∃ t, exec step ls s = some t ∧ I t := by
  induction ls generalizing s with
  | nil => exact ⟨s, rfl, hI⟩
  | cons l ls ih =>
    obtain ⟨s', hs, hI'⟩ := hstep l s ha.1 hI
    obtain ⟨t, ht, hIt⟩ := ih (ha.2 s' hs) hI'
    exact ⟨t, exec_cons_eq_some.2 ⟨s', hs, ht⟩, hIt⟩

theorem invariant_all (hstep : ∀ l s s', I s → step l s = some s' → I s')
    {s t : σ} (hI : I s) (hr : exec step ls s = some t) : I t := by
  refine invariant (P := fun _ _ => True) (fun l s s' _ => hstep l s s') ?_ hI hr
  clear hI hr
  induction ls generalizing s with
  | nil => trivial
  | cons l ls ih => exact ⟨trivial, fun s' _ => ih⟩

/-! ## Counting loops -/

/-- `for { …; count++ }`, followed for `fuel` turns from a count on: the body either leaves the loop
with a value or goes on. -/
def count {α : Type} (body : Nat → Option α) : Nat → Nat → Option α
  | 0, _ => none
  | fuel + 1, i =>
    match body i with
    | some a => some a
    | none => count body fuel (i + 1)

theorem count_eq_none {α : Type} {body : Nat → Option α} (h : ∀ i, body i = none) (fuel i : Nat) :
    count body fuel i = none := by
  induction fuel generalizing i with
  | zero => rfl
  | succ fuel ih => rw [count, h i]; exact ih (i + 1)

/-- With more fuel the loop ends as it did. -/
theorem count_mono {α : Type} {body : Nat → Option α} {fuel fuel' i : Nat} {a : α}
    (h : count body fuel i = some a) (hle : fuel ≤ fuel') : count body fuel' i = some a := by
  induction fuel generalizing i fuel' with
  | zero => cases h
  | succ fuel ih =>
    obtain ⟨k, rfl⟩ := Nat.exists_eq_add_of_le' hle
    show count body (k + fuel + 1) i = _
    rw [count] at h ⊢
    cases hb : body i with
    | some => rw [hb] at h; exact h
    | none => rw [hb] at h; exact ih h (Nat.le_add_left fuel k)

theorem count_eq_some {α : Type} {body : Nat → Option α} {fuel i n : Nat} {a : α}
    (ha : body (i + n) = some a) (hn : ∀ k < n, body (i + k) = none) (hf : n < fuel) :
    count body fuel i = some a := by
  induction n generalizing i fuel with
  | zero =>
    cases fuel with
    | zero => cases hf
    | succ =>
      rw [Nat.add_zero] at ha
      rw [count, ha]
  | succ n ih =>
    cases fuel with
    | zero => cases hf
    | succ =>
      have hi : body i = none := hn 0 (Nat.succ_pos n)
      rw [count, hi]
      refine ih ?_ (fun k hk => ?_) (Nat.lt_of_succ_lt_succ hf)
      · rw [Nat.succ_add_eq_add_succ]; exact ha
      · rw [Nat.succ_add_eq_add_succ]; exact hn (k + 1) (Nat.succ_lt_succ hk)

end GoAoa.Run
