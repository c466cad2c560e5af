import GoAoa.Lib.Journal
import Mathlib.Data.Option.Basic

/-!
# Undoing changes

`undo` takes one change back, and may panic. `rel` is an order on states that undoing respects as
far as the changes are `fair`. Then it is enough to look at each change by itself: if undoing it
right away leads to a state above the one before it, so does undoing all changes of a run, the
newest first (`Undoing.append`). What a rollback leaves of the changes still leads back
(`Undoes.split`).
-/

namespace GoAoa

open List Option

variable {σ ε : Type} {undo : σ → ε → Option σ} {rel : σ → σ → Prop} {fair : ε → Prop}
  {s s' t t' u : σ} {e : ε} {es es' : List ε}

structure Undoing (undo : σ → ε → Option σ) (rel : σ → σ → Prop) (fair : ε → Prop) : Prop where
  refl : ∀ s, rel s s
  trans : ∀ {s t u}, rel s t → rel t u → rel s u
  mono : ∀ {s s' t e}, fair e → rel s t → undo s e = some s' → ∃ t', undo t e = some t' ∧ rel s' t'

/-- Undoing `es` from `t`, the first of them first, leads to a state above `s`. -/
structure Undoes (undo : σ → ε → Option σ) (rel : σ → σ → Prop) (fair : ε → Prop) (es : List ε)
    (s t : σ) : Prop where
  fair : ∀ e ∈ es, fair e
  undone : ∃ s', es.foldlM undo t = some s' ∧ rel s s'

theorem Undoes.nil (h : rel s t) : Undoes undo rel fair [] s t := ⟨forall_mem_nil _, t, rfl, h⟩

theorem Undoes.single (he : fair e) (hu : undo t e = some s') (h : rel s s') :
    Undoes undo rel fair [e] s t := by
  refine ⟨fun x hx => ?_, s', ?_, h⟩
  · rwa [mem_singleton.1 hx]
  · rw [foldlM_cons, hu]
    rfl

theorem Undoes.split (h : Undoes undo rel fair (es ++ es') s t) :
    ∃ u, es.foldlM undo t = some u ∧ Undoes undo rel fair es' s u := by
  obtain ⟨s', hs, hrel⟩ := h.undone
  rw [foldlM_append] at hs
  obtain ⟨u, hu, hs⟩ := bind_eq_some_iff.1 hs
  exact ⟨u, hu, fun e he => h.fair e (mem_append_right _ he), s', hs, hrel⟩

namespace Undoing

variable (h : Undoing undo rel fair)
include h

theorem foldlM (hes : ∀ e ∈ es, fair e) (hrel : rel s t)
    (hs : es.foldlM undo s = some s') : ∃ t', es.foldlM undo t = some t' ∧ rel s' t' := by
  induction es generalizing s t with
  | nil =>
    cases hs
    exact ⟨t, rfl, hrel⟩
  | cons e es ih =>
    obtain ⟨s1, h1, hs⟩ := bind_eq_some_iff.1 hs
    obtain ⟨t1, ht1, hrel1⟩ := h.mono (hes e mem_cons_self) hrel h1
    obtain ⟨t', ht', hrel'⟩ := ih (fun x hx => hes x (mem_cons_of_mem _ hx)) hrel1 hs
    exact ⟨t', by rw [foldlM_cons, ht1]; exact ht', hrel'⟩

theorem above (hu : Undoes undo rel fair es s t) (hrel : rel t t') :
    Undoes undo rel fair es s t' := by
  obtain ⟨s', hs, hrel'⟩ := hu.undone
  obtain ⟨s'', hs'', hrel''⟩ := h.foldlM hu.fair hrel hs
  exact ⟨hu.fair, s'', hs'', h.trans hrel' hrel''⟩

/-- **The changes of two runs lead back, one after the other.** -/
theorem append (hst : Undoes undo rel fair es s t)
    (htu : Undoes undo rel fair es' t u) : Undoes undo rel fair (es' ++ es) s u := by
  obtain ⟨t', ht', hrel⟩ := htu.undone
  obtain ⟨s', hs', hrel'⟩ := (h.above hst hrel).undone
  refine ⟨fun e he => ?_, s', ?_, hrel'⟩
  · exact (mem_append.1 he).elim (htu.fair e) (hst.fair e)
  · rw [foldlM_append, ht']
    exact hs'

end Undoing

/-! ## States with a journal -/

/-- The journal of `s` has grown by changes that lead back to `s`. -/
def Undone (journal : σ → Journal ε) (undo : σ → ε → Option σ) (rel : σ → σ → Prop)
    (fair : ε → Prop) (s t : σ) : Prop :=
  ∃ es, (journal s).Extends (journal t) es ∧ Undoes undo rel fair es s t

namespace Undoing

variable {journal : σ → Journal ε}

theorem undone_refl (h : Undoing undo rel fair) (s : σ) : Undone journal undo rel fair s s :=
  ⟨[], .refl _, .nil (h.refl s)⟩

theorem undone_trans (h : Undoing undo rel fair) (hst : Undone journal undo rel fair s t)
    (htu : Undone journal undo rel fair t u) : Undone journal undo rel fair s u := by
  obtain ⟨es, hes, hst⟩ := hst
  obtain ⟨es', hes', htu⟩ := htu
  exact ⟨es' ++ es, hes.trans hes', h.append hst htu⟩

end Undoing

end GoAoa
