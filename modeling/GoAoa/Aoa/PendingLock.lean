import GoAoa.Aoa.LockManager
import GoAoa.Lib.Run

/-!
# The pending slot

`aoa/dpos_lock.go` with one mutex section at a time: `dealPreBlockMsg` releases the slot, looks
whether it is free and takes it; the commit callback looks whether its block is pending, inserts it
and releases the slot; the expiry timer looks twice and releases it. Between two sections every
other goroutine may run. The callback does not look again before it releases, so the slot is safe
from it as long as no other block becomes pending while one is inserted (`slot_protected_iff`).
-/

namespace GoAoa.Aoa

open List Option LockManager GoAoa.Dpos

inductive Thread where
  /-- `dealPreBlockMsg` of a verified block before `unlock`, `isLock` and `lock`. -/
  | adopt (b : Block)
  | check (b : Block)
  | lock (b : Block)
  /-- `blockGenerateCallback` before `getPendingBlock`, and before `unlock`. What it does to the
  chain in between does not touch the lock. -/
  | commit (h : Hash)
  | release (b : Block)
  /-- The expiry timer of a block before `isLock`, `getPendingBlock` and `unlock`. -/
  | expire (h : Hash)
  | expireLocked (h : Hash)
  | expireMatched
  deriving DecidableEq

/-- The lock manager and the goroutines that use it. -/
structure Pending where
  lock : LockManager
  threads : List Thread

/-- What can happen next: a block is verified; the collector files a signature; a record of
signatures expires; a goroutine runs its next section. -/
inductive Turn where
  | preBlock (b : Block)
  | store (st : StoreSigns)
  | forget (h : Hash)
  | run (i : Nat)
  deriving DecidableEq

/-- One section, and what the goroutine does after it. Taking the slot starts the timer. -/
def LockManager.proceed (C : Crypto) (l : LockManager) : Thread → LockManager × List Thread
  | .adopt b => (l.unlock, [.check b])
  | .check b => (l, if l.lockBlock.isSome then [] else [.lock b])
  | .lock b => ({ l with lockBlock := some b }, [.expire (b.hash C)])
  | .commit h =>
    (l, match l.lockBlock with
      | some b => if b.hash C = h then [.release b] else []
      | none => [])
  | .release _ => (l.unlock, [])
  | .expire h => (l, if l.lockBlock.isSome then [.expireLocked h] else [])
  | .expireLocked h => (l, if l.lockBlock.any fun b => b.hash C = h then [.expireMatched] else [])
  | .expireMatched => (l.unlock, [])

namespace Pending

def init : Pending := ⟨.init, []⟩

def step (C : Crypto) (amount : Nat) : Turn → Pending → Option Pending
  | .preBlock b, s => some { s with threads := s.threads ++ [.adopt b] }
  | .store st, s =>
    let r := s.lock.dealBlockSign amount st
    some ⟨r.1, s.threads ++ r.2.toList.map fun _ => .commit st.blockHash⟩
  | .forget h, s =>
    some { s with lock := { s.lock with signMap := Function.update s.lock.signMap h none } }
  | .run i, s =>
    (s.threads[i]?).map fun t =>
      let r := s.lock.proceed C t
      ⟨r.1, s.threads.eraseIdx i ++ r.2⟩

variable {C : Crypto} {amount : Nat} {s s' : Pending} {t : Turn} {b p : Block}

/-- Without other goroutines in between, the sections are `addPendingBlock`. -/
theorem addPendingBlock_sections (C : Crypto) (l : LockManager) (b : Block) :
    l.addPendingBlock b = match (l.proceed C (.check b)).2 with
      | [] => .error .pendingBlockExist
      | _ => .ok (l.proceed C (.lock b)).1 := by
  unfold addPendingBlock proceed
  cases l.lockBlock <;> rfl

/-- **The commit callbacks release no other block**: one that finishes now frees the slot if it
holds its own block, and leaves it and the signatures otherwise. -/
def Protected (C : Crypto) (s : Pending) : Prop :=
  ∀ b, .release b ∈ s.threads → (s.lock.proceed C (.release b)).1 =
    { s.lock with lockBlock := s.lock.lockBlock.filter fun p => p.hash C ≠ b.hash C }

/-- No block becomes pending while a commit callback inserts another. -/
def Calm (C : Crypto) : Turn → Pending → Prop
  | .run i, s => ∀ b, s.threads[i]? = some (.lock b) →
      ∀ b', .release b' ∈ s.threads → b.hash C = b'.hash C
  | _, _ => True

theorem protected_iff : Protected C s ↔
    ∀ b p, .release b ∈ s.threads → s.lock.lockBlock = some p → p.hash C = b.hash C := by
  have hslot : ∀ b, (s.lock.proceed C (.release b)).1 =
      { s.lock with lockBlock := s.lock.lockBlock.filter fun p => p.hash C ≠ b.hash C } ↔
        ∀ p, s.lock.lockBlock = some p → p.hash C = b.hash C := by
    intro b
    unfold proceed unlock
    rw [LockManager.mk.injEq]
    cases s.lock.lockBlock with
    | none => simp
    | some p => by_cases hp : p.hash C = b.hash C <;> simp [Option.filter, hp]
  constructor
  · exact fun h b p hb => (hslot b).1 (h b hb) p
  · exact fun h b hb => (hslot b).2 fun p => h b p hb

theorem lockBlock_dealBlockSign (amount : Nat) (l : LockManager) (st : StoreSigns) :
    (l.dealBlockSign amount st).1.lockBlock = l.lockBlock := by
  unfold dealBlockSign
  split
  · rfl
  · dsimp only
    split <;> rfl

theorem proceed_slot (C : Crypto) (l : LockManager) (t : Thread) :
    (∃ b, t = .lock b) ∨ (∀ b, t ≠ .lock b) ∧
      ∀ p, (l.proceed C t).1.lockBlock = some p → l.lockBlock = some p := by
  cases t with
  | lock b => exact .inl ⟨b, rfl⟩
  | check | commit | expire | expireLocked =>
    exact .inr ⟨fun b h => (by cases h), fun p hp => hp⟩
  | adopt | release | expireMatched =>
    exact .inr ⟨fun b h => (by cases h), fun p hp => (by cases hp)⟩

/-- A callback gets to its release by finding its block in the slot. -/
theorem release_mem_proceed {l : LockManager} {t : Thread} (h : .release b ∈ (l.proceed C t).2) :
    l.lockBlock = some b := by
  cases t with
  | commit =>
    simp only [proceed] at h
    split at h
    · rename_i c hc
      split at h
      · rw [hc, Thread.release.inj (mem_singleton.1 h)]
      · cases h
    · cases h
  | adopt c | lock c => cases mem_singleton.1 h
  | release c | expireMatched => cases h
  | check c | expire k | expireLocked k =>
    simp only [proceed] at h
    split at h <;> simp at h

/-- **One step.** From a state in which the slot is protected, it stays so if and only if the step
is calm. -/
theorem protected_step (h : Protected C s) (hstep : step C amount t s = some s') :
    Protected C s' ↔ Calm C t s := by
  rw [protected_iff] at h ⊢
  cases t with
  | preBlock b =>
    cases hstep
    refine iff_of_true (fun b p hb hp => h b p ?_ hp) trivial
    simpa using hb
  | store =>
    cases hstep
    refine iff_of_true (fun b p hb hp => h b p ?_ ?_) trivial
    · simpa using hb
    · rwa [lockBlock_dealBlockSign] at hp
  | forget => cases hstep; exact iff_of_true h trivial
  | run i =>
    obtain ⟨t, ht, rfl⟩ := map_eq_some_iff.1 hstep
    have hold : ∀ {b}, .release b ∈ s.threads.eraseIdx i → .release b ∈ s.threads :=
      mem_of_mem_eraseIdx
    rcases proceed_slot C s.lock t with ⟨c, rfl⟩ | ⟨hne, hslot⟩
    swap
    · refine iff_of_true (fun b p hb hp => ?_) fun b hb =>
        absurd (some.inj (ht.symm.trans hb)) (hne b)
      have hp := hslot p hp
      rcases mem_append.1 hb with hb | hb
      · exact h b p (hold hb) hp
      · rw [some.inj (hp.symm.trans (release_mem_proceed hb))]
    · -- a callback that is inserting another block is still there when the slot is taken
      have hkept : ∀ {b}, .release b ∈ s.threads → .release b ∈ s.threads.eraseIdx i := by
        intro b hb
        obtain ⟨j, hj⟩ := mem_iff_getElem?.1 hb
        refine mem_eraseIdx_iff_getElem?.2 ⟨j, ?_, hj⟩
        rintro rfl
        rw [ht] at hj
        cases hj
      constructor
      · intro hnew b hb b' hb'
        obtain rfl : c = b := Thread.lock.inj (some.inj (ht.symm.trans hb))
        exact hnew b' c (mem_append_left _ (hkept hb')) rfl
      · intro hcalm b p hb hp
        cases hp
        rcases mem_append.1 hb with hb | hb
        · exact hcalm c ht b (hold hb)
        · cases mem_singleton.1 hb

/-- **The slot along a run.** As long as the steps are calm, no commit callback releases a block
that is not its own, and the first step that is not calm lets one do it. -/
theorem slot_protected_iff (C : Crypto) (amount : Nat) {turns : List Turn} {t : Turn}
    {s s' : Pending} (hcalm : Run.Along (step C amount) (Calm C) turns init)
    (hrun : Run.exec (step C amount) turns init = some s) (hstep : step C amount t s = some s') :
    Protected C s ∧ (Protected C s' ↔ Calm C t s) := by
  have h := Run.invariant (fun _ _ _ hc h hs => (protected_step h hs).2 hc) hcalm
      (fun b hb => nomatch hb) hrun
  exact ⟨h, protected_step h hstep⟩

/-- A block is verified and becomes pending, and the commit callback finds it; then a second block
for the same slot is verified and becomes pending. -/
def overtaken : List Turn :=
  [.preBlock (slotBlock extraCrypto 1 [0] []), .run 0, .run 0, .run 0,
    .store ⟨(slotBlock extraCrypto 1 [0] []).hash extraCrypto, [], approveVote, 1⟩, .run 1,
    .preBlock (slotBlock extraCrypto 1 [0, 0] []), .run 2, .run 2, .run 2]

theorem calm_of_no_release {i : Nat} (h : ∀ b, .release b ∉ s.threads) : Calm C (.run i) s :=
  fun _ _ b hb => absurd hb (h b)

/-- The commit callback is about to release its block when the second comes in. -/
theorem slot_protected_inserting :
    ∃ s, Run.exec (step extraCrypto 0) (overtaken.take 6) init = some s ∧
      s.threads[1]? = some (.release (slotBlock extraCrypto 1 [0] [])) ∧
      s.lock.lockBlock = some (slotBlock extraCrypto 1 [0] []) ∧ Protected extraCrypto s ∧
      Protected extraCrypto { s with
        threads := s.threads ++ [.adopt (slotBlock extraCrypto 1 [0, 0] [])] } := by
  refine exists_of_check (fun s => s.threads[1]? =
      some (.release (slotBlock extraCrypto 1 [0] [])) ∧
      s.lock.lockBlock = some (slotBlock extraCrypto 1 [0] [])) (by decide +kernel)
    fun s hs ⟨hthread, hslot⟩ => ⟨hthread, hslot, ?_⟩
  have hcalm : Run.Along (step extraCrypto 0) (Calm extraCrypto) (overtaken.take 6) init := by
    refine ⟨trivial, ?_⟩
    rintro _ ⟨⟩
    refine ⟨calm_of_no_release (by simp [init]), ?_⟩
    rintro _ ⟨⟩
    refine ⟨calm_of_no_release (by simp [init, proceed]), ?_⟩
    rintro _ ⟨⟩
    refine ⟨calm_of_no_release (by simp [init, proceed, unlock]), ?_⟩
    rintro _ ⟨⟩
    refine ⟨trivial, ?_⟩
    rintro _ ⟨⟩
    exact ⟨calm_of_no_release (by simp [init, proceed, unlock]), fun _ _ => trivial⟩
  have hslot := slot_protected_iff extraCrypto 0 (t := .preBlock (slotBlock extraCrypto 1 [0, 0] []))
    hcalm hs rfl
  exact ⟨hslot.1, hslot.2.2 trivial⟩

/-- **The slip.** The callback of the first block finishes and releases the second. -/
theorem not_slot_protected : ∃ s s', Run.exec (step extraCrypto 0) overtaken init = some s ∧
      s.lock.lockBlock = some (slotBlock extraCrypto 1 [0, 0] []) ∧
      s.threads[1]? = some (.release (slotBlock extraCrypto 1 [0] [])) ∧
      step extraCrypto 0 (.run 1) s = some s' ∧ s'.lock.lockBlock = none ∧
      ¬ Protected extraCrypto s := by
  have hrun : (Run.exec (step extraCrypto 0) overtaken init).map (fun s =>
      (s.lock.lockBlock, s.threads[1]?)) = some (some (slotBlock extraCrypto 1 [0, 0] []),
        some (.release (slotBlock extraCrypto 1 [0] []))) := by decide +kernel
  obtain ⟨s, hs, hslot, hthread⟩ := map_mk_eq_some.1 hrun
  have hstep : step extraCrypto 0 (.run 1) s =
      some ⟨s.lock.unlock, s.threads.eraseIdx 1 ++ []⟩ := by
    show (s.threads[1]?).map _ = _
    rw [hthread]
    rfl
  refine ⟨s, _, hs, hslot, hthread, hstep, rfl, fun h => ?_⟩
  have hsame := protected_iff.1 h _ _ (mem_of_getElem? hthread) hslot
  revert hsame
  decide +kernel

end Pending

end GoAoa.Aoa
