import GoAoa.Lib.Heap
import GoAoa.Lib.Run
import Mathlib.Data.Int.Order.Basic

/-!
# The timing wheel

`task/timer.go`: clients send new timers and cancellations on two channels, the loop takes them in
any order into a heap of timers and sends what has expired on a third channel, and a goroutine of
its own starts the callbacks. The events are the steps of all of them, so a run is any interleaving;
a wheel that is stopped takes no further steps. A channel holds what was sent on it and blocks when
it is full. Whether a timer has expired is up to the clock, and so any `due`.

A cancellation that the loop takes before the timer itself has no effect, and it comes too late for
a timer that has expired, even if its callback is still to be started.
-/

namespace GoAoa.Task

open List Option Heap

structure Timer where
  id : Nat
  expiration : Int
  interval : Int
  deriving DecidableEq, Repr

def Timer.isRepeat (t : Timer) : Bool := 0 < t.interval

/-- The next expiration; a timer that is ten seconds late starts over. -/
def Timer.renew (now : Int) (t : Timer) : Timer :=
  let e := t.expiration + t.interval
  { t with expiration := if 10000000000 ≤ now - e then now else e }

structure TimingWheel where
  timerIds : Nat
  addChan : List Timer
  cancelChan : List Nat
  timers : List Timer
  /-- The timers of the tick at hand, and those of them that are still to be sent. -/
  expired : List Timer
  sending : List Timer
  /-- The callbacks, by the timers they belong to. -/
  timeOutChan : List Nat
  started : List Nat
  deriving DecidableEq, Repr

inductive Event where
  | addTimer (when interval : Int)
  | cancelTimer (id : Nat)
  | takeCancel
  | takeAdd
  | tick (due : Timer → Bool)
  | send
  | update (now : Int)
  | startCallback

namespace TimingWheel

def bufferSize : Nat := 1024

def new : TimingWheel := ⟨0, [], [], [], [], [], [], []⟩

/-- The heap has the timer that expires next on top. -/
def key (t : Timer) : Int := -t.expiration

/-- `heap.Remove` at the index of the timer. -/
def removeTimer (id : Nat) (ts : List Timer) : List Timer :=
  ((ts.findIdx? fun t => t.id = id).bind (remove key ts)).elim ts Prod.snd

/-- `getExpired`: the timers that have expired, and the others. -/
def getExpired (due : Timer → Bool) : Nat → List Timer → List Timer × List Timer
  | 0, ts => ([], ts)
  | fuel + 1, ts =>
    match pop key ts with
    | none => ([], ts)
    | some (t, rest) =>
      if due t then
        let r := getExpired due fuel rest
        (t :: r.1, r.2)
      else ([], push key rest t)

/-- The loop is at its `select` unless it works on a tick. `none` is a step that cannot be taken. -/
def step : Event → TimingWheel → Option TimingWheel
  | .addTimer when interval, w =>
    if w.addChan.length < bufferSize then
      some { w with addChan := w.addChan ++ [⟨w.timerIds, when, interval⟩]
                    timerIds := w.timerIds + 1 }
    else none
  | .cancelTimer id, w =>
    if w.cancelChan.length < bufferSize then some { w with cancelChan := w.cancelChan ++ [id] }
    else none
  | .takeCancel, w =>
    match w.expired, w.cancelChan with
    | [], id :: rest => some { w with cancelChan := rest, timers := removeTimer id w.timers }
    | _, _ => none
  | .takeAdd, w =>
    match w.expired, w.addChan with
    | [], t :: rest => some { w with addChan := rest, timers := push key w.timers t }
    | _, _ => none
  | .tick due, w =>
    match w.expired with
    | [] =>
      let r := getExpired due w.timers.length w.timers
      some { w with timers := r.2, expired := r.1, sending := r.1 }
    | _ => none
  | .send, w =>
    match w.sending with
    | [] => none
    | t :: rest =>
      if w.timeOutChan.length < bufferSize then
        some { w with sending := rest, timeOutChan := w.timeOutChan ++ [t.id] }
      else none
  | .update now, w =>
    match w.sending with
    | [] =>
      let again := (w.expired.filter Timer.isRepeat).map (Timer.renew now)
      some { w with expired := [], timers := again.foldl (push key) w.timers }
    | _ => none
  | .startCallback, w =>
    match w.timeOutChan with
    | [] => none
    | id :: rest => some { w with timeOutChan := rest, started := w.started ++ [id] }

/-! ## Timers on their way -/

/-- How many timers the wheel holds under an id, outside of the channel of callbacks. -/
def count (id : Nat) (ts : List Timer) : Nat := ts.countP fun t => t.id = id

def live (w : TimingWheel) (id : Nat) : Nat :=
  count id w.addChan + count id w.timers + count id w.expired

variable {w w' : TimingWheel} {id : Nat}

theorem count_cons (id : Nat) (t : Timer) (ts : List Timer) :
    count id (t :: ts) = count id ts + if t.id = id then 1 else 0 := by
  simp [count, countP_cons]

theorem count_append (id : Nat) (ts us : List Timer) :
    count id (ts ++ us) = count id ts + count id us := List.countP_append

theorem count_perm {ts us : List Timer} (h : ts.Perm us) (id : Nat) : count id ts = count id us :=
  h.countP_eq _

theorem count_eq_zero {ts : List Timer} : count id ts = 0 ↔ id ∉ ts.map Timer.id := by
  simp [count]

theorem count_removeTimer (id k : Nat) (ts : List Timer) :
    count k (removeTimer id ts) = count k ts - if k = id then 1 else 0 := by
  unfold removeTimer
  cases hf : ts.findIdx? fun t => t.id = id with
  | none =>
    have hnone : count id ts = 0 := by
      simpa [count] using findIdx?_eq_none_iff.1 hf
    by_cases hk : k = id
    · subst hk; simp [hnone]
    · simp [hk]
  | some =>
    obtain ⟨hi, hid, -⟩ := findIdx?_eq_some_iff_getElem.1 hf
    obtain ⟨x, r, hr⟩ := @Heap.remove_of_lt _ _ _ key _ _ hi
    obtain ⟨hx, hperm⟩ := remove_perm hr
    rw [getElem?_eq_getElem hi] at hx
    cases hx
    have hcount := count_perm hperm k
    rw [count_cons, of_decide_eq_true hid] at hcount
    simp only [bind_some, hr, elim_some, hcount, eq_comm]
    split <;> omega

theorem getExpired_spec (due : Timer → Bool) (fuel : Nat) (ts : List Timer) :
    ((getExpired due fuel ts).1 ++ (getExpired due fuel ts).2).Perm ts ∧
      ∀ t ∈ (getExpired due fuel ts).1, due t = true := by
  induction fuel generalizing ts with
  | zero => exact ⟨.refl _, nofun⟩
  | succ fuel ih =>
    unfold getExpired
    cases hpop : pop key ts with
    | none => exact ⟨.refl _, nofun⟩
    | some r =>
      obtain ⟨t, rest⟩ := r
      have hperm := pop_perm hpop
      obtain ⟨hrest, hdue⟩ := ih rest
      dsimp only
      split
      · rename_i ht
        exact ⟨(hrest.cons t).trans hperm.symm, forall_mem_cons.2 ⟨ht, hdue⟩⟩
      · exact ⟨(push_perm rest t).trans hperm.symm, nofun⟩

theorem count_again (id : Nat) (now : Int) (ts : List Timer) :
    count id ((ts.filter Timer.isRepeat).map (Timer.renew now)) ≤ count id ts := by
  rw [count, countP_map]
  exact (filter_sublist).countP_le

inductive Move : Event → TimingWheel → TimingWheel → Prop where
  | addTimer {w : TimingWheel} {when interval : Int} : Move (.addTimer when interval) w
      { w with addChan := w.addChan ++ [⟨w.timerIds, when, interval⟩], timerIds := w.timerIds + 1 }
  | cancelTimer {w : TimingWheel} {id : Nat} :
      Move (.cancelTimer id) w { w with cancelChan := w.cancelChan ++ [id] }
  | takeCancel {w : TimingWheel} {id : Nat} {rest : List Nat} : w.expired = [] →
      w.cancelChan = id :: rest →
      Move .takeCancel w { w with cancelChan := rest, timers := removeTimer id w.timers }
  | takeAdd {w : TimingWheel} {t : Timer} {rest : List Timer} : w.addChan = t :: rest →
      Move .takeAdd w { w with addChan := rest, timers := push key w.timers t }
  | tick {w : TimingWheel} {due : Timer → Bool} {ts us : List Timer} : w.expired = [] →
      (ts ++ us).Perm w.timers → (∀ t ∈ ts, due t = true) →
      Move (.tick due) w { w with timers := us, expired := ts, sending := ts }
  | send {w : TimingWheel} {t : Timer} {rest : List Timer} : w.sending = t :: rest →
      Move .send w { w with sending := rest, timeOutChan := w.timeOutChan ++ [t.id] }
  | update {w : TimingWheel} {now : Int} {us : List Timer} :
      (∀ id, count id us ≤ count id w.expired + count id w.timers) →
      Move (.update now) w { w with expired := [], timers := us }
  | startCallback {w : TimingWheel} {id : Nat} {rest : List Nat} : w.timeOutChan = id :: rest →
      Move .startCallback w { w with timeOutChan := rest, started := w.started ++ [id] }

variable {e : Event}

theorem step_move (h : step e w = some w') : Move e w w' := by
  cases e with
  | addTimer | cancelTimer | takeCancel | takeAdd | startCallback =>
    simp only [step] at h
    split at h <;> cases h
    constructor <;> assumption
  | tick due =>
    simp only [step] at h
    split at h <;> cases h
    obtain ⟨hperm, hdue⟩ := getExpired_spec due w.timers.length w.timers
    exact .tick ‹_› hperm hdue
  | send =>
    simp only [step] at h
    split at h
    · cases h
    · split at h <;> cases h
      exact .send ‹_›
  | update now =>
    simp only [step] at h
    split at h <;> cases h
    refine .update fun id => ?_
    have hagain := count_again id now w.expired
    rw [count_perm (foldl_push_perm _ _), count_append]
    omega

/-- No step but that of `AddTimer` makes a timer, and that one takes a new id. -/
theorem live_move (h : Move e w w') (id : Nat) : w.timerIds ≤ w'.timerIds ∧
      w'.live id ≤ w.live id + if w.timerIds = id ∧ w.timerIds < w'.timerIds then 1 else 0 := by
  unfold live
  cases h with
  | addTimer =>
    simp only [count_append, count_cons, Nat.lt_succ_self, and_true]
    simp only [count, countP_nil]
    omega
  | takeCancel =>
    simp only [count_removeTimer]
    omega
  | takeAdd hchan =>
    rw [hchan]
    simp only [count_perm (push_perm _ _), count_cons]
    omega
  | tick hidle hperm =>
    have hcount := count_perm hperm id
    rw [count_append] at hcount
    simp only [hidle]
    omega
  | update hus =>
    have := hus id
    simp only [count, countP_nil] at this ⊢
    omega
  | cancelTimer => simp
  | send => simp
  | startCallback => simp

def Unique (w : TimingWheel) : Prop := ∀ id, w.live id ≤ if id < w.timerIds then 1 else 0

theorem Unique.move (hu : Unique w) (h : Move e w w') : Unique w' := by
  intro id
  obtain ⟨hle, hlive⟩ := live_move h id
  have := hu id
  split at hlive <;> split at this <;> split <;> omega

/-! ## Cancelled timers -/

/-- The cancellation of `id` keeps its callback from being started: its timer has not expired
when it is cancelled or while the cancellation is on its way, and the loop has it by then. -/
def InTime (id : Nat) : Event → TimingWheel → Prop
  | .cancelTimer k, w => k = id → id ∉ w.sending.map Timer.id ∧ id ∉ w.timeOutChan
  | .takeCancel, w => w.cancelChan.head? = some id → id ∉ w.addChan.map Timer.id
  | .tick due, w => id ∈ w.cancelChan → ∀ t ∈ w.timers, t.id = id → due t = false
  | _, _ => True

structure Silenced (id : Nat) (w : TimingWheel) : Prop where
  known : id < w.timerIds
  unsent : id ∉ w.sending.map Timer.id
  unqueued : id ∉ w.timeOutChan
  cancelled : id ∈ w.cancelChan ∨ w.live id = 0

/-- **Step lemma.** A timer that was cancelled in time stays silent. -/
theorem Silenced.move (hs : Silenced id w) (hu : Unique w) (hi : InTime id e w)
    (h : Move e w w') : Silenced id w' ∧ w'.started.count id = w.started.count id := by
  obtain ⟨hle, hlive⟩ := live_move h id
  have hknown := hs.known
  rw [if_neg (by omega)] at hlive
  have hzero : w.live id = 0 → w'.live id = 0 := by omega
  have hkeep := hs.cancelled.imp_right hzero
  cases h with
  | addTimer => exact ⟨⟨by omega, hs.unsent, hs.unqueued, hkeep⟩, rfl⟩
  | cancelTimer =>
    exact ⟨⟨hknown, hs.unsent, hs.unqueued, hkeep.imp_left (mem_append_left _)⟩, rfl⟩
  | @takeCancel _ k rest hidle hchan =>
    refine ⟨⟨hknown, hs.unsent, hs.unqueued, ?_⟩, rfl⟩
    by_cases hk : id = k
    · have hadd := count_eq_zero.2 (hi (by rw [hchan, hk]; rfl))
      have hone := hu id
      unfold live at hone ⊢
      simp only [count_removeTimer, if_pos hk, if_pos hknown, hidle, hadd] at hone ⊢
      exact .inr (by simp only [count, countP_nil] at hone ⊢; omega)
    · rw [hchan, mem_cons, or_iff_right hk] at hkeep
      exact hkeep
  | @tick _ due ts us hidle hperm hdue =>
    refine ⟨⟨hknown, fun hmem => ?_, hs.unqueued, hkeep⟩, rfl⟩
    obtain ⟨t, ht, rfl⟩ := mem_map.1 hmem
    have hin := hperm.mem_iff.1 (mem_append_left _ ht)
    rcases hs.cancelled with hc | hc
    · have hnot := hi hc t hin rfl
      rw [hdue t ht] at hnot
      cases hnot
    · have hnone : count t.id w.timers = 0 := by unfold live at hc; omega
      exact count_eq_zero.1 hnone (mem_map_of_mem hin)
  | send hsend =>
    have hunsent := hs.unsent
    rw [hsend, map_cons, mem_cons, not_or] at hunsent
    exact ⟨⟨hknown, hunsent.2, by simpa [hs.unqueued] using hunsent.1, hkeep⟩, rfl⟩
  | takeAdd | update => exact ⟨⟨hknown, hs.unsent, hs.unqueued, hkeep⟩, rfl⟩
  | startCallback hchan =>
    have hunqueued := hs.unqueued
    rw [hchan, mem_cons, not_or] at hunqueued
    refine ⟨⟨hknown, hs.unsent, hunqueued.2, hkeep⟩, ?_⟩
    simp [List.count_append, Ne.symm hunqueued.1]

/-- **Cancelled timers.** After `CancelTimer(id)` for an id that `AddTimer` returned, the callback
of `id` is not started, in every run that takes the cancellation in time. -/
theorem cancelled_never_fires (xs ys : List Event) (id : Nat) (w w' : TimingWheel)
    (hreach : Run.exec step xs new = some w) (hadded : id < w.timerIds)
    (hrun : Run.exec step (.cancelTimer id :: ys) w = some w')
    (htime : Run.Along step (InTime id) (.cancelTimer id :: ys) w) :
    w'.started.count id = w.started.count id := by
  have hu : Unique w := Run.invariant_all (fun _ _ _ hu h => hu.move (step_move h))
    (fun id => by simp [live, count, new]) hreach
  obtain ⟨w1, hcancel, hrest⟩ := Run.exec_cons_eq_some.1 hrun
  obtain ⟨hin, htime⟩ := htime
  have hmove := step_move hcancel
  have hu1 := hu.move hmove
  have hstart : Silenced id w1 ∧ w1.started = w.started := by
    cases hmove
    exact ⟨⟨hadded, (hin rfl).1, (hin rfl).2, .inl (by simp)⟩, rfl⟩
  have hall := Run.invariant (I := fun v => Unique v ∧ Silenced id v ∧
      v.started.count id = w.started.count id) (fun e v v' hi ⟨hu, hs, hc⟩ h => by
    obtain ⟨hs', hc'⟩ := hs.move hu hi (step_move h)
    exact ⟨hu.move (step_move h), hs', hc'.trans hc⟩) (htime w1 hcancel)
    ⟨hu1, hstart.1, by rw [hstart.2]⟩ hrest
  exact hall.2.2

/-- The loop takes the cancellation before the timer, and the callback is started. -/
theorem fires_after_cancel :
    (Run.exec step [.addTimer 0 0, .cancelTimer 0, .takeCancel, .takeAdd, .tick fun _ => true, .send,
      .update 1, .startCallback] new).map (·.started) = some [0] := by
  decide +kernel

theorem cancelled_never_fires_taken : ∃ w w', Run.exec step [.addTimer 0 5, .takeAdd] new = some w ∧
      Run.exec step [.cancelTimer 0, .takeCancel, .tick fun _ => true, .update 1] w = some w' ∧
      w'.started.count 0 = w.started.count 0 := by
  refine ⟨_, _, rfl, rfl, cancelled_never_fires [.addTimer 0 5, .takeAdd]
    [.takeCancel, .tick fun _ => true, .update 1] 0 _ _ rfl (by decide +kernel) rfl ?_⟩
  refine ⟨fun _ => by decide +kernel, fun w1 h1 => ?_⟩
  cases h1
  refine ⟨fun _ => by decide +kernel, fun w2 h2 => ?_⟩
  cases h2
  refine ⟨fun h => ?_, fun w3 h3 => ⟨trivial, fun _ _ => trivial⟩⟩
  cases h

end TimingWheel

end GoAoa.Task
