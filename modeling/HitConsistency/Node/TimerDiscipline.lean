/- GID: HitConsistency/Node/TimerDiscipline
   digest: The repeated timer over any interleaving of its calls, its callback and its destruction. -/

import HitConsistency.Base.GuardedRuns

set_option autoImplicit false
set_option relaxedAutoImplicit false

/-!
A step is one section under the mutex of the timer, or one call outside it. The timer
thread removes a timer and calls `on_timedout`; deleting a timer returns 0 exactly when
it was still there. When a timer fires is left open. A CHECK that fails is counted.
-/

namespace HitConsistency.Node.TimerDiscipline

open HitConsistency.Base.GuardedRuns

/-- A timer that was added, with the delay it was added with. -/
structure Timer where
  id : Nat
  delayMs : Int
  deriving DecidableEq

/-- Where an invocation of `on_timedout` stands: before its first section, between that
and `run()`, and between `run()` and its last section. -/
inductive Phase
  | called | unlocked | running
  deriving DecidableEq

inductive UserCall
  | run | onDestroy
  deriving DecidableEq

/-- The fields of the task, the timers and threads around it, and the calls so far. -/
structure RepeatedTimerTask where
  timeoutMs : Int
  stopped : Bool
  running : Bool
  destroyed : Bool
  invoking : Bool
  timer : Nat
  pending : List Timer
  nextTimer : Nat
  inFlight : List Phase
  /-- Threads that have left the mutex to call `on_destroy`. -/
  destroying : Nat
  calls : List UserCall
  failedChecks : Nat
  deriving DecidableEq

namespace RepeatedTimerTask

/-- The constructor and `init`; no timer has id 0. -/
def init (timeoutMs : Int) : RepeatedTimerTask where
  timeoutMs := timeoutMs
  stopped := true
  running := false
  destroyed := false
  invoking := false
  timer := 0
  pending := []
  nextTimer := 1
  inFlight := []
  destroying := 0
  calls := []
  failedChecks := 0

def check (t : RepeatedTimerTask) (ok : Bool) : RepeatedTimerTask :=
  { t with failedChecks := if ok then t.failedChecks else t.failedChecks + 1 }

/-- `bthread_timer_del(_timer)`, and whether it returns 0. -/
def timerDel (t : RepeatedTimerTask) : RepeatedTimerTask × Bool :=
  ({ t with pending := t.pending.filter fun timer => timer.id ≠ t.timer },
    t.pending.any fun timer => timer.id = t.timer)

/-- `on_timedout` of the timer library: an invocation on a thread of its own, or on this
one if there is none. -/
def onTimedout (t : RepeatedTimerTask) : RepeatedTimerTask :=
  { t with inFlight := t.inFlight ++ [.called] }

def schedule (adjustTimeoutMs : Int → Int) (added : Bool) (t : RepeatedTimerTask) :
    RepeatedTimerTask :=
  if added then
    { t with
      timer := t.nextTimer
      pending := t.pending ++ [⟨t.nextTimer, adjustTimeoutMs t.timeoutMs⟩]
      nextTimer := t.nextTimer + 1 }
  else t.onTimedout

def start (adjustTimeoutMs : Int → Int) (added : Bool) (t : RepeatedTimerTask) :
    RepeatedTimerTask :=
  if t.destroyed then t
  else if !t.stopped then t
  else
    let t := { t with stopped := false }
    if t.running then t
    else { t with running := true }.schedule adjustTimeoutMs added

def stop (t : RepeatedTimerTask) : RepeatedTimerTask :=
  if t.stopped then t
  else
    let (t, deleted) := ({ t with stopped := true }.check t.running).timerDel
    if deleted then { t with running := false } else t

/-- Both `reset`s; one of them sets the timeout first. -/
def reset (adjustTimeoutMs : Int → Int) (added : Bool) (timeoutMs : Option Int)
    (t : RepeatedTimerTask) : RepeatedTimerTask :=
  let t := { t with timeoutMs := timeoutMs.getD t.timeoutMs }
  if t.stopped then t
  else
    let (t, deleted) := (t.check t.running).timerDel
    if deleted then t.schedule adjustTimeoutMs added else t

def runOnceNow (t : RepeatedTimerTask) : RepeatedTimerTask :=
  let (t, deleted) := t.timerDel
  if deleted then t.onTimedout else t

def destroy (t : RepeatedTimerTask) : RepeatedTimerTask :=
  if t.destroyed then t
  else
    let t := { t with destroyed := true }
    if !t.running then { t.check t.stopped with destroying := t.destroying + 1 }
    else if t.stopped then t
    else
      let (t, deleted) := { t with stopped := true }.timerDel
      if deleted then { t with running := false, destroying := t.destroying + 1 }
      else t.check t.running

/-- The last section of `on_timedout`. -/
def finish (adjustTimeoutMs : Int → Int) (added : Bool) (t : RepeatedTimerTask) :
    RepeatedTimerTask :=
  let t := { t with invoking := false }.check t.running
  if t.stopped then
    let t := { t with running := false }
    if t.destroyed then { t with destroying := t.destroying + 1 } else t
  else t.schedule adjustTimeoutMs added

end RepeatedTimerTask

/-- What can happen next. Timers and invocations are picked by position, since none waits
for another. `added` says whether a timer can be added. -/
inductive Event
  | start (added : Bool)
  | stop
  | reset (timeoutMs : Option Int) (added : Bool)
  | runOnceNow
  | destroy
  | fire (position : Nat)
  | enter (position : Nat)
  | run (position : Nat)
  | finish (position : Nat) (added : Bool)
  | onDestroy

open RepeatedTimerTask in
/-- An event that cannot happen has no result. -/
def step (adjustTimeoutMs : Int → Int) (t : RepeatedTimerTask) :
    Event → Option RepeatedTimerTask
  | .start added => some (t.start adjustTimeoutMs added)
  | .stop => some t.stop
  | .reset timeoutMs added => some (t.reset adjustTimeoutMs added timeoutMs)
  | .runOnceNow => some t.runOnceNow
  | .destroy => some t.destroy
  | .fire position =>
      if position < t.pending.length then
        some { t with pending := t.pending.eraseIdx position }.onTimedout
      else none
  | .enter position =>
      if t.inFlight[position]? = some .called then
        some { t with invoking := true, inFlight := t.inFlight.set position .unlocked }
      else none
  | .run position =>
      if t.inFlight[position]? = some .unlocked then
        some { t with inFlight := t.inFlight.set position .running, calls := t.calls ++ [.run] }
      else none
  | .finish position added =>
      if t.inFlight[position]? = some .running then
        some ({ t with inFlight := t.inFlight.eraseIdx position }.finish adjustTimeoutMs added)
      else none
  | .onDestroy =>
      if 0 < t.destroying then
        some { t with destroying := t.destroying - 1, calls := t.calls ++ [.onDestroy] }
      else none

/-- What the flags promise: the running one stands for one timer or one invocation, and
`on_destroy` is the last call, made once everything is over. -/
structure Disciplined (t : RepeatedTimerTask) : Prop where
  running_iff : t.running = true ↔ t.pending.length + t.inFlight.length = 1
  never_two : t.pending.length + t.inFlight.length ≤ 1
  checks : t.failedChecks = 0
  destroyed_once : t.destroying + t.calls.count .onDestroy ≤ 1
  destroyed_idle : 0 < t.destroying ∨ .onDestroy ∈ t.calls → t.pending = [] ∧ t.inFlight = []
  destroyed_last : ∀ before behind, t.calls = before ++ .onDestroy :: behind → behind = []

/-- The invariant, for a number of timers and invocations. -/
structure Holds (active : Nat) (t : RepeatedTimerTask) : Prop where
  active : t.pending.length + t.inFlight.length = active
  current : ∀ timer ∈ t.pending, timer.id = t.timer
  started : t.stopped = false → t.running = true
  closed : t.destroyed = true → t.stopped = true
  checks : t.failedChecks = 0
  calls : ∃ runs last, t.calls = List.replicate runs .run ++ List.replicate last .onDestroy ∧
    t.destroying + last = (t.destroyed && !t.running).toNat

def Inv (t : RepeatedTimerTask) : Prop := Holds t.running.toNat t

section Keep

variable {t : RepeatedTimerTask} {adjustTimeoutMs : Int → Int} {added : Bool} {active : Nat}

theorem inv_init (timeoutMs : Int) : Inv (.init timeoutMs) := by
  refine ⟨rfl, ?_, ?_, ?_, rfl, 0, 0, rfl, rfl⟩
  · intro timer htimer
    cases htimer
  · intro hstopped
    cases hstopped
  · intro hdestroyed
    cases hdestroyed

private theorem check_of_true {ok : Bool} (h : ok = true) : t.check ok = t := by
  rw [h]
  rfl

private theorem timerDel_nothing (h : t.pending = []) : t.timerDel = (t, false) := by
  rw [RepeatedTimerTask.timerDel, h, List.filter_nil, List.any_nil, ← h]

private theorem Holds.timerDel_cases (h : Holds 1 t) :
    t.timerDel = ({ t with pending := [] }, true) ∧ Holds 0 { t with pending := [] } ∨
      t.timerDel = (t, false) := by
  have hactive := h.active
  cases hpending : t.pending with
  | nil => exact .inr (timerDel_nothing hpending)
  | cons timer rest =>
    left
    rw [hpending, List.length_cons] at hactive
    have hrest : rest = [] := List.length_eq_zero_iff.mp (by omega)
    have hid : timer.id = t.timer := h.current timer (by simp [hpending])
    refine ⟨?_, ?_, ?_, h.started, h.closed, h.checks, h.calls⟩
    · simp [RepeatedTimerTask.timerDel, hpending, hrest, hid]
    · simp only [List.length_nil]
      omega
    · intro other hother
      cases hother

theorem Holds.schedule (h : Holds 0 t) (hrunning : t.running = true)
    (adjustTimeoutMs : Int → Int) (added : Bool) : Inv (t.schedule adjustTimeoutMs added) := by
  have hactive := h.active
  have hpending : t.pending = [] := List.length_eq_zero_iff.mp (by omega)
  have hinFlight : t.inFlight = [] := List.length_eq_zero_iff.mp (by omega)
  unfold RepeatedTimerTask.schedule
  split
  · refine ⟨?_, ?_, h.started, h.closed, h.checks, h.calls⟩
    · simp [hpending, hinFlight, hrunning]
    · intro timer htimer
      simp only [hpending, List.nil_append, List.mem_singleton] at htimer
      rw [htimer]
  · refine ⟨?_, h.current, h.started, h.closed, h.checks, h.calls⟩
    simp [RepeatedTimerTask.onTimedout, hpending, hinFlight, hrunning]

theorem Holds.rest {destroying : Nat} (h : Holds 0 t) (hrunning : t.running = true)
    (hstopped : t.stopped = true) (hdue : destroying = t.destroying + t.destroyed.toNat) :
    Inv { t with running := false, destroying := destroying } := by
  obtain ⟨runs, last, hcalls, hlast⟩ := h.calls
  refine ⟨h.active, h.current, ?_, h.closed, h.checks, runs, last, hcalls, ?_⟩
  · intro hgoing
    rw [hstopped] at hgoing
    cases hgoing
  · have hnone : t.destroying + last = 0 := by simpa [hrunning] using hlast
    simp only [Bool.not_false, Bool.and_true]
    omega

private theorem Inv.holds_one (h : Inv t) (hrunning : t.running = true) : Holds 1 t := by
  unfold Inv at h
  rwa [hrunning] at h

private theorem Inv.holds_zero (h : Inv t) (hrunning : ¬ t.running = true) : Holds 0 t := by
  unfold Inv at h
  rwa [Bool.eq_false_iff.mpr hrunning] at h

private theorem Holds.going (h : Holds active t) (hstopped : ¬ t.stopped = true) :
    t.running = true :=
  h.started (Bool.eq_false_iff.mpr hstopped)

theorem Holds.inv (h : Holds 1 t) (hrunning : t.running = true) : Inv t := by
  unfold Inv
  rwa [hrunning]

theorem Inv.start (h : Inv t) : Inv (t.start adjustTimeoutMs added) := by
  unfold RepeatedTimerTask.start
  split
  · exact h
  · rename_i halive
    split
    · exact h
    · obtain ⟨runs, last, hcalls, hlast⟩ := h.calls
      have hclosed : t.destroyed = true → false = true := fun hgone => absurd hgone halive
      dsimp only
      split
      · rename_i hrunning
        exact ⟨h.active, h.current, fun _ => hrunning, hclosed, h.checks, runs, last, hcalls, hlast⟩
      · rename_i hrunning
        have hidle : Holds 0 { t with stopped := false, running := true } := by
          refine ⟨(h.holds_zero hrunning).active, h.current, fun _ => rfl, hclosed, h.checks, runs, last,
            hcalls, ?_⟩
          simpa [halive] using hlast
        exact hidle.schedule rfl _ _

theorem Holds.stopped (h : Holds 1 t) : Holds 1 { t with stopped := true } :=
  ⟨h.active, h.current, fun hgoing => (by cases hgoing), fun _ => rfl, h.checks, h.calls⟩

theorem Inv.stop (h : Inv t) : Inv t.stop := by
  unfold RepeatedTimerTask.stop
  split
  · exact h
  · rename_i hstopped
    have hrunning := Holds.going h hstopped
    have halive : t.destroyed = false := Bool.eq_false_iff.mpr fun hgone => hstopped (h.closed hgone)
    have hactive : Holds 1 { t with stopped := true } := (h.holds_one hrunning).stopped
    rw [check_of_true hrunning]
    rcases hactive.timerDel_cases with ⟨hdel, hidle⟩ | hdel
    · rw [hdel]
      exact hidle.rest hrunning rfl (by simp [halive])
    · rw [hdel]
      exact hactive.inv hrunning

theorem Inv.reset {timeoutMs : Option Int} (h : Inv t) :
    Inv (t.reset adjustTimeoutMs added timeoutMs) := by
  have hset : Inv { t with timeoutMs := timeoutMs.getD t.timeoutMs } :=
    ⟨h.active, h.current, h.started, h.closed, h.checks, h.calls⟩
  unfold RepeatedTimerTask.reset
  dsimp only
  split
  · exact hset
  · rename_i hstopped
    have hrunning := Holds.going h hstopped
    rw [check_of_true hrunning]
    rcases (hset.holds_one hrunning).timerDel_cases with ⟨hdel, hidle⟩ | hdel
    · rw [hdel]
      exact hidle.schedule hrunning _ _
    · rw [hdel]
      exact hset

private theorem Holds.onTimedout (h : Holds 0 t) (hrunning : t.running = true) : Inv t.onTimedout :=
  h.schedule hrunning id false

private theorem Inv.runOnceNow (h : Inv t) : Inv t.runOnceNow := by
  unfold RepeatedTimerTask.runOnceNow
  by_cases hrunning : t.running = true
  · rcases (h.holds_one hrunning).timerDel_cases with ⟨hdel, hidle⟩ | hdel
    · rw [hdel]
      exact hidle.onTimedout hrunning
    · rw [hdel]
      exact h
  · have hnothing := (h.holds_zero hrunning).active
    rw [timerDel_nothing (List.length_eq_zero_iff.mp (by omega))]
    exact h

theorem Inv.destroy (h : Inv t) : Inv t.destroy := by
  unfold RepeatedTimerTask.destroy
  split
  · exact h
  · rename_i halive
    obtain ⟨runs, last, hcalls, hlast⟩ := h.calls
    have hnone : t.destroying + last = 0 := by simpa [halive] using hlast
    dsimp only
    by_cases hrunning : t.running = true
    · rw [if_neg (by simp [hrunning])]
      have hdestroyed : t.stopped = true → Holds 1 { t with destroyed := true } := by
        intro hstopped
        refine ⟨(h.holds_one hrunning).active, h.current, h.started, fun _ => hstopped, h.checks,
          runs, last, hcalls, ?_⟩
        simpa [hrunning] using hnone
      split
      · rename_i hstopped
        exact (hdestroyed hstopped).inv hrunning
      · have hactive : Holds 1 { t with destroyed := true, stopped := true } := by
          refine ⟨(h.holds_one hrunning).active, h.current, fun hgoing => (by cases hgoing),
            fun _ => rfl, h.checks, runs, last, hcalls, ?_⟩
          simpa [hrunning] using hnone
        rcases hactive.timerDel_cases with ⟨hdel, hidle⟩ | hdel
        · rw [hdel]
          exact hidle.rest hrunning rfl rfl
        · rw [hdel]
          dsimp only
          rw [if_neg (by simp), check_of_true hrunning]
          exact hactive.inv hrunning
    · have hidle := h.holds_zero hrunning
      have hstopped : t.stopped = true := by
        by_contra hgoing
        exact hrunning (Holds.going h hgoing)
      rw [if_pos (by simpa using hrunning), check_of_true hstopped]
      refine ⟨?_, h.current, h.started, fun _ => hstopped, h.checks, runs, last, hcalls, ?_⟩
      · simpa [hrunning] using hidle.active
      · simp only [hrunning, Bool.not_false, Bool.and_true, Bool.toNat_true]
        omega

theorem Holds.finish (h : Holds 0 t) (hrunning : t.running = true) :
    Inv (t.finish adjustTimeoutMs added) := by
  have hleft : Holds 0 { t with invoking := false } :=
    ⟨h.active, h.current, h.started, h.closed, h.checks, h.calls⟩
  unfold RepeatedTimerTask.finish
  rw [check_of_true hrunning]
  dsimp only
  split
  · rename_i hstopped
    split
    · rename_i hdestroyed
      exact hleft.rest hrunning hstopped (by simp [hdestroyed])
    · rename_i halive
      exact hleft.rest hrunning hstopped (by simp [halive])
  · exact hleft.schedule hrunning _ _

theorem Inv.alone {position : Nat} {phase : Phase} (h : Inv t)
    (hphase : t.inFlight[position]? = some phase) :
    t.running = true ∧ t.pending.length = 0 ∧ t.inFlight.length = 1 := by
  have hlt := (List.getElem?_eq_some_iff.mp hphase).1
  by_cases hrunning : t.running = true
  · have hactive := (h.holds_one hrunning).active
    exact ⟨hrunning, by omega, by omega⟩
  · have hidle := (h.holds_zero hrunning).active
    omega

private theorem Inv.fire {position : Nat} (h : Inv t) (hposition : position < t.pending.length) :
    Inv { t with pending := t.pending.eraseIdx position }.onTimedout := by
  by_cases hrunning : t.running = true
  · have hactive := (h.holds_one hrunning).active
    have hleft : Holds 0 { t with pending := t.pending.eraseIdx position } := by
      refine ⟨?_, ?_, h.started, h.closed, h.checks, h.calls⟩
      · rw [List.length_eraseIdx_of_lt hposition]
        dsimp only
        omega
      · intro timer htimer
        exact h.current timer (List.mem_of_mem_eraseIdx htimer)
    exact hleft.onTimedout hrunning
  · have hidle := (h.holds_zero hrunning).active
    omega

/-- While an invocation is in flight nothing is destroyed, so `run()` may be called. -/
theorem Inv.run {position : Nat} (h : Inv t)
    (hphase : t.inFlight[position]? = some .unlocked) :
    Inv { t with inFlight := t.inFlight.set position .running, calls := t.calls ++ [.run] } := by
  obtain ⟨hrunning, -, -⟩ := h.alone hphase
  obtain ⟨runs, last, hcalls, hlast⟩ := h.calls
  have hnone : t.destroying + last = 0 := by simpa [hrunning] using hlast
  have hactive := h.active
  rw [← List.length_set (i := position) (a := Phase.running)] at hactive
  refine ⟨hactive, h.current, h.started, h.closed, h.checks, runs + 1, 0, ?_, ?_⟩
  · have hlast : last = 0 := by omega
    rw [hcalls, hlast, List.replicate_succ']
    simp
  · simp only [hrunning, Bool.not_true, Bool.and_false, Bool.toNat_false]
    omega

private theorem Inv.onDestroy (h : Inv t) (hdue : 0 < t.destroying) :
    Inv { t with destroying := t.destroying - 1, calls := t.calls ++ [.onDestroy] } := by
  obtain ⟨runs, last, hcalls, hlast⟩ := h.calls
  refine ⟨h.active, h.current, h.started, h.closed, h.checks, runs, last + 1, ?_, ?_⟩
  · rw [hcalls, List.replicate_succ', List.append_assoc]
  · dsimp only
    omega

theorem Inv.step {t' : RepeatedTimerTask} {event : Event} (h : Inv t)
    (hstep : step adjustTimeoutMs t event = some t') : Inv t' := by
  cases event with
  | start added =>
    cases hstep
    exact h.start
  | stop =>
    cases hstep
    exact h.stop
  | reset timeoutMs added =>
    cases hstep
    exact h.reset
  | runOnceNow =>
    cases hstep
    exact h.runOnceNow
  | destroy =>
    cases hstep
    exact h.destroy
  | fire position =>
    obtain ⟨hposition, hnext⟩ := Option.ite_none_right_eq_some.mp hstep
    cases hnext
    exact h.fire hposition
  | enter position =>
    obtain ⟨hphase, hnext⟩ := Option.ite_none_right_eq_some.mp hstep
    cases hnext
    have hactive := h.active
    rw [← List.length_set (i := position) (a := Phase.unlocked)] at hactive
    exact ⟨hactive, h.current, h.started, h.closed, h.checks, h.calls⟩
  | run position =>
    obtain ⟨hphase, hnext⟩ := Option.ite_none_right_eq_some.mp hstep
    cases hnext
    exact h.run hphase
  | finish position added =>
    obtain ⟨hphase, hnext⟩ := Option.ite_none_right_eq_some.mp hstep
    cases hnext
    obtain ⟨hrunning, hpending, hone⟩ := h.alone hphase
    have hlt := (List.getElem?_eq_some_iff.mp hphase).1
    have hleft : Holds 0 { t with inFlight := t.inFlight.eraseIdx position } := by
      refine ⟨?_, h.current, h.started, h.closed, h.checks, h.calls⟩
      rw [List.length_eraseIdx_of_lt hlt]
      dsimp only
      omega
    exact hleft.finish hrunning
  | onDestroy =>
    obtain ⟨hdue, hnext⟩ := Option.ite_none_right_eq_some.mp hstep
    cases hnext
    exact h.onDestroy hdue

private theorem behind_onDestroy {runs last : Nat} {before behind : List UserCall}
    (hlast : last ≤ 1)
    (h : List.replicate runs .run ++ List.replicate last .onDestroy =
      before ++ UserCall.onDestroy :: behind) : behind = [] := by
  have hruns : UserCall.onDestroy ∉ List.replicate runs UserCall.run := by
    intro hmem
    cases List.eq_of_mem_replicate hmem
  rcases List.eq_nil_or_concat' behind with hnil | ⟨front, call, rfl⟩
  · exact hnil
  · exfalso
    rcases Nat.le_one_iff_eq_zero_or_eq_one.mp hlast with rfl | rfl
    · rw [List.replicate_zero, List.append_nil] at h
      exact hruns (h ▸ by simp)
    · rw [← List.cons_append, ← List.append_assoc] at h
      have hfront := (List.append_inj' h rfl).1
      exact hruns (hfront ▸ by simp)

private theorem Inv.disciplined (h : Inv t) : Disciplined t := by
  obtain ⟨runs, last, hcalls, hlast⟩ := h.calls
  have hactive : t.pending.length + t.inFlight.length = t.running.toNat := h.active
  have hrunning : t.running.toNat ≤ 1 := Bool.toNat_le t.running
  have hcount : t.calls.count .onDestroy = last := by
    rw [hcalls, List.count_append, List.count_replicate_self]
    simp [List.count_replicate]
  have hdue : (t.destroyed && !t.running).toNat ≤ 1 := Bool.toNat_le _
  refine ⟨?_, by omega, h.checks, by omega, ?_, ?_⟩
  · rw [hactive]
    cases t.running <;> simp
  · intro hended
    have hpositive : 0 < t.destroying + last := by
      rcases hended with hended | hended
      · omega
      · have hpos := List.count_pos_iff.mpr hended
        omega
    have hidle : t.running = false := by
      by_contra hgoing
      simp only [Bool.not_eq_false] at hgoing
      simp only [hgoing, Bool.not_true, Bool.and_false, Bool.toNat_false] at hlast
      omega
    rw [hidle, Bool.toNat_false] at hactive
    exact ⟨List.length_eq_zero_iff.mp (by omega), List.length_eq_zero_iff.mp (by omega)⟩
  · intro before behind hsplit
    rw [hcalls] at hsplit
    exact behind_onDestroy (by omega) hsplit

end Keep

/-- In every run of an initialised task its flags keep their promises. -/
theorem disciplined_of_run (adjustTimeoutMs : Int → Int) (timeoutMs : Int) {events : List Event}
    {t : RepeatedTimerTask}
    (hrun : runEvents (step adjustTimeoutMs) (.init timeoutMs) events = some t) :
    Disciplined t :=
  (invariant_of_every_step (fun _ _ _ => Inv.step) (inv_init timeoutMs) hrun).disciplined

section Samples

private def overtaken : List Event :=
  [.start true, .fire 0, .enter 0, .stop, .start true, .destroy, .run 0, .finish 0 true,
    .onDestroy]

private def overtakenTask : RepeatedTimerTask where
  timeoutMs := 100
  stopped := true
  running := false
  destroyed := true
  invoking := false
  timer := 1
  pending := []
  nextTimer := 2
  inFlight := []
  destroying := 0
  calls := [.run, .onDestroy]
  failedChecks := 0

/-- The task is stopped, started again and destroyed while its callback is on the way. -/
theorem disciplined_of_run_overtaken : runEvents (step id) (.init 100) overtaken =
    some overtakenTask ∧ Disciplined overtakenTask := by
  have hrun : runEvents (step id) (.init 100) overtaken = some overtakenTask := rfl
  exact ⟨hrun, disciplined_of_run id 100 hrun⟩

end Samples

end HitConsistency.Node.TimerDiscipline
