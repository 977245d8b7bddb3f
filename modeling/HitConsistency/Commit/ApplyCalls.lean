/- GID: HitConsistency/Commit/ApplyCalls
   digest: do_committed with state machines that give up, every subscript kept within its deque. -/

import HitConsistency.Commit.ClosureLifetimes
import HitConsistency.Commit.StateMachineCaller

set_option autoImplicit false
set_option relaxedAutoImplicit false

/-!
A state machine may give up at any entry of type `DATA`. An entry that the log manager
does not find stops the iterator too. A subscript past the end of a vector or a deque
is undefined, and the call has no result then.
-/

namespace HitConsistency.Commit.ApplyCalls

open HitConsistency.Base.GuardedRuns
open HitConsistency.Base.IndexedDeque
open HitConsistency.Commit.ApplyPipeline
open HitConsistency.Commit.ClosurePairs
open HitConsistency.Commit.PendingQueues
open HitConsistency.Commit.StateMachineCaller
open HitConsistency.Log.Entry
open HitConsistency.Replication.PeerSender (mem_indexRange)
open HitConsistency.Replication.PeerSender.Replicator (indexRange)

/-- The `ntail` of a `set_error_and_rollback` call, for the positions that have one. -/
abbrev Rollback := Int → Option Nat

/-- The number of entries is only checked; the position of the iterator stays. -/
def setErrorAndRollback (iter : IteratorImpl) (ntail : Nat) : IteratorImpl :=
  if ntail = 0 then iter else { iter with curEntry := none, error := true }

/-- The state machine takes the entry the iterator stands at. -/
def applyOne (rollback : Rollback) (iter : IteratorImpl) : IteratorImpl :=
  if iter.curEntry.map LogEntry.type = some .data then
    (rollback iter.it).elim iter (setErrorAndRollback iter)
  else iter

/-- The loop of `do_committed`; `Iterator::next` stays where an error is set. -/
def applyEntries (getEntry : Int → Option LogEntry) (rollback : Rollback) :
    Nat → IteratorImpl → Option (List (Int × Option Nat) × IteratorImpl)
  | 0, _ => none
  | n + 1, iter =>
      if iter.isGood then do
        let done ← iter.done
        let taken := applyOne rollback iter
        let (rest, last) ← applyEntries getEntry rollback n
          (if taken.isGood then taken.next getEntry else taken)
        some ((iter.acturalIndex, done) :: rest, last)
      else some ([], iter)

/-- One round of `run_the_rest_closure_with_error`. -/
def runWithError (closure : List (Option Nat)) (ran : List Nat) (i : Int) : Option (List Nat) :=
  (item closure i).map fun done => ran ++ done.toList

/-- The loop compares with the size as an unsigned number, so it has no round from `-1`
on, and its last round is at the size. -/
def runTheRestClosureWithError (iter : IteratorImpl) : Option (List Nat) :=
  if iter.it < 0 then some []
  else runEvents (runWithError iter.closure) [] (indexRange iter.it iter.indexList.length)

structure Stop where
  popped : Popped
  handed : List (Int × Option Nat)
  iter : IteratorImpl

def handOut (getEntry : Int → Option LogEntry) (rollback : Rollback) (s : FsmCaller)
    (task : Committed) : Option Stop := do
  let popped ← s.closures.popClosureUntil task.committedIndex task.ooCommittedEntries
  let (handed, iter) ← applyEntries getEntry rollback
    (FsmCaller.rounds popped s.lastAppliedIndex task.committedIndex)
    (IteratorImpl.start getEntry popped.out s.lastAppliedIndex task.committedIndex
      popped.outIndexes)
  some ⟨popped, handed, iter⟩

/-- One round over the indexes. The difference is compared as an unsigned number, and
one equal to the size of the deque goes to the subscript. -/
def markOne (lastAppliedIndex : Int) (queue : List Bool) (index : Int) : Option (List Bool) :=
  if index < lastAppliedIndex ∨ queue.length < index - lastAppliedIndex then
    some (queue ++ [false])
  else store queue (index - lastAppliedIndex) true

/-- The state behind a call, with the closures that were run with the error. -/
structure Applied where
  caller : FsmCaller
  failedClosures : List Nat

def doCommitted (getEntry : Int → Option LogEntry) (rollback : Rollback) (s : FsmCaller)
    (task : Committed) : Option Applied :=
  if s.error then some ⟨s, []⟩
  else if task.committedIndex ≤ s.lastAppliedIndex ∧ task.ooCommittedEntries = [] then
    some ⟨s, []⟩
  else do
    let stop ← handOut getEntry rollback s task
    let failed ← (if stop.iter.error then runTheRestClosureWithError stop.iter else some [])
    let marked ← runEvents (markOne s.lastAppliedIndex) s.ooApplyQueue stop.iter.indexList
    let (queue, advance) ← FsmCaller.popApplied marked
    some ⟨{
      closures := stop.popped.queue
      lastAppliedIndex := task.committedIndex + advance
      ooApplyQueue := queue
      error := stop.iter.error
      handed := s.handed ++ stop.handed }, failed⟩

/-- The error at the position where the loop has stopped is contained: exactly the
closures from there on are run with it, and the applied index stays below. -/
def Contained (getEntry : Int → Option LogEntry) (rollback : Rollback) (s : FsmCaller)
    (task : Committed) (stop : Stop) : Prop :=
  ∃ applied, doCommitted getEntry rollback s task = some applied ∧
    applied.failedClosures = (stop.popped.out.drop stop.iter.it.toNat).reduceOption ∧
    (applied.caller.lastAppliedIndex = s.lastAppliedIndex ∨
      applied.caller.lastAppliedIndex < stop.iter.acturalIndex)

section Frames

variable {getEntry : Int → Option LogEntry} {rollback : Rollback} {iter : IteratorImpl}

/-- A position that the iterator has is one of its list. -/
structure Bounded (closure : List (Option Nat)) (iter : IteratorImpl) : Prop where
  same : iter.closure = closure
  covers : closure.length ≤ iter.indexList.length
  it : iter.it < iter.indexList.length

private theorem bounded_next {closure : List (Option Nat)} (hclosure : iter.closure = closure)
    (hcovers : closure.length ≤ iter.indexList.length) :
    Bounded closure (iter.next getEntry) := by
  obtain ⟨hsame, hit, -, hlength⟩ := extend_frame iter
  unfold IteratorImpl.next
  dsimp only
  split
  · exact ⟨hsame.trans hclosure, le_trans hcovers hlength, by
      show (-1 : Int) < iter.extend.indexList.length
      omega⟩
  · rename_i index hindex
    have hbounds := item_eq_some_bounds hindex
    exact ⟨hsame.trans hclosure, le_trans hcovers hlength, hbounds.2⟩

private theorem setErrorAndRollback_frame (iter : IteratorImpl) (ntail : Nat) :
    (setErrorAndRollback iter ntail).closure = iter.closure ∧
      (setErrorAndRollback iter ntail).indexList = iter.indexList ∧
      (setErrorAndRollback iter ntail).it = iter.it := by
  unfold setErrorAndRollback
  split <;> exact ⟨rfl, rfl, rfl⟩

private theorem applyOne_frame (rollback : Rollback) (iter : IteratorImpl) :
    (applyOne rollback iter).closure = iter.closure ∧
      (applyOne rollback iter).indexList = iter.indexList ∧
      (applyOne rollback iter).it = iter.it := by
  unfold applyOne
  split
  · cases rollback iter.it with
    | none => exact ⟨rfl, rfl, rfl⟩
    | some ntail => exact setErrorAndRollback_frame iter ntail
  · exact ⟨rfl, rfl, rfl⟩

private theorem bounded_applyEntries {closure : List (Option Nat)} {n : Nat}
    {handed : List (Int × Option Nat)} {last : IteratorImpl} (h : Bounded closure iter)
    (hrun : applyEntries getEntry rollback n iter = some (handed, last)) :
    Bounded closure last := by
  induction n generalizing iter handed with
  | zero => cases hrun
  | succ n ih =>
    rw [applyEntries] at hrun
    split at hrun
    · obtain ⟨done, -, hrun⟩ := Option.bind_eq_some_iff.mp hrun
      obtain ⟨⟨rest, last'⟩, hrest, hrun⟩ := Option.bind_eq_some_iff.mp hrun
      cases hrun
      obtain ⟨hclosure, hlist, hit⟩ := applyOne_frame rollback iter
      refine ih ?_ hrest
      split
      · apply bounded_next (hclosure.trans h.same)
        rw [hlist]
        exact h.covers
      · exact ⟨hclosure.trans h.same, by rw [hlist]; exact h.covers, by
          rw [hit, hlist]
          exact h.it⟩
    · cases hrun
      exact h

end Frames

theorem popClosureUntil_out {q : ClosureQueue} {toIndex : Int} {oo : List Int} {popped : Popped}
    (hrun : q.popClosureUntil toIndex oo = some popped) :
    popped.out = [] ∨ popped.out.length = popped.outIndexes.length := by
  unfold ClosureQueue.popClosureUntil at hrun
  split at hrun
  · cases hrun
    exact .inl rfl
  · split at hrun
    · cases hrun
      exact .inl rfl
    · obtain ⟨loop, hloop, hrun⟩ := Option.bind_eq_some_iff.mp hrun
      obtain ⟨rest, -, hrun⟩ := Option.bind_eq_some_iff.mp hrun
      cases hrun
      exact .inr ((paired_start q).popLoop hloop).length

private theorem runTheRest_none {closure : List (Option Nat)} {iter : IteratorImpl}
    (h : Bounded closure iter) (hit : 0 ≤ iter.it) : runTheRestClosureWithError iter = none := by
  have hlast : (iter.indexList.length : Int) ∈ indexRange iter.it iter.indexList.length :=
    mem_indexRange.mpr ⟨h.it.le, le_refl _⟩
  have hcovers : (iter.closure.length : Int) ≤ iter.indexList.length := by
    rw [h.same]
    exact_mod_cast h.covers
  rw [runTheRestClosureWithError, if_neg (by omega)]
  cases hrest : runEvents (runWithError iter.closure) []
      (indexRange iter.it iter.indexList.length) with
  | none => rfl
  | some ran =>
    obtain ⟨before, after, hround⟩ := step_defined_of_mem hrest hlast
    rw [runWithError, item_none_of_le hcovers] at hround
    cases hround

/-- No error at a position of the batch is contained. -/
theorem not_contained (getEntry : Int → Option LogEntry) (rollback : Rollback) (s : FsmCaller)
    (task : Committed) (stop : Stop) (k : Nat) (hok : s.error = false)
    (hwork : ¬ (task.committedIndex ≤ s.lastAppliedIndex ∧ task.ooCommittedEntries = []))
    (hstop : handOut getEntry rollback s task = some stop) (herror : stop.iter.error = true)
    (hposition : stop.iter.it = k) : ¬ Contained getEntry rollback s task stop := by
  rintro ⟨applied, hrun, -⟩
  have hbounded : Bounded stop.popped.out stop.iter := by
    obtain ⟨popped, hpop, hrest⟩ := Option.bind_eq_some_iff.mp hstop
    obtain ⟨⟨handed, iter⟩, happly, hrest⟩ := Option.bind_eq_some_iff.mp hrest
    cases hrest
    have hcovers : popped.out.length ≤ popped.outIndexes.length := by
      rcases popClosureUntil_out hpop with hnil | hlength
      · simp [hnil]
      · exact hlength.le
    exact bounded_applyEntries (bounded_next rfl hcovers) happly
  have hrest := runTheRest_none hbounded (by omega)
  rw [doCommitted, if_neg (by simp [hok]), if_neg hwork, hstop] at hrun
  simp [herror, hrest] at hrun

section Samples

private def threeData (i : Int) : Option LogEntry :=
  if 1 ≤ i ∧ i ≤ 3 then some ⟨.data, ⟨i, 1⟩, 0, none, none, []⟩ else none

/-- A leader with three closures whose state machine gives up at the second entry. -/
private def givingUp : FsmCaller where
  closures := ⟨1, [some 1, some 2, some 3], [false, false, false]⟩
  lastAppliedIndex := 0
  ooApplyQueue := []
  error := false
  handed := []

private def atSecond : Rollback := fun position => if position = 1 then some 1 else none

private def secondStop : Stop where
  popped := ⟨⟨4, [], []⟩, [some 1, some 2, some 3], [1, 2, 3]⟩
  handed := [(1, some 1), (2, some 2)]
  iter := ⟨[some 1, some 2, some 3], 3, 0, 1, 2, none, [1, 2, 3], true⟩

theorem givingUp_not_contained : ¬ Contained threeData atSecond givingUp ⟨3, []⟩ secondStop :=
  not_contained threeData atSecond givingUp ⟨3, []⟩ secondStop 1 rfl (by decide) rfl rfl rfl

/-- The fourth closure of three is read. -/
theorem givingUp_undefined :
    handOut threeData atSecond givingUp ⟨3, []⟩ = some secondStop ∧
      doCommitted threeData atSecond givingUp ⟨3, []⟩ = none ∧
      ¬ Contained threeData atSecond givingUp ⟨3, []⟩ secondStop := by
  have hundefined : doCommitted threeData atSecond givingUp ⟨3, []⟩ = none := rfl
  refine ⟨rfl, hundefined, ?_⟩
  rintro ⟨applied, hrun, -⟩
  rw [hundefined] at hrun
  cases hrun

/-- A follower has no closures at all. -/
example : doCommitted threeData atSecond { givingUp with closures := .new } ⟨3, []⟩ = none := rfl

end Samples

end HitConsistency.Commit.ApplyCalls
