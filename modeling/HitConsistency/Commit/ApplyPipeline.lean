/- GID: HitConsistency/Commit/ApplyPipeline
   digest: From granted ballots to the state machine: reports, the closure queue, the apply loop. -/

import HitConsistency.Commit.QuorumLedger
import HitConsistency.Replication.DependencyMask
import HitConsistency.Replication.PeerSender

set_option autoImplicit false
set_option relaxedAutoImplicit false

/-!
One leadership, from `reset_pending_index` on. `commit_at` releases the lock of the
box before it loads the last committed index and before it calls `on_committed`, so
a report is first unlocked, then loaded, then queued, and other calls may come
between. The execution queue runs any number of queued tasks at once.
-/

namespace HitConsistency.Commit.ApplyPipeline

open HitConsistency.Base.GuardedRuns
open HitConsistency.Base.IndexedDeque
open HitConsistency.Group.Peers
open HitConsistency.Log.Entry
open HitConsistency.Commit.PendingQueues
open HitConsistency.Commit.QuorumLedger
open HitConsistency.Replication.DependencyMask (checkDependency)
open HitConsistency.Replication.PeerSender (indexRange_ascending)
open HitConsistency.Replication.PeerSender.Replicator (indexRange Handled)

/-- The closures of the pending tasks; a task may come without one. -/
structure ClosureQueue where
  firstIndex : Int
  queue : List (Option Nat)
  hasCommittedQueue : List Bool
  deriving DecidableEq

/-- What `pop_closure_until` leaves in its output arguments. -/
structure Popped where
  queue : ClosureQueue
  out : List (Option Nat)
  outIndexes : List Int
  deriving DecidableEq

namespace ClosureQueue

def new : ClosureQueue := ⟨0, [], []⟩

/-- Swaps out the closures only; the flag deque is left as it is. -/
def clear (q : ClosureQueue) : ClosureQueue := { q with firstIndex := 0, queue := [] }

def resetFirstIndex (q : ClosureQueue) (firstIndex : Int) : ClosureQueue :=
  { q with firstIndex := firstIndex }

def appendPendingClosure (q : ClosureQueue) (closure : Option Nat) : ClosureQueue :=
  { q with
    queue := q.queue ++ [closure]
    hasCommittedQueue := q.hasCommittedQueue ++ [false] }

/-- One round of the first loop: an index that was not handed out yet is. -/
def popOne (popped : Popped) (index : Int) : Option Popped := do
  let q := popped.queue
  let flag ← item q.hasCommittedQueue (index - q.firstIndex)
  if flag then some popped
  else
    let closure ← item q.queue (index - q.firstIndex)
    let flags ← store q.hasCommittedQueue (index - q.firstIndex) true
    some ⟨{ q with hasCommittedQueue := flags }, popped.out ++ [closure],
      popped.outIndexes ++ [index]⟩

/-- The second loop: pop both deques while the front flag is set. -/
def popFront : Int → List (Option Nat) → List Bool → Option ClosureQueue
  | _, [], true :: _ => none
  | firstIndex, _ :: queue, true :: flags => popFront (firstIndex + 1) queue flags
  | firstIndex, queue, flags => some ⟨firstIndex, queue, flags⟩

/-- The `-1` of a list that reaches past the queue is only logged by the caller. -/
def popClosureUntil (q : ClosureQueue) (toIndex : Int) (ooCommittedEntries : List Int) :
    Option Popped :=
  if q.queue = [] ∨ ∃ back ∈ ooCommittedEntries.getLast?, back < q.firstIndex then
    some ⟨q, [], ooCommittedEntries⟩
  else if ∃ back ∈ ooCommittedEntries.getLast?, q.firstIndex + q.queue.length - 1 < back then
    some ⟨q, [], []⟩
  else do
    let popped ← runEvents popOne ⟨q, [], []⟩
      (indexRange q.firstIndex toIndex ++ ooCommittedEntries)
    let rest ← popFront popped.queue.firstIndex popped.queue.queue popped.queue.hasCommittedQueue
    some { popped with queue := rest }

end ClosureQueue

/-- An entry of the leader's log with the identifier its task carried. -/
structure TaskEntry where
  dependencyId : Int
  entry : LogEntry
  deriving DecidableEq

/-- A list handed to `commit_at`; the replicator and the stable closure of the leader
collect their indexes in ascending order. -/
structure Acknowledgement where
  indexes : List Int
  peer : PeerId
  ascending : indexes.Pairwise (· < ·)

namespace Acknowledgement

/-- The list of `LeaderStableClosure::Run`. -/
def ofStableClosure (firstLogIndex : Int) (nentries : Nat) (peer : PeerId) : Acknowledgement :=
  ⟨indexRange firstLogIndex (firstLogIndex + nentries - 1), peer, indexRange_ascending _ _⟩

end Acknowledgement

/-- The leader between `apply` and `on_apply`. `ledger` records the acknowledgements
so far, and `applied` the indexes handed to the state machine. -/
structure Pipeline where
  log : List TaskEntry
  dependencyIdQueue : List Int
  box : BallotBox
  ledger : Ledger
  closures : ClosureQueue
  /-- Lists of granted indexes whose `commit_at` has released the lock. -/
  reports : List (List Int)
  /-- The arguments of `on_committed` calls that are about to be made. -/
  calls : List Committed
  /-- The execution queue. -/
  tasks : List Committed
  lastAppliedIndex : Int
  error : Bool
  applied : List Int

/-- The first argument of `on_committed` swallows the head of the second. -/
def onCommitted (committedIndex : Int) (ooCommittedEntries : List Int) : Committed :=
  ⟨committedIndex, ooCommittedEntries.dropWhile (· ≤ committedIndex)⟩

/-- `max_committed_index` over a batch of tasks. -/
def maxCommittedIndex (batch : List Committed) : Int :=
  batch.foldl (fun index task => max index task.committedIndex) (-1)

namespace Pipeline

/-- `get_entry` finds every index of the log. -/
def hasEntry (s : Pipeline) (index : Int) : Bool := (item s.log (index - 1)).isSome

/-- The iterator walks its list up to a missing entry. A state machine that rolls back
stops it earlier, behind the given number of entries. -/
def iterate (s : Pipeline) (indexList : List Int) : Option Nat → List Int × Bool
  | none =>
      let handed := indexList.takeWhile s.hasEntry
      (handed, decide (handed.length < indexList.length))
  | some rollback => ((indexList.takeWhile s.hasEntry).take rollback, true)

/-- The last loop of `do_committed` advances the applied index past the committed one by
as many flags as it finds set. It reads the deque past its end, so their number is
taken as given. -/
def doCommitted (s : Pipeline) (committedIndex : Int) (ooCommittedEntries : List Int)
    (advance : Nat) (rollback : Option Nat) : Option Pipeline :=
  if s.error then some s
  else if committedIndex ≤ s.lastAppliedIndex ∧ ooCommittedEntries = [] then some s
  else do
    let popped ← s.closures.popClosureUntil committedIndex ooCommittedEntries
    let indexList := popped.outIndexes ++
      if popped.out = [] then indexRange (s.lastAppliedIndex + 1) committedIndex else []
    let (handed, error) := s.iterate indexList rollback
    some { s with
      closures := popped.queue
      lastAppliedIndex := committedIndex + advance
      error := error
      applied := s.applied ++ handed }

/-- One round of the loop in `NodeImpl::apply`. -/
def appendTask (currentTerm : Int) (lookBack : Nat) (s : Pipeline)
    (task : Replication.DependencyMask.Task) (done : Option Nat) (ballot : QuorumLedger.Task) :
    Pipeline :=
  if task.expectedTerm ≠ -1 ∧ task.expectedTerm ≠ currentTerm then s
  else
    let (dependency, queue) := checkDependency lookBack s.dependencyIdQueue task.dependencyId
    { s with
      log := s.log ++ [⟨task.dependencyId,
        ⟨.data, ⟨s.log.length + 1, currentTerm⟩, dependency, none, none, task.data⟩⟩]
      dependencyIdQueue := queue
      box := s.box.appendPendingTask ballot.conf ballot.oldConf
      ledger := s.ledger.append ballot
      closures := s.closures.appendPendingClosure done }

/-- The state right behind `become_leader`: the log so far, what the node has
committed and applied of it, and the identifiers left in its queue. -/
def start (earlier : List TaskEntry) (dependencyIdQueue : List Int)
    (lastCommittedIndex lastAppliedIndex : Int) (applied : List Int) : Pipeline :=
  { log := earlier
    dependencyIdQueue := dependencyIdQueue
    box := opened lastCommittedIndex (earlier.length + 1)
    ledger := .start (earlier.length + 1)
    closures := ⟨earlier.length + 1, [], []⟩
    reports := []
    calls := []
    tasks := []
    lastAppliedIndex := lastAppliedIndex
    error := false
    applied := applied }

end Pipeline

inductive Event
  | apply (task : Replication.DependencyMask.Task) (done : Option Nat) (ballot : QuorumLedger.Task)
  | commitAt (ack : Acknowledgement)
  | load (position : Nat)
  | onCommitted (position : Nat)
  | run (count advance : Nat) (rollback : Option Nat)

namespace Pipeline

/-- A step; a position without a call there leaves everything as it is. -/
def step (currentTerm : Int) (lookBack : Nat) (s : Pipeline) : Event → Option Pipeline
  | .apply task done ballot => some (s.appendTask currentTerm lookBack task done ballot)
  | .commitAt ack => do
      let outcome ← s.box.commitAt ack.indexes ack.peer
      some { s with
        box := outcome.box
        ledger := s.ledger.commit ack.indexes ack.peer
        reports := s.reports ++ (outcome.onCommitted.map Committed.ooCommittedEntries).toList }
  | .load position =>
      match s.reports[position]? with
      | none => some s
      | some report =>
          some { s with
            reports := s.reports.eraseIdx position
            calls := s.calls ++ [⟨s.box.lastCommittedIndex, report⟩] }
  | .onCommitted position =>
      match s.calls[position]? with
      | none => some s
      | some call =>
          some { s with
            calls := s.calls.eraseIdx position
            tasks := s.tasks ++
              [ApplyPipeline.onCommitted call.committedIndex call.ooCommittedEntries] }
  | .run count advance rollback =>
      let batch := s.tasks.take count
      let rest : Pipeline := { s with tasks := s.tasks.drop count }
      if 0 ≤ maxCommittedIndex batch then
        rest.doCommitted (maxCommittedIndex batch) (batch.flatMap Committed.ooCommittedEntries)
          advance rollback
      else some rest

end Pipeline

/-- Bit `k` of the mask of entry `i` is set, and entry `i - k` carries its identifier. -/
def Conflicts (log : List TaskEntry) (i : Int) (k : Nat) : Prop :=
  ∃ entry ∈ item log (i - 1), ∃ other ∈ item log (i - k - 1),
    entry.entry.dependency.getLsbD k = true ∧ entry.dependencyId = other.dependencyId

instance conflictsDecidable (log : List TaskEntry) (i : Int) (k : Nat) :
    Decidable (Conflicts log i k) :=
  inferInstanceAs (Decidable (∃ entry ∈ item log (i - 1), _))

/-- Entry `i` has to be applied behind entry `j`. -/
def Depends (log : List TaskEntry) (i j : Int) : Prop := ∃ k : Nat, j = i - k ∧ Conflicts log i k

end HitConsistency.Commit.ApplyPipeline
