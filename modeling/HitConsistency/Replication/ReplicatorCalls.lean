/- GID: HitConsistency/Replication/ReplicatorCalls
   digest: The calls of a replicator with its two queues in fly, its catch-up wait and its lock. -/

import HitConsistency.Replication.PeerSender

set_option autoImplicit false
set_option relaxedAutoImplicit false

/-!
A call runs under the lock of the replicator's `bthread_id`. It gives the lock back, or
destroys the replicator, or ends with a tail call that inherits the lock, or returns with
the lock held. Here the tail call is part of the result, so that each call stands alone.
The front of an empty `_append_entries_in_fly` is read as whatever the memory holds, and
the read is remembered; a window that is read or popped while empty has no defined result.
A failed `CHECK` only logs. A result of another component comes from the environment.
-/

namespace HitConsistency.Replication.ReplicatorCalls

open HitConsistency.Base.GuardedRuns
open HitConsistency.Base.IndexedDeque
open HitConsistency.Commit.PendingQueues
open HitConsistency.Group.Peers
open HitConsistency.Log.Entry
open HitConsistency.Replication.PeerSender (Flags LogView St)

/-- The state of a `bthread_id`; `broken` is an unlock by a call that did not hold it. -/
inductive Lock
  | free | held | destroyed | broken
  deriving DecidableEq

namespace Lock

def unlock : Lock → Lock
  | .held => .free
  | _ => .broken

def unlockAndDestroy : Lock → Lock
  | .held => .destroyed
  | _ => .broken

end Lock

inductive ErrorCode
  | ok | timedOut | perm | stop | unknown
  deriving DecidableEq

structure FlyingAppendEntriesRpc where
  logIndex : Int
  entriesSize : Nat
  callId : Nat
  deriving DecidableEq

structure CatchupClosure where
  maxMargin : Int
  hasTimer : Bool
  errorWasSet : Bool
  deriving DecidableEq

structure Replicator where
  serverId : PeerId
  peerId : PeerId
  term : Int
  nextIndex : Int
  ooStartIndex : Int
  ooCommittedEntries : List Bool
  flyingAppendEntriesSize : Int
  hasSucceeded : Bool
  timeoutNowIndex : Int
  readonlyIndex : Int
  st : St
  appendEntriesInFly : List FlyingAppendEntriesRpc
  statusAppendEntriesInFly : List Bool
  waitId : Nat
  isWaiterCanceled : Bool
  catchupClosure : Option CatchupClosure
  id : Lock
  readEmptyFront : Bool
  deriving DecidableEq

/-- What a call meets: the log and the ballot box, the id of its controller, the id of a
waiter that it registers, whether `bthread_timer_add` works, whether `bthread_timer_del`
finds the timer running, and what an empty queue has at its front. A log manager that has
stopped hands out 0. -/
structure Env where
  log : LogView
  box : BallotBox
  callId : Nat
  waitId : Nat
  timerAdded : Bool
  timerRunning : Bool
  stale : Int

inductive Call
  | sendEntries | sendEmptyEntries | waitMoreEntries | block
  deriving DecidableEq

/-- What a call leaves: the replicator, the request it has sent, the list it has given to
`commit_at`, the term it has told the node, and the tail call. -/
structure Returned where
  replicator : Replicator
  request : Option AppendEntriesRequest
  commitIndexes : Option (List Int)
  increaseTermTo : Option Int
  call : Option Call
  deriving DecidableEq

/-- The position of an unanswered call; the scan stops behind the answered range. -/
def findFlying (rpcFirstIndex : Int) (callId : Nat) :
    List FlyingAppendEntriesRpc → List Bool → Option Nat
  | rpc :: rest, status :: statuses =>
      if rpcFirstIndex < rpc.logIndex then none
      else if rpc.callId = callId ∧ status then some 0
      else (findFlying rpcFirstIndex callId rest statuses).map (· + 1)
  | _, _ => none

/-- The loop that drops answered calls and calls below the window, with what it leaves of
both queues and of `_flying_append_entries_size`. -/
def popFlying (ooStartIndex : Int) :
    List FlyingAppendEntriesRpc → List Bool → Int → List FlyingAppendEntriesRpc × List Bool × Int
  | rpc :: rest, status :: statuses, flying =>
      if !status || rpc.logIndex + rpc.entriesSize ≤ ooStartIndex then
        popFlying ooStartIndex rest statuses (flying - rpc.entriesSize)
      else (rpc :: rest, status :: statuses, flying)
  | rpcs, statuses, flying => (rpcs, statuses, flying)

def withStatus (rpc : FlyingAppendEntriesRpc) (status : Bool) :
    PeerSender.FlyingAppendEntriesRpc where
  logIndex := rpc.logIndex
  entriesSize := rpc.entriesSize
  callId := rpc.callId
  unanswered := status

/-- The calls behind the answered ones at the front. -/
def skipAnswered : List FlyingAppendEntriesRpc → List Bool → List FlyingAppendEntriesRpc
  | _ :: rest, false :: statuses => skipAnswered rest statuses
  | rpcs, _ => rpcs

namespace Replicator

/-- The replicator that `start` has locked and sends its first empty request with. -/
def start (serverId peerId : PeerId) (term : Int) (log : LogView) : Replicator where
  serverId := serverId
  peerId := peerId
  term := term
  nextIndex := log.lastLogIndex + 1
  ooStartIndex := 1
  ooCommittedEntries := []
  flyingAppendEntriesSize := 0
  hasSucceeded := false
  timeoutNowIndex := 0
  readonlyIndex := 0
  st := .idle
  appendEntriesInFly := []
  statusAppendEntriesInFly := []
  waitId := 0
  isWaiterCanceled := false
  catchupClosure := none
  id := .held
  readEmptyFront := false

def lock (r : Replicator) : Replicator := { r with id := .held }

def unlock (r : Replicator) : Replicator := { r with id := r.id.unlock }

def destroy (r : Replicator) : Replicator := { r with id := r.id.unlockAndDestroy }

def view (r : Replicator) : PeerSender.Replicator where
  serverId := r.serverId
  peerId := r.peerId
  term := r.term
  nextIndex := r.nextIndex
  ooStartIndex := r.ooStartIndex
  ooCommittedEntries := r.ooCommittedEntries
  flyingAppendEntriesSize := r.flyingAppendEntriesSize
  appendEntriesInFly := List.zipWith withStatus r.appendEntriesInFly r.statusAppendEntriesInFly
  st := r.st
  hasSucceeded := r.hasSucceeded
  waiting := r.waitId ≠ 0
  isWaiterCanceled := r.isWaiterCanceled
  idLocked := r.id = .held

def ends (r : Replicator) : Returned := ⟨r, none, none, none, none⟩

def callsOn (r : Replicator) (call : Call) : Returned := ⟨r, none, none, none, some call⟩

def minFlyingIndex (r : Replicator) (stale : Int) : Int :=
  (r.appendEntriesInFly.head?.map FlyingAppendEntriesRpc.logIndex).getD stale

/-- Remember a call of `_min_flying_index`. -/
def readFront (r : Replicator) : Replicator :=
  { r with readEmptyFront := r.readEmptyFront || r.appendEntriesInFly.isEmpty }

def cancelAppendEntriesRpcs (r : Replicator) : Replicator :=
  { r with appendEntriesInFly := [], statusAppendEntriesInFly := [] }

def resetNextIndex (r : Replicator) : Replicator :=
  let unanswered := skipAnswered r.appendEntriesInFly r.statusAppendEntriesInFly
  { r.cancelAppendEntriesRpcs with
    nextIndex := (unanswered.head?.map FlyingAppendEntriesRpc.logIndex).getD r.nextIndex
    flyingAppendEntriesSize := 0
    isWaiterCanceled := true
    waitId := 0 }

def sendEmptyEntries (r : Replicator) (env : Env) (isHeartbeat : Bool) : Returned :=
  match r.view.fillCommonFields env.box env.log (r.nextIndex - 1) isHeartbeat with
  | none => r.ends
  | some request =>
      let sent : Replicator :=
        if isHeartbeat then r
        else
          { r with
            st := .appendingEntries
            appendEntriesInFly := r.appendEntriesInFly ++ [⟨r.nextIndex, 0, env.callId⟩]
            statusAppendEntriesInFly := r.statusAppendEntriesInFly ++ [true] }
      { sent.unlock.ends with request := some request }

/-- Too many requests in flying, or the replicator is in block. -/
def Skips (flags : Flags) (r : Replicator) : Prop :=
  flags.raftMaxEntriesSize ≤ r.flyingAppendEntriesSize ∨
    flags.raftMaxEntriesSize ≤ r.statusAppendEntriesInFly.length ∨
    flags.raftMaxParallelAppendEntriesRpcNum ≤ r.appendEntriesInFly.length ∨ r.st = .blocking

instance skipsDecidable (flags : Flags) (r : Replicator) : Decidable (r.Skips flags) :=
  inferInstanceAs (Decidable (_ ∨ _))

/-- The part of `_send_entries` behind a filled request with one entry. -/
def pushEntry (r : Replicator) (env : Env) : Replicator :=
  let pushed : Replicator :=
    { r with
      appendEntriesInFly := r.appendEntriesInFly ++ [⟨r.nextIndex, 1, env.callId⟩]
      statusAppendEntriesInFly := r.statusAppendEntriesInFly ++ [true]
      nextIndex := r.nextIndex + 1
      flyingAppendEntriesSize := r.flyingAppendEntriesSize + 1
      st := .appendingEntries }
  { pushed with ooCommittedEntries := pushed.view.coverNextIndex.ooCommittedEntries }.readFront

def sendEntries (flags : Flags) (r : Replicator) (env : Env) : Returned :=
  if r.Skips flags then r.unlock.ends
  else match r.view.fillCommonFields env.box env.log (r.nextIndex - 1) false with
  | none => r.resetNextIndex.ends
  | some request =>
    match r.view.prepareEntry flags env.log with
    | none =>
        if r.nextIndex < env.log.firstLogIndex then r.resetNextIndex.ends
        else r.callsOn .waitMoreEntries
    | some em =>
        { (r.pushEntry env).callsOn .waitMoreEntries with
          request := some { request with entries := [em], dependency := em.dependency } }

def waitMoreEntries (flags : Flags) (r : Replicator) (env : Env) : Returned :=
  let r : Replicator :=
    if r.waitId = 0 ∧ r.flyingAppendEntriesSize < flags.raftMaxEntriesSize ∧
        r.appendEntriesInFly.length < flags.raftMaxParallelAppendEntriesRpcNum then
      { r with
        waitId := if env.log.lastLogIndex = r.nextIndex - 1 then env.waitId else 0
        isWaiterCanceled := false }
    else r
  { r with st := if r.flyingAppendEntriesSize = 0 then .idle else r.st }.unlock.ends

def block (r : Replicator) (env : Env) : Returned :=
  if r.st = .blocking then r.unlock.ends
  else if env.timerAdded then { r with st := .blocking }.unlock.ends
  else r.callsOn .sendEmptyEntries

def run (flags : Flags) (r : Replicator) (env : Env) : Call → Returned
  | .sendEntries => r.sendEntries flags env
  | .sendEmptyEntries => r.sendEmptyEntries env false
  | .waitMoreEntries => r.waitMoreEntries flags env
  | .block => r.block env

def continueSending (r : Replicator) (errorCode : ErrorCode) : Returned :=
  if errorCode = .timedOut then
    if r.waitId ≠ 0 then r.ends else r.callsOn .sendEmptyEntries
  else if errorCode ≠ .stop ∧ r.isWaiterCanceled = false then
    { r with waitId := 0 }.callsOn .sendEntries
  else r.unlock.ends

/-- The replicator behind the reads of `_is_catchup`, and its result. -/
def isCatchup (r : Replicator) (env : Env) (maxMargin : Int) : Replicator × Bool :=
  if r.nextIndex < env.log.firstLogIndex then (r, false)
  else
    (r.readFront,
      decide (env.log.lastLogIndex ≤ r.minFlyingIndex env.stale - 1 + maxMargin))

def notifyOnCaughtUp (r : Replicator) (env : Env) (errorCode : ErrorCode)
    (beforeDestroy : Bool) : Replicator :=
  match r.catchupClosure with
  | none => r
  | some closure =>
    if errorCode ≠ .timedOut ∧ errorCode ≠ .perm then
      let (r, caughtUp) := r.isCatchup env closure.maxMargin
      if !caughtUp || closure.errorWasSet then r
      else if closure.hasTimer && !beforeDestroy && env.timerRunning then
        { r with catchupClosure := some { closure with errorWasSet := true } }
      else { r with catchupClosure := none }
    else { r with catchupClosure := none }

def sendTimeoutNow (r : Replicator) (unlockId stopAfterFinish : Bool) : Replicator :=
  let r : Replicator := if stopAfterFinish then r else { r with timeoutNowIndex := 0 }
  if unlockId then r.unlock else r

/-- Erase the answered call and drop what the window has passed. -/
def settle (r : Replicator) (k : Nat) (request : AppendEntriesRequest)
    (window : Int × List Bool) : Replicator :=
  let kept := popFlying window.1 (r.appendEntriesInFly.eraseIdx k)
    (r.statusAppendEntriesInFly.eraseIdx k) (r.flyingAppendEntriesSize - request.entries.length)
  { r with
    ooStartIndex := window.1
    ooCommittedEntries := window.2
    flyingAppendEntriesSize := kept.2.2
    appendEntriesInFly := kept.1
    statusAppendEntriesInFly := kept.2.1
    hasSucceeded := true }

/-- What a success does behind the queues, up to its tail call. -/
def afterSuccess (r : Replicator) (env : Env) : Replicator :=
  let r := r.notifyOnCaughtUp env .ok false
  if 0 < r.timeoutNowIndex then
    if r.timeoutNowIndex < r.minFlyingIndex env.stale then r.readFront.sendTimeoutNow false false
    else r.readFront
  else r

def lowerNextIndex (r : Replicator) (response : AppendEntriesResponse) : Replicator :=
  { r with
    nextIndex :=
      if response.lastLogIndex + 1 < r.nextIndex then response.lastLogIndex + 1
      else if 1 < r.nextIndex then r.nextIndex - 1
      else r.nextIndex }

def findRpc (r : Replicator) (callId : Nat) (request : AppendEntriesRequest) : Option Nat :=
  findFlying (request.prevLogIndex + 1) callId r.appendEntriesInFly r.statusAppendEntriesInFly

/-- `failed` is `cntl->Failed()`. -/
def onRpcReturned (r : Replicator) (env : Env) (callId : Nat) (failed : Bool)
    (request : AppendEntriesRequest) (response : AppendEntriesResponse) : Option Returned :=
  let r := r.readFront
  match r.findRpc callId request with
  | none => some r.unlock.ends
  | some k =>
    let r : Replicator :=
      { r with statusAppendEntriesInFly := r.statusAppendEntriesInFly.set k false }
    if failed then some (r.resetNextIndex.callsOn .block)
    else if !response.success then
      if r.term < response.term then
        some { (r.resetNextIndex.notifyOnCaughtUp env .perm true).destroy.ends with
          increaseTermTo := some response.term }
      else some ((r.resetNextIndex.lowerNextIndex response).callsOn .sendEmptyEntries)
    else if response.term ≠ r.term then some r.resetNextIndex.unlock.ends
    else (r.view.nextWindow request response).map fun next =>
      { ((r.settle k request next.1).afterSuccess env).callsOn .sendEntries with
        commitIndexes := next.2 }

def onHeartbeatReturned (r : Replicator) (env : Env) (failed : Bool)
    (response : AppendEntriesResponse) : Returned :=
  if failed then r.unlock.ends
  else if r.term < response.term then
    { (r.notifyOnCaughtUp env .perm true).destroy.ends with increaseTermTo := some response.term }
  else r.unlock.ends

def waitForCaughtUp (r : Replicator) (env : Env) (maxMargin : Int) (hasDueTime : Bool) :
    Returned :=
  if r.catchupClosure.isSome then r.unlock.ends
  else
    let (r, caughtUp) := if r.hasSucceeded then r.isCatchup env maxMargin else (r, false)
    if caughtUp || (hasDueTime && !env.timerAdded) then r.unlock.ends
    else { r with catchupClosure := some ⟨maxMargin, hasDueTime, false⟩ }.unlock.ends

def onCatchUpTimedout (r : Replicator) (env : Env) : Returned :=
  (r.notifyOnCaughtUp env .timedOut false).unlock.ends

def transferLeadership (r : Replicator) (env : Env) (logIndex : Int) : Returned :=
  let front : Replicator := if r.hasSucceeded then r.readFront else r
  if r.hasSucceeded ∧ logIndex < r.minFlyingIndex env.stale then
    (front.sendTimeoutNow true false).ends
  else { front with timeoutNowIndex := logIndex }.unlock.ends

def stopTransferLeadership (r : Replicator) : Returned :=
  { r with timeoutNowIndex := 0 }.unlock.ends

def sendTimeoutNowAndStop (r : Replicator) : Returned := (r.sendTimeoutNow true true).ends

def onTimeoutNowReturned (r : Replicator) (env : Env) (failed : Bool) (responseTerm : Int)
    (stopAfterFinish : Bool) : Returned :=
  if !failed && r.term < responseTerm then
    { (r.notifyOnCaughtUp env .perm true).destroy.ends with increaseTermTo := some responseTerm }
  else if stopAfterFinish then (r.notifyOnCaughtUp env .stop true).destroy.ends
  else r.unlock.ends

def changeReadonlyConfig (r : Replicator) (env : Env) (readonly : Bool) : Returned :=
  if readonly = decide (r.readonlyIndex ≠ 0) then r.unlock.ends
  else if readonly then { r with readonlyIndex := env.log.lastLogIndex + 1 }.unlock.ends
  else { r with readonlyIndex := 0 }.callsOn .waitMoreEntries

/-- An expired heartbeat timer unlocks; `_send_heartbeat` takes the lock again. -/
def onError (r : Replicator) (env : Env) (errorCode : ErrorCode) : Returned :=
  if errorCode = .stop then
    { r.cancelAppendEntriesRpcs.notifyOnCaughtUp env .stop true with waitId := 0 }.destroy.ends
  else r.unlock.ends

def stop (r : Replicator) (env : Env) : Returned :=
  (r.notifyOnCaughtUp env .perm true).unlock.ends

end Replicator

section Frames

variable (r : Replicator) (env : Env)

theorem isCatchup_eq (maxMargin : Int) :
    ∃ read, (r.isCatchup env maxMargin).1 = { r with readEmptyFront := read } := by
  unfold Replicator.isCatchup
  split
  · exact ⟨_, rfl⟩
  · exact ⟨_, rfl⟩

theorem notifyOnCaughtUp_eq (errorCode : ErrorCode) (beforeDestroy : Bool) :
    ∃ closure read, r.notifyOnCaughtUp env errorCode beforeDestroy =
      { r with catchupClosure := closure, readEmptyFront := read } := by
  unfold Replicator.notifyOnCaughtUp
  split
  · exact ⟨_, _, rfl⟩
  · rename_i closure _
    obtain ⟨read, hread⟩ := isCatchup_eq r env closure.maxMargin
    dsimp only
    rw [hread]
    split_ifs
    · exact ⟨_, _, rfl⟩
    · exact ⟨_, _, rfl⟩
    · exact ⟨_, _, rfl⟩
    · exact ⟨_, _, rfl⟩

theorem afterSuccess_eq : ∃ index closure read, r.afterSuccess env =
    { r with
      timeoutNowIndex := index
      catchupClosure := closure
      readEmptyFront := read } := by
  obtain ⟨closure, read, hnotified⟩ := notifyOnCaughtUp_eq r env .ok false
  unfold Replicator.afterSuccess
  dsimp only
  rw [hnotified]
  split_ifs
  · exact ⟨_, _, _, rfl⟩
  · exact ⟨_, _, _, rfl⟩
  · exact ⟨_, _, _, rfl⟩

variable {r env}

theorem id_notifyOnCaughtUp (errorCode : ErrorCode) (beforeDestroy : Bool) :
    (r.notifyOnCaughtUp env errorCode beforeDestroy).id = r.id := by
  obtain ⟨closure, read, h⟩ := notifyOnCaughtUp_eq r env errorCode beforeDestroy
  rw [h]

theorem id_afterSuccess : (r.afterSuccess env).id = r.id := by
  obtain ⟨index, closure, read, h⟩ := afterSuccess_eq r env
  rw [h]

theorem id_unlock (hheld : r.id = .held) : r.unlock.id = .free := by
  show r.id.unlock = .free
  rw [hheld]
  rfl

theorem id_destroy (hheld : r.id = .held) : r.destroy.id = .destroyed := by
  show r.id.unlockAndDestroy = .destroyed
  rw [hheld]
  rfl

theorem sendEntries_cases (flags : Flags) (r : Replicator) (env : Env) :
    r.sendEntries flags env = r.unlock.ends ∨
      r.sendEntries flags env = r.resetNextIndex.ends ∨
      r.sendEntries flags env = r.callsOn .waitMoreEntries ∨
      ∃ request em, r.view.fillCommonFields env.box env.log (r.nextIndex - 1) false =
          some request ∧
        r.sendEntries flags env =
          { (r.pushEntry env).callsOn .waitMoreEntries with
            request := some { request with entries := [em], dependency := em.dependency } } := by
  unfold Replicator.sendEntries
  split
  · exact .inl rfl
  · split
    · exact .inr (.inl rfl)
    · rename_i request hfill
      split
      · split
        · exact .inr (.inl rfl)
        · exact .inr (.inr (.inl rfl))
      · rename_i em _
        exact .inr (.inr (.inr ⟨request, em, hfill, rfl⟩))

end Frames

section Callbacks

/-- The replicator once a callback has found its call at position `k`. -/
def marked (r : Replicator) (k : Nat) : Replicator :=
  { r.readFront with statusAppendEntriesInFly := r.statusAppendEntriesInFly.set k false }

inductive RpcReturns (r : Replicator) (env : Env) (callId : Nat) (failed : Bool)
    (request : AppendEntriesRequest) (response : AppendEntriesResponse) : Returned → Prop
  | unfound (find : r.findRpc callId request = none) :
      RpcReturns r env callId failed request response r.readFront.unlock.ends
  | failed (k : Nat) (find : r.findRpc callId request = some k) (failure : failed = true) :
      RpcReturns r env callId failed request response
        ((marked r k).resetNextIndex.callsOn .block)
  | higherTerm (k : Nat) (find : r.findRpc callId request = some k)
      (refused : response.success = false) (higher : r.term < response.term) :
      RpcReturns r env callId failed request response
        { ((marked r k).resetNextIndex.notifyOnCaughtUp env .perm true).destroy.ends with
          increaseTermTo := some response.term }
  | refused (k : Nat) (find : r.findRpc callId request = some k)
      (refused : response.success = false) :
      RpcReturns r env callId failed request response
        (((marked r k).resetNextIndex.lowerNextIndex response).callsOn .sendEmptyEntries)
  | otherTerm (k : Nat) (find : r.findRpc callId request = some k)
      (other : response.term ≠ r.term) :
      RpcReturns r env callId failed request response (marked r k).resetNextIndex.unlock.ends
  | success (k : Nat) (next : (Int × List Bool) × Option (List Int))
      (find : r.findRpc callId request = some k) (arrived : failed = false)
      (accepted : response.success = true) (own : response.term = r.term)
      (window : r.view.nextWindow request response = some next) :
      RpcReturns r env callId failed request response
        { (((marked r k).settle k request next.1).afterSuccess env).callsOn .sendEntries with
          commitIndexes := next.2 }

theorem rpcReturns_of_some {r : Replicator} {env : Env} {callId : Nat} {failed : Bool}
    {request : AppendEntriesRequest} {response : AppendEntriesResponse} {returned : Returned}
    (hrun : r.onRpcReturned env callId failed request response = some returned) :
    RpcReturns r env callId failed request response returned := by
  unfold Replicator.onRpcReturned at hrun
  dsimp only at hrun
  split at hrun
  · rename_i hfind
    cases hrun
    exact .unfound hfind
  · rename_i k hfind
    split_ifs at hrun with hfailed hsuccess hterm hterm
    · cases hrun
      exact .failed k hfind hfailed
    · cases hrun
      exact .higherTerm k hfind (by simpa using hsuccess) hterm
    · cases hrun
      exact .refused k hfind (by simpa using hsuccess)
    · cases hrun
      exact .otherTerm k hfind hterm
    · obtain ⟨next, hnext, rfl⟩ := Option.map_eq_some_iff.mp hrun
      exact .success k next hfind (by simpa using hfailed) (by simpa using hsuccess)
        (not_not.mp hterm) hnext

end Callbacks

/-- What a call meets while the log has `n` entries of term 1, all timers start, and no
ballot is open. -/
def steadyEnv (n : Nat) : Env where
  log :=
    { getTerm := fun i => if 1 ≤ i ∧ i ≤ n then 1 else 0
      getEntry := fun i => if 1 ≤ i ∧ i ≤ n then some ⟨.data, ⟨i, 1⟩, 0, none, none, []⟩ else none
      firstLogIndex := 1
      lastLogIndex := n }
  box := ⟨0, 0, [], []⟩
  callId := 0
  waitId := 1
  timerAdded := true
  timerRunning := false
  stale := 0

end HitConsistency.Replication.ReplicatorCalls
