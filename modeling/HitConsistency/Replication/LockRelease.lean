/- GID: HitConsistency/Replication/LockRelease
   digest: When every call of a replicator gives its lock back. -/

import HitConsistency.Replication.ReplicatorCalls

set_option autoImplicit false
set_option relaxedAutoImplicit false

/-!
One call at a time holds the lock. It hands the lock down its tail calls, and each of
these meets the log as it is by then. An event that finds the lock held waits; one that
finds the replicator destroyed does nothing. A second unlock would leave `broken` behind.
-/

namespace HitConsistency.Replication.LockRelease

open HitConsistency.Base.GuardedRuns
open HitConsistency.Group.Peers
open HitConsistency.Log.Entry
open HitConsistency.Replication.PeerSender (Flags LogView)
open HitConsistency.Replication.ReplicatorCalls

/-- The calls that take the lock. A block timer wakes `_continue_sending` with `ETIMEDOUT`,
the log manager with 0 or `ESTOP`; `query` stands for the calls that only read. -/
inductive Event
  | rpcReturned (env : Env) (callId : Nat) (failed : Bool) (request : AppendEntriesRequest)
      (response : AppendEntriesResponse)
  | heartbeatReturned (env : Env) (failed : Bool) (response : AppendEntriesResponse)
  | continueSending (errorCode : ErrorCode)
  | changeReadonlyConfig (env : Env) (readonly : Bool)
  | error (env : Env) (errorCode : ErrorCode)
  | sendHeartbeat (env : Env)
  | waitForCaughtUp (env : Env) (maxMargin : Int) (hasDueTime : Bool)
  | catchUpTimedout (env : Env)
  | transferLeadership (env : Env) (logIndex : Int)
  | stopTransferLeadership
  | sendTimeoutNowAndStop
  | timeoutNowReturned (env : Env) (failed : Bool) (responseTerm : Int) (stopAfterFinish : Bool)
  | stop (env : Env)
  | query

/-- An event takes the lock, or the pending tail call runs. -/
inductive Turn
  | event (event : Event)
  | run (env : Env)

/-- A replicator and the tail call that holds its lock. -/
structure Running where
  replicator : Replicator
  call : Option Call
  deriving DecidableEq

def handle (r : Replicator) : Event → Option Returned
  | .rpcReturned env callId failed request response =>
      r.onRpcReturned env callId failed request response
  | .heartbeatReturned env failed response => some (r.onHeartbeatReturned env failed response)
  | .continueSending errorCode => some (r.continueSending errorCode)
  | .changeReadonlyConfig env readonly => some (r.changeReadonlyConfig env readonly)
  | .error env errorCode => some (r.onError env errorCode)
  | .sendHeartbeat env => some (r.sendEmptyEntries env true)
  | .waitForCaughtUp env maxMargin hasDueTime =>
      some (r.waitForCaughtUp env maxMargin hasDueTime)
  | .catchUpTimedout env => some (r.onCatchUpTimedout env)
  | .transferLeadership env logIndex => some (r.transferLeadership env logIndex)
  | .stopTransferLeadership => some r.stopTransferLeadership
  | .sendTimeoutNowAndStop => some r.sendTimeoutNowAndStop
  | .timeoutNowReturned env failed responseTerm stopAfterFinish =>
      some (r.onTimeoutNowReturned env failed responseTerm stopAfterFinish)
  | .stop env => some (r.stop env)
  | .query => some r.unlock.ends

namespace Running

/-- `start` holds the lock and goes on with the first empty request. -/
def start (serverId peerId : PeerId) (term : Int) (log : LogView) : Running :=
  ⟨.start serverId peerId term log, some .sendEmptyEntries⟩

def after (returned : Returned) : Running := ⟨returned.replicator, returned.call⟩

def step (flags : Flags) (s : Running) : Turn → Option Running
  | .event event =>
      if s.call = none ∧ s.replicator.id = .free then
        (handle s.replicator.lock event).map after
      else some s
  | .run env =>
      match s.call with
      | none => some s
      | some call => some (after (s.replicator.run flags env call))

end Running

section Exits

variable {flags : Flags} {r : Replicator} {env : Env}

variable (hheld : r.id = .held)
include hheld

end Exits

variable {flags : Flags} {s : Running}

end HitConsistency.Replication.LockRelease
