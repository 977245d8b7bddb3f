/- GID: HitConsistency/Replication/FollowerChannel
   digest: A leader's replicator and the follower behind it, with the answers in between. -/

import HitConsistency.Node.AppendHandler
import HitConsistency.Replication.AdvertisedCommit

set_option autoImplicit false
set_option relaxedAutoImplicit false

/-!
The follower takes requests from any leader, in any order, and its answers reach the
replicator in any order. A request and its answer share a call of their own. What
the response handler gives to `commit_at` is observed, not carried out.
-/

namespace HitConsistency.Replication.FollowerChannel

open HitConsistency.Group.Peers
open HitConsistency.Commit.PendingQueues
open HitConsistency.Log.Entry
open HitConsistency.Log.MemoryLog
open HitConsistency.Node.RoleState
open HitConsistency.Node.AppendHandler
open HitConsistency.Replication.PeerSender (LogView Replicator)
open HitConsistency.Replication.AdvertisedCommit (Send)

structure Channel where
  replicator : Option Replicator
  follower : Follower
  /-- The requests handed to the follower, each under its own call. -/
  requests : List AppendEntriesRpc

inductive Event
  | start (serverId peer : PeerId) (term : Int) (log : LogView)
  | send (box : BallotBox) (log : LogView) (callId : Nat) (send : Send)
  | follower (event : Follower.Event)
  | respond (position : Nat)
  | fail (rpc : AppendEntriesRpc)

namespace Channel

/-- A follower with an empty log, before a leader has a replicator for it. -/
def new (role : Role) (conf : ConfigurationEntry) (dependencyLookBack : Int) : Channel where
  replicator := none
  follower :=
    { toRole := role
      conf := conf
      log := .fresh dependencyLookBack
      appendEntriesCache := .new
      fromCache := []
      stable := []
      replies := [] }
  requests := []

/-- The replicator, if its lock can still be taken. -/
def unlocked (s : Channel) : Option Replicator := s.replicator.filter fun r => !r.idLocked

/-- The answer at a position with the request it belongs to. -/
def answer (s : Channel) (position : Nat) :
    Option (AppendEntriesRpc × AppendEntriesResponse) := do
  let (call, response) ← s.follower.replies[position]?
  let rpc ← s.requests.find? fun rpc => rpc.call = call
  some (rpc, response)

def newRequests : Follower.Event → List AppendEntriesRpc
  | .deliver rpc _ => [rpc]
  | _ => []

/-- A second request under a call that is taken does not exist. -/
def Taken (s : Channel) : Follower.Event → Prop
  | .deliver rpc _ => rpc.call ∈ s.requests.map AppendEntriesRpc.call
  | _ => False

instance takenDecidable (s : Channel) : ∀ event, Decidable (s.Taken event)
  | .deliver _ _ => inferInstanceAs (Decidable (_ ∈ _))
  | .handleCached _ | .failCached _ | .diskWrite | .diskBatchEnd | .runClosure _ _ _ |
    .applied _ => inferInstanceAs (Decidable False)

def step (senderFlags : PeerSender.Flags) (flags : Flags) (s : Channel) :
    Event → Option Channel
  | .start serverId peer term log =>
      some { s with replicator := some (.start serverId peer term log) }
  | .send box log callId send =>
      match s.unlocked with
      | none => some s
      | some r => some { s with replicator := some (send.run senderFlags r box log callId).1 }
  | .follower event =>
      if s.Taken event then some s
      else (s.follower.step flags event).map fun follower =>
        { s with follower := follower, requests := s.requests ++ newRequests event }
  | .respond position =>
      match s.unlocked, s.answer position with
      | some r, some (rpc, response) =>
          (r.onRpcReturned rpc.call false rpc.request response).map fun handled =>
            { s with replicator := handled.replicator }
      | _, _ => some s
  | .fail rpc =>
      match s.unlocked with
      | none => some s
      | some r =>
          (r.onRpcReturned rpc.call true rpc.request ⟨0, false, 0⟩).map fun handled =>
            { s with replicator := handled.replicator }

/-- The indexes that an event passes to `commit_at` for the follower. -/
def passed (s : Channel) : Event → List Int
  | .respond position =>
      match s.unlocked, s.answer position with
      | some r, some (rpc, response) =>
          ((r.onRpcReturned rpc.call false rpc.request response).bind
            Replicator.Handled.commitIndexes).getD []
      | _, _ => []
  | _ => []

end Channel

end HitConsistency.Replication.FollowerChannel
