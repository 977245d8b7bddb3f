/- GID: HitConsistency/Replication/ReplicatorGroups
   digest: The replicators of a node over its leaderships, and the acknowledgements they count. -/

import HitConsistency.Node.RoleState
import HitConsistency.Replication.PeerSender

set_option autoImplicit false
set_option relaxedAutoImplicit false

/-!
A replicator lives from `start` to `_destroy`; its identifier stays in `_rmap` in any
case, since nothing calls `stop_all` or `stop_replicator`. Responses arrive through
the identifier and find the replicator while it lives. A higher term in a response
destroys the replicator first; the node is told about the term behind that, under its
own mutex.
-/

namespace HitConsistency.Replication.ReplicatorGroups

open HitConsistency.Commit.PendingQueues
open HitConsistency.Group.Peers
open HitConsistency.Log.Entry
open HitConsistency.Node.RoleState
open HitConsistency.Replication.PeerSender

/-- A started replicator, with the number of the leadership that started it. -/
structure LiveReplicator where
  id : Nat
  leadership : Nat
  replicator : Replicator

/-- `_common_options.term` and `_rmap`. -/
structure ReplicatorGroup where
  term : Int
  rmap : List (PeerId × Nat)

namespace ReplicatorGroup

def contains (group : ReplicatorGroup) (peer : PeerId) : Bool :=
  group.rmap.any fun item => item.1 = peer

def resetTerm (group : ReplicatorGroup) (newTerm : Int) : ReplicatorGroup :=
  if newTerm ≤ group.term then group else { group with term := newTerm }

end ReplicatorGroup

structure Call where
  id : Nat
  callId : Nat
  request : AppendEntriesRequest

/-- A `commit_at` for a response: the term of its request, and the node's term then. -/
structure Counted where
  requestTerm : Int
  currentTerm : Int
  indexes : List Int
  deriving DecidableEq

structure ReplicatingNode extends Role where
  conf : Configuration
  group : ReplicatorGroup
  live : List LiveReplicator
  ballotBox : BallotBox
  calls : List Call
  /-- Terms of `increase_term_to` calls that are about to run. -/
  increases : List Int
  nextId : Nat
  nextCall : Nat
  /-- The number of leaderships so far. -/
  leaderships : Nat
  counted : List Counted

namespace ReplicatingNode

def init (serverId : PeerId) (conf : Configuration) : ReplicatingNode where
  serverId := serverId
  state := .follower
  currentTerm := 1
  votedId := .empty
  leaderId := .empty
  metaStorage := ⟨1, .empty⟩
  conf := conf
  group := ⟨0, []⟩
  live := []
  ballotBox := .new
  calls := []
  increases := []
  nextId := 0
  nextCall := 0
  leaderships := 0
  counted := []

def replace (id : Nat) (r : Replicator) (l : LiveReplicator) : LiveReplicator :=
  if l.id = id then { l with replicator := r } else l

def sent (n : ReplicatingNode) (id : Nat) (result : Replicator × Option AppendEntriesRequest) :
    ReplicatingNode :=
  { n with
    live := n.live.map (replace id result.1)
    calls := n.calls ++ (result.2.map fun request => Call.mk id n.nextCall request).toList
    nextCall := n.nextCall + 1 }

/-- A peer that is in the map already is left as it is; `Replicator::start` may fail to
open its channel, and ends with an empty request. -/
def addReplicator (log : LogView) (channel : PeerId → Bool) (n : ReplicatingNode)
    (peer : PeerId) : ReplicatingNode :=
  if n.group.contains peer then n
  else if !channel peer then n
  else
    let r := Replicator.start n.serverId peer n.group.term log
    let added : ReplicatingNode := { n with
      group := { n.group with rmap := n.group.rmap ++ [(peer, n.nextId)] }
      live := n.live ++ [⟨n.nextId, n.leaderships, r⟩]
      nextId := n.nextId + 1 }
    added.sent n.nextId (r.sendEmptyEntries n.ballotBox log n.nextCall false)

def becomeLeader (n : ReplicatingNode) (log : LogView) (channel : PeerId → Bool) :
    ReplicatingNode :=
  let n := { n with
    state := .leader
    leaderId := n.serverId
    group := n.group.resetTerm n.currentTerm
    leaderships := n.leaderships + 1 }
  let n := (n.conf.peers.filter (· ≠ n.serverId)).foldl (addReplicator log channel) n
  { n with ballotBox := n.ballotBox.resetPendingIndex (log.lastLogIndex + 1) }

/-- `step_down`: a leader clears its ballots; the replicators are not touched. -/
def stepDownNode (n : ReplicatingNode) (term : Int) : ReplicatingNode :=
  { n with
    toRole := n.toRole.stepDown term
    ballotBox := if n.state.leading then n.ballotBox.clearPendingTasks else n.ballotBox }

def destroy (n : ReplicatingNode) (id : Nat) : ReplicatingNode :=
  { n with live := n.live.filter fun l => l.id ≠ id }

def count (n : ReplicatingNode) (peer : PeerId) (requestTerm : Int) :
    Option (List Int) → Option ReplicatingNode
  | none => some n
  | some indexes => (n.ballotBox.commitAt indexes peer).map fun outcome =>
      { n with
        ballotBox := outcome.box
        counted := n.counted ++ [⟨requestTerm, n.currentTerm, indexes⟩] }

def onRpcReturned (flags : Flags) (n : ReplicatingNode) (call : Call) (failed : Bool)
    (response : AppendEntriesResponse) (log : LogView) : Option ReplicatingNode :=
  match n.live.find? fun l => l.id = call.id with
  | none => some n
  | some l => do
      let handled ← l.replicator.onRpcReturned call.callId failed call.request response
      let n ← n.count l.replicator.peerId call.request.term handled.commitIndexes
      let n := { n with increases := n.increases ++ handled.increaseTermTo.toList }
      match handled.replicator with
      | none => some (n.destroy call.id)
      | some r =>
          match handled.follow with
          | .nothing => some (n.sent call.id (r, none))
          | .sendEmptyEntries =>
              some (n.sent call.id (r.sendEmptyEntries n.ballotBox log n.nextCall false))
          | .sendEntries => some (n.sent call.id (r.sendEntries flags n.ballotBox log n.nextCall))

def onHeartbeatReturned (n : ReplicatingNode) (id : Nat) (failed : Bool)
    (response : AppendEntriesResponse) : ReplicatingNode :=
  match n.live.find? fun l => l.id = id with
  | none => n
  | some l =>
      if !failed ∧ l.replicator.term < response.term then
        { n with increases := n.increases ++ [response.term] }.destroy id
      else n

/-- A timer or a waiter of a live replicator sends. -/
def sendBy (n : ReplicatingNode) (id : Nat)
    (send : Replicator → Replicator × Option AppendEntriesRequest) : ReplicatingNode :=
  match n.live.find? fun l => l.id = id with
  | none => n
  | some l => n.sent id (send l.replicator)

/-- Whatever makes the node step down, `stepDown` says to which term. -/
inductive Event
  | stepDown (term : Int)
  | electSelf
  | becomeLeader (log : LogView) (channel : PeerId → Bool)
  | apply
  | rpcReturned (position : Nat) (failed : Bool) (response : AppendEntriesResponse)
      (log : LogView)
  | heartbeatReturned (id : Nat) (failed : Bool) (response : AppendEntriesResponse)
  | heartbeat (id : Nat) (log : LogView)
  | continueSending (id : Nat) (timedOut : Bool) (log : LogView)
  | increaseTermTo (position : Nat)

/-- A leader neither elects itself nor becomes leader again before it has stepped down. -/
def step (flags : Flags) (n : ReplicatingNode) : Event → Option ReplicatingNode
  | .stepDown term => some (n.stepDownNode term)
  | .electSelf =>
      if n.state.leading then some n
      else if 2 ^ 31 ≤ n.currentTerm + 1 then none
      else
        some { n with
          leaderId := .empty
          state := .candidate
          currentTerm := n.currentTerm + 1
          votedId := n.serverId }
  | .becomeLeader log channel =>
      if n.state.leading then some n else some (n.becomeLeader log channel)
  | .apply =>
      if n.state = .leader then
        some { n with ballotBox := n.ballotBox.appendPendingTask n.conf none }
      else some n
  | .rpcReturned position failed response log =>
      match n.calls[position]? with
      | some call => n.onRpcReturned flags call failed response log
      | none => some n
  | .heartbeatReturned id failed response => some (n.onHeartbeatReturned id failed response)
  | .heartbeat id log =>
      -- The response of a heartbeat comes back through `heartbeatReturned`.
      some (n.sendBy id fun r => ((r.sendEmptyEntries n.ballotBox log n.nextCall true).1, none))
  | .continueSending id timedOut log =>
      some (n.sendBy id fun r => r.continueSending flags n.ballotBox log n.nextCall timedOut)
  | .increaseTermTo position =>
      match n.increases[position]? with
      | some newTerm =>
          if newTerm ≤ n.currentTerm then some n else some (n.stepDownNode newTerm)
      | none => some n

end ReplicatingNode

end HitConsistency.Replication.ReplicatorGroups
