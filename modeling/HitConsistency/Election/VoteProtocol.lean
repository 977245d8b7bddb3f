/- GID: HitConsistency/Election/VoteProtocol
   digest: Prevote, vote and leadership of a group of nodes under crashes and a lossy network. -/

import HitConsistency.Base.GuardedRuns
import HitConsistency.Commit.BallotCount
import HitConsistency.Log.Entry
import HitConsistency.Node.RoleState

set_option autoImplicit false
set_option relaxedAutoImplicit false

/-!
Every handler runs under the mutex of its node, up to the points where it gives the
mutex away to ask the log manager for `last_log_id`; such a handler waits in
`waiting` and is resumed at any later time. The log itself is left out: whatever the
log manager answers comes with the event.

The network keeps every message that was ever sent. A message may be delivered any
number of times, in any order, or never; a response also after a restart of the node
that waits for it.
-/

namespace HitConsistency.Election.VoteProtocol

open HitConsistency.Commit.BallotCount
open HitConsistency.Group.Peers
open HitConsistency.Log.Entry
open HitConsistency.Node.RoleState

structure RequestVoteRequest where
  serverId : PeerId
  peerId : PeerId
  term : Int
  lastLogTerm : Int
  lastLogIndex : Int
  deriving DecidableEq

structure RequestVoteResponse where
  term : Int
  granted : Bool
  deriving DecidableEq

/-- A response comes with what its call remembers: the peer asked and the term then. -/
inductive Message
  | prevote (request : RequestVoteRequest)
  | prevoteResponse (receiver peer : PeerId) (term : Int) (response : RequestVoteResponse)
  | requestVote (request : RequestVoteRequest)
  | requestVoteResponse (receiver peer : PeerId) (term : Int) (response : RequestVoteResponse)
  deriving DecidableEq

/-- A handler that has released the mutex to get `last_log_id`. -/
inductive Waiting
  | prevote (request : RequestVoteRequest)
  | requestVote (request : RequestVoteRequest)
  | electSelf (oldTerm : Int)
  deriving DecidableEq

structure ElectionNode extends Role where
  prevoteCtx : Ballot
  voteCtx : Ballot
  waiting : List Waiting
  /-- `elect_self` has sent its requests, has not saved its vote, and holds the mutex. -/
  saving : Bool

/-- The node behind a handler, what the handler sent, and whether it became leader. -/
structure Effect where
  node : ElectionNode
  sent : List Message
  leads : Bool

namespace ElectionNode

def boot (serverId : PeerId) (metaStorage : MetaStorage) : ElectionNode where
  serverId := serverId
  state := .follower
  currentTerm := toInt32 metaStorage.term
  votedId := metaStorage.votedfor
  leaderId := .empty
  metaStorage := metaStorage
  prevoteCtx := .new
  voteCtx := .new
  waiting := []
  saving := false

def quiet (n : ElectionNode) : Effect := ⟨n, [], false⟩

def wait (n : ElectionNode) (thread : Waiting) : Effect :=
  { n with waiting := n.waiting ++ [thread] }.quiet

/-- The request's log is not older: `LogId(..) >= last_log_id`. -/
def logIsOk (request : RequestVoteRequest) (lastLogId : LogId) : Prop :=
  ¬ LogId.Before ⟨request.lastLogIndex, request.lastLogTerm⟩ lastLogId

instance logIsOkDecidable (request : RequestVoteRequest) (lastLogId : LogId) :
    Decidable (logIsOk request lastLogId) :=
  inferInstanceAs (Decidable (¬ _))

def requests (conf : Configuration) (n : ElectionNode) (term : Int) (lastLogId : LogId) :
    List RequestVoteRequest :=
  (conf.peers.filter (· ≠ n.serverId)).map fun peer =>
    ⟨n.serverId, peer, term, lastLogId.term, lastLogId.index⟩

/-- Only a node at port 8000 asks for votes. -/
def prevote (conf : Configuration) (n : ElectionNode) (lastLogId : LogId) : Effect :=
  if n.serverId.port ≠ 8000 then n.quiet
  else
    ⟨{ n with prevoteCtx := ((Ballot.init conf none).grant n.serverId .new).1 },
      (n.requests conf (n.currentTerm + 1) lastLogId).map .prevote, false⟩

/-- `elect_self` up to its unlock. The term counter must not overflow. -/
def electSelf (conf : Configuration) (n : ElectionNode) : Option Effect :=
  if !conf.contains n.serverId then some n.quiet
  else if 2 ^ 31 ≤ n.currentTerm + 1 then none
  else
    some ({ n with
      leaderId := .empty
      state := .candidate
      currentTerm := n.currentTerm + 1
      votedId := n.serverId
      voteCtx := .init conf none }.wait (.electSelf (n.currentTerm + 1)))

/-- `elect_self` behind its relock, up to the save of the vote. -/
def sendVoteRequests (conf : Configuration) (n : ElectionNode) (oldTerm : Int)
    (lastLogId : LogId) : Effect :=
  if oldTerm ≠ n.currentTerm then n.quiet
  else
    ⟨{ n with saving := true }, (n.requests conf n.currentTerm lastLogId).map .requestVote, false⟩

def becomeLeader (n : ElectionNode) : Effect :=
  ⟨{ n with state := .leader, leaderId := n.serverId }, [], true⟩

/-- The end of `elect_self`. -/
def saveVote (n : ElectionNode) : Effect :=
  let n := { n with
    saving := false
    metaStorage := ⟨n.currentTerm, n.serverId⟩
    voteCtx := (n.voteCtx.grant n.serverId .new).1 }
  if n.voteCtx.granted then n.becomeLeader else n.quiet

def handleElectionTimeout (conf : Configuration) (n : ElectionNode) (lastLogId : LogId) : Effect :=
  if n.state ≠ .follower then n.quiet
  else { n with leaderId := .empty }.prevote conf lastLogId

def handleVoteTimeout (conf : Configuration) (stepDownWhenVoteTimedout : Bool) (n : ElectionNode)
    (lastLogId : LogId) : Option Effect :=
  if n.state ≠ .candidate then some n.quiet
  else if stepDownWhenVoteTimedout then
    some ({ n with toRole := n.stepDown n.currentTerm }.prevote conf lastLogId)
  else n.electSelf conf

def answerPrevote (n : ElectionNode) (request : RequestVoteRequest) (granted : Bool) : Effect :=
  ⟨n, [.prevoteResponse request.serverId request.peerId (request.term - 1)
    ⟨n.currentTerm, granted⟩], false⟩

def handlePrevote (n : ElectionNode) (request : RequestVoteRequest) : Effect :=
  if request.term < n.currentTerm then n.answerPrevote request false
  else n.wait (.prevote request)

def answerRequestVote (n : ElectionNode) (request : RequestVoteRequest) : Effect :=
  ⟨n, [.requestVoteResponse request.serverId request.peerId request.term
    ⟨n.currentTerm, request.term = n.currentTerm ∧ n.votedId = request.serverId⟩], false⟩

/-- `handle_request_vote` up to its unlock. -/
def handleRequestVote (n : ElectionNode) (request : RequestVoteRequest) : Effect :=
  if request.term < n.currentTerm then n.answerRequestVote request
  else if n.currentTerm < request.term then
    { n with toRole := n.stepDown request.term }.wait (.requestVote request)
  else n.wait (.requestVote request)

/-- `handle_request_vote` behind its relock: a vote needs the term to be unchanged. -/
def castVote (n : ElectionNode) (request : RequestVoteRequest) (lastLogId : LogId) : Effect :=
  if request.term ≠ n.currentTerm then n.answerRequestVote request
  else if logIsOk request lastLogId ∧ n.votedId.isEmpty then
    let r := n.stepDown request.term
    { n with toRole := { r with
      votedId := request.serverId
      metaStorage := { r.metaStorage with votedfor := request.serverId } } }.answerRequestVote request
  else n.answerRequestVote request

def handlePreVoteResponse (conf : Configuration) (n : ElectionNode) (peer : PeerId) (term : Int)
    (response : RequestVoteResponse) : Option Effect :=
  if n.state ≠ .follower then some n.quiet
  else if term ≠ n.currentTerm then some n.quiet
  else if n.currentTerm < response.term then
    some { n with toRole := n.stepDown response.term }.quiet
  else if response.granted then
    let n := { n with prevoteCtx := (n.prevoteCtx.grant peer .new).1 }
    if n.prevoteCtx.granted then n.electSelf conf else some n.quiet
  else some n.quiet

def handleRequestVoteResponse (n : ElectionNode) (peer : PeerId) (term : Int)
    (response : RequestVoteResponse) : Effect :=
  if n.state ≠ .candidate then n.quiet
  else if term ≠ n.currentTerm then n.quiet
  else if n.currentTerm < response.term then { n with toRole := n.stepDown response.term }.quiet
  else if response.granted then
    let n := { n with voteCtx := (n.voteCtx.grant peer .new).1 }
    if n.voteCtx.granted then n.becomeLeader else n.quiet
  else n.quiet

/-- What an AppendEntries request does to the role of its receiver. -/
def receiveAppendEntries (n : ElectionNode) (term : Int) (serverId : PeerId) : ElectionNode :=
  if term < n.currentTerm then n
  else
    let r := n.checkStepDown term serverId
    { n with toRole := if serverId ≠ r.leaderId then r.stepDown (term + 1) else r }

def increaseTermTo (n : ElectionNode) (newTerm : Int) : ElectionNode :=
  if newTerm ≤ n.currentTerm then n else { n with toRole := n.stepDown newTerm }

/-- A leader that misses its quorum steps down in its own term. -/
def handleStepdownTimeout (n : ElectionNode) : ElectionNode :=
  if n.state.leading then { n with toRole := n.stepDown n.currentTerm } else n

end ElectionNode

/-- The nodes, every message sent, and every execution of `become_leader`. -/
structure Cluster where
  nodes : PeerId → ElectionNode
  network : List Message
  elected : List (PeerId × Int)

inductive Event
  | electionTimeout (id : PeerId) (lastLogId : LogId)
  | voteTimeout (id : PeerId) (lastLogId : LogId)
  | receive (position : Nat)
  | resume (id : PeerId) (position : Nat) (lastLogId : LogId)
  | saveVote (id : PeerId)
  | appendEntries (id : PeerId) (term : Int) (serverId : PeerId)
  | increaseTermTo (id : PeerId) (newTerm : Int)
  | stepdownTimeout (id : PeerId)
  | crash (id : PeerId)

namespace Cluster

def init : Cluster := ⟨fun id => .boot id ⟨1, .empty⟩, [], []⟩

def put (s : Cluster) (id : PeerId) (effect : Effect) : Cluster where
  nodes := Function.update s.nodes id effect.node
  network := s.network ++ effect.sent
  elected := s.elected ++ if effect.leads then [(id, effect.node.currentTerm)] else []

/-- A handler gets the mutex of its node, unless `elect_self` is saving. -/
def act (s : Cluster) (id : PeerId) (handler : ElectionNode → Option Effect) : Option Cluster :=
  if (s.nodes id).saving then some s else (handler (s.nodes id)).map (s.put id)

def deliver (conf : Configuration) (s : Cluster) : Message → Option Cluster
  | .prevote request => s.act request.peerId fun n => some (n.handlePrevote request)
  | .prevoteResponse receiver peer term response =>
      s.act receiver fun n => n.handlePreVoteResponse conf peer term response
  | .requestVote request => s.act request.peerId fun n => some (n.handleRequestVote request)
  | .requestVoteResponse receiver peer term response =>
      s.act receiver fun n => some (n.handleRequestVoteResponse peer term response)

def resumeWith (conf : Configuration) (n : ElectionNode) (lastLogId : LogId) : Waiting → Effect
  | .prevote request =>
      n.answerPrevote request (ElectionNode.logIsOk request lastLogId)
  | .requestVote request => n.castVote request lastLogId
  | .electSelf oldTerm => n.sendVoteRequests conf oldTerm lastLogId

def resume (conf : Configuration) (n : ElectionNode) (position : Nat) (lastLogId : LogId) :
    Effect :=
  match n.waiting[position]? with
  | some thread =>
      resumeWith conf { n with waiting := n.waiting.eraseIdx position } lastLogId thread
  | none => n.quiet

def step (conf : Configuration) (stepDownWhenVoteTimedout : Bool) (s : Cluster) :
    Event → Option Cluster
  | .electionTimeout id lastLogId =>
      s.act id fun n => some (n.handleElectionTimeout conf lastLogId)
  | .voteTimeout id lastLogId =>
      s.act id fun n => n.handleVoteTimeout conf stepDownWhenVoteTimedout lastLogId
  | .receive position =>
      match s.network[position]? with
      | some message => s.deliver conf message
      | none => some s
  | .resume id position lastLogId => s.act id fun n => some (resume conf n position lastLogId)
  | .saveVote id =>
      if (s.nodes id).saving then some (s.put id (s.nodes id).saveVote) else some s
  | .appendEntries id term serverId =>
      s.act id fun n => some (n.receiveAppendEntries term serverId).quiet
  | .increaseTermTo id newTerm => s.act id fun n => some (n.increaseTermTo newTerm).quiet
  | .stepdownTimeout id => s.act id fun n => some n.handleStepdownTimeout.quiet
  | .crash id => some (s.put id (ElectionNode.boot id (s.nodes id).metaStorage).quiet)

end Cluster

end HitConsistency.Election.VoteProtocol
