/- GID: HitConsistency/Election/ReplicatedLogs
   digest: A group of nodes with their logs: elections, out-of-order replication, ballots. -/

import HitConsistency.Commit.PendingQueues
import HitConsistency.Election.VoteProtocol
import HitConsistency.Log.MemoryLog
import HitConsistency.Node.AppendHandler

set_option autoImplicit false
set_option relaxedAutoImplicit false

/-!
The nodes of the vote protocol, each with its log manager, its ballot box and its
replicators, and with `FLAGS_oo_enabled` on. A call of `last_log_id(true)` goes through
the disk queue of its node and is answered by the disk thread, with whatever it has
written last; the handler resumes at any time behind that.

A replicator sends any entry of its node's log, under the term it was started in, and at
any time, since nothing stops it. Requests stay in the network, so they arrive in any
order and any number of times. A request that has to wait for its dependencies changes
nothing: out of the cache it comes back as one more arrival. Which indexes a replicator
or a stable closure reports to the ballot box comes with the event.
-/

namespace HitConsistency.Election.ReplicatedLogs

open HitConsistency.Base.MajorityQuorum
open HitConsistency.Commit.PendingQueues
open HitConsistency.Election.VoteProtocol
open HitConsistency.Group.Peers
open HitConsistency.Log.Entry
open HitConsistency.Log.MemoryLog
open HitConsistency.Node.AppendHandler
open HitConsistency.Node.RoleState

/-- What waits for the disk thread: the stable closure of a leader or of a follower, with
the term in which the entries were taken, or a call of `last_log_id`. -/
inductive Done
  | leader (term : Int)
  | follower (term : Int)
  | lastLogId (thread : Waiting)
  deriving DecidableEq

def Done.term : Done → Int
  | .leader term | .follower term => term
  | .lastLogId _ => 0

structure Replica where
  log : LogManager Done
  ballotBox : BallotBox
  /-- The peers with a replicator, and the term it was started in. -/
  rmap : List (PeerId × Int)
  /-- Handlers that have released the mutex and are about to call `last_log_id`. -/
  calling : List Waiting
  answers : List (Waiting × LogId)

/-- A task of the user that passes through `apply`. -/
structure Task where
  expectedTerm : Int
  dependency : BitVec 64
  data : List UInt8

namespace Replica

def new (dependencyLookBack : Int) : Replica := ⟨.fresh dependencyLookBack, .new, [], [], []⟩

def addReplicator (term : Int) (rmap : List (PeerId × Int)) (peer : PeerId) :
    List (PeerId × Int) :=
  if rmap.any fun item => item.1 = peer then rmap else rmap ++ [(peer, term)]

/-- What a change of the role does to the rest of the node: `become_leader` starts
replicators and resets the ballot box, `step_down` clears it, and a handler that waits
calls `last_log_id`. -/
def follow (conf : Configuration) (before after : ElectionNode) (replica : Replica) : Replica :=
  let begins : Bool := after.state.leading && !before.state.leading
  let ends : Bool := before.state.leading && !after.state.leading
  let peers := conf.peers.filter (· ≠ after.serverId)
  { replica with
    ballotBox :=
      if begins then replica.ballotBox.resetPendingIndex (replica.log.lastLogIndex + 1)
      else if ends then replica.ballotBox.clearPendingTasks
      else replica.ballotBox
    rmap := if begins then peers.foldl (addReplicator after.currentTerm) replica.rmap
      else replica.rmap
    calling := replica.calling ++ after.waiting.drop before.waiting.length }

/-- `apply`: the entries get their term here and their indexes in the log manager. -/
def apply (conf : Configuration) (currentTerm : Int) (replica : Replica) (tasks : List Task) :
    Option Replica :=
  let tasks := tasks.filter fun task =>
    task.expectedTerm = -1 ∨ task.expectedTerm = currentTerm
  let entries := tasks.map fun task =>
    ⟨.data, ⟨0, currentTerm⟩, task.dependency, none, none, task.data⟩
  (replica.log.appendEntries entries (.leader currentTerm) false).map fun result =>
    { replica with
      log := result.1
      ballotBox := tasks.foldl (fun box _ => box.appendPendingTask conf none) replica.ballotBox }

/-- The request for an entry, from the replicator of the peer. An entry whose
predecessor is not there is not sent. -/
def sendEntries (serverId peer : PeerId) (index committedIndex : Int)
    (committedOoIndex : List Int) (replica : Replica) : Option (List AppendEntriesRequest) :=
  match replica.rmap.find? fun item => item.1 = peer with
  | none => some []
  | some (_, term) => do
      let prevLogTerm ← replica.log.unsafeGetTerm (index - 1)
      if prevLogTerm = 0 ∧ index - 1 ≠ 0 then some []
      else
        let entry ← replica.log.getEntry index
        some (entry.map fun entry => ⟨serverId, peer, term, prevLogTerm, index - 1,
          [entry.toMeta], committedIndex, committedOoIndex, entry.dependency⟩).toList

def sendEmptyEntries (serverId peer : PeerId) (prevLogIndex committedIndex : Int)
    (committedOoIndex : List Int) (replica : Replica) : Option (List AppendEntriesRequest) :=
  match replica.rmap.find? fun item => item.1 = peer with
  | none => some []
  | some (_, term) => do
      let prevLogTerm ← replica.log.unsafeGetTerm prevLogIndex
      let prevLogIndex := if prevLogTerm = 0 then 0 else prevLogIndex
      some [⟨serverId, peer, term, prevLogTerm, prevLogIndex, [], committedIndex,
        committedOoIndex, 0⟩]

/-- Whether the log takes the entries of a request at once. -/
def takes (replica : Replica) (request : AppendEntriesRequest) : Bool :=
  replica.log.checkDependency (request.prevLogIndex + request.entries.length)
      request.dependency &&
    !request.entries.isEmpty

def handleEntries (currentTerm : Int) (request : AppendEntriesRequest) (replica : Replica) :
    Option Replica := do
  -- The local term of the predecessor is read, and not used.
  let _ ← replica.log.unsafeGetTerm request.prevLogIndex
  if replica.takes request then
    let entries := Follower.parseEntries request.prevLogIndex request.entries
    let result ← replica.log.appendEntries entries (.follower currentTerm) true
    some { replica with log := result.1 }
  else some replica

/-- A handler gets to its call of `last_log_id(true)`. -/
def call (position : Nat) (replica : Replica) : Replica :=
  match replica.calling[position]? with
  | some thread =>
      { replica with
        calling := replica.calling.eraseIdx position
        log := replica.log.enqueue (.lastLogId (.lastLogId thread)) }
  | none => replica

/-- The disk thread carries out its next task; the entries written come with it. -/
def diskWrite (replica : Replica) : Replica × List (Int × LogEntry) :=
  match replica.log.diskWrite with
  | some (log, .append closure, _) =>
      ({ replica with log := log },
        closure.entries.map fun entry => (closure.done.term, entry))
  | some (log, .lastLogId (.lastLogId thread), _) =>
      ({ replica with log := log, answers := replica.answers ++ [(thread, log.lastId)] }, [])
  | some (log, _, _) => ({ replica with log := log }, [])
  | none => (replica, [])

/-- A new process of the node, on the log that is stored. -/
def restart (replica : Replica) : Replica := ⟨replica.log.restart, .new, [], [], []⟩

end Replica

/-- An entry that a node has written, taken in a term. -/
structure Stored where
  node : PeerId
  term : Int
  entry : LogEntry
  deriving DecidableEq

/-- A ballot that was granted at the leader of a term, and the leader's entry. -/
structure Granted where
  term : Int
  entry : LogEntry
  deriving DecidableEq

/-- An execution of `become_leader`, with the storage of the node then. -/
structure Leadership where
  leader : PeerId
  term : Int
  held : LogStorage

structure Replicas where
  cluster : Cluster
  nodes : PeerId → Replica
  requests : List AppendEntriesRequest
  stored : List Stored
  granted : List Granted
  leaderships : List Leadership

inductive Event
  | electionTimeout (id : PeerId)
  | voteTimeout (id : PeerId)
  | receive (position : Nat)
  | call (id : PeerId) (position : Nat)
  | resume (id : PeerId) (position : Nat)
  | saveVote (id : PeerId)
  | increaseTermTo (id : PeerId) (newTerm : Int)
  | stepdownTimeout (id : PeerId)
  | apply (id : PeerId) (tasks : List Task)
  | sendEntries (id peer : PeerId) (index committedIndex : Int) (committedOoIndex : List Int)
  | sendEmptyEntries (id peer : PeerId) (prevLogIndex committedIndex : Int)
      (committedOoIndex : List Int)
  | appendEntries (position : Nat)
  | diskWrite (id : PeerId)
  | diskBatchEnd (id : PeerId)
  | commitAt (id : PeerId) (indexes : List Int) (peer : PeerId)
  | applied (id : PeerId) (appliedId : LogId)
  | crash (id : PeerId)

namespace Replicas

def init (dependencyLookBack : Int) : Replicas where
  cluster := .init
  nodes := fun _ => .new dependencyLookBack
  requests := []
  stored := []
  granted := []
  leaderships := []

def put (s : Replicas) (id : PeerId) (replica : Replica) : Replicas :=
  { s with nodes := Function.update s.nodes id replica }

/-- An event of the vote protocol, with what it does to the rest of the nodes. -/
def elect (conf : Configuration) (stepDownWhenVoteTimedout : Bool) (s : Replicas)
    (event : VoteProtocol.Event) : Option Replicas :=
  (s.cluster.step conf stepDownWhenVoteTimedout event).map fun cluster =>
    { s with
      cluster := cluster
      nodes := fun id => (s.nodes id).follow conf (s.cluster.nodes id) (cluster.nodes id)
      leaderships := s.leaderships ++
        (cluster.elected.drop s.cluster.elected.length).map fun winner =>
          ⟨winner.1, winner.2, (s.nodes winner.1).log.storage⟩ }

/-- The request passes the term checks of its receiver. -/
def accepts (s : Replicas) (request : AppendEntriesRequest) : Bool :=
  let n := s.cluster.nodes request.peerId
  !n.saving && n.currentTerm ≤ request.term &&
    (n.checkStepDown request.term request.serverId).leaderId = request.serverId

/-- `handle_append_entries_request`. -/
def handleAppendEntries (conf : Configuration) (stepDownWhenVoteTimedout : Bool) (s : Replicas)
    (request : AppendEntriesRequest) : Option Replicas := do
  let after ← s.elect conf stepDownWhenVoteTimedout
    (.appendEntries request.peerId request.term request.serverId)
  if s.accepts request then
    let currentTerm := (after.cluster.nodes request.peerId).currentTerm
    let replica ← (after.nodes request.peerId).handleEntries currentTerm request
    some (after.put request.peerId replica)
  else some after

def resume (conf : Configuration) (stepDownWhenVoteTimedout : Bool) (s : Replicas) (id : PeerId)
    (position : Nat) : Option Replicas :=
  let n := s.cluster.nodes id
  match (s.nodes id).answers[position]? with
  | some (thread, lastLogId) =>
      if n.saving then some s
      else
        (s.put id { s.nodes id with answers := (s.nodes id).answers.eraseIdx position }).elect
          conf stepDownWhenVoteTimedout (.resume id (n.waiting.idxOf thread) lastLogId)
  | none => some s

/-- The ballots that a call grants, with the leader's entries. -/
def grants (s : Replicas) (id : PeerId) (outcome : Outcome) : List Granted :=
  let indexes := (outcome.onCommitted.map Committed.ooCommittedEntries).getD []
  indexes.filterMap fun index =>
    ((s.nodes id).log.getEntry index).join.map fun entry =>
      ⟨(s.cluster.nodes id).currentTerm, entry⟩

def step (conf : Configuration) (stepDownWhenVoteTimedout : Bool) (s : Replicas) :
    Event → Option Replicas
  | .electionTimeout id => do
      let lastLogId ← (s.nodes id).log.lastLogId
      s.elect conf stepDownWhenVoteTimedout (.electionTimeout id lastLogId)
  | .voteTimeout id => do
      let lastLogId ← (s.nodes id).log.lastLogId
      s.elect conf stepDownWhenVoteTimedout (.voteTimeout id lastLogId)
  | .receive position => s.elect conf stepDownWhenVoteTimedout (.receive position)
  | .call id position => some (s.put id ((s.nodes id).call position))
  | .resume id position => s.resume conf stepDownWhenVoteTimedout id position
  | .saveVote id => s.elect conf stepDownWhenVoteTimedout (.saveVote id)
  | .increaseTermTo id newTerm =>
      s.elect conf stepDownWhenVoteTimedout (.increaseTermTo id newTerm)
  | .stepdownTimeout id => s.elect conf stepDownWhenVoteTimedout (.stepdownTimeout id)
  | .apply id tasks =>
      let n := s.cluster.nodes id
      if n.saving ∨ n.state ≠ .leader then some s
      else ((s.nodes id).apply conf n.currentTerm tasks).map (s.put id)
  | .sendEntries id peer index committedIndex committedOoIndex =>
      ((s.nodes id).sendEntries id peer index committedIndex committedOoIndex).map
        fun requests => { s with requests := s.requests ++ requests }
  | .sendEmptyEntries id peer prevLogIndex committedIndex committedOoIndex =>
      ((s.nodes id).sendEmptyEntries id peer prevLogIndex committedIndex committedOoIndex).map
        fun requests => { s with requests := s.requests ++ requests }
  | .appendEntries position =>
      match s.requests[position]? with
      | some request => s.handleAppendEntries conf stepDownWhenVoteTimedout request
      | none => some s
  | .diskWrite id =>
      let (replica, entries) := (s.nodes id).diskWrite
      some { s.put id replica with
        stored := s.stored ++ entries.map fun (term, entry) => ⟨id, term, entry⟩ }
  | .diskBatchEnd id =>
      some (s.put id { s.nodes id with log := (s.nodes id).log.diskBatchEnd })
  | .commitAt id indexes peer =>
      ((s.nodes id).ballotBox.commitAt indexes peer).map fun outcome =>
        { s.put id { s.nodes id with ballotBox := outcome.box } with
          granted := s.granted ++ s.grants id outcome }
  | .applied id appliedId =>
      some (s.put id { s.nodes id with log := (s.nodes id).log.setAppliedId appliedId })
  | .crash id =>
      (s.elect conf stepDownWhenVoteTimedout (.crash id)).map fun after =>
        after.put id (after.nodes id).restart

/-- The members that have written the entry, taken in the term. -/
def holders (conf : Configuration) (s : Replicas) (granted : Granted) : Finset PeerId :=
  conf.members.filter fun node => ⟨node, granted.term, granted.entry⟩ ∈ s.stored

/-- A granted entry that a majority has stored is held by every later leader. -/
def LeaderComplete (conf : Configuration) (s : Replicas) : Prop :=
  ∀ granted ∈ s.granted, Majority conf.members (s.holders conf granted) →
    ∀ leadership ∈ s.leaderships, granted.term < leadership.term →
      leadership.held.getEntry granted.entry.id.index = some granted.entry

instance leaderCompleteDecidable (conf : Configuration) (s : Replicas) :
    Decidable (s.LeaderComplete conf) :=
  inferInstanceAs (Decidable (∀ _ ∈ _, _))

end Replicas

end HitConsistency.Election.ReplicatedLogs
