/- GID: HitConsistency/Node/LeaderBallots
   digest: Role and ballot box of a node under its handlers and the commits between their calls. -/

import HitConsistency.Commit.LeadershipReset
import HitConsistency.Election.VoteProtocol
import HitConsistency.Log.StoredBatches

set_option autoImplicit false
set_option relaxedAutoImplicit false

/-!
The ballot box has a mutex of its own: `commit_at` and `set_last_committed_index` run
between any two calls that a handler makes under the mutex of the node. A handler is
therefore split here into the change of the role and the calls that it still has to make;
the mutex is free again behind the last of them. `append_entries` is only called under the
mutex of the node. Of the log only the last index is used, so its disk thread is left out.
-/

namespace HitConsistency.Node.LeaderBallots

open HitConsistency.Base.GuardedRuns
open HitConsistency.Commit.BallotCount
open HitConsistency.Commit.LeadershipReset (setLastCommittedIndex_queues)
open HitConsistency.Commit.PendingQueues
open HitConsistency.Election.VoteProtocol (Cluster Effect ElectionNode RequestVoteRequest
  RequestVoteResponse)
open HitConsistency.Group.Peers
open HitConsistency.Log.Entry
open HitConsistency.Log.KeptEntries
open HitConsistency.Log.MemoryLog
open HitConsistency.Log.StoredBatches (afterConflict resolveOverlap_eq)
open HitConsistency.Node.RoleState
open BallotBox (Op)

section Calls

/-- The call of `step_down`, of a leader only. -/
def stepDownCalls (r : Role) : List Op :=
  if r.state.leading then [.clearPendingTasks] else []

/-- The call of `become_leader`, if the handler came to it. -/
def becomeLeaderCalls (effect : Effect) (lastLogIndex : Int) : List Op :=
  if effect.leads then [.resetPendingIndex (lastLogIndex + 1)] else []

def requestVoteCalls (n : ElectionNode) (request : RequestVoteRequest) : List Op :=
  if n.currentTerm < request.term then stepDownCalls n.toRole else []

def castVoteCalls (n : ElectionNode) (request : RequestVoteRequest) (lastLogId : LogId) :
    List Op :=
  if request.term = n.currentTerm ∧ ElectionNode.logIsOk request lastLogId ∧ n.votedId.isEmpty then
    stepDownCalls n.toRole
  else []

def resumeCalls (n : ElectionNode) (position : Nat) (lastLogId : LogId) : List Op :=
  match n.waiting[position]? with
  | some (.requestVote request) => castVoteCalls n request lastLogId
  | _ => []

def voteTimeoutCalls (stepDownWhenVoteTimedout : Bool) (n : ElectionNode) : List Op :=
  if n.state = .candidate ∧ stepDownWhenVoteTimedout then stepDownCalls n.toRole else []

def preVoteResponseCalls (n : ElectionNode) (term : Int) (response : RequestVoteResponse) :
    List Op :=
  if n.state = .follower ∧ term = n.currentTerm ∧ n.currentTerm < response.term then
    stepDownCalls n.toRole
  else []

def requestVoteResponseCalls (n : ElectionNode) (peer : PeerId) (term : Int)
    (response : RequestVoteResponse) (lastLogIndex : Int) : List Op :=
  if n.state = .candidate ∧ term = n.currentTerm ∧ n.currentTerm < response.term then
    stepDownCalls n.toRole
  else becomeLeaderCalls (n.handleRequestVoteResponse peer term response) lastLogIndex

def checkStepDownCalls (r : Role) (requestTerm : Int) : List Op :=
  if r.currentTerm < requestTerm ∨ r.state ≠ .follower ∨ r.leaderId.isEmpty then stepDownCalls r
  else []

/-- The request is checked for its term, and once more for its sender. -/
def appendEntriesCalls (n : ElectionNode) (term : Int) (serverId : PeerId) : List Op :=
  if term < n.currentTerm then []
  else
    let r := n.checkStepDown term serverId
    checkStepDownCalls n.toRole term ++ if serverId ≠ r.leaderId then stepDownCalls r else []

def increaseTermCalls (n : ElectionNode) (newTerm : Int) : List Op :=
  if newTerm ≤ n.currentTerm then [] else stepDownCalls n.toRole

def stepdownTimeoutCalls (n : ElectionNode) : List Op :=
  if n.state.leading then stepDownCalls n.toRole else []

/-- `_state <= STATE_FOLLOWER`. -/
def running : State → Bool
  | .leader | .transferring | .candidate | .follower => true
  | _ => false

/-- `_state < STATE_SHUTTING`. -/
def notShutting : State → Bool
  | .shutting | .shutdown => false
  | _ => true

def shutdown (n : ElectionNode) : ElectionNode :=
  if notShutting n.state then
    let r := if running n.state then n.stepDown n.currentTerm else n.toRole
    { n with toRole := { r with state := .shutting } }
  else n

def shutdownCalls (n : ElectionNode) : List Op :=
  if notShutting n.state ∧ running n.state then stepDownCalls n.toRole else []

/-- `apply` by a leader: a task that expects another term is turned away. -/
def applyCalls (n : ElectionNode) (conf : Configuration) (oldConf : Option Configuration)
    (expectedTerms : List Int) : List Op :=
  if n.state ≠ .leader then []
  else
    (expectedTerms.filter fun term => term = -1 ∨ term = n.currentTerm).map fun _ =>
      .appendPendingTask conf oldConf

end Calls

/-- A node with its ballot box and its log, and the calls that the handler which holds the
mutex still has to make. -/
structure BallotNode where
  node : ElectionNode
  box : BallotBox
  log : LogManager Unit
  calls : List Op

inductive Event
  | electionTimeout (lastLogId : LogId)
  | voteTimeout (lastLogId : LogId)
  | prevote (request : RequestVoteRequest)
  | requestVote (request : RequestVoteRequest)
  | preVoteResponse (peer : PeerId) (term : Int) (response : RequestVoteResponse)
  | requestVoteResponse (peer : PeerId) (term : Int) (response : RequestVoteResponse)
  | resume (position : Nat) (lastLogId : LogId)
  | saveVote
  | appendEntries (term : Int) (serverId : PeerId)
  | increaseTermTo (newTerm : Int)
  | stepdownTimeout
  | shutdown
  | apply (conf : Configuration) (oldConf : Option Configuration) (expectedTerms : List Int)
  | append (entries : List LogEntry) (ooRep : Bool)
  | applied (index : Nat) (term : Int)
  | call
  | commitAt (commitIndexes : List Int) (peer : PeerId)
  | setLastCommittedIndex (lastCommittedIndex : Int) (ooCommittedEntries : List Int)

namespace BallotNode

/-- `init` on the meta and the log that a stopped process leaves behind. -/
def boot (serverId : PeerId) (metaStorage : MetaStorage) (stored : LogManager Unit) : BallotNode :=
  ⟨.boot serverId metaStorage, .new, stored.restart, []⟩

def MutexFree (s : BallotNode) : Prop := s.calls = [] ∧ s.node.saving = false

instance mutexFreeDecidable (s : BallotNode) : Decidable s.MutexFree :=
  inferInstanceAs (Decidable (_ ∧ _))

def act (s : BallotNode) (handler : ElectionNode → Option (ElectionNode × List Op)) :
    Option BallotNode :=
  if s.MutexFree then (handler s.node).map fun r => { s with node := r.1, calls := r.2 }
  else some s

def step (conf : Configuration) (stepDownWhenVoteTimedout : Bool) (s : BallotNode) :
    Event → Option BallotNode
  | .electionTimeout lastLogId =>
      s.act fun n => some ((n.handleElectionTimeout conf lastLogId).node, [])
  | .voteTimeout lastLogId =>
      s.act fun n => (n.handleVoteTimeout conf stepDownWhenVoteTimedout lastLogId).map fun effect =>
        (effect.node, voteTimeoutCalls stepDownWhenVoteTimedout n)
  | .prevote request => s.act fun n => some ((n.handlePrevote request).node, [])
  | .requestVote request =>
      s.act fun n => some ((n.handleRequestVote request).node, requestVoteCalls n request)
  | .preVoteResponse peer term response =>
      s.act fun n => (n.handlePreVoteResponse conf peer term response).map fun effect =>
        (effect.node, preVoteResponseCalls n term response)
  | .requestVoteResponse peer term response =>
      s.act fun n => some ((n.handleRequestVoteResponse peer term response).node,
        requestVoteResponseCalls n peer term response s.log.lastLogIndex)
  | .resume position lastLogId =>
      s.act fun n => some ((Cluster.resume conf n position lastLogId).node,
        resumeCalls n position lastLogId)
  | .saveVote =>
      if s.calls = [] ∧ s.node.saving then
        some { s with
          node := s.node.saveVote.node
          calls := becomeLeaderCalls s.node.saveVote s.log.lastLogIndex }
      else some s
  | .appendEntries term serverId =>
      s.act fun n => some (n.receiveAppendEntries term serverId, appendEntriesCalls n term serverId)
  | .increaseTermTo newTerm =>
      s.act fun n => some (n.increaseTermTo newTerm, increaseTermCalls n newTerm)
  | .stepdownTimeout => s.act fun n => some (n.handleStepdownTimeout, stepdownTimeoutCalls n)
  | .shutdown => s.act fun n => some (LeaderBallots.shutdown n, shutdownCalls n)
  | .apply conf oldConf expectedTerms =>
      s.act fun n => some (n, applyCalls n conf oldConf expectedTerms)
  | .append entries ooRep =>
      if s.MutexFree then
        (s.log.appendEntries entries () ooRep).map fun result => { s with log := result.1 }
      else some s
  | .applied index term => some { s with log := s.log.setAppliedId ⟨index, term⟩ }
  | .call =>
      match s.calls with
      | [] => some s
      | op :: rest => (s.box.perform op).map fun box => { s with box := box, calls := rest }
  | .commitAt commitIndexes peer =>
      (s.box.perform (.commitAt commitIndexes peer)).map fun box => { s with box := box }
  | .setLastCommittedIndex lastCommittedIndex ooCommittedEntries =>
      (s.box.perform (.setLastCommittedIndex lastCommittedIndex ooCommittedEntries)).map fun box =>
        { s with box := box }

end BallotNode

/-- The ballot box is open exactly while the node leads, and holds nothing otherwise. -/
def Follows (state : State) (box : BallotBox) : Prop :=
  (box.pendingIndex ≠ 0 ↔ state = .leader) ∧ (state ≠ .leader → box.pendingMetaQueue = [])

/-- All that a handler can do to the role and to the ballot box together. -/
inductive Handled (lastLogIndex : Int) (state : State) : State → List Op → Prop
  | stays : Handled lastLogIndex state state []
  | moves {state' : State} (h : state ≠ .leader) (h' : state' ≠ .leader) :
      Handled lastLogIndex state state' []
  | stepsDown {state' : State} (h : state' ≠ .leader) :
      Handled lastLogIndex state state' [.clearPendingTasks]
  | leads : Handled lastLogIndex state .leader [.resetPendingIndex (lastLogIndex + 1)]
  | applies {calls : List Op} (h : state = .leader)
      (hcalls : ∀ op ∈ calls, ∃ conf oldConf, op = .appendPendingTask conf oldConf) :
      Handled lastLogIndex state state calls

section Handlers

variable {last : Int} {n : ElectionNode}

private theorem handled_stepDown (r : Role) {state : State} (h : state ≠ .leader) :
    Handled last r.state state (stepDownCalls r) := by
  unfold stepDownCalls
  by_cases hleading : r.state.leading = true
  · rw [if_pos hleading]
    exact .stepsDown h
  · rw [if_neg hleading]
    refine .moves ?_ h
    intro hleader
    rw [hleader] at hleading
    exact hleading rfl

private theorem handled_stepDown_follower (r : Role) (term : Int) :
    Handled last r.state (r.stepDown term).state (stepDownCalls r) := by
  rw [stepDown_state]
  exact handled_stepDown r (by simp)

private theorem prevote_state (conf : Configuration) (n : ElectionNode) (lastLogId : LogId) :
    (n.prevote conf lastLogId).node.state = n.state := by
  unfold ElectionNode.prevote
  split
  · rfl
  · rfl

private theorem electSelf_state {conf : Configuration} {effect : Effect}
    (hstate : n.state ≠ .leader)
    (h : n.electSelf conf = some effect) : effect.node.state ≠ .leader := by
  unfold ElectionNode.electSelf at h
  split_ifs at h
  · cases h
    exact hstate
  · cases h
    intro hleader
    cases hleader

private theorem handled_electionTimeout (conf : Configuration) (n : ElectionNode)
    (lastLogId : LogId) :
    Handled last n.state (n.handleElectionTimeout conf lastLogId).node.state [] := by
  unfold ElectionNode.handleElectionTimeout
  split
  · exact .stays
  · rw [prevote_state]
    exact .stays

private theorem handled_voteTimeout {conf : Configuration} {flag : Bool} {lastLogId : LogId}
    {effect : Effect} (h : n.handleVoteTimeout conf flag lastLogId = some effect) :
    Handled last n.state effect.node.state (voteTimeoutCalls flag n) := by
  unfold ElectionNode.handleVoteTimeout at h
  unfold voteTimeoutCalls
  by_cases hstate : n.state = .candidate
  · rw [if_neg (not_not.mpr hstate)] at h
    cases flag with
    | true =>
      rw [if_pos rfl] at h
      cases h
      rw [if_pos ⟨hstate, rfl⟩, prevote_state]
      exact handled_stepDown_follower n.toRole n.currentTerm
    | false =>
      rw [if_neg (by simp)] at h
      rw [if_neg (by simp)]
      have hne : n.state ≠ .leader := by simp [hstate]
      exact .moves hne (electSelf_state hne h)
  · rw [if_pos hstate] at h
    cases h
    rw [if_neg (fun hboth => hstate hboth.1)]
    exact .stays

private theorem handled_requestVote (n : ElectionNode) (request : RequestVoteRequest) :
    Handled last n.state (n.handleRequestVote request).node.state (requestVoteCalls n request) := by
  unfold ElectionNode.handleRequestVote requestVoteCalls
  by_cases hold : request.term < n.currentTerm
  · rw [if_pos hold, if_neg (by omega)]
    exact .stays
  · rw [if_neg hold]
    split
    · exact handled_stepDown_follower n.toRole request.term
    · exact .stays

private theorem handled_castVote (n : ElectionNode) (request : RequestVoteRequest)
    (lastLogId : LogId) :
    Handled last n.state (n.castVote request lastLogId).node.state
      (castVoteCalls n request lastLogId) := by
  unfold ElectionNode.castVote castVoteCalls
  by_cases hterm : request.term = n.currentTerm
  · rw [if_neg (not_not.mpr hterm)]
    by_cases hvote : ElectionNode.logIsOk request lastLogId ∧ n.votedId.isEmpty
    · rw [if_pos hvote, if_pos ⟨hterm, hvote⟩]
      exact handled_stepDown_follower n.toRole request.term
    · rw [if_neg hvote, if_neg (fun hboth => hvote hboth.2)]
      exact .stays
  · rw [if_pos hterm, if_neg (fun hboth => hterm hboth.1)]
    exact .stays

private theorem handled_resume (conf : Configuration) (n : ElectionNode) (position : Nat)
    (lastLogId : LogId) : Handled last n.state (Cluster.resume conf n position lastLogId).node.state
      (resumeCalls n position lastLogId) := by
  unfold Cluster.resume resumeCalls
  cases n.waiting[position]? with
  | none => exact .stays
  | some thread =>
    cases thread with
    | prevote request => exact .stays
    | requestVote request =>
      exact handled_castVote { n with waiting := n.waiting.eraseIdx position } request lastLogId
    | electSelf oldTerm =>
      dsimp only [Cluster.resumeWith, ElectionNode.sendVoteRequests]
      split
      · exact .stays
      · exact .stays

private theorem handled_preVoteResponse {conf : Configuration} {peer : PeerId} {term : Int}
    {response : RequestVoteResponse} {effect : Effect}
    (h : n.handlePreVoteResponse conf peer term response = some effect) :
    Handled last n.state effect.node.state (preVoteResponseCalls n term response) := by
  unfold ElectionNode.handlePreVoteResponse at h
  unfold preVoteResponseCalls
  by_cases hstate : n.state = .follower
  · rw [if_neg (not_not.mpr hstate)] at h
    have hne : n.state ≠ .leader := by simp [hstate]
    by_cases hterm : term = n.currentTerm
    · rw [if_neg (not_not.mpr hterm)] at h
      by_cases hhigher : n.currentTerm < response.term
      · rw [if_pos hhigher] at h
        cases h
        rw [if_pos ⟨hstate, hterm, hhigher⟩]
        exact handled_stepDown_follower n.toRole response.term
      · rw [if_neg hhigher] at h
        rw [if_neg (fun hall => hhigher hall.2.2)]
        dsimp only at h
        split_ifs at h
        · exact .moves hne (electSelf_state (by exact hne) h)
        · cases h
          exact .stays
        · cases h
          exact .stays
    · rw [if_pos hterm] at h
      cases h
      rw [if_neg (fun hall => hterm hall.2.1)]
      exact .stays
  · rw [if_pos hstate] at h
    cases h
    rw [if_neg (fun hall => hstate hall.1)]
    exact .stays

private theorem handled_requestVoteResponse (n : ElectionNode) (peer : PeerId) (term : Int)
    (response : RequestVoteResponse) (last : Int) :
    Handled last n.state (n.handleRequestVoteResponse peer term response).node.state
      (requestVoteResponseCalls n peer term response last) := by
  unfold requestVoteResponseCalls ElectionNode.handleRequestVoteResponse becomeLeaderCalls
  by_cases hstate : n.state = .candidate
  · rw [if_neg (not_not.mpr hstate)]
    by_cases hterm : term = n.currentTerm
    · rw [if_neg (not_not.mpr hterm)]
      by_cases hhigher : n.currentTerm < response.term
      · rw [if_pos hhigher, if_pos ⟨hstate, hterm, hhigher⟩]
        exact handled_stepDown_follower n.toRole response.term
      · have hcalls : ¬ (n.state = .candidate ∧ term = n.currentTerm ∧
            n.currentTerm < response.term) := fun hall => hhigher hall.2.2
        rw [if_neg hhigher, if_neg hcalls]
        by_cases hgranted : response.granted = true
        · rw [if_pos hgranted]
          dsimp only
          split
          · exact .leads
          · exact .stays
        · rw [if_neg hgranted]
          exact .stays
    · rw [if_pos hterm, if_neg (fun hall => hterm hall.2.1)]
      exact .stays
  · rw [if_pos hstate, if_neg (fun hall => hstate hall.1)]
    exact .stays

private theorem handled_saveVote (n : ElectionNode) (last : Int) :
    Handled last n.state n.saveVote.node.state (becomeLeaderCalls n.saveVote last) := by
  unfold ElectionNode.saveVote becomeLeaderCalls
  dsimp only
  split
  · exact .leads
  · exact .stays

private theorem handled_appendEntries (n : ElectionNode) (term : Int) (serverId : PeerId) :
    Handled last n.state (n.receiveAppendEntries term serverId).state
      (appendEntriesCalls n term serverId) := by
  have hchecked := checkStepDown_state n.toRole term serverId
  have hnone : stepDownCalls (n.checkStepDown term serverId) = [] := by
    unfold stepDownCalls
    rw [hchecked]
    rfl
  unfold ElectionNode.receiveAppendEntries appendEntriesCalls
  by_cases hold : term < n.currentTerm
  · rw [if_pos hold, if_pos hold]
    exact .stays
  · rw [if_neg hold, if_neg hold]
    dsimp only
    rw [hnone, ite_self, List.append_nil, apply_ite Role.state, stepDown_state, hchecked, ite_self]
    unfold checkStepDownCalls
    by_cases hcond : n.currentTerm < term ∨ n.state ≠ .follower ∨ n.leaderId.isEmpty
    · rw [if_pos hcond]
      exact handled_stepDown n.toRole (by simp)
    · rw [if_neg hcond]
      rw [not_or, not_or, not_not] at hcond
      rw [hcond.2.1]
      exact .stays

private theorem handled_increaseTermTo (n : ElectionNode) (newTerm : Int) :
    Handled last n.state (n.increaseTermTo newTerm).state (increaseTermCalls n newTerm) := by
  unfold ElectionNode.increaseTermTo increaseTermCalls
  split
  · exact .stays
  · exact handled_stepDown_follower n.toRole newTerm

private theorem handled_stepdownTimeout (n : ElectionNode) :
    Handled last n.state n.handleStepdownTimeout.state (stepdownTimeoutCalls n) := by
  unfold ElectionNode.handleStepdownTimeout stepdownTimeoutCalls
  split
  · exact handled_stepDown_follower n.toRole n.currentTerm
  · exact .stays

private theorem handled_shutdown (n : ElectionNode) :
    Handled last n.state (shutdown n).state (shutdownCalls n) := by
  unfold shutdown shutdownCalls
  by_cases hnot : notShutting n.state = true
  · rw [if_pos hnot]
    dsimp only
    by_cases hrunning : running n.state = true
    · rw [if_pos ⟨hnot, hrunning⟩]
      exact handled_stepDown n.toRole (by simp)
    · rw [if_neg (fun hboth => hrunning hboth.2)]
      refine .moves ?_ (by simp)
      intro hleader
      rw [hleader] at hrunning
      exact hrunning rfl
  · rw [if_neg hnot, if_neg (fun hboth => hnot hboth.1)]
    exact .stays

private theorem handled_apply (n : ElectionNode) (conf : Configuration)
    (oldConf : Option Configuration)
    (expectedTerms : List Int) :
    Handled last n.state n.state (applyCalls n conf oldConf expectedTerms) := by
  unfold applyCalls
  by_cases hstate : n.state = .leader
  · rw [if_neg (not_not.mpr hstate)]
    refine .applies hstate ?_
    intro op hop
    obtain ⟨term, -, rfl⟩ := List.mem_map.mp hop
    exact ⟨conf, oldConf, rfl⟩
  · rw [if_pos hstate]
    exact .stays

end Handlers

section Box

variable {state state' : State} {box box' : BallotBox} {calls rest : List Op} {op : Op}

/-- What the ballot box still lacks, the calls that are left bring. -/
inductive Due (state : State) (box : BallotBox) : List Op → Prop
  | settled {calls : List Op} (h : Follows state box)
      (hcalls : ∀ op ∈ calls, ∃ conf oldConf, op = .appendPendingTask conf oldConf)
      (hleader : calls ≠ [] → state = .leader) : Due state box calls
  | closing (h : state ≠ .leader) : Due state box [.clearPendingTasks]
  | opening {index : Int} (h : state = .leader) (hindex : 0 < index) :
      Due state box [.resetPendingIndex index]

theorem Handled.due {last : Int} (h : Handled last state state' calls) (hbox : Follows state box)
    (hlast : 0 ≤ last) : Due state' box calls := by
  cases h with
  | stays => exact .settled hbox (by simp) (by simp)
  | moves hold hnew =>
    refine .settled ⟨?_, fun _ => hbox.2 hold⟩ (by simp) (by simp)
    constructor
    · intro hpending
      exact absurd (hbox.1.mp hpending) hold
    · intro hleader
      exact absurd hleader hnew
  | stepsDown hnew => exact .closing hnew
  | leads => exact .opening rfl (by omega)
  | applies hleader hcalls => exact .settled hbox hcalls fun _ => hleader

theorem Due.free (h : Due state box []) : Follows state box := by
  cases h with
  | settled h => exact h

private theorem Due.append_open {conf : Configuration} {oldConf : Option Configuration}
    (h : Due state box (.appendPendingTask conf oldConf :: rest)) : box.pendingIndex ≠ 0 := by
  cases h with
  | settled h hcalls hleader => exact h.1.mpr (hleader (by simp))

theorem Due.call (h : Due state box (op :: rest)) (hrun : box.perform op = some box') :
    Due state box' rest := by
  cases h with
  | settled h hcalls hleader =>
    obtain ⟨conf, oldConf, rfl⟩ := hcalls op (by simp)
    cases hrun
    have hstate := hleader (by simp)
    refine .settled ⟨h.1, fun hnot => absurd hstate hnot⟩ ?_ fun _ => hstate
    intro op hop
    exact hcalls op (by simp [hop])
  | closing h =>
    cases hrun
    refine .settled ⟨?_, fun _ => rfl⟩ (by simp) (by simp)
    constructor
    · intro hpending
      exact absurd rfl hpending
    · intro hleader
      exact absurd hleader h
  | opening h hindex =>
    cases hrun
    refine .settled ⟨?_, fun hnot => absurd h hnot⟩ (by simp) (by simp)
    exact iff_of_true (ne_of_gt hindex) h

/-- An operation that leaves an idle box alone and does not close an open one. -/
def Harmless (box box' : BallotBox) : Prop :=
  (box.pendingIndex = 0 → box'.pendingIndex = 0 ∧ box'.pendingMetaQueue = box.pendingMetaQueue) ∧
    (0 < box.pendingIndex → 0 < box'.pendingIndex)

theorem Due.harmless (h : Due state box calls) (hpending : 0 ≤ box.pendingIndex)
    (hbox : Harmless box box') : Due state box' calls := by
  cases h with
  | settled h hcalls hleader =>
    refine .settled ?_ hcalls hleader
    by_cases hstate : state = .leader
    · have hopen := hbox.2 (lt_of_le_of_ne hpending (Ne.symm (h.1.mpr hstate)))
      exact ⟨iff_of_true (ne_of_gt hopen) hstate, fun hnot => absurd hstate hnot⟩
    · have hzero : box.pendingIndex = 0 := by
        by_contra hne
        exact hstate (h.1.mp hne)
      obtain ⟨hzero', hqueue⟩ := hbox.1 hzero
      exact ⟨iff_of_false (not_not.mpr hzero') hstate, fun _ => hqueue.trans (h.2 hstate)⟩
  | closing h => exact .closing h
  | opening h hindex => exact .opening h hindex

private theorem commitAt_idle {indexes : List Int} {peer : PeerId} {r : Outcome}
    (hzero : box.pendingIndex = 0) (hr : box.commitAt indexes peer = some r) : r.box = box := by
  unfold BallotBox.commitAt at hr
  rw [if_pos hzero] at hr
  cases hr
  rfl

private theorem harmless_commitAt {indexes : List Int} {peer : PeerId}
    (h : box.perform (.commitAt indexes peer) = some box') : Harmless box box' := by
  obtain ⟨r, hr, rfl⟩ := Option.map_eq_some_iff.mp h
  obtain ⟨k, -, -, hshift, -⟩ := commitAt_shift hr
  refine ⟨?_, fun hpos => by omega⟩
  intro hzero
  rw [commitAt_idle hzero hr]
  exact ⟨hzero, rfl⟩

private theorem harmless_setLastCommittedIndex (box : BallotBox) (last : Int) (oo : List Int) :
    Harmless box (box.setLastCommittedIndex last oo).box := by
  obtain ⟨hpending, hqueue, -⟩ := setLastCommittedIndex_queues box last oo
  exact ⟨fun hzero => ⟨hpending.trans hzero, hqueue⟩, fun hpos => by omega⟩

def Below (box : BallotBox) : Prop :=
  box.pendingIndex ≠ 0 → box.lastCommittedIndex < box.pendingIndex

private theorem perform_committed (h : Below box)
    (hcheck : ∀ index, op = .resetPendingIndex index → box.ResetCheck index)
    (hrun : box.perform op = some box') :
    Below box' ∧ box.lastCommittedIndex ≤ box'.lastCommittedIndex := by
  cases op with
  | resetPendingIndex index =>
    cases hrun
    exact ⟨fun _ => (hcheck index rfl).2.2, le_refl _⟩
  | appendPendingTask conf oldConf =>
    cases hrun
    exact ⟨h, le_refl _⟩
  | commitAt indexes peer =>
    obtain ⟨r, hr, rfl⟩ := Option.map_eq_some_iff.mp hrun
    by_cases hzero : box.pendingIndex = 0
    · rw [commitAt_idle hzero hr]
      exact ⟨h, le_refl _⟩
    · have hlt := h hzero
      obtain ⟨k, -, -, hshift, ⟨-, hsame⟩ | hlast⟩ := commitAt_shift hr
      · exact ⟨fun _ => by omega, by omega⟩
      · exact ⟨fun _ => by omega, by omega⟩
  | clearPendingTasks =>
    cases hrun
    exact ⟨fun hopen => absurd rfl hopen, le_refl _⟩
  | setLastCommittedIndex last oo =>
    cases hrun
    unfold BallotBox.setLastCommittedIndex
    split_ifs with hopen hback hahead
    · exact ⟨h, le_refl _⟩
    · exact ⟨h, le_refl _⟩
    · refine ⟨fun hpending => absurd (.inl hpending) hopen, le_of_lt hahead⟩
    · exact ⟨h, le_refl _⟩

end Box

section Log

variable {γ : Type} {m m' : LogManager γ} {entries : List LogEntry} {done : γ} {ooRep : Bool}

private theorem storeEntries_last_le (h : m.storeEntries entries done = some m') :
    m.lastLogIndex ≤ m'.lastLogIndex := by
  rcases LogManager.storeEntries_cases h with ⟨-, rfl⟩ | ⟨front, back, mem, last, -, -, -, hadvance, rfl⟩
  · exact le_refl _
  · exact le_advanceLast hadvance

private theorem unsafeTruncateSuffix_last {kept : Int} (hlast : 0 ≤ m.lastLogIndex)
    (happlied : 0 ≤ m.appliedId.index) (h : m.unsafeTruncateSuffix kept = some m') :
    0 ≤ m'.lastLogIndex := by
  unfold LogManager.unsafeTruncateSuffix at h
  split at h
  · cases h
    exact hlast
  · obtain ⟨logs, -, h⟩ := Option.bind_eq_some_iff.mp h
    obtain ⟨term, -, h⟩ := Option.bind_eq_some_iff.mp h
    cases h
    dsimp only
    omega

private theorem afterConflict_last {n : Nat} (hlast : 0 ≤ m.lastLogIndex)
    (happlied : 0 ≤ m.appliedId.index) (h : afterConflict m entries n = some m') :
    0 ≤ m'.lastLogIndex := by
  unfold afterConflict at h
  split at h
  · split at h
    · exact unsafeTruncateSuffix_last hlast happlied h
    · cases h
      exact hlast
  · cases h
    exact hlast

private theorem checkAndResolveConflict_last {front back : LogEntry} {stored : List LogEntry}
    (hlast : 0 ≤ m.lastLogIndex) (happlied : 0 ≤ m.appliedId.index)
    (h : m.checkAndResolveConflict front back entries ooRep = some (.proceed m' stored)) :
    0 ≤ m'.lastLogIndex := by
  unfold LogManager.checkAndResolveConflict at h
  split_ifs at h
  · cases h
    dsimp only
    omega
  · cases h
  · cases h
  · cases h
    exact hlast
  · obtain ⟨mem, -, heq⟩ := Option.map_eq_some_iff.mp h
    cases heq
    exact hlast
  · rw [resolveOverlap_eq] at h
    obtain ⟨n, -, h⟩ := Option.bind_eq_some_iff.mp h
    obtain ⟨mid, hmid, heq⟩ := Option.map_eq_some_iff.mp h
    cases heq
    have hmidLast : 0 ≤ mid.lastLogIndex := afterConflict_last hlast happlied hmid
    exact hmidLast

private theorem appendEntries_last {status : Option Status} (hlast : 0 ≤ m.lastLogIndex)
    (happlied : 0 ≤ m.appliedId.index)
    (h : m.appendEntries entries done ooRep = some (m', status)) : 0 ≤ m'.lastLogIndex := by
  unfold LogManager.appendEntries at h
  split at h
  · cases h
    exact hlast
  · split at h
    · obtain ⟨resolution, hresolve, h⟩ := Option.bind_eq_some_iff.mp h
      cases resolution with
      | stop status =>
        cases h
        exact hlast
      | proceed mid stored =>
        obtain ⟨result, hstore, heq⟩ := Option.map_eq_some_iff.mp h
        cases heq
        exact le_trans (checkAndResolveConflict_last hlast happlied hresolve)
          (storeEntries_last_le hstore)
    · obtain ⟨result, hstore, heq⟩ := Option.map_eq_some_iff.mp h
      cases heq
      exact le_trans hlast (storeEntries_last_le hstore)

private theorem setAppliedId_indexes (m : LogManager γ) (id : LogId) :
    (m.setAppliedId id).lastLogIndex = m.lastLogIndex ∧
      ((m.setAppliedId id).appliedId = m.appliedId ∨ (m.setAppliedId id).appliedId = id) := by
  unfold LogManager.setAppliedId
  split
  · exact ⟨rfl, .inl rfl⟩
  · exact ⟨rfl, .inr rfl⟩

end Log

section Runs

variable {conf : Configuration} {stepDownWhenVoteTimedout : Bool} {s t : BallotNode}

/-- The calls that are left couple the box to the role; the log gives indexes from 1 on. -/
structure Coupled (s : BallotNode) : Prop where
  due : Due s.node.state s.box s.calls
  pending : 0 ≤ s.box.pendingIndex
  last : 0 ≤ s.log.lastLogIndex
  applied : 0 ≤ s.log.appliedId.index

private theorem coupled_boot (serverId : PeerId) (metaStorage : MetaStorage)
    (stored : LogManager Unit) :
    Coupled (.boot serverId metaStorage stored) := by
  refine ⟨.settled ⟨?_, fun _ => rfl⟩ (by simp [BallotNode.boot]) (by simp [BallotNode.boot]),
    le_refl _, ?_, le_refl _⟩
  · exact iff_of_false (not_not.mpr rfl) (by simp [BallotNode.boot, ElectionNode.boot])
  · exact Int.natCast_nonneg _

theorem Coupled.act (h : Coupled s)
    {handler : ElectionNode → Option (ElectionNode × List Op)}
    (hhandler : ∀ r, handler s.node = some r →
      Handled s.log.lastLogIndex s.node.state r.1.state r.2)
    (hrun : s.act handler = some t) : Coupled t := by
  unfold BallotNode.act at hrun
  split at hrun
  · rename_i hfree
    obtain ⟨r, hr, rfl⟩ := Option.map_eq_some_iff.mp hrun
    have hdue := h.due
    rw [hfree.1] at hdue
    exact ⟨(hhandler r hr).due hdue.free h.last, h.pending, h.last, h.applied⟩
  · cases hrun
    exact h

theorem Coupled.harmless (h : Coupled s) {box : BallotBox} (hbox : Harmless s.box box) :
    Coupled { s with box := box } := by
  refine ⟨h.due.harmless h.pending hbox, ?_, h.last, h.applied⟩
  rcases lt_or_eq_of_le h.pending with hpos | hzero
  · exact le_of_lt (hbox.2 hpos)
  · exact (hbox.1 hzero.symm).1.ge

theorem Coupled.call (h : Coupled s) {op : Op} {rest : List Op} (hcalls : s.calls = op :: rest)
    {box : BallotBox} (hrun : s.box.perform op = some box) :
    Coupled { s with box := box, calls := rest } := by
  have hdue := h.due
  rw [hcalls] at hdue
  refine ⟨hdue.call hrun, ?_, h.last, h.applied⟩
  cases hdue with
  | settled hfollows hall hleader =>
    obtain ⟨conf, oldConf, rfl⟩ := hall op (by simp)
    cases hrun
    exact h.pending
  | closing hstate =>
    cases hrun
    exact le_refl _
  | opening hstate hindex =>
    cases hrun
    exact le_of_lt hindex

private theorem Coupled.saveVote (h : Coupled s)
    (hrun : s.step conf stepDownWhenVoteTimedout .saveVote = some t) : Coupled t := by
  unfold BallotNode.step at hrun
  dsimp only at hrun
  split at hrun
  · rename_i hsaving
    cases hrun
    have hdue := h.due
    rw [hsaving.1] at hdue
    exact ⟨(handled_saveVote s.node s.log.lastLogIndex).due hdue.free h.last, h.pending, h.last,
      h.applied⟩
  · cases hrun
    exact h

private theorem Coupled.append (h : Coupled s) {entries : List LogEntry} {ooRep : Bool}
    (hrun : s.step conf stepDownWhenVoteTimedout (.append entries ooRep) = some t) :
    Coupled t := by
  unfold BallotNode.step at hrun
  dsimp only at hrun
  split at hrun
  · obtain ⟨⟨log, status⟩, hlog, rfl⟩ := Option.map_eq_some_iff.mp hrun
    obtain ⟨-, happlied⟩ := LogManager.appendEntries_frame hlog
    refine ⟨h.due, h.pending, appendEntries_last h.last h.applied hlog, ?_⟩
    dsimp only
    rw [happlied]
    exact h.applied
  · cases hrun
    exact h

private theorem Coupled.setApplied (h : Coupled s) {index : Nat} {term : Int}
    (hrun : s.step conf stepDownWhenVoteTimedout (.applied index term) = some t) :
    Coupled t := by
  cases hrun
  obtain ⟨hlast, happlied⟩ := setAppliedId_indexes s.log ⟨index, term⟩
  refine ⟨h.due, h.pending, hlast ▸ h.last, ?_⟩
  dsimp only
  rcases happlied with hsame | hnew
  · rw [hsame]
    exact h.applied
  · rw [hnew]
    exact Int.natCast_nonneg index

private theorem Coupled.nextCall (h : Coupled s)
    (hrun : s.step conf stepDownWhenVoteTimedout .call = some t) : Coupled t := by
  unfold BallotNode.step at hrun
  dsimp only at hrun
  split at hrun
  · cases hrun
    exact h
  · rename_i op rest hcalls
    obtain ⟨box, hbox, rfl⟩ := Option.map_eq_some_iff.mp hrun
    exact h.call hcalls hbox

theorem Coupled.step (h : Coupled s) {event : Event}
    (hrun : s.step conf stepDownWhenVoteTimedout event = some t) : Coupled t := by
  have hstep := hrun
  unfold BallotNode.step at hrun
  cases event with
  | electionTimeout lastLogId =>
    refine h.act ?_ hrun
    rintro r ⟨⟩
    exact handled_electionTimeout conf s.node lastLogId
  | voteTimeout lastLogId =>
    refine h.act ?_ hrun
    intro r hr
    obtain ⟨effect, heffect, rfl⟩ := Option.map_eq_some_iff.mp hr
    exact handled_voteTimeout heffect
  | prevote request =>
    refine h.act ?_ hrun
    rintro r ⟨⟩
    unfold ElectionNode.handlePrevote
    split
    · exact .stays
    · exact .stays
  | requestVote request =>
    refine h.act ?_ hrun
    rintro r ⟨⟩
    exact handled_requestVote s.node request
  | preVoteResponse peer term response =>
    refine h.act ?_ hrun
    intro r hr
    obtain ⟨effect, heffect, rfl⟩ := Option.map_eq_some_iff.mp hr
    exact handled_preVoteResponse heffect
  | requestVoteResponse peer term response =>
    refine h.act ?_ hrun
    rintro r ⟨⟩
    exact handled_requestVoteResponse s.node peer term response s.log.lastLogIndex
  | resume position lastLogId =>
    refine h.act ?_ hrun
    rintro r ⟨⟩
    exact handled_resume conf s.node position lastLogId
  | saveVote => exact h.saveVote hstep
  | appendEntries term serverId =>
    refine h.act ?_ hrun
    rintro r ⟨⟩
    exact handled_appendEntries s.node term serverId
  | increaseTermTo newTerm =>
    refine h.act ?_ hrun
    rintro r ⟨⟩
    exact handled_increaseTermTo s.node newTerm
  | stepdownTimeout =>
    refine h.act ?_ hrun
    rintro r ⟨⟩
    exact handled_stepdownTimeout s.node
  | shutdown =>
    refine h.act ?_ hrun
    rintro r ⟨⟩
    exact handled_shutdown s.node
  | apply conf oldConf expectedTerms =>
    refine h.act ?_ hrun
    rintro r ⟨⟩
    exact handled_apply s.node conf oldConf expectedTerms
  | append entries ooRep => exact h.append hstep
  | applied index term => exact h.setApplied hstep
  | call => exact h.nextCall hstep
  | commitAt indexes peer =>
    obtain ⟨box, hbox, rfl⟩ := Option.map_eq_some_iff.mp hrun
    exact h.harmless (harmless_commitAt hbox)
  | setLastCommittedIndex last oo =>
    cases hrun
    exact h.harmless (harmless_setLastCommittedIndex s.box last oo)

private theorem coupled_run (h : Coupled s) {events : List Event}
    (hrun : runEvents (BallotNode.step conf stepDownWhenVoteTimedout) s events = some t) :
    Coupled t :=
  invariant_of_every_step (fun _ _ _ hs hstep => hs.step hstep) h hrun

/-- A reset that is next in turn meets its `CHECK`. -/
def CallChecked (box : BallotBox) : List Op → Prop
  | .resetPendingIndex index :: _ => box.ResetCheck index
  | _ => True

instance callCheckedDecidable (box : BallotBox) : ∀ calls, Decidable (CallChecked box calls)
  | .resetPendingIndex _ :: _ => inferInstanceAs (Decidable (BallotBox.ResetCheck _ _))
  | .appendPendingTask _ _ :: _ => inferInstanceAs (Decidable True)
  | .commitAt _ _ :: _ => inferInstanceAs (Decidable True)
  | .clearPendingTasks :: _ => inferInstanceAs (Decidable True)
  | .setLastCommittedIndex _ _ :: _ => inferInstanceAs (Decidable True)
  | [] => inferInstanceAs (Decidable True)

def Event.isCall : Event → Bool
  | .call => true
  | _ => false

def ResetChecked (s : BallotNode) (event : Event) : Prop :=
  event.isCall = true → CallChecked s.box s.calls

instance resetCheckedDecidable (s : BallotNode) (event : Event) :
    Decidable (ResetChecked s event) :=
  inferInstanceAs (Decidable (_ → _))

private theorem step_box {event : Event} (hguard : ResetChecked s event)
    (hrun : s.step conf stepDownWhenVoteTimedout event = some t) :
    t.box = s.box ∨ ∃ op, s.box.perform op = some t.box ∧
      ∀ index, op = .resetPendingIndex index → s.box.ResetCheck index := by
  have hact : ∀ {handler}, s.act handler = some t → t.box = s.box := by
    intro handler h
    unfold BallotNode.act at h
    split at h
    · obtain ⟨r, -, rfl⟩ := Option.map_eq_some_iff.mp h
      rfl
    · cases h
      rfl
  unfold BallotNode.step at hrun
  cases event with
  | saveVote =>
    dsimp only at hrun
    split at hrun
    · cases hrun
      exact .inl rfl
    · cases hrun
      exact .inl rfl
  | append entries ooRep =>
    dsimp only at hrun
    split at hrun
    · obtain ⟨result, -, rfl⟩ := Option.map_eq_some_iff.mp hrun
      exact .inl rfl
    · cases hrun
      exact .inl rfl
  | applied index term =>
    cases hrun
    exact .inl rfl
  | call =>
    dsimp only at hrun
    split at hrun
    · cases hrun
      exact .inl rfl
    · rename_i op rest hcalls
      obtain ⟨box, hbox, rfl⟩ := Option.map_eq_some_iff.mp hrun
      refine .inr ⟨op, hbox, ?_⟩
      rintro index rfl
      have hchecked := hguard rfl
      rw [hcalls] at hchecked
      exact hchecked
  | commitAt indexes peer =>
    obtain ⟨box, hbox, rfl⟩ := Option.map_eq_some_iff.mp hrun
    exact .inr ⟨_, hbox, fun _ heq => by cases heq⟩
  | setLastCommittedIndex last oo =>
    obtain ⟨box, hbox, rfl⟩ := Option.map_eq_some_iff.mp hrun
    exact .inr ⟨_, hbox, fun _ heq => by cases heq⟩
  | _ => exact .inl (hact hrun)

private theorem committed_run {events : List Event} (h : Below s.box)
    (hguard : Guarded (BallotNode.step conf stepDownWhenVoteTimedout) ResetChecked s events)
    (hrun : runEvents (BallotNode.step conf stepDownWhenVoteTimedout) s events = some t) :
    Below t.box ∧ s.box.lastCommittedIndex ≤ t.box.lastCommittedIndex := by
  have hkeep : ∀ u event v,
      (Below u.box ∧ s.box.lastCommittedIndex ≤ u.box.lastCommittedIndex) →
      ResetChecked u event → u.step conf stepDownWhenVoteTimedout event = some v →
      Below v.box ∧ s.box.lastCommittedIndex ≤ v.box.lastCommittedIndex := by
    rintro u event v ⟨hbelow, hle⟩ hchecked hstep
    rcases step_box hchecked hstep with hsame | ⟨op, hperform, hreset⟩
    · rw [hsame]
      exact ⟨hbelow, hle⟩
    · obtain ⟨hbelow', hle'⟩ := perform_committed hbelow hreset hperform
      exact ⟨hbelow', le_trans hle hle'⟩
  exact invariant_of_step hkeep ⟨h, le_refl _⟩ hguard hrun

end Runs

/-- Role and ballot box move together through every interleaving of the handlers with the
commits between their calls. -/
theorem role_and_ballots_move_together (conf : Configuration) (stepDownWhenVoteTimedout : Bool)
    (serverId : PeerId) (metaStorage : MetaStorage) (stored : LogManager Unit)
    (pre post : List Event) (s t : BallotNode)
    (hpre : runEvents (BallotNode.step conf stepDownWhenVoteTimedout)
      (.boot serverId metaStorage stored) pre = some s)
    (hpost : runEvents (BallotNode.step conf stepDownWhenVoteTimedout) s post = some t) :
    (s.MutexFree → (s.box.pendingIndex ≠ 0 ↔ s.node.state = .leader) ∧
      (s.node.state ≠ .leader → s.box.pendingMetaQueue = [])) ∧
    (∀ conf oldConf rest, s.calls = .appendPendingTask conf oldConf :: rest →
      s.box.pendingIndex ≠ 0) ∧
    (Guarded (BallotNode.step conf stepDownWhenVoteTimedout) ResetChecked
        (.boot serverId metaStorage stored) (pre ++ post) →
      s.box.lastCommittedIndex ≤ t.box.lastCommittedIndex) := by
  have hcoupled := coupled_run (coupled_boot serverId metaStorage stored) hpre
  refine ⟨?_, ?_, ?_⟩
  · intro hfree
    have hdue := hcoupled.due
    rw [hfree.1] at hdue
    exact hdue.free
  · intro conf oldConf rest hcalls
    have hdue := hcoupled.due
    rw [hcalls] at hdue
    exact hdue.append_open
  · intro hguard
    have hboot : Below (BallotNode.boot serverId metaStorage stored).box := fun hopen => absurd rfl hopen
    obtain ⟨hbelow, -⟩ := committed_run hboot (guarded_append_left hguard) hpre
    exact (committed_run hbelow (guarded_append_right hguard hpre) hpost).2

private def selfId : PeerId := ⟨1, 8000, 0⟩

private def otherId : PeerId := ⟨2, 8000, 0⟩

private def groupConf : Configuration := ⟨[selfId, otherId, ⟨3, 8001, 0⟩], by decide⟩

/-- The node is elected, queues a task, and hears of a commit in between. -/
private def electedEvents : List Event :=
  [.electionTimeout .zero, .preVoteResponse otherId 1 ⟨1, true⟩, .resume 0 .zero, .saveVote,
    .requestVoteResponse otherId 2 ⟨2, true⟩, .commitAt [1] otherId, .call,
    .apply groupConf none [-1], .setLastCommittedIndex 1 [], .call]

/-- The task is committed, and a leader of a higher term takes over. -/
private def deposedEvents : List Event :=
  [.commitAt [1] selfId, .commitAt [1] otherId, .appendEntries 3 otherId, .call,
    .setLastCommittedIndex 2 []]

theorem role_and_ballots_move_together_elected :
    ∃ s t, runEvents (BallotNode.step groupConf true) (.boot selfId ⟨1, .empty⟩ (.fresh 63))
        electedEvents = some s ∧
      runEvents (BallotNode.step groupConf true) s deposedEvents = some t ∧
      s.MutexFree ∧ s.node.state = .leader ∧ s.box.pendingIndex ≠ 0 ∧
      t.node.state = .follower ∧ s.box.lastCommittedIndex ≤ t.box.lastCommittedIndex := by
  have htogether := role_and_ballots_move_together groupConf true selfId ⟨1, .empty⟩ (.fresh 63)
    electedEvents deposedEvents _ _ rfl rfl
  exact ⟨_, _, rfl, rfl, by decide, by decide, (htogether.1 (by decide)).1.mpr (by decide),
    by decide, htogether.2.2 (by decide +kernel)⟩

end HitConsistency.Node.LeaderBallots
