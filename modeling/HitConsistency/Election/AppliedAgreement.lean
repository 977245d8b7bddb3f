/- GID: HitConsistency/Election/AppliedAgreement
   digest: State machine safety of a group: what any two nodes hand out at an index is the same. -/

import HitConsistency.Commit.StateMachineCaller
import HitConsistency.Election.SettledEntries
import HitConsistency.Node.WireCommits

set_option autoImplicit false
set_option relaxedAutoImplicit false

/-!
The group with the way of a committed index into the state machines. A leader's `commit_at`
leaves a report and loads the committed index behind it; a follower that lets a request
through calls `set_last_committed_index` behind the mutex, right away for an empty request
and from the stable closure otherwise. `FSMCaller::run` takes any number of committed tasks
at once; the closures of the caller and what it has applied come with the event.
-/

namespace HitConsistency.Election.AppliedAgreement

open HitConsistency.Base.GuardedRuns
open HitConsistency.Commit
open HitConsistency.Commit.ApplyOrder (maxCommittedIndex_spec)
open HitConsistency.Commit.ApplyPipeline (ClosureQueue Popped maxCommittedIndex)
open HitConsistency.Commit.PendingQueues
open HitConsistency.Commit.QuorumLedger (Ledger Tracks reported tracks_commit reached_bounds
  voteAll_first voteAll_bound)
open HitConsistency.Commit.StateMachineCaller (FsmCaller doCommitted_covered)
open HitConsistency.Election.CommittedAgreement
open HitConsistency.Election.CommittedBallots
open HitConsistency.Election.InOrderReplication
open HitConsistency.Election.LeaderCompleteness
open HitConsistency.Election.ReplicatedLogs
open HitConsistency.Election.SettledEntries
open HitConsistency.Group.Peers
open HitConsistency.Log.Entry
open HitConsistency.Node.WireCommits (copyOoEntries copyOoEntries_none)
open HitConsistency.Replication.PeerSender (mem_indexRange)

/-- The identity of the last entry that a request reaches. -/
def lastOf (request : AppendEntriesRequest) : LogId :=
  match request.entries.getLast? with
  | none => ⟨request.prevLogIndex, request.prevLogTerm⟩
  | some entry => ⟨request.prevLogIndex + request.entries.length, entry.term⟩

/-- An entry that was handed to the state machine of a node. -/
structure Given where
  node : PeerId
  index : Int
  entry : LogEntry
  deriving DecidableEq

structure Applying where
  replicas : Replicas
  /-- Requests that a node has let through, and that it still has to answer. -/
  handled : PeerId → List AppendEntriesRequest
  /-- The arguments of `set_last_committed_index` calls that are about to be made. -/
  commits : PeerId → List Committed
  /-- Lists of granted indexes whose `commit_at` has released the lock. -/
  reports : PeerId → List (List Int)
  /-- The arguments of `on_committed` calls that are about to be made. -/
  calls : PeerId → List Committed
  /-- The execution queue of the state machine caller. -/
  tasks : PeerId → List Committed
  given : List Given

inductive Event
  | group (event : ReplicatedLogs.Event)
  | respond (id : PeerId) (position : Nat)
  | setLastCommittedIndex (id : PeerId) (position : Nat)
  | load (id : PeerId) (position : Nat)
  | onCommitted (id : PeerId) (position : Nat)
  | run (id : PeerId) (count : Nat) (caller : FsmCaller)

namespace Applying

def init (dependencyLookBack : Int) : Applying :=
  ⟨.init dependencyLookBack, fun _ => [], fun _ => [], fun _ => [], fun _ => [], fun _ => [], []⟩

/-- What the process of a node has in memory is gone behind a crash. -/
def survives {α : Type} (lists : PeerId → List α) : ReplicatedLogs.Event → PeerId → List α
  | .crash other => Function.update lists other []
  | _ => lists

/-- The request that the handler lets through: it passes the term checks and need not wait
for its dependencies. -/
def letThrough (s : Replicas) : ReplicatedLogs.Event → PeerId → List AppendEntriesRequest
  | .appendEntries position, id =>
      (s.requests[position]?.filter fun request =>
        request.peerId = id && s.accepts request &&
          (s.nodes id).log.checkDependency (request.prevLogIndex + request.entries.length)
            request.dependency).toList
  | _, _ => []

def newReports (s : Replicas) : ReplicatedLogs.Event → PeerId → List (List Int)
  | .commitAt leader indexes peer, id =>
      if id = leader then
        ((((s.nodes leader).ballotBox.commitAt indexes peer).bind Outcome.onCommitted).map
          Committed.ooCommittedEntries).toList
      else []
  | _, _ => []

/-- The end of a request: an empty one commits up to its previous index, and the stable
closure of another one commits if the term is still its own. -/
def answer (currentTerm : Int) (request : AppendEntriesRequest) : Option (List Committed) :=
  if request.entries = [] then
    some [⟨min request.committedIndex request.prevLogIndex, []⟩]
  else if request.term ≠ currentTerm then some []
  else (copyOoEntries request.committedOoIndex).map fun ooEntries =>
    [⟨request.committedIndex, ooEntries⟩]

def behind (s : Applying) (event : ReplicatedLogs.Event) (replicas : Replicas) : Applying :=
  { s with
    replicas := replicas
    handled := fun id => survives s.handled event id ++ letThrough s.replicas event id
    commits := survives s.commits event
    reports := fun id => survives s.reports event id ++ newReports s.replicas event id
    calls := survives s.calls event
    tasks := survives s.tasks event }

def entryAt (s : Applying) (id : PeerId) (index : Int) : Option LogEntry :=
  ((s.replicas.nodes id).log.getEntry index).join

/-- The entries that the state machine gets with a list of indexes and closures. -/
def entriesOf (s : Applying) (id : PeerId) (handed : List (Int × Option Nat)) : List Given :=
  handed.filterMap fun item => (s.entryAt id item.1).map fun entry => ⟨id, item.1, entry⟩

def step (conf : Configuration) (stepDownWhenVoteTimedout : Bool) (s : Applying) :
    Event → Option Applying
  | .group event =>
      (s.replicas.step conf stepDownWhenVoteTimedout event).map (s.behind event)
  | .respond id position =>
      match (s.handled id)[position]? with
      | none => some s
      | some request =>
          (answer (s.replicas.cluster.nodes id).currentTerm request).map fun commits =>
            { s with
              handled := Function.update s.handled id ((s.handled id).eraseIdx position)
              commits := Function.update s.commits id (s.commits id ++ commits) }
  | .setLastCommittedIndex id position =>
      match (s.commits id)[position]? with
      | none => some s
      | some call =>
          let outcome := (s.replicas.nodes id).ballotBox.setLastCommittedIndex call.committedIndex
            call.ooCommittedEntries
          some { s with
            replicas := s.replicas.put id { s.replicas.nodes id with ballotBox := outcome.box }
            commits := Function.update s.commits id ((s.commits id).eraseIdx position)
            calls := Function.update s.calls id (s.calls id ++ outcome.onCommitted.toList) }
  | .load id position =>
      match (s.reports id)[position]? with
      | none => some s
      | some report =>
          some { s with
            reports := Function.update s.reports id ((s.reports id).eraseIdx position)
            calls := Function.update s.calls id (s.calls id ++
              [⟨(s.replicas.nodes id).ballotBox.lastCommittedIndex, report⟩]) }
  | .onCommitted id position =>
      match (s.calls id)[position]? with
      | none => some s
      | some call =>
          some { s with
            calls := Function.update s.calls id ((s.calls id).eraseIdx position)
            tasks := Function.update s.tasks id (s.tasks id ++
              [ApplyPipeline.onCommitted call.committedIndex call.ooCommittedEntries]) }
  | .run id count caller =>
      let batch := (s.tasks id).take count
      let rest := { s with tasks := Function.update s.tasks id ((s.tasks id).drop count) }
      if 0 ≤ maxCommittedIndex batch then
        (caller.doCommitted (s.entryAt id)
          ⟨maxCommittedIndex batch, batch.flatMap Committed.ooCommittedEntries⟩).map fun after =>
            { rest with
              given := s.given ++ s.entriesOf id (after.handed.drop caller.handed.length) }
      else some rest

end Applying

/-- A request goes out from a node that leads, in its term, and advertises what the node has
committed. -/
def Advertises (s : Replicas) (id peer : PeerId) (committedIndex : Int) : Prop :=
  (s.cluster.nodes id).state.leading = true ∧
    committedIndex ≤ (s.nodes id).ballotBox.lastCommittedIndex ∧
    ∀ item ∈ (s.nodes id).rmap, item.1 = peer → item.2 = (s.cluster.nodes id).currentTerm

/-- The log has the entry that the request ends with, and an entry is committed no further
than its request. -/
def Matches (replica : Replica) (request : AppendEntriesRequest) : Prop :=
  replica.log.unsafeGetTerm (lastOf request).index = some (lastOf request).term ∧
    (request.entries ≠ [] → request.committedIndex ≤ (lastOf request).index)

/-- What a caller has in its own hands counts from one. -/
def Started (caller : FsmCaller) : Prop :=
  0 ≤ caller.lastAppliedIndex ∧ (caller.closures.queue ≠ [] → 1 ≤ caller.closures.firstIndex)

/-- The runs: in order, with honest acknowledgements, requests of leaders in office, and
answers of logs that match. -/
def Careful (s : Applying) : Event → Prop
  | .group (.sendEntries id peer _ committedIndex _)
  | .group (.sendEmptyEntries id peer _ committedIndex _) =>
      Advertises s.replicas id peer committedIndex
  | .group event => Orderly s.replicas event ∧ Honest s.replicas event
  | .respond id position => ∀ request ∈ (s.handled id)[position]?,
      Matches (s.replicas.nodes id) request
  | .run _ _ caller => Started caller
  | _ => True

instance advertisesDecidable (s : Replicas) (id peer : PeerId) (committedIndex : Int) :
    Decidable (Advertises s id peer committedIndex) :=
  inferInstanceAs (Decidable (_ ∧ _ ∧ _))

instance matchesDecidable (replica : Replica) (request : AppendEntriesRequest) :
    Decidable (Matches replica request) :=
  inferInstanceAs (Decidable (_ ∧ _))

instance carefulDecidable (s : Applying) : ∀ event, Decidable (Careful s event)
  | .group (.sendEntries _ _ _ _ _) | .group (.sendEmptyEntries _ _ _ _ _) =>
      inferInstanceAs (Decidable (Advertises ..))
  | .group (.electionTimeout _) | .group (.voteTimeout _) | .group (.receive _)
  | .group (.call _ _) | .group (.resume _ _) | .group (.saveVote _)
  | .group (.increaseTermTo _ _) | .group (.stepdownTimeout _) | .group (.apply _ _)
  | .group (.appendEntries _) | .group (.diskWrite _) | .group (.diskBatchEnd _)
  | .group (.commitAt _ _ _) | .group (.applied _ _) | .group (.crash _) =>
      inferInstanceAs (Decidable (Orderly _ _ ∧ Honest _ _))
  | .respond id position =>
      inferInstanceAs (Decidable (∀ request ∈ (s.handled id)[position]?, Matches _ request))
  | .run _ _ caller => inferInstanceAs (Decidable (0 ≤ caller.lastAppliedIndex ∧ (_ → _)))
  | .setLastCommittedIndex _ _ | .load _ _ | .onCommitted _ _ => inferInstanceAs (Decidable True)

/-- The indexes that an `on_committed` call is about. -/
def Covers (call : Committed) (index : Int) : Prop :=
  1 ≤ index ∧ (index ≤ call.committedIndex ∨ index ∈ call.ooCommittedEntries)

section Told

variable {conf : Configuration} {g : Chronicle} {s s' : Replicas} {id : PeerId}
  {request : AppendEntriesRequest}

/-- What a request says of committed indexes is so, as far as it reaches. -/
structure Vouched (conf : Configuration) (s : Replicas) (request : AppendEntriesRequest) :
    Prop where
  placed : 1 ≤ (lastOf request).index → 0 < (lastOf request).term
  settled : ∀ i, 1 ≤ i → i ≤ request.committedIndex → i ≤ (lastOf request).index →
    ∃ grant entry, Settled conf s grant entry ∧ entry.id.index = i ∧
      grant.term ≤ request.term ∧ Anchored conf s grant (lastOf request)

theorem Vouched.mono (h : Vouched conf s request) (hgrows : Grows s s') :
    Vouched conf s' request := by
  refine ⟨h.placed, fun i hlow hhigh hreach => ?_⟩
  obtain ⟨grant, entry, hsettled, hindex, hle, hanchored⟩ := h.settled i hlow hhigh hreach
  exact ⟨grant, entry, hsettled.mono hgrows, hindex, hle, hanchored.mono hgrows⟩

private theorem vouched_of_leading (h : Keeps g s conf) (hrecorded : Recorded s)
    (hleading : (s.cluster.nodes id).state.leading = true)
    (hbox : ∀ i, 1 ≤ i → i ≤ (s.nodes id).ballotBox.lastCommittedIndex → Reads conf s id i)
    (hterm : request.term = (s.cluster.nodes id).currentTerm)
    (hcommitted : request.committedIndex ≤ (s.nodes id).ballotBox.lastCommittedIndex)
    (hplaced : 1 ≤ (lastOf request).index → ∃ (m : Nat) (entry : LogEntry),
      (g.logs id)[m]? = some entry ∧ entry.id = lastOf request) : Vouched conf s request := by
  refine ⟨fun hlow => ?_, fun i hlow hhigh hreach => ?_⟩
  · obtain ⟨m, entry, hm, hid⟩ := hplaced hlow
    rw [← hid]
    exact (h.log id).inOrder.numbered.term entry (List.mem_of_getElem? hm)
  · obtain ⟨m, entry, hm, hid⟩ := hplaced (by omega)
    obtain ⟨grant, settled, hsettled, hindex, hle, -⟩ := hbox i hlow (by omega)
    refine ⟨grant, settled, hsettled, hindex, by rw [hterm]; exact hle, ?_⟩
    rw [← hid]
    exact anchored_of_leading h hrecorded hleading hsettled.committed hle hm

private theorem vouched_sendEntries (h : Keeps g s conf) (hrecorded : Recorded s) {peer : PeerId}
    {index committedIndex : Int} {committedOoIndex : List Int}
    {requests : List AppendEntriesRequest}
    (hbox : ∀ i, 1 ≤ i → i ≤ (s.nodes id).ballotBox.lastCommittedIndex → Reads conf s id i)
    (hadvertises : Advertises s id peer committedIndex)
    (hrun : (s.nodes id).sendEntries id peer index committedIndex committedOoIndex =
      some requests) (hrequest : request ∈ requests) : Vouched conf s request := by
  obtain ⟨hleading, hcommitted, hreplicator⟩ := hadvertises
  unfold Replica.sendEntries at hrun
  split at hrun
  · cases hrun
    cases hrequest
  · rename_i found term hfound
    have hpeer : found = peer := by simpa using List.find?_some hfound
    have hterm := hreplicator _ (List.mem_of_find?_eq_some hfound) hpeer
    obtain ⟨prevLogTerm, -, hrun⟩ := Option.bind_eq_some_iff.mp hrun
    split at hrun
    · cases hrun
      cases hrequest
    · obtain ⟨slot, hget, hrun⟩ := Option.bind_eq_some_iff.mp hrun
      cases hrun
      cases slot with
      | none => cases hrequest
      | some entry =>
        cases List.mem_singleton.mp hrequest
        refine vouched_of_leading h hrecorded hleading hbox hterm hcommitted fun _ => ?_
        obtain ⟨k, rfl, hk⟩ := (h.log id).inOrder.getEntry hget
        have hindex := (h.log id).inOrder.numbered.index k entry hk
        refine ⟨k, entry, hk, ?_⟩
        calc entry.id = ⟨entry.id.index, entry.id.term⟩ := rfl
          _ = ⟨(k : Int) + 1 - 1 + 1, entry.id.term⟩ := by rw [hindex, Int.add_sub_cancel]

private theorem vouched_sendEmptyEntries (h : Keeps g s conf) (hrecorded : Recorded s)
    {peer : PeerId}
    {prevLogIndex committedIndex : Int} {committedOoIndex : List Int}
    {requests : List AppendEntriesRequest}
    (hbox : ∀ i, 1 ≤ i → i ≤ (s.nodes id).ballotBox.lastCommittedIndex → Reads conf s id i)
    (hadvertises : Advertises s id peer committedIndex)
    (hrun : (s.nodes id).sendEmptyEntries id peer prevLogIndex committedIndex committedOoIndex =
      some requests) (hrequest : request ∈ requests) : Vouched conf s request := by
  obtain ⟨hleading, hcommitted, hreplicator⟩ := hadvertises
  unfold Replica.sendEmptyEntries at hrun
  split at hrun
  · cases hrun
    cases hrequest
  · rename_i found term hfound
    have hpeer : found = peer := by simpa using List.find?_some hfound
    have hterm := hreplicator _ (List.mem_of_find?_eq_some hfound) hpeer
    obtain ⟨prevLogTerm, hprev, hrun⟩ := Option.bind_eq_some_iff.mp hrun
    cases hrun
    cases List.mem_singleton.mp hrequest
    refine vouched_of_leading h hrecorded hleading hbox hterm hcommitted fun hlow => ?_
    change 1 ≤ (if prevLogTerm = 0 then (0 : Int) else prevLogIndex) at hlow
    change ∃ m entry, _ ∧ LogEntry.id entry =
      ⟨if prevLogTerm = 0 then (0 : Int) else prevLogIndex, prevLogTerm⟩
    have hne : prevLogTerm ≠ 0 := by
      rintro rfl
      simp at hlow
    rw [if_neg hne]
    exact getElem_of_term (h.log id).inOrder hprev hne

private theorem reads_of_matches (h : Keeps g s conf) (hvouched : Vouched conf s request)
    (hterm : request.term ≤ (s.cluster.nodes id).currentTerm)
    (hmatches : Matches (s.nodes id) request) {i : Int} (hlow : 1 ≤ i)
    (hhigh : i ≤ request.committedIndex) (hreach : i ≤ (lastOf request).index) :
    Reads conf s id i := by
  obtain ⟨grant, entry, hsettled, rfl, hle, hanchored⟩ := hvouched.settled i hlow hhigh hreach
  have hpositive := hvouched.placed (by omega)
  obtain ⟨m, last, hm, hid⟩ := getElem_of_term (h.log id).inOrder hmatches.1 (by omega)
  refine ⟨grant, entry, hsettled, rfl, hle.trans hterm, anchored_reads h hm ?_ hsettled ?_⟩
  · rw [hid]
    exact hanchored
  · rw [hid]
    exact hreach

/-- The node reads a settled entry at every index of the call. -/
def Tells (conf : Configuration) (s : Replicas) (id : PeerId) (call : Committed) : Prop :=
  ∀ i, Covers call i → Reads conf s id i

private theorem tells_answer (h : Keeps g s conf) (hvouched : Vouched conf s request)
    (hterm : request.term ≤ (s.cluster.nodes id).currentTerm)
    (hmatches : Matches (s.nodes id) request) {commits : List Committed}
    (hrun : Applying.answer (s.cluster.nodes id).currentTerm request = some commits)
    {call : Committed} (hcall : call ∈ commits) : Tells conf s id call := by
  unfold Applying.answer at hrun
  rintro i ⟨hlow, hcovers⟩
  split at hrun
  · rename_i hnil
    cases hrun
    cases List.mem_singleton.mp hcall
    rcases hcovers with hhigh | hlisted
    · have hlast : lastOf request = ⟨request.prevLogIndex, request.prevLogTerm⟩ := by
        rw [lastOf, hnil]
        rfl
      refine reads_of_matches h hvouched hterm hmatches hlow (hhigh.trans (min_le_left ..)) ?_
      rw [hlast]
      exact hhigh.trans (min_le_right ..)
    · exact (List.not_mem_nil hlisted).elim
  · rename_i hne
    split at hrun
    · cases hrun
      exact (List.not_mem_nil hcall).elim
    · obtain ⟨ooEntries, hcopy, rfl⟩ := Option.map_eq_some_iff.mp hrun
      cases List.mem_singleton.mp hcall
      -- A list that is not empty is read past its end.
      have hnil : request.committedOoIndex = [] := by
        by_contra hlisted
        rw [copyOoEntries_none hlisted] at hcopy
        cases hcopy
      rw [hnil] at hcopy
      cases hcopy
      rcases hcovers with hhigh | hlisted
      · exact reads_of_matches h hvouched hterm hmatches hlow hhigh
          (hhigh.trans (hmatches.2 hne))
      · exact (List.not_mem_nil hlisted).elim

end Told

section Boxes

variable {conf : Configuration} {g : Chronicle} {s s' : Replicas} {id : PeerId}
  {stepDownWhenVoteTimedout : Bool} {indexes : List Int} {peer : PeerId} {outcome : Outcome}

private theorem setLast_cases (box : BallotBox) (committedIndex : Int) (ooEntries : List Int) :
    (box.setLastCommittedIndex committedIndex ooEntries).box = box ∧
        (box.setLastCommittedIndex committedIndex ooEntries).onCommitted = none ∨
      box.pendingIndex = 0 ∧ (box.setLastCommittedIndex committedIndex ooEntries).box =
          { box with lastCommittedIndex := committedIndex } ∧
        (box.setLastCommittedIndex committedIndex ooEntries).onCommitted =
          some ⟨committedIndex, ooEntries⟩ := by
  unfold BallotBox.setLastCommittedIndex
  split
  · exact .inl ⟨rfl, rfl⟩
  · rename_i hidle
    rw [not_or, not_not] at hidle
    split
    · exact .inl ⟨rfl, rfl⟩
    · split
      · exact .inr ⟨hidle.1, rfl, rfl⟩
      · exact .inl ⟨rfl, rfl⟩

private theorem keeps_setLast (h : Keeps g s conf) (committedIndex : Int) :
    Keeps g (s.put id { s.nodes id with
      ballotBox := { (s.nodes id).ballotBox with lastCommittedIndex := committedIndex } })
        conf := by
  have hp := puts_put s id { s.nodes id with
    ballotBox := { (s.nodes id).ballotBox with lastCommittedIndex := committedIndex } }
  have hlead := h.lead id
  refine h.put_same hp rfl (fun _ hc => hc) (h.log id).inOrder ?_
    (fun hl => (h.pipe id).put hl hp (fun _ ht => ht) (fun _ ht => .inl ht) (h.pipe id).order
      fun _ ha => .inl ha) fun _ hg => .inl hg
  refine ⟨hlead.elected, hlead.own, fun hleading => ?_, fun hidle => ?_, ?_⟩
  · obtain ⟨hpending, hcount, hown⟩ := hlead.ballots hleading
    refine ⟨?_, ?_, ?_⟩
    · rw [hp.self]
      exact hpending
    · rw [hp.self]
      exact hcount
    · rw [hp.self]
      exact hown
  · rw [hp.self]
    exact hlead.idle hidle
  · rw [hp.self]
    exact hlead.replicators

private theorem balloted_setLast (h : Keeps g s conf) (hs : Balloted conf s)
    (hidle : (s.nodes id).ballotBox.pendingIndex = 0) (committedIndex : Int) :
    Balloted conf (s.put id { s.nodes id with
      ballotBox := { (s.nodes id).ballotBox with lastCommittedIndex := committedIndex } }) := by
  refine hs.mono (.of_eq rfl rfl) rfl fun other hleads => ⟨hleads, rfl, ?_⟩
  refine put_box_of_ne fun heq => ?_
  rw [heq] at hleads
  have hpending := ((h.lead id).ballots hleads).pending
  omega

private theorem commitAt_last {box : BallotBox} (hrun : box.commitAt indexes peer = some outcome) :
    outcome.box.lastCommittedIndex = box.lastCommittedIndex ∨
      outcome.box.lastCommittedIndex = outcome.box.pendingIndex - 1 ∧ reported outcome ≠ [] := by
  unfold BallotBox.commitAt at hrun
  split at hrun
  · cases hrun
    exact .inl rfl
  · split at hrun
    · cases hrun
      exact .inl rfl
    · split_ifs at hrun
      · cases hrun
        exact .inl rfl
      · cases hrun
        exact .inl rfl
      · unfold BallotBox.grantAndPop at hrun
        obtain ⟨pass, -, hrun⟩ := Option.bind_eq_some_iff.mp hrun
        dsimp only at hrun
        split_ifs at hrun with hempty
        · cases hrun
          exact .inl rfl
        · obtain ⟨popped, -, hrun⟩ := Option.bind_eq_some_iff.mp hrun
          cases hrun
          refine .inr ⟨rfl, fun hnil => hempty ?_⟩
          rw [List.isEmpty_iff]
          exact hnil
        · cases hrun
          exact .inl rfl

theorem commit_first (L : Ledger) : (L.commit indexes peer).first = L.first := by
  unfold Ledger.commit
  split
  · exact voteAll_first L peer indexes
  · rfl

/-- What a leader reports, and the committed index it moves to, lie within grants of its
term. -/
private theorem granted_of_commitAt (h : Keeps g s conf) (hs : Balloted conf s)
    (hleading : (s.cluster.nodes id).state.leading = true)
    (hhonest : Honest s (.commitAt id indexes peer))
    (hrun : (s.nodes id).ballotBox.commitAt indexes peer = some outcome) :
    (∀ i ∈ reported outcome, ∃ grant ∈ s.granted ++ s.grants id outcome,
        grant.term = (s.cluster.nodes id).currentTerm ∧ i ≤ grant.entry.id.index) ∧
      (outcome.box.lastCommittedIndex = (s.nodes id).ballotBox.lastCommittedIndex ∨
        ∃ grant ∈ s.granted ++ s.grants id outcome,
          grant.term = (s.cluster.nodes id).currentTerm ∧
            outcome.box.lastCommittedIndex ≤ grant.entry.id.index) := by
  obtain ⟨hascending, hlength, -⟩ := hhonest hleading
  obtain ⟨L, htracks, hbacked⟩ := hs.counted id hleading hlength
  obtain ⟨hpositive, -, -⟩ := (h.lead id).ballots hleading
  obtain ⟨outcome', hrun', htracks', -, hreported, -⟩ :=
    tracks_commit htracks peer (by omega) hascending
  cases hrun'.symm.trans hrun
  have hgranted : ∀ j, (L.commit indexes peer).Reached j →
      ∃ grant ∈ s.granted ++ s.grants id outcome,
        grant.term = (s.cluster.nodes id).currentTerm ∧ grant.entry.id.index = j := by
    intro j hreached
    by_cases hbefore : L.Reached j
    · obtain ⟨entry, hid, hgrant⟩ := hbacked.granted j hbefore
      exact ⟨_, List.mem_append_left _ hgrant, rfl, congrArg LogId.index hid⟩
    · obtain ⟨-, entry, -, hid, hgrant⟩ := granted_reported h hleading htracks hbefore hreached
        ((hreported j).mpr ⟨hbefore, hreached⟩)
      exact ⟨_, List.mem_append_right _ hgrant, rfl, congrArg LogId.index hid⟩
  refine ⟨fun i hi => ?_, ?_⟩
  · obtain ⟨grant, hgrant, hterm, hindex⟩ := hgranted i ((hreported i).mp hi).2
    exact ⟨grant, hgrant, hterm, hindex.ge⟩
  · rcases commitAt_last hrun with hsame | ⟨hlast, hne⟩
    · exact .inl hsame
    · refine .inr ?_
      obtain ⟨j, hj⟩ := List.exists_mem_of_ne_nil _ hne
      have hreached := ((hreported j).mp hj).2
      have hbounds := reached_bounds hreached
      -- Without a pop the box stands behind its first ballot, and a later one is granted.
      rcases lt_or_ge (outcome.box.pendingIndex - 1) L.first with hbehind | hpopped
      · obtain ⟨grant, hgrant, hterm, hindex⟩ := hgranted j hreached
        rw [commit_first] at hbounds
        exact ⟨grant, hgrant, hterm, by omega⟩
      · have hbelow := htracks'.below (outcome.box.pendingIndex - 1)
          (by rw [commit_first]; exact hpopped) (by omega)
        obtain ⟨grant, hgrant, hterm, hindex⟩ := hgranted _ hbelow
        exact ⟨grant, hgrant, hterm, by omega⟩

end Boxes

/-- Whatever a node says of committed indexes on the way to the state machine, it reads
settled entries there; and settled entries are what it has handed out. -/
structure Told (conf : Configuration) (s : Applying) : Prop where
  boxes : ∀ id i, 1 ≤ i → i ≤ (s.replicas.nodes id).ballotBox.lastCommittedIndex →
    Reads conf s.replicas id i
  requests : ∀ request ∈ s.replicas.requests, Vouched conf s.replicas request
  handled : ∀ id, ∀ request ∈ s.handled id, Vouched conf s.replicas request ∧
    request.term ≤ (s.replicas.cluster.nodes id).currentTerm
  commits : ∀ id, ∀ call ∈ s.commits id, Tells conf s.replicas id call
  reports : ∀ id, ∀ report ∈ s.reports id, ∀ i ∈ report, 1 ≤ i → Reads conf s.replicas id i
  calls : ∀ id, ∀ call ∈ s.calls id, Tells conf s.replicas id call
  tasks : ∀ id, ∀ task ∈ s.tasks id, Tells conf s.replicas id task
  given : ∀ item ∈ s.given, item.entry.id.index = item.index ∧
    ∃ grant, Settled conf s.replicas grant item.entry

structure Safe (conf : Configuration) (s : Applying) : Prop where
  kept : ∃ g, Keeps g s.replicas conf
  balloted : Balloted conf s.replicas
  recorded : Recorded s.replicas
  told : Told conf s

section Group

variable {conf : Configuration} {g g' : Chronicle} {s : Applying} {replicas : Replicas}
  {stepDownWhenVoteTimedout : Bool} {event : ReplicatedLogs.Event}

private theorem orderly_of_careful (h : Careful s (.group event)) :
    Orderly s.replicas event ∧ Honest s.replicas event := by
  cases event with
  | sendEntries id peer index committedIndex committedOoIndex => exact ⟨trivial, trivial⟩
  | sendEmptyEntries id peer prevLogIndex committedIndex committedOoIndex =>
    exact ⟨trivial, trivial⟩
  | _ => exact h

private theorem mem_survives {α : Type} {lists : PeerId → List α} {id : PeerId} {x : α}
    (h : x ∈ Applying.survives lists event id) : x ∈ lists id ∧ event ≠ .crash id := by
  cases event with
  | crash other =>
    change x ∈ Function.update lists other [] id at h
    by_cases ho : id = other
    · rw [ho, Function.update_self] at h
      exact (List.not_mem_nil h).elim
    · rw [Function.update_of_ne ho] at h
      refine ⟨h, fun heq => ho ?_⟩
      cases heq
      rfl
  | _ => exact ⟨h, fun heq => by cases heq⟩

private theorem reads_step (h : Keeps g s.replicas conf) (hcareful : Careful s (.group event))
    (hstep : s.replicas.step conf stepDownWhenVoteTimedout event = some replicas) {id : PeerId}
    (hrunning : event ≠ .crash id) {i : Int} (hreads : Reads conf s.replicas id i) :
    Reads conf replicas id i := by
  obtain ⟨hguard, -⟩ := orderly_of_careful hcareful
  refine hreads.later h (grows_step hstep) (term_step h hguard hstep id) ?_
  exact (advanced_step h hguard hstep id).resolve_right fun hcrash => hrunning hcrash.1

private theorem boxes_step (h : Keeps g s.replicas conf) (hs : Balloted conf s.replicas)
    (ht : Told conf s) (hcareful : Careful s (.group event))
    (hstep : s.replicas.step conf stepDownWhenVoteTimedout event = some replicas)
    (h' : Keeps g' replicas conf) (hs' : Balloted conf replicas) (hrecorded' : Recorded replicas)
    {id : PeerId} {i : Int} (hlow : 1 ≤ i)
    (hhigh : i ≤ (replicas.nodes id).ballotBox.lastCommittedIndex) : Reads conf replicas id i := by
  obtain ⟨hguard, hhonest⟩ := orderly_of_careful hcareful
  have hsame : event ≠ .crash id → (replicas.nodes id).ballotBox.lastCommittedIndex =
      (s.replicas.nodes id).ballotBox.lastCommittedIndex → Reads conf replicas id i := by
    intro hrunning hlast
    exact reads_step h hcareful hstep hrunning (ht.boxes id i hlow (by omega))
  by_cases hplain : Plain event = true
  · refine hsame (fun heq => ?_) ((onward_step h hguard hplain hstep).last id)
    rw [heq] at hplain
    cases hplain
  · cases event with
    | sendEntries other peer index committedIndex committedOoIndex =>
      obtain ⟨requests, -, rfl⟩ := Option.map_eq_some_iff.mp hstep
      exact hsame (fun heq => by cases heq) rfl
    | sendEmptyEntries other peer prevLogIndex committedIndex committedOoIndex =>
      obtain ⟨requests, -, rfl⟩ := Option.map_eq_some_iff.mp hstep
      exact hsame (fun heq => by cases heq) rfl
    | commitAt other indexes peer =>
      obtain ⟨outcome, houtcome, rfl⟩ := Option.map_eq_some_iff.mp hstep
      by_cases ho : id = other
      · subst ho
        cases hleading : (s.replicas.cluster.nodes id).state.leading with
        | false =>
          -- Nothing is granted without a leadership.
          refine hsame (fun heq => by cases heq) ?_
          unfold BallotBox.commitAt at houtcome
          rw [if_pos ((h.lead id).idle hleading).1] at houtcome
          cases houtcome
          exact congrArg (fun replica => replica.ballotBox.lastCommittedIndex) put_self
        | true =>
          obtain ⟨-, hlast⟩ := granted_of_commitAt h hs hleading hhonest houtcome
          change i ≤
            (Function.update s.replicas.nodes id _ id).ballotBox.lastCommittedIndex at hhigh
          rw [Function.update_self] at hhigh
          rcases hlast with hold | ⟨grant, hgrant, hterm, hwithin⟩
          · exact reads_step h hcareful hstep (fun heq => by cases heq)
              (ht.boxes id i hlow (hhigh.trans hold.le))
          · exact reads_of_leading h' hrecorded' hleading ⟨hgrant, hs'.committed grant hgrant⟩
              hterm.le hlow (hhigh.trans hwithin)
      · exact hsame (fun heq => by cases heq)
          (congrArg BallotBox.lastCommittedIndex (put_box_of_ne ho))
    | crash other =>
      unfold Replicas.step at hstep
      obtain ⟨after, helect, rfl⟩ := Option.map_eq_some_iff.mp hstep
      by_cases ho : id = other
      · subst ho
        rw [put_self] at hhigh
        change i ≤ 0 at hhigh
        omega
      · refine hsame (fun heq => ?_) ?_
        · cases heq
          exact ho rfl
        · rw [put_box_of_ne ho]
          exact (onward_elect h helect trivial hguard).last id
    | _ => exact absurd rfl hplain

private theorem requests_step (h : Keeps g s.replicas conf) (hrecorded : Recorded s.replicas)
    (ht : Told conf s) (hcareful : Careful s (.group event))
    (hstep : s.replicas.step conf stepDownWhenVoteTimedout event = some replicas)
    {request : AppendEntriesRequest} (hrequest : request ∈ replicas.requests) :
    Vouched conf replicas request := by
  obtain ⟨hguard, -⟩ := orderly_of_careful hcareful
  have hgrows := grows_step hstep
  have hold : request ∈ s.replicas.requests → Vouched conf replicas request :=
    fun hin => (ht.requests request hin).mono hgrows
  by_cases hplain : Plain event = true
  · rw [(onward_step h hguard hplain hstep).requests] at hrequest
    exact hold hrequest
  · cases event with
    | sendEntries other peer index committedIndex committedOoIndex =>
      obtain ⟨requests, hrequests, rfl⟩ := Option.map_eq_some_iff.mp hstep
      rcases List.mem_append.mp hrequest with hin | hnew
      · exact hold hin
      · exact (vouched_sendEntries h hrecorded (ht.boxes other) hcareful hrequests hnew).mono hgrows
    | sendEmptyEntries other peer prevLogIndex committedIndex committedOoIndex =>
      obtain ⟨requests, hrequests, rfl⟩ := Option.map_eq_some_iff.mp hstep
      rcases List.mem_append.mp hrequest with hin | hnew
      · exact hold hin
      · exact (vouched_sendEmptyEntries h hrecorded (ht.boxes other) hcareful hrequests
          hnew).mono hgrows
    | commitAt other indexes peer =>
      obtain ⟨outcome, -, rfl⟩ := Option.map_eq_some_iff.mp hstep
      exact hold hrequest
    | crash other =>
      unfold Replicas.step at hstep
      obtain ⟨after, helect, rfl⟩ := Option.map_eq_some_iff.mp hstep
      have hsame := (onward_elect h helect trivial hguard).requests
      exact hold (hsame ▸ hrequest)
    | _ => exact absurd rfl hplain

private theorem letThrough_step (h : Keeps g s.replicas conf) (hcareful : Careful s (.group event))
    (hstep : s.replicas.step conf stepDownWhenVoteTimedout event = some replicas) {id : PeerId}
    {request : AppendEntriesRequest}
    (hrequest : request ∈ Applying.letThrough s.replicas event id) :
    request ∈ s.replicas.requests ∧ request.term ≤ (replicas.cluster.nodes id).currentTerm := by
  obtain ⟨hguard, -⟩ := orderly_of_careful hcareful
  cases event with
  | appendEntries position =>
    obtain ⟨hposition, hpasses⟩ := Option.filter_eq_some_iff.mp (Option.mem_toList.mp hrequest)
    simp only [Bool.and_eq_true, decide_eq_true_eq] at hpasses
    obtain ⟨⟨rfl, haccepts⟩, -⟩ := hpasses
    refine ⟨List.mem_of_getElem? hposition, ?_⟩
    have hfits := (hguard request hposition).1
    unfold Replicas.step at hstep
    dsimp only at hstep
    rw [hposition] at hstep
    obtain ⟨after, helect, hstep⟩ := Option.bind_eq_some_iff.mp hstep
    obtain ⟨cluster, hcluster, rfl⟩ := Option.map_eq_some_iff.mp helect
    obtain ⟨-, hterm⟩ := accepted h.votes hfits.1 haccepts hcluster
    rw [if_pos haccepts] at hstep
    obtain ⟨replica, -, hstep⟩ := Option.bind_eq_some_iff.mp hstep
    cases hstep
    exact hterm.ge
  | _ => exact (List.not_mem_nil hrequest).elim

private theorem newReports_step (h : Keeps g s.replicas conf) (hs : Balloted conf s.replicas)
    (hcareful : Careful s (.group event))
    (hstep : s.replicas.step conf stepDownWhenVoteTimedout event = some replicas)
    (h' : Keeps g' replicas conf) (hs' : Balloted conf replicas) (hrecorded' : Recorded replicas)
    {id : PeerId} {report : List Int}
    (hreport : report ∈ Applying.newReports s.replicas event id) {i : Int} (hi : i ∈ report)
    (hlow : 1 ≤ i) : Reads conf replicas id i := by
  obtain ⟨-, hhonest⟩ := orderly_of_careful hcareful
  cases event with
  | commitAt other indexes peer =>
    change report ∈ (if id = other then _ else _) at hreport
    split at hreport
    · rename_i ho
      subst ho
      obtain ⟨outcome, houtcome, rfl⟩ := Option.map_eq_some_iff.mp hstep
      have hreported : i ∈ reported outcome := by
        rw [houtcome] at hreport
        obtain ⟨call, hcall, rfl⟩ := Option.map_eq_some_iff.mp (Option.mem_toList.mp hreport)
        change outcome.onCommitted = some call at hcall
        unfold reported
        rw [hcall]
        exact hi
      cases hleading : (s.replicas.cluster.nodes id).state.leading with
      | false =>
        unfold BallotBox.commitAt at houtcome
        rw [if_pos ((h.lead id).idle hleading).1] at houtcome
        cases houtcome
        exact (List.not_mem_nil hreported).elim
      | true =>
        obtain ⟨hgranted, -⟩ := granted_of_commitAt h hs hleading hhonest houtcome
        obtain ⟨grant, hgrant, hterm, hwithin⟩ := hgranted i hreported
        exact reads_of_leading h' hrecorded' hleading ⟨hgrant, hs'.committed grant hgrant⟩
          hterm.le hlow hwithin
    · exact (List.not_mem_nil hreport).elim
  | _ => exact (List.not_mem_nil hreport).elim

theorem Told.group (h : Keeps g s.replicas conf) (hs : Balloted conf s.replicas)
    (hrecorded : Recorded s.replicas) (ht : Told conf s) (hcareful : Careful s (.group event))
    (hstep : s.replicas.step conf stepDownWhenVoteTimedout event = some replicas)
    (h' : Keeps g' replicas conf) (hs' : Balloted conf replicas)
    (hrecorded' : Recorded replicas) : Told conf (s.behind event replicas) := by
  have hgrows := grows_step hstep
  have hterm := term_step h (orderly_of_careful hcareful).1 hstep
  have hreads : ∀ {id : PeerId} {i : Int}, event ≠ .crash id → Reads conf s.replicas id i →
      Reads conf replicas id i := fun hrunning => reads_step h hcareful hstep hrunning
  refine
    { boxes := fun id i hlow hhigh =>
        boxes_step h hs ht hcareful hstep h' hs' hrecorded' hlow hhigh
      requests := fun request hrequest => requests_step h hrecorded ht hcareful hstep hrequest
      handled := fun id request hrequest => ?_
      commits := fun id call hcall => ?_
      reports := fun id report hreport i hi hlow => ?_
      calls := fun id call hcall => ?_
      tasks := fun id task htask => ?_
      given := fun item hitem => ?_ }
  · rcases List.mem_append.mp hrequest with hold | hnew
    · obtain ⟨hvouched, hle⟩ := ht.handled id request (mem_survives hold).1
      exact ⟨hvouched.mono hgrows, hle.trans (hterm id)⟩
    · obtain ⟨hin, hle⟩ := letThrough_step h hcareful hstep hnew
      exact ⟨(ht.requests request hin).mono hgrows, hle⟩
  · obtain ⟨hin, hrunning⟩ := mem_survives hcall
    exact fun i hcovers => hreads hrunning (ht.commits id call hin i hcovers)
  · rcases List.mem_append.mp hreport with hold | hnew
    · obtain ⟨hin, hrunning⟩ := mem_survives hold
      exact hreads hrunning (ht.reports id report hin i hi hlow)
    · exact newReports_step h hs hcareful hstep h' hs' hrecorded' hnew hi hlow
  · obtain ⟨hin, hrunning⟩ := mem_survives hcall
    exact fun i hcovers => hreads hrunning (ht.calls id call hin i hcovers)
  · obtain ⟨hin, hrunning⟩ := mem_survives htask
    exact fun i hcovers => hreads hrunning (ht.tasks id task hin i hcovers)
  · obtain ⟨hindex, grant, hsettled⟩ := ht.given item hitem
    exact ⟨hindex, grant, hsettled.mono hgrows⟩

end Group

section Calls

variable {conf : Configuration} {g : Chronicle} {s : Applying} {id : PeerId}

private theorem mem_update {α : Type} {lists : PeerId → List α} {other : PeerId} {list : List α}
    {x : α}
    (h : x ∈ Function.update lists id list other) : other = id ∧ x ∈ list ∨ x ∈ lists other := by
  by_cases ho : other = id
  · rw [ho, Function.update_self] at h
    exact .inl ⟨ho, h⟩
  · rw [Function.update_of_ne ho] at h
    exact .inr h

theorem Told.respond (h : Keeps g s.replicas conf) (ht : Told conf s) {position : Nat}
    {request : AppendEntriesRequest} (hrequest : (s.handled id)[position]? = some request)
    (hmatches : Matches (s.replicas.nodes id) request) {commits : List Committed}
    (hrun : Applying.answer (s.replicas.cluster.nodes id).currentTerm request = some commits) :
    Told conf { s with
      handled := Function.update s.handled id ((s.handled id).eraseIdx position)
      commits := Function.update s.commits id (s.commits id ++ commits) } := by
  obtain ⟨hvouched, hterm⟩ := ht.handled id request (List.mem_of_getElem? hrequest)
  refine
    { boxes := ht.boxes
      requests := ht.requests
      handled := fun other waiting hwaiting => ?_
      commits := fun other call hcall => ?_
      reports := ht.reports
      calls := ht.calls
      tasks := ht.tasks
      given := ht.given }
  · rcases mem_update hwaiting with ⟨rfl, hin⟩ | hin
    · exact ht.handled other waiting (List.mem_of_mem_eraseIdx hin)
    · exact ht.handled other waiting hin
  · rcases mem_update hcall with ⟨rfl, hin⟩ | hin
    · rcases List.mem_append.mp hin with hold | hnew
      · exact ht.commits other call hold
      · exact tells_answer h hvouched hterm hmatches hrun hnew
    · exact ht.commits other call hin

theorem Told.load (ht : Told conf s) {position : Nat} {report : List Int}
    (hreport : (s.reports id)[position]? = some report) :
    Told conf { s with
      reports := Function.update s.reports id ((s.reports id).eraseIdx position)
      calls := Function.update s.calls id (s.calls id ++
        [⟨(s.replicas.nodes id).ballotBox.lastCommittedIndex, report⟩]) } := by
  refine
    { boxes := ht.boxes
      requests := ht.requests
      handled := ht.handled
      commits := ht.commits
      reports := fun other waiting hwaiting => ?_
      calls := fun other call hcall => ?_
      tasks := ht.tasks
      given := ht.given }
  · rcases mem_update hwaiting with ⟨rfl, hin⟩ | hin
    · exact ht.reports other waiting (List.mem_of_mem_eraseIdx hin)
    · exact ht.reports other waiting hin
  · rcases mem_update hcall with ⟨rfl, hin⟩ | hin
    · rcases List.mem_append.mp hin with hold | hnew
      · exact ht.calls other call hold
      · cases List.mem_singleton.mp hnew
        rintro i ⟨hlow, hhigh | hlisted⟩
        · exact ht.boxes other i hlow hhigh
        · exact ht.reports other report (List.mem_of_getElem? hreport) i hlisted hlow
    · exact ht.calls other call hin

theorem Told.onCommitted (ht : Told conf s) {position : Nat} {call : Committed}
    (hcall : (s.calls id)[position]? = some call) :
    Told conf { s with
      calls := Function.update s.calls id ((s.calls id).eraseIdx position)
      tasks := Function.update s.tasks id (s.tasks id ++
        [ApplyPipeline.onCommitted call.committedIndex call.ooCommittedEntries]) } := by
  refine
    { boxes := ht.boxes
      requests := ht.requests
      handled := ht.handled
      commits := ht.commits
      reports := ht.reports
      calls := fun other waiting hwaiting => ?_
      tasks := fun other task htask => ?_
      given := ht.given }
  · rcases mem_update hwaiting with ⟨rfl, hin⟩ | hin
    · exact ht.calls other waiting (List.mem_of_mem_eraseIdx hin)
    · exact ht.calls other waiting hin
  · rcases mem_update htask with ⟨rfl, hin⟩ | hin
    · rcases List.mem_append.mp hin with hold | hnew
      · exact ht.tasks other task hold
      · cases List.mem_singleton.mp hnew
        rintro i ⟨hlow, hcovers⟩
        refine ht.calls other call (List.mem_of_getElem? hcall) i ⟨hlow, hcovers.imp_right ?_⟩
        exact fun hlisted => (List.dropWhile_sublist _).subset hlisted
    · exact ht.tasks other task hin

private theorem Told.dropTasks (ht : Told conf s) (count : Nat) :
    Told conf { s with tasks := Function.update s.tasks id ((s.tasks id).drop count) } := by
  refine
    { boxes := ht.boxes
      requests := ht.requests
      handled := ht.handled
      commits := ht.commits
      reports := ht.reports
      calls := ht.calls
      tasks := fun other task htask => ?_
      given := ht.given }
  rcases mem_update htask with ⟨rfl, hin⟩ | hin
  · exact ht.tasks other task (List.mem_of_mem_drop hin)
  · exact ht.tasks other task hin

theorem Told.run (h : Keeps g s.replicas conf) (ht : Told conf s) {count : Nat}
    {caller after : FsmCaller} (hstarted : Started caller)
    (hrun : caller.doCommitted (s.entryAt id) ⟨maxCommittedIndex ((s.tasks id).take count),
      ((s.tasks id).take count).flatMap Committed.ooCommittedEntries⟩ = some after) :
    ∀ item ∈ s.entriesOf id (after.handed.drop caller.handed.length),
      item.entry.id.index = item.index ∧ ∃ grant, Settled conf s.replicas grant item.entry := by
  intro item hitem
  obtain ⟨handed, hhanded, hitem⟩ := List.mem_filterMap.mp hitem
  obtain ⟨entry, hentry, rfl⟩ := Option.map_eq_some_iff.mp hitem
  have hread := Option.join_eq_some_iff.mp hentry
  obtain ⟨k, hindex, -⟩ := (h.log id).inOrder.getEntry hread
  have htold : ∀ task ∈ (s.tasks id).take count, Covers task handed.1 →
      entry.id.index = handed.1 ∧ ∃ grant, Settled conf s.replicas grant entry := by
    intro task htask hcovers
    obtain ⟨grant, other, hsettled, hother, -, hsame⟩ :=
      ht.tasks id task (List.mem_of_mem_take htask) handed.1 hcovers
    obtain rfl : other = entry := Option.some.inj (Option.some.inj (hsame.symm.trans hread))
    exact ⟨hother, grant, hsettled⟩
  rcases doCommitted_covered hstarted.1 hstarted.2 hrun handed hhanded with ⟨hlow, hhigh⟩ | hlisted
  · obtain ⟨task, htask, hmax⟩ := (maxCommittedIndex_spec ((s.tasks id).take count)).2 <| by
      dsimp only at hhigh
      omega
    exact htold task htask ⟨hlow, .inl (hhigh.trans_eq hmax.symm)⟩
  · obtain ⟨task, htask, hin⟩ := List.mem_flatMap.mp hlisted
    exact htold task htask ⟨by omega, .inr hin⟩

private theorem recorded_put {s : Replicas} {replica : Replica} (hrecorded : Recorded s)
    (hlog : replica.log = (s.nodes id).log) : Recorded (s.put id replica) := by
  intro other index entry hentry
  rw [put_log_of_eq hlog other] at hentry
  exact hrecorded other index entry hentry

private theorem Safe.setLast (hsafe : Safe conf s) {position : Nat} {call : Committed}
    (hcall : (s.commits id)[position]? = some call)
    (hidle : (s.replicas.nodes id).ballotBox.pendingIndex = 0) :
    Safe conf { s with
      replicas := s.replicas.put id { s.replicas.nodes id with
        ballotBox := { (s.replicas.nodes id).ballotBox with
          lastCommittedIndex := call.committedIndex } }
      commits := Function.update s.commits id ((s.commits id).eraseIdx position)
      calls := Function.update s.calls id (s.calls id ++ [call]) } := by
  obtain ⟨⟨g, h⟩, hs, hrecorded, ht⟩ := hsafe
  have htells := ht.commits id call (List.mem_of_getElem? hcall)
  have hgrows : Grows s.replicas (s.replicas.put id { s.replicas.nodes id with
      ballotBox := { (s.replicas.nodes id).ballotBox with
        lastCommittedIndex := call.committedIndex } }) := .of_eq rfl rfl
  have hreads : ∀ {other : PeerId} {i : Int}, Reads conf s.replicas other i →
      Reads conf (s.replicas.put id { s.replicas.nodes id with
        ballotBox := { (s.replicas.nodes id).ballotBox with
          lastCommittedIndex := call.committedIndex } }) other i := by
    intro other i hreads
    refine hreads.later h hgrows le_rfl (advanced_same h (put_log_of_eq ?_ other))
    rfl
  refine ⟨⟨g, keeps_setLast h _⟩, balloted_setLast h hs hidle _, recorded_put hrecorded rfl, ?_⟩
  refine
    { boxes := fun other i hlow hhigh => ?_
      requests := fun request hrequest => (ht.requests request hrequest).mono hgrows
      handled := fun other request hrequest =>
        ⟨(ht.handled other request hrequest).1.mono hgrows, (ht.handled other request hrequest).2⟩
      commits := fun other commit hcommit i hcovers => ?_
      reports := fun other report hreport i hi hlow =>
        hreads (ht.reports other report hreport i hi hlow)
      calls := fun other commit hcommit i hcovers => ?_
      tasks := fun other task htask i hcovers => hreads (ht.tasks other task htask i hcovers)
      given := fun item hitem => ?_ }
  · by_cases ho : other = id
    · subst ho
      rw [put_self] at hhigh
      exact hreads (htells i ⟨hlow, .inl hhigh⟩)
    · rw [put_box_of_ne ho] at hhigh
      exact hreads (ht.boxes other i hlow hhigh)
  · rcases mem_update hcommit with ⟨rfl, hin⟩ | hin
    · exact hreads (ht.commits other commit (List.mem_of_mem_eraseIdx hin) i hcovers)
    · exact hreads (ht.commits other commit hin i hcovers)
  · rcases mem_update hcommit with ⟨rfl, hin⟩ | hin
    · rcases List.mem_append.mp hin with hold | hnew
      · exact hreads (ht.calls other commit hold i hcovers)
      · cases List.mem_singleton.mp hnew
        exact hreads (htells i hcovers)
    · exact hreads (ht.calls other commit hin i hcovers)
  · obtain ⟨hindex, grant, hsettled⟩ := ht.given item hitem
    exact ⟨hindex, grant, hsettled.mono hgrows⟩

private theorem Safe.dropCommit (hsafe : Safe conf s) (position : Nat) :
    Safe conf { s with
      commits := Function.update s.commits id ((s.commits id).eraseIdx position) } := by
  obtain ⟨hkept, hs, hrecorded, ht⟩ := hsafe
  refine ⟨hkept, hs, hrecorded, ht.boxes, ht.requests, ht.handled, fun other call hcall => ?_,
    ht.reports, ht.calls, ht.tasks, ht.given⟩
  rcases mem_update hcall with ⟨rfl, hin⟩ | hin
  · exact ht.commits other call (List.mem_of_mem_eraseIdx hin)
  · exact ht.commits other call hin

end Calls

section Runs

variable {conf : Configuration} {stepDownWhenVoteTimedout : Bool} {s s' : Applying}

private theorem safe_init (conf : Configuration) (dependencyLookBack : Int) :
    Safe conf (.init dependencyLookBack) where
  kept := ⟨_, keeps_init conf dependencyLookBack⟩
  balloted := balloted_init conf dependencyLookBack
  recorded := recorded_init dependencyLookBack
  told :=
    { boxes := fun _ i hlow hhigh => by
        change i ≤ 0 at hhigh
        omega
      requests := fun _ hin => (List.not_mem_nil hin).elim
      handled := fun _ _ hin => (List.not_mem_nil hin).elim
      commits := fun _ _ hin => (List.not_mem_nil hin).elim
      reports := fun _ _ hin => (List.not_mem_nil hin).elim
      calls := fun _ _ hin => (List.not_mem_nil hin).elim
      tasks := fun _ _ hin => (List.not_mem_nil hin).elim
      given := fun _ hin => (List.not_mem_nil hin).elim }

theorem Safe.step (hsafe : Safe conf s) {event : Event} (hcareful : Careful s event)
    (hstep : s.step conf stepDownWhenVoteTimedout event = some s') : Safe conf s' := by
  have hall := hsafe
  obtain ⟨⟨g, h⟩, hs, hrecorded, ht⟩ := hsafe
  unfold Applying.step at hstep
  cases event with
  | group event =>
    obtain ⟨replicas, hreplicas, rfl⟩ := Option.map_eq_some_iff.mp hstep
    obtain ⟨hguard, hhonest⟩ := orderly_of_careful hcareful
    obtain ⟨g', h'⟩ := Keeps.step h hguard hreplicas
    have hs' := hs.step h hguard hhonest hreplicas
    have hrecorded' := recorded_step h hrecorded hguard hreplicas
    exact ⟨⟨g', h'⟩, hs', hrecorded',
      Told.group h hs hrecorded ht hcareful hreplicas h' hs' hrecorded'⟩
  | respond id position =>
    dsimp only at hstep
    split at hstep
    · cases hstep
      exact hall
    · rename_i request hrequest
      obtain ⟨commits, hcommits, rfl⟩ := Option.map_eq_some_iff.mp hstep
      exact ⟨⟨g, h⟩, hs, hrecorded,
        ht.respond h hrequest (hcareful request hrequest) hcommits⟩
  | setLastCommittedIndex id position =>
    dsimp only at hstep
    split at hstep
    · cases hstep
      exact hall
    · rename_i call hcall
      cases hstep
      rcases setLast_cases (s.replicas.nodes id).ballotBox call.committedIndex
        call.ooCommittedEntries with ⟨hbox, hnone⟩ | ⟨hidle, hbox, hsome⟩
      · have hsame : s.replicas.put id { s.replicas.nodes id with
            ballotBox := (s.replicas.nodes id).ballotBox } = s.replicas := by
          unfold Replicas.put
          rw [Function.update_eq_self]
        rw [hbox, hnone, hsame, Option.toList_none, List.append_nil, Function.update_eq_self]
        exact hall.dropCommit position
      · rw [hbox, hsome]
        exact hall.setLast hcall hidle
  | load id position =>
    dsimp only at hstep
    split at hstep
    · cases hstep
      exact hall
    · rename_i report hreport
      cases hstep
      exact ⟨⟨g, h⟩, hs, hrecorded, ht.load hreport⟩
  | onCommitted id position =>
    dsimp only at hstep
    split at hstep
    · cases hstep
      exact hall
    · rename_i call hcall
      cases hstep
      exact ⟨⟨g, h⟩, hs, hrecorded, ht.onCommitted hcall⟩
  | run id count caller =>
    dsimp only at hstep
    split at hstep
    · obtain ⟨after, hrun, rfl⟩ := Option.map_eq_some_iff.mp hstep
      have hrest : Told conf { s with
          tasks := Function.update s.tasks id ((s.tasks id).drop count) } := ht.dropTasks count
      refine ⟨⟨g, h⟩, hs, hrecorded, hrest.boxes, hrest.requests, hrest.handled, hrest.commits,
        hrest.reports, hrest.calls, hrest.tasks, fun item hitem => ?_⟩
      rcases List.mem_append.mp hitem with hold | hnew
      · exact ht.given item hold
      · exact ht.run h hcareful hrun item hnew
    · cases hstep
      exact ⟨⟨g, h⟩, hs, hrecorded, ht.dropTasks count⟩

private def chief : PeerId := ⟨1, 8000, 0⟩

private def deputy : PeerId := ⟨2, 8001, 0⟩

private def newcomer : PeerId := ⟨3, 8000, 0⟩

private def threeMembers : Configuration := ⟨[chief, deputy, newcomer], by decide⟩

/-- `chief` is elected by `deputy`, two entries are granted and handed out, and a heartbeat
brings the committed index to `deputy`. -/
private def chiefEvents : List Event :=
  ([.electionTimeout chief, .receive 0, .call deputy 0, .diskWrite deputy, .resume deputy 0,
    .receive 2, .call chief 0, .diskWrite chief, .resume chief 0, .saveVote chief, .receive 3,
    .call deputy 0, .diskWrite deputy, .resume deputy 0, .receive 5,
    .apply chief [⟨-1, 0, []⟩, ⟨-1, 0, [1]⟩], .diskWrite chief, .sendEntries chief deputy 1 0 [],
    .sendEntries chief deputy 2 0 [], .sendEntries chief newcomer 1 0 [],
    .sendEntries chief newcomer 2 0 [], .appendEntries 0, .appendEntries 1, .diskWrite deputy,
    .diskWrite deputy, .diskBatchEnd deputy, .commitAt chief [1, 2] chief,
    .commitAt chief [1, 2] deputy] : List ReplicatedLogs.Event).map .group ++
  [.load chief 0, .onCommitted chief 0,
    .run chief 1 ⟨⟨1, [none, none], [false, false]⟩, 0, [], false, []⟩,
    .group (.sendEmptyEntries chief deputy 2 2 []), .group (.appendEntries 4),
    .respond deputy 2, .setLastCommittedIndex deputy 0, .onCommitted deputy 0,
    .run deputy 1 ⟨.new, 0, [], false, []⟩]

/-- `newcomer` gets the entries, is elected by `deputy`, an entry of its own is granted, and
a heartbeat brings the committed index to `deputy`. -/
private def newcomerEvents : List Event :=
  ([.appendEntries 2, .appendEntries 3, .diskWrite newcomer, .diskWrite newcomer,
    .electionTimeout newcomer, .receive 7, .call deputy 0, .diskWrite deputy, .resume deputy 0,
    .receive 8, .call newcomer 0, .diskWrite newcomer, .resume newcomer 0, .saveVote newcomer,
    .receive 10, .call deputy 0, .diskWrite deputy, .resume deputy 0, .receive 11,
    .apply newcomer [⟨-1, 0, [2]⟩], .diskWrite newcomer, .sendEntries newcomer deputy 3 0 [],
    .appendEntries 5, .diskWrite deputy, .commitAt newcomer [3] newcomer,
    .commitAt newcomer [3] deputy] : List ReplicatedLogs.Event).map .group ++
  [.load newcomer 0, .onCommitted newcomer 0,
    .run newcomer 1 ⟨⟨3, [none], [false]⟩, 0, [], false, []⟩,
    .group (.sendEmptyEntries newcomer deputy 3 3 []), .group (.appendEntries 6),
    .respond deputy 3, .setLastCommittedIndex deputy 0, .onCommitted deputy 0,
    .run deputy 1 ⟨.new, 2, [], false, []⟩]

/-- State machine safety: whatever two nodes hand to their state machines at an index, over
any elections, crashes and deliveries, is one entry. -/
theorem state_machine_safety (conf : Configuration) (stepDownWhenVoteTimedout : Bool)
    (dependencyLookBack : Int) (events : List Event) (s : Applying)
    (hguard : Guarded (Applying.step conf stepDownWhenVoteTimedout) Careful
      (.init dependencyLookBack) events)
    (hrun : runEvents (Applying.step conf stepDownWhenVoteTimedout) (.init dependencyLookBack)
      events = some s)
    (mine yours : Given) (hmine : mine ∈ s.given) (hyours : yours ∈ s.given)
    (hindex : mine.index = yours.index) : mine.entry = yours.entry := by
  have hsafe : Safe conf s := invariant_of_step (fun _ _ _ h hcareful => h.step hcareful)
    (safe_init conf dependencyLookBack) hguard hrun
  obtain ⟨g, h⟩ := hsafe.kept
  obtain ⟨hmineIndex, a, ha⟩ := hsafe.told.given mine hmine
  obtain ⟨hyoursIndex, b, hb⟩ := hsafe.told.given yours hyours
  exact settled_unique h ha hb (by omega)

theorem state_machine_safety_succession : ∃ s,
    runEvents (Applying.step threeMembers true) (.init 8) (chiefEvents ++ newcomerEvents) =
      some s ∧
    s.given.map (fun item => (item.node, item.index)) =
      [(chief, 1), (chief, 2), (deputy, 1), (deputy, 2), (newcomer, 3), (deputy, 3)] ∧
    ∀ mine ∈ s.given, ∀ yours ∈ s.given, mine.index = yours.index → mine.entry = yours.entry := by
  have hgiven : (runEvents (Applying.step threeMembers true) (.init 8)
      (chiefEvents ++ newcomerEvents)).map
        (fun s => s.given.map fun item => (item.node, item.index)) =
      some [(chief, 1), (chief, 2), (deputy, 1), (deputy, 2), (newcomer, 3), (deputy, 3)] := by
    decide +kernel
  obtain ⟨s, hrun, hgiven⟩ := Option.map_eq_some_iff.mp hgiven
  have hguard : Guarded (Applying.step threeMembers true) Careful (.init 8)
      (chiefEvents ++ newcomerEvents) := by
    decide +kernel
  exact ⟨s, hrun, hgiven, fun mine hmine yours hyours hindex =>
    state_machine_safety threeMembers true 8 (chiefEvents ++ newcomerEvents) s hguard hrun mine
      yours hmine hyours hindex⟩

end Runs

end HitConsistency.Election.AppliedAgreement
