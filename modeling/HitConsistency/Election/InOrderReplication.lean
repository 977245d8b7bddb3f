/- GID: HitConsistency/Election/InOrderReplication
   digest: Replication in order: each log comes from the leaders of its terms, votes see all of it. -/

import HitConsistency.Base.TermChains
import HitConsistency.Election.HandlerTurns
import HitConsistency.Election.ReplicatedLogs
import HitConsistency.Log.InOrderLog

set_option autoImplicit false
set_option relaxedAutoImplicit false

/-!
As long as every request that a node takes continues its log, the log of a node is one
list, and the disk thread writes it from the front. What a node has written then stays
as it is, so the answer of `last_log_id` names the end of a piece of the log that later
votes and leaders can be measured by.
-/

namespace HitConsistency.Election.InOrderReplication

open HitConsistency.Base.MajorityQuorum
open HitConsistency.Base.TermChains
open HitConsistency.Election.HandlerTurns
open HitConsistency.Election.OneLeader
open HitConsistency.Election.ReplicatedLogs
open HitConsistency.Election.VoteProtocol (Waiting RequestVoteRequest Message)
open HitConsistency.Group.Peers
open HitConsistency.Log.Entry
open HitConsistency.Log.InOrderLog
open HitConsistency.Log.MemoryLog
open HitConsistency.Node.AppendHandler (Follower)
open HitConsistency.Node.RoleState

/-- What a run does not keep: the vote ledger, the log of each node with the length
written, and for each term the log of its leader and the part it was elected with. -/
structure Chronicle where
  votes : Ledger
  logs : PeerId → List LogEntry
  written : PeerId → Nat
  origin : Int → List LogEntry
  base : Int → List LogEntry

def termOf (entry : LogEntry) : Int := entry.id.term

/-- The entry is the same at the other end of a request. -/
def Wired (entry : LogEntry) : Prop :=
  Follower.parseEntries (entry.id.index - 1) [entry.toMeta] = [entry]

/-- A call of `last_log_id` lies before an append that was taken in its term or later. -/
def Ahead : DiskTask Done → DiskTask Done → Prop
  | .lastLogId (.lastLogId thread), .append closure => threadTerm thread ≤ closure.done.term
  | _, _ => True

private theorem ahead_lastLogId (task : DiskTask Done) (waiter : Done) : Ahead task
    (.lastLogId waiter) := by
  cases task with
  | append closure => trivial
  | lastLogId other =>
    cases other with
    | leader term => trivial
    | follower term => trivial
    | lastLogId thread => trivial
  | truncateSuffix kept term => trivial

section Invariant

variable (g : Chronicle) (s : Replicas)

def Chronicle.durable (g : Chronicle) (id : PeerId) : List LogEntry :=
  (g.logs id).take (g.written id)

/-- The identity names the end of a written piece of the log of the node. -/
def Names (id : PeerId) (lastLogId : LogId) : Prop :=
  ∃ n ≤ g.written id, lastLogId = lastIdOf ((g.logs id).take n)

/-- All that the node took before the term is within the first entries, for good. -/
structure Covered (id : PeerId) (term : Int) (n : Nat) : Prop where
  length : n ≤ g.written id
  current : term ≤ (s.cluster.nodes id).currentTerm
  stored : ∀ item ∈ s.stored, item.node = id → item.term < term → item.entry.id.index ≤ n
  queued : ∀ closure, .append closure ∈ (s.nodes id).log.diskQueue → term ≤ closure.done.term

/-- A vote of the term that the log check let through: the candidate's identity is not
before the end of what the voter held. -/
def Voted (voter : PeerId) (term : Int) (lastLogId : LogId) : Prop :=
  ∃ n, Covered g s voter term n ∧ ¬ lastLogId.Before (lastIdOf ((g.logs voter).take n))

def Asks (id : PeerId) (thread : Waiting) : Prop :=
  threadTerm thread ≤ (s.cluster.nodes id).currentTerm ∧
    ∀ request, thread = .requestVote request →
      Names g request.serverId ⟨request.lastLogIndex, request.lastLogTerm⟩

structure LogPart (id : PeerId) : Prop where
  inOrder : InOrder (g.logs id) (g.written id) (s.nodes id).log
  chained : Chained termOf g.origin (g.logs id)
  bounded : ∀ entry ∈ g.logs id, termOf entry ≤ (s.cluster.nodes id).currentTerm
  positive : 0 < (s.cluster.nodes id).currentTerm

/-- The ballots of a leader are for the entries of its own term. -/
structure Ballots (id : PeerId) : Prop where
  pending : 1 ≤ (s.nodes id).ballotBox.pendingIndex
  count : (s.nodes id).ballotBox.pendingIndex + (s.nodes id).ballotBox.pendingMetaQueue.length =
    (g.logs id).length + 1
  own : ∀ (k : Nat) (entry : LogEntry), (g.logs id)[k]? = some entry →
    (s.nodes id).ballotBox.pendingIndex ≤ k + 1 →
      termOf entry = (s.cluster.nodes id).currentTerm

structure LeadPart (id : PeerId) : Prop where
  elected : (s.cluster.nodes id).state.leading = true →
    (id, (s.cluster.nodes id).currentTerm) ∈ s.cluster.elected
  own : (id, (s.cluster.nodes id).currentTerm) ∈ s.cluster.elected →
    (s.cluster.nodes id).state.leading = true ∨ Campaigning (s.cluster.nodes id) →
      g.origin (s.cluster.nodes id).currentTerm = g.logs id
  ballots : (s.cluster.nodes id).state.leading = true → Ballots g s id
  idle : (s.cluster.nodes id).state.leading = false → (s.nodes id).ballotBox.pendingIndex = 0 ∧
    (s.nodes id).ballotBox.pendingMetaQueue = []
  replicators : ∀ item ∈ (s.nodes id).rmap, item.1 ≠ id ∧ (id, item.2) ∈ s.cluster.elected

/-- The handlers of a node that wait for the last entry. -/
structure PipePart (id : PeerId) : Prop where
  calling : ∀ thread ∈ (s.nodes id).calling, Asks g s id thread
  queued : ∀ thread, .lastLogId (.lastLogId thread) ∈ (s.nodes id).log.diskQueue →
    Asks g s id thread
  order : (s.nodes id).log.diskQueue.Pairwise Ahead
  answers : ∀ answer ∈ (s.nodes id).answers, Asks g s id answer.1 ∧
    ∃ n, Covered g s id (threadTerm answer.1) n ∧ answer.2 = lastIdOf ((g.logs id).take n)
  saving : (s.cluster.nodes id).saving = true →
    ∃ n, Covered g s id (s.cluster.nodes id).currentTerm n

/-- What the leader of a term was elected with, and by whom. -/
structure Led (conf : Configuration) (leader : PeerId) (term : Int) : Prop where
  current : term ≤ (s.cluster.nodes leader).currentTerm
  durable : g.base term <+: g.durable leader
  origin : g.base term <+: g.origin term
  earlier : ∀ entry ∈ g.base term, termOf entry < term
  voters : ∃ voters : Finset PeerId, Majority conf.members voters ∧ ∀ voter ∈ voters,
    ∃ piece, piece <+: g.base term ∧ Voted g s voter term (lastIdOf piece)

structure OriginPart (term : Int) : Prop where
  numbered : Numbered (g.origin term)
  chained : Chained termOf g.origin (g.origin term)
  bounded : ∀ entry ∈ g.origin term, termOf entry ≤ term ∧ Wired entry
  unled : (∀ leader, (leader, term) ∉ s.cluster.elected) → g.origin term = []

/-- A request of a leader carries nothing, or an entry behind a piece of its log. -/
structure Carries (request : AppendEntriesRequest) : Prop where
  elected : (request.serverId, request.term) ∈ s.cluster.elected
  other : request.peerId ≠ request.serverId
  entries : request.entries = [] ∨ ∃ piece entry, request.entries = [entry.toMeta] ∧
    Numbered (piece ++ [entry]) ∧ Chained termOf g.origin (piece ++ [entry]) ∧ Wired entry ∧
    lastIdOf piece = ⟨request.prevLogIndex, request.prevLogTerm⟩

structure Keeps (conf : Configuration) : Prop where
  votes : Inv conf g.votes s.cluster
  log : ∀ id, LogPart g s id
  lead : ∀ id, LeadPart g s id
  pipe : ∀ id, PipePart g s id
  origin : ∀ term, OriginPart g s term
  led : ∀ winner ∈ s.cluster.elected, Led g s conf winner.1 winner.2
  sent : ∀ request, .requestVote request ∈ s.cluster.network →
    Names g request.serverId ⟨request.lastLogIndex, request.lastLogTerm⟩
  voted : ∀ voter term candidate, g.votes voter term = some candidate →
    ∃ lastLogId, Names g candidate lastLogId ∧ Voted g s voter term lastLogId
  requests : ∀ request ∈ s.requests, Carries g s request
  stored : ∀ item ∈ s.stored, item.entry ∈ g.durable item.node
  granted : ∀ grant ∈ s.granted, termOf grant.entry = grant.term
  held : ∀ leadership ∈ s.leaderships, (leadership.leader, leadership.term) ∈ s.cluster.elected ∧
    ∀ (k : Nat) (entry : LogEntry), (g.base leadership.term)[k]? = some entry →
      leadership.held.getEntry (k + 1) = some entry

end Invariant

/-- What a step never takes back: written entries, terms, leaderships and their logs. -/
structure Later (g : Chronicle) (s : Replicas) (g' : Chronicle) (s' : Replicas) : Prop where
  written : ∀ id, g.written id ≤ g'.written id
  logs : ∀ id, (g'.logs id).take (g.written id) = (g.logs id).take (g.written id)
  current : ∀ id, (s.cluster.nodes id).currentTerm ≤ (s'.cluster.nodes id).currentTerm
  queue : ∀ id closure, .append closure ∈ (s'.nodes id).log.diskQueue →
    .append closure ∈ (s.nodes id).log.diskQueue ∨
      (s.cluster.nodes id).currentTerm ≤ closure.done.term
  stored : ∀ item ∈ s'.stored, item ∈ s.stored ∨ ∃ closure,
    .append closure ∈ (s.nodes item.node).log.diskQueue ∧ closure.done.term = item.term
  elected : ∀ winner ∈ s.cluster.elected, winner ∈ s'.cluster.elected
  origin : ∀ term, g.origin term <+: g'.origin term
  base : ∀ winner ∈ s.cluster.elected, g'.base winner.2 = g.base winner.2

section Stability

variable {conf : Configuration} {g g' : Chronicle} {s s' : Replicas} {id : PeerId}

theorem Later.take (h : Later g s g' s') {n : Nat} (hn : n ≤ g.written id) :
    (g'.logs id).take n = (g.logs id).take n := by
  rw [← Nat.min_eq_left hn, ← List.take_take, ← List.take_take, h.logs]

theorem Later.durable (h : Later g s g' s') (id : PeerId) : g.durable id <+: g'.durable id := by
  unfold Chronicle.durable
  rw [← h.take le_rfl]
  exact List.take_prefix_take_left (h.written id)

theorem Names.later {lastLogId : LogId} (h : Names g id lastLogId) (hl : Later g s g' s') :
    Names g' id lastLogId := by
  obtain ⟨n, hn, rfl⟩ := h
  exact ⟨n, hn.trans (hl.written id), by rw [hl.take hn]⟩

theorem Covered.later {term : Int} {n : Nat} (h : Covered g s id term n) (hl : Later g s g' s') :
    Covered g' s' id term n := by
  refine ⟨h.length.trans (hl.written id), h.current.trans (hl.current id), ?_, ?_⟩
  · intro item hitem hnode hterm
    rcases hl.stored item hitem with hold | ⟨closure, hclosure, hdone⟩
    · exact h.stored item hold hnode hterm
    · rw [hnode] at hclosure
      have := h.queued closure hclosure
      omega
  · intro closure hclosure
    rcases hl.queue id closure hclosure with hold | hnew
    · exact h.queued closure hold
    · exact h.current.trans hnew

theorem Voted.later {term : Int} {lastLogId : LogId} (h : Voted g s id term lastLogId)
    (hl : Later g s g' s') : Voted g' s' id term lastLogId := by
  obtain ⟨n, hcovered, hnot⟩ := h
  refine ⟨n, hcovered.later hl, ?_⟩
  rw [hl.take hcovered.length]
  exact hnot

theorem Asks.later {thread : Waiting} (h : Asks g s id thread) (hl : Later g s g' s') :
    Asks g' s' id thread :=
  ⟨h.1.trans (hl.current id), fun request hr => (h.2 request hr).later hl⟩

theorem Led.later {term : Int} (h : Led g s conf id term) (helected : (id, term) ∈ s.cluster.elected)
    (hl : Later g s g' s') : Led g' s' conf id term := by
  have hbase := hl.base _ helected
  dsimp only at hbase
  refine ⟨h.current.trans (hl.current id), ?_, ?_, ?_, ?_⟩
  · rw [hbase]
    exact h.durable.trans (hl.durable id)
  · rw [hbase]
    exact h.origin.trans (hl.origin term)
  · rw [hbase]
    exact h.earlier
  · rw [hbase]
    obtain ⟨voters, hmajority, hvoters⟩ := h.voters
    refine ⟨voters, hmajority, fun voter hv => ?_⟩
    obtain ⟨piece, hpiece, hvoted⟩ := hvoters voter hv
    exact ⟨piece, hpiece, hvoted.later hl⟩

theorem Carries.later {request : AppendEntriesRequest} (h : Carries g s request)
    (hl : Later g s g' s') : Carries g' s' request := by
  refine ⟨hl.elected _ h.elected, h.other, ?_⟩
  rcases h.entries with hnil | ⟨piece, entry, hentry, hnumbered, hchained, hwired, hid⟩
  · exact .inl hnil
  · exact .inr ⟨piece, entry, hentry, hnumbered, hchained.mono hl.origin, hwired, hid⟩

structure Untouched (g : Chronicle) (s : Replicas) (g' : Chronicle) (s' : Replicas) (id : PeerId) :
    Prop where
  role : s'.cluster.nodes id = s.cluster.nodes id
  replica : s'.nodes id = s.nodes id
  logs : g'.logs id = g.logs id
  written : g'.written id = g.written id
  elected : ∀ term, (id, term) ∈ s'.cluster.elected → (id, term) ∈ s.cluster.elected
  origin : ∀ term, (id, term) ∈ s.cluster.elected → g'.origin term = g.origin term

theorem LogPart.untouched (h : LogPart g s id) (hl : Later g s g' s')
    (hu : Untouched g s g' s' id) : LogPart g' s' id := by
  refine ⟨?_, ?_, ?_, ?_⟩
  · rw [hu.logs, hu.written, hu.replica]
    exact h.inOrder
  · rw [hu.logs]
    exact h.chained.mono hl.origin
  · rw [hu.logs, hu.role]
    exact h.bounded
  · rw [hu.role]
    exact h.positive

theorem LeadPart.untouched (h : LeadPart g s id) (hl : Later g s g' s')
    (hu : Untouched g s g' s' id) : LeadPart g' s' id := by
  refine ⟨?_, ?_, ?_, ?_, ?_⟩
  · rw [hu.role]
    exact fun hlead => hl.elected _ (h.elected hlead)
  · rw [hu.role]
    intro helected hactive
    have hold := hu.elected _ helected
    rw [hu.origin _ hold, hu.logs]
    exact h.own hold hactive
  · rw [hu.role]
    intro hlead
    obtain ⟨hpending, hcount, hown⟩ := h.ballots hlead
    refine ⟨?_, ?_, ?_⟩
    · rw [hu.replica]
      exact hpending
    · rw [hu.replica, hu.logs]
      exact hcount
    · rw [hu.replica, hu.logs, hu.role]
      exact hown
  · rw [hu.role, hu.replica]
    exact h.idle
  · rw [hu.replica]
    exact fun item hi => ⟨(h.replicators item hi).1, hl.elected _ (h.replicators item hi).2⟩

theorem PipePart.answer_later (h : PipePart g s id) (hl : Later g s g' s')
    {answer : Waiting × LogId} (ha : answer ∈ (s.nodes id).answers) : Asks g' s' id answer.1 ∧
      ∃ n, Covered g' s' id (threadTerm answer.1) n ∧
        answer.2 = lastIdOf ((g'.logs id).take n) := by
  obtain ⟨hasks, n, hcovered, hid⟩ := h.answers answer ha
  refine ⟨hasks.later hl, n, hcovered.later hl, ?_⟩
  rw [hl.take hcovered.length]
  exact hid

theorem PipePart.untouched (h : PipePart g s id) (hl : Later g s g' s')
    (hu : Untouched g s g' s' id) : PipePart g' s' id := by
  refine ⟨?_, ?_, ?_, ?_, ?_⟩
  · rw [hu.replica]
    exact fun thread ht => (h.calling thread ht).later hl
  · rw [hu.replica]
    exact fun thread ht => (h.queued thread ht).later hl
  · rw [hu.replica]
    exact h.order
  · rw [hu.replica]
    exact fun answer ha => h.answer_later hl ha
  · rw [hu.role]
    intro hsaving
    obtain ⟨n, hcovered⟩ := h.saving hsaving
    exact ⟨n, hcovered.later hl⟩

theorem Keeps.unique_leader (h : Keeps g s conf) {a b : PeerId} {term : Int}
    (ha : (a, term) ∈ s.cluster.elected) (hb : (b, term) ∈ s.cluster.elected) : a = b :=
  won_unique (h.votes.elected _ ha) (h.votes.elected _ hb)

theorem Keeps.stored_position (h : Keeps g s conf) {item : Stored} (hi : item ∈ s.stored) :
    ∃ k < g.written item.node, (g.logs item.node)[k]? = some item.entry ∧
      item.entry.id.index = k + 1 := by
  obtain ⟨k, hk⟩ := List.getElem?_of_mem (h.stored item hi)
  change ((g.logs item.node).take (g.written item.node))[k]? = some item.entry at hk
  have hbound := (List.getElem?_eq_some_iff.mp hk).1
  rw [List.length_take] at hbound
  rw [List.getElem?_take_of_lt (by omega)] at hk
  exact ⟨k, by omega, hk, (h.log item.node).inOrder.numbered.index k _ hk⟩

theorem Keeps.replica_step (h : Keeps g s conf) (hl : Later g s g' s')
    (hcluster : s'.cluster = s.cluster) (hvotes : g'.votes = g.votes)
    (hothers : ∀ other, other ≠ id → Untouched g s g' s' other)
    (hlog : LogPart g' s' id) (hlead : LeadPart g' s' id) (hpipe : PipePart g' s' id)
    (horigin : ∀ term, OriginPart g' s' term)
    (hrequests : s'.requests = s.requests)
    (hstored : ∀ item ∈ s'.stored, item ∈ s.stored ∨ item.entry ∈ g'.durable item.node)
    (hgranted : ∀ grant ∈ s'.granted, grant ∈ s.granted ∨ termOf grant.entry = grant.term)
    (hleaderships : s'.leaderships = s.leaderships) : Keeps g' s' conf where
  votes := by
    rw [hvotes, hcluster]
    exact h.votes
  log := fun other => by
    by_cases ho : other = id
    · rw [ho]
      exact hlog
    · exact (h.log other).untouched hl (hothers other ho)
  lead := fun other => by
    by_cases ho : other = id
    · rw [ho]
      exact hlead
    · exact (h.lead other).untouched hl (hothers other ho)
  pipe := fun other => by
    by_cases ho : other = id
    · rw [ho]
      exact hpipe
    · exact (h.pipe other).untouched hl (hothers other ho)
  origin := horigin
  led := by
    rw [hcluster]
    exact fun winner hw => (h.led winner hw).later hw hl
  sent := by
    rw [hcluster]
    exact fun request hr => (h.sent request hr).later hl
  voted := by
    rw [hvotes]
    intro voter term candidate hv
    obtain ⟨lastLogId, hnames, hvoted⟩ := h.voted voter term candidate hv
    exact ⟨lastLogId, hnames.later hl, hvoted.later hl⟩
  requests := by
    rw [hrequests]
    exact fun request hr => (h.requests request hr).later hl
  stored := fun item hi => by
    rcases hstored item hi with hold | hnew
    · exact (hl.durable item.node).subset (h.stored item hold)
    · exact hnew
  granted := fun grant hg => by
    rcases hgranted grant hg with hold | hnew
    · exact h.granted grant hold
    · exact hnew
  held := by
    rw [hleaderships, hcluster]
    intro leadership hm
    obtain ⟨helected, hheld⟩ := h.held leadership hm
    refine ⟨helected, ?_⟩
    have hbase := hl.base _ helected
    dsimp only at hbase
    rw [hbase]
    exact hheld

end Stability

section Nodes

variable {conf : Configuration} {g g' : Chronicle} {s s' : Replicas} {id : PeerId}
  {replica : Replica}

/-- A step that exchanges the replica of one node. -/
structure Puts (s : Replicas) (id : PeerId) (replica : Replica) (s' : Replicas) : Prop where
  cluster : s'.cluster = s.cluster
  nodes : s'.nodes = Function.update s.nodes id replica
  requests : s'.requests = s.requests
  leaderships : s'.leaderships = s.leaderships

theorem Puts.self (h : Puts s id replica s') : s'.nodes id = replica := by
  rw [h.nodes, Function.update_self]

theorem Puts.other (h : Puts s id replica s') {other : PeerId} (ho : other ≠ id) :
    s'.nodes other = s.nodes other := by
  rw [h.nodes, Function.update_of_ne ho]

theorem puts_put (s : Replicas) (id : PeerId) (replica : Replica) :
    Puts s id replica (s.put id replica) :=
  ⟨rfl, rfl, rfl, rfl⟩

def Chronicle.grow (g : Chronicle) (id : PeerId) (log : List LogEntry) (written : Nat)
    (origin : Int → List LogEntry) : Chronicle :=
  ⟨g.votes, Function.update g.logs id log, Function.update g.written id written, origin, g.base⟩

section Grow

variable {log : List LogEntry} {written : Nat} {origin : Int → List LogEntry} {other : PeerId}

@[simp] theorem Chronicle.grow_logs : (g.grow id log written origin).logs id = log :=
  Function.update_self ..

@[simp] theorem Chronicle.grow_written : (g.grow id log written origin).written id = written :=
  Function.update_self ..

private theorem Chronicle.grow_logs_of_ne (h : other ≠ id) :
    (g.grow id log written origin).logs other = g.logs other :=
  Function.update_of_ne h ..

private theorem Chronicle.grow_written_of_ne (h : other ≠ id) :
    (g.grow id log written origin).written other = g.written other :=
  Function.update_of_ne h ..

theorem Puts.later (h : Puts s id replica s') (hwritten : g.written id ≤ written)
    (hlog : log.take (g.written id) = (g.logs id).take (g.written id))
    (horigin : ∀ term, g.origin term <+: origin term)
    (hqueue : ∀ closure, .append closure ∈ replica.log.diskQueue →
      .append closure ∈ (s.nodes id).log.diskQueue ∨
        (s.cluster.nodes id).currentTerm ≤ closure.done.term)
    (hstored : ∀ item ∈ s'.stored, item ∈ s.stored ∨ ∃ closure,
      .append closure ∈ (s.nodes item.node).log.diskQueue ∧ closure.done.term = item.term) :
    Later g s (g.grow id log written origin) s' where
  written := fun other => by
    by_cases ho : other = id
    · rw [ho, Chronicle.grow_written]
      exact hwritten
    · rw [Chronicle.grow_written_of_ne ho]
  logs := fun other => by
    by_cases ho : other = id
    · rw [ho, Chronicle.grow_logs]
      exact hlog
    · rw [Chronicle.grow_logs_of_ne ho]
  current := fun _ => by rw [h.cluster]
  queue := fun other closure hc => by
    by_cases ho : other = id
    · subst ho
      rw [h.self] at hc
      exact hqueue closure hc
    · rw [h.other ho] at hc
      exact .inl hc
  stored := hstored
  elected := fun winner hw => by
    rw [h.cluster]
    exact hw
  origin := horigin
  base := fun _ _ => rfl

theorem Puts.untouched (h : Puts s id replica s') (ho : other ≠ id)
    (horigin : ∀ term, (other, term) ∈ s.cluster.elected → origin term = g.origin term) :
    Untouched g s (g.grow id log written origin) s' other where
  role := by rw [h.cluster]
  replica := h.other ho
  logs := Chronicle.grow_logs_of_ne ho
  written := Chronicle.grow_written_of_ne ho
  elected := fun term ht => by
    rw [h.cluster] at ht
    exact ht
  origin := horigin

end Grow

private theorem Chronicle.grow_self (g : Chronicle) (id : PeerId) :
    g.grow id (g.logs id) (g.written id) g.origin = g := by
  unfold Chronicle.grow
  rw [Function.update_eq_self, Function.update_eq_self]

theorem PipePart.put (h : PipePart g s id) (hl : Later g s g' s') (hp : Puts s id replica s')
    (hcalling : ∀ thread ∈ replica.calling, thread ∈ (s.nodes id).calling)
    (hqueued : ∀ thread, .lastLogId (.lastLogId thread) ∈ replica.log.diskQueue →
      .lastLogId (.lastLogId thread) ∈ (s.nodes id).log.diskQueue ∨ thread ∈ (s.nodes id).calling)
    (horder : replica.log.diskQueue.Pairwise Ahead)
    (hanswers : ∀ answer ∈ replica.answers, answer ∈ (s.nodes id).answers ∨
      Asks g' s' id answer.1 ∧ ∃ n, Covered g' s' id (threadTerm answer.1) n ∧
        answer.2 = lastIdOf ((g'.logs id).take n)) : PipePart g' s' id := by
  refine ⟨?_, ?_, ?_, ?_, ?_⟩
  · rw [hp.self]
    exact fun thread ht => (h.calling thread (hcalling thread ht)).later hl
  · rw [hp.self]
    intro thread ht
    rcases hqueued thread ht with hold | hcall
    · exact (h.queued thread hold).later hl
    · exact (h.calling thread hcall).later hl
  · rw [hp.self]
    exact horder
  · rw [hp.self]
    intro answer ha
    rcases hanswers answer ha with hold | hnew
    · exact h.answer_later hl hold
    · exact hnew
  · rw [hp.cluster]
    intro hsaving
    obtain ⟨n, hcovered⟩ := h.saving hsaving
    exact ⟨n, hcovered.later hl⟩

theorem LeadPart.put (h : LeadPart g s id) (hp : Puts s id replica s')
    (hbox : replica.ballotBox = (s.nodes id).ballotBox) (hrmap : replica.rmap = (s.nodes id).rmap)
    (hlogs : g'.logs id = g.logs id) (horigin : g'.origin = g.origin) : LeadPart g' s' id := by
  refine ⟨?_, ?_, ?_, ?_, ?_⟩
  · rw [hp.cluster]
    exact h.elected
  · rw [hp.cluster, horigin, hlogs]
    exact h.own
  · rw [hp.cluster]
    intro hlead
    obtain ⟨hpending, hcount, hown⟩ := h.ballots hlead
    refine ⟨?_, ?_, ?_⟩
    · rw [hp.self, hbox]
      exact hpending
    · rw [hp.self, hbox, hlogs]
      exact hcount
    · rw [hp.self, hbox, hlogs, hp.cluster]
      exact hown
  · rw [hp.cluster, hp.self, hbox]
    exact h.idle
  · rw [hp.cluster, hp.self, hrmap]
    exact h.replicators

theorem Puts.later_same (hp : Puts s id replica s') (hstored : s'.stored = s.stored)
    (hqueue : ∀ closure, .append closure ∈ replica.log.diskQueue →
      .append closure ∈ (s.nodes id).log.diskQueue) : Later g s g s' := by
  have hl : Later g s (g.grow id (g.logs id) (g.written id) g.origin) s' :=
    hp.later le_rfl rfl (fun _ => List.prefix_rfl) (fun closure hc => .inl (hqueue closure hc))
      (fun item hi => .inl (hstored ▸ hi))
  rw [Chronicle.grow_self] at hl
  exact hl

theorem Keeps.put_same (h : Keeps g s conf) (hp : Puts s id replica s')
    (hstored : s'.stored = s.stored)
    (hqueue : ∀ closure, .append closure ∈ replica.log.diskQueue →
      .append closure ∈ (s.nodes id).log.diskQueue)
    (hinOrder : InOrder (g.logs id) (g.written id) replica.log)
    (hlead : LeadPart g s' id) (hpipe : Later g s g s' → PipePart g s' id)
    (hgranted : ∀ grant ∈ s'.granted, grant ∈ s.granted ∨ termOf grant.entry = grant.term) :
    Keeps g s' conf := by
  have hl : Later g s g s' := hp.later_same hstored hqueue
  refine h.replica_step hl hp.cluster rfl (fun other ho => ?_) ?_ hlead (hpipe hl) (fun term => ?_)
    hp.requests (fun item hi => .inl (hstored ▸ hi)) hgranted hp.leaderships
  · have hu : Untouched g s (g.grow id (g.logs id) (g.written id) g.origin) s' other :=
      hp.untouched ho fun _ _ => rfl
    rw [Chronicle.grow_self] at hu
    exact hu
  · refine ⟨?_, (h.log id).chained, ?_, ?_⟩
    · rw [hp.self]
      exact hinOrder
    · rw [hp.cluster]
      exact (h.log id).bounded
    · rw [hp.cluster]
      exact (h.log id).positive
  · obtain ⟨hnumbered, hchained, hbounded, hunled⟩ := h.origin term
    exact ⟨hnumbered, hchained, hbounded, by rw [hp.cluster]; exact hunled⟩

theorem Keeps.relog (h : Keeps g s conf) {m : LogManager Done}
    (hinOrder : InOrder (g.logs id) (g.written id) m)
    (hqueue : m.diskQueue = (s.nodes id).log.diskQueue) :
    Keeps g (s.put id { s.nodes id with log := m }) conf := by
  have hp := puts_put s id { s.nodes id with log := m }
  refine h.put_same hp rfl (fun closure hc => ?_) hinOrder ((h.lead id).put hp rfl rfl rfl rfl)
    (fun hl => (h.pipe id).put hl hp (fun _ ht => ht) (fun thread ht => .inl ?_) ?_ fun _ ha => .inl ha)
    fun _ hg => .inl hg
  · rw [← hqueue]
    exact hc
  · rw [← hqueue]
    exact ht
  · show m.diskQueue.Pairwise Ahead
    rw [hqueue]
    exact (h.pipe id).order

theorem Keeps.call (h : Keeps g s conf) (position : Nat) :
    Keeps g (s.put id ((s.nodes id).call position)) conf := by
  have hp := puts_put s id ((s.nodes id).call position)
  unfold Replica.call at hp ⊢
  cases hthread : (s.nodes id).calling[position]? with
  | none =>
    rw [hthread] at hp
    exact h.relog (h.log id).inOrder rfl
  | some thread =>
    rw [hthread] at hp
    have hpipe := h.pipe id
    have hcall : thread ∈ (s.nodes id).calling := List.mem_of_getElem? hthread
    refine h.put_same hp rfl (fun closure hc => ?_) ((h.log id).inOrder.enqueue rfl fun hcut => hcut)
      ((h.lead id).put hp rfl rfl rfl rfl) (fun hl => hpipe.put hl hp
        (fun _ ht => List.mem_of_mem_eraseIdx ht) (fun other ho => ?_) ?_ fun _ ha => .inl ha)
      fun _ hg => .inl hg
    · rcases List.mem_append.mp hc with hc | hc
      · exact hc
      · cases List.mem_singleton.mp hc
    · rcases List.mem_append.mp ho with ho | ho
      · exact .inl ho
      · cases List.mem_singleton.mp ho
        exact .inr hcall
    · refine List.pairwise_append.mpr ⟨hpipe.order, List.pairwise_singleton .., fun a _ b hb => ?_⟩
      rw [List.mem_singleton.mp hb]
      exact ahead_lastLogId a _

theorem Keeps.takeAnswer (h : Keeps g s conf) (position : Nat) :
    Keeps g (s.put id { s.nodes id with answers := (s.nodes id).answers.eraseIdx position })
      conf := by
  have hp := puts_put s id
    { s.nodes id with answers := (s.nodes id).answers.eraseIdx position }
  exact h.put_same hp rfl (fun _ hc => hc) (h.log id).inOrder ((h.lead id).put hp rfl rfl rfl rfl)
    (fun hl => (h.pipe id).put hl hp (fun _ ht => ht) (fun _ ht => .inl ht) (h.pipe id).order
      fun _ ha => .inl (List.mem_of_mem_eraseIdx ha)) fun _ hg => .inl hg

end Nodes

end HitConsistency.Election.InOrderReplication
