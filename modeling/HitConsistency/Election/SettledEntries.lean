/- GID: HitConsistency/Election/SettledEntries
   digest: What a step keeps of logs, boxes and requests, and the entries that a grant settles. -/

import HitConsistency.Election.CommittedBallots

set_option autoImplicit false
set_option relaxedAutoImplicit false

/-!
Only a crash takes entries off a log, and never a written one, so a node goes on reading
what it has read. An entry is settled once it is written by a node that has also written a
committed entry at its index or behind it; every leader from then on has it there.
-/

namespace HitConsistency.Election.SettledEntries

open HitConsistency.Base.IndexedDeque
open HitConsistency.Base.TermChains
open HitConsistency.Commit.PendingQueues
open HitConsistency.Election.CommittedAgreement
open HitConsistency.Election.CommittedBallots
open HitConsistency.Election.HandlerTurns
open HitConsistency.Election.InOrderReplication
open HitConsistency.Election.LeaderCompleteness
open HitConsistency.Election.ReplicaSteps
open HitConsistency.Election.ReplicatedLogs
open HitConsistency.Election.VoteProtocol (ElectionNode)
open HitConsistency.Group.Peers
open HitConsistency.Log.Entry
open HitConsistency.Log.InOrderLog
open HitConsistency.Log.MemoryLog
open HitConsistency.Node.AppendHandler (Follower)

variable {conf : Configuration} {g : Chronicle} {s s' : Replicas} {id : PeerId}
  {stepDownWhenVoteTimedout : Bool}

section Logs

/-- The log of a node behind a step: more entries may have come behind it, and what the disk
thread has written of it in the step is recorded. -/
def Advanced (log : List LogEntry) (written : Nat) (id : PeerId) (s' : Replicas) : Prop :=
  ∃ more batch, InOrder (log ++ more) (written + batch.length) (s'.nodes id).log ∧
    batch <+: log.drop written ∧ ∀ entry ∈ batch, ∃ term, ⟨id, term, entry⟩ ∈ s'.stored

private theorem advanced_still (h : InOrder (g.logs id) (g.written id) (s'.nodes id).log) :
    Advanced (g.logs id) (g.written id) id s' :=
  ⟨[], [], by rwa [List.append_nil], List.nil_prefix, fun _ he => (List.not_mem_nil he).elim⟩

theorem advanced_same (h : Keeps g s conf) (hlog : (s'.nodes id).log = (s.nodes id).log) :
    Advanced (g.logs id) (g.written id) id s' := by
  refine advanced_still ?_
  rw [hlog]
  exact (h.log id).inOrder

private theorem elect_log {event : VoteProtocol.Event}
    (hstep : s.elect conf stepDownWhenVoteTimedout event = some s') (id : PeerId) :
    (s'.nodes id).log = (s.nodes id).log := by
  obtain ⟨cluster, -, rfl⟩ := Option.map_eq_some_iff.mp hstep
  rfl

private theorem put_log_of_ne {replica : Replica} {other : PeerId} (hne : other ≠ id) :
    ((s.put id replica).nodes other).log = (s.nodes other).log := by
  rw [show (s.put id replica).nodes other = s.nodes other from Function.update_of_ne hne ..]

theorem put_log_of_eq {other : PeerId} {replica : Replica}
    (hlog : replica.log = (s.nodes other).log) (id : PeerId) :
    ((s.put other replica).nodes id).log = (s.nodes id).log := by
  by_cases ho : id = other
  · rw [ho, put_self, hlog]
  · exact put_log_of_ne ho

private theorem appendOwn_log (h : Keeps g s conf) {entries : List LogEntry} {log : LogManager Done}
    (hraw : ∀ entry ∈ entries, entry.id = ⟨0, (s.cluster.nodes id).currentTerm⟩) {done : Done}
    {status : Option Status}
    (happend : (s.nodes id).log.appendEntries entries done false = some (log, status)) :
    InOrder (g.logs id ++ LogManager.assignIndexes (g.logs id).length entries) (g.written id)
      log := by
  have hassigned : ∀ (k : Nat) entry,
      (LogManager.assignIndexes (g.logs id).length entries)[k]? = some entry →
      entry.id = ⟨(g.logs id).length + k + 1, (s.cluster.nodes id).currentTerm⟩ := by
    intro k entry hk
    rw [getElem?_assignIndexes] at hk
    obtain ⟨raw, hentry, rfl⟩ := Option.map_eq_some_iff.mp hk
    rw [hraw raw (List.mem_of_getElem? hentry)]
  refine ((h.log id).inOrder.appendOwn (fun entry he => congrArg LogId.index (hraw entry he))
    ?_ happend).1
  refine (h.log id).inOrder.numbered.append (h.log id).positive (h.log id).bounded
    (fun entry he => ?_) fun k entry hk => congrArg LogId.index (hassigned k entry hk)
  obtain ⟨k, hk⟩ := List.mem_iff_getElem?.mp he
  exact congrArg LogId.term (hassigned k entry hk)

private theorem apply_log (h : Keeps g s conf) {tasks : List Task} {replica : Replica}
    (hrun : (s.nodes id).apply conf (s.cluster.nodes id).currentTerm tasks = some replica) :
    ∃ more, InOrder (g.logs id ++ more) (g.written id) replica.log := by
  unfold Replica.apply at hrun
  obtain ⟨⟨log, status⟩, happend, rfl⟩ := Option.map_eq_some_iff.mp hrun
  refine ⟨_, appendOwn_log h (fun entry hentry => ?_) happend⟩
  obtain ⟨task, -, rfl⟩ := List.mem_map.mp hentry
  rfl

private theorem handleEntries_log (h : Keeps g s conf) {request : AppendEntriesRequest}
    (hcarries : Carries g s request) {before replica : Replica}
    (hlog : before.log = (s.nodes id).log)
    (hcontinues : before.takes request = true → Continues before request) {currentTerm : Int}
    (hrun : before.handleEntries currentTerm request = some replica) :
    ∃ more, InOrder (g.logs id ++ more) (g.written id) replica.log := by
  have hinOrder := (h.log id).inOrder
  rw [← hlog] at hinOrder
  have hstays : ∃ more, InOrder (g.logs id ++ more) (g.written id) before.log :=
    ⟨[], by rwa [List.append_nil]⟩
  unfold Replica.handleEntries at hrun
  obtain ⟨localTerm, -, hrun⟩ := Option.bind_eq_some_iff.mp hrun
  split at hrun
  · rename_i htakes
    obtain ⟨⟨log, status⟩, happend, hreplica⟩ := Option.bind_eq_some_iff.mp hrun
    cases hreplica
    obtain ⟨hindex, hprev, -⟩ := hcontinues htakes
    rcases hcarries.entries with hnil | ⟨piece, entry, hentries, hnumbered, hchained, hwired, hlast⟩
    · rw [Replica.takes, hnil] at htakes
      simp at htakes
    · have hpiece := List.prefix_append piece [entry]
      have hprevIndex : request.prevLogIndex = piece.length := by
        rw [← (hnumbered.isPrefix hpiece).lastIdOf_index, hlast]
      have hlength : piece.length = (g.logs id).length := by
        have := hinOrder.last
        omega
      -- The log up to the entry is that of the sender.
      obtain rfl : piece = g.logs id := by
        refine eq_of_lastTerm (hchained.isPrefix hpiece) (h.log id).chained hlength ?_
        rw [hprevIndex, hlength, hinOrder.unsafeGetTerm le_rfl, List.take_length] at hprev
        rw [hlast]
        exact (Option.some.inj hprev).symm
      have hentryIndex : entry.id.index = (g.logs id).length + 1 :=
        hnumbered.index (g.logs id).length entry (by simp)
      have hparsed : Follower.parseEntries request.prevLogIndex request.entries = [entry] := by
        rw [hentries, show request.prevLogIndex = entry.id.index - 1 by omega]
        exact hwired
      rw [hparsed] at happend
      rcases hinOrder.appendNext hnumbered happend with rfl | ⟨hnew, -⟩
      · exact hstays
      · exact ⟨[entry], hnew⟩
  · cases hrun
    exact hstays

private theorem advanced_put (h : Keeps g s conf) {other : PeerId} {replica : Replica}
    {more : List LogEntry} (hmore : InOrder (g.logs other ++ more) (g.written other) replica.log)
    (id : PeerId) : Advanced (g.logs id) (g.written id) id (s.put other replica) := by
  by_cases ho : id = other
  · subst ho
    refine ⟨more, [], ?_, List.nil_prefix, fun _ he => (List.not_mem_nil he).elim⟩
    rw [put_self]
    exact hmore
  · exact advanced_same h (put_log_of_ne ho)

private theorem advanced_put_still (h : Keeps g s conf) {other : PeerId} {replica : Replica}
    (hstill : InOrder (g.logs other) (g.written other) replica.log) (id : PeerId) :
    Advanced (g.logs id) (g.written id) id (s.put other replica) :=
  advanced_put h (by rwa [List.append_nil]) id

private theorem call_inOrder (h : Keeps g s conf) (id : PeerId) (position : Nat) :
    InOrder (g.logs id) (g.written id) ((s.nodes id).call position).log := by
  unfold Replica.call
  split
  · exact (h.log id).inOrder.enqueue rfl fun htruncates => htruncates
  · exact (h.log id).inOrder

private theorem advanced_diskWrite (h : Keeps g s conf) (other id : PeerId) :
    Advanced (g.logs id) (g.written id) id { s.put other (s.nodes other).diskWrite.1 with
      stored := s.stored ++ (s.nodes other).diskWrite.2.map fun entry =>
        ⟨other, entry.1, entry.2⟩ } := by
  by_cases ho : id = other
  · subst ho
    obtain ⟨batch, hinOrder, hbatch, hrecorded⟩ : ∃ batch,
        InOrder (g.logs id) (g.written id + batch.length) (s.nodes id).diskWrite.1.log ∧
          batch <+: (g.logs id).drop (g.written id) ∧
          ∀ entry ∈ batch, ∃ term, (term, entry) ∈ (s.nodes id).diskWrite.2 := by
      unfold Replica.diskWrite
      cases hwrite : (s.nodes id).log.diskWrite with
      | none => exact ⟨[], (h.log id).inOrder, List.nil_prefix, by simp⟩
      | some result =>
        obtain ⟨log, task, status⟩ := result
        obtain ⟨-, -, hbatch, hnew⟩ := (h.log id).inOrder.diskWrite hwrite
        refine ⟨batch task, ?_, hbatch, ?_⟩
        · cases task with
          | append closure => exact hnew
          | lastLogId waiter => cases waiter <;> exact hnew
          | truncateSuffix kept term => exact hnew
        · cases task with
          | append closure => exact fun entry hentry => ⟨_, List.mem_map.mpr ⟨entry, hentry, rfl⟩⟩
          | lastLogId waiter => exact fun entry hentry => (List.not_mem_nil hentry).elim
          | truncateSuffix kept term => exact fun entry hentry => (List.not_mem_nil hentry).elim
    refine ⟨[], batch, ?_, hbatch, fun entry hentry => ?_⟩
    · rw [List.append_nil]
      show InOrder _ _ (Function.update s.nodes id _ id).log
      rw [Function.update_self]
      exact hinOrder
    · obtain ⟨term, hterm⟩ := hrecorded entry hentry
      exact ⟨term, List.mem_append_right _ (List.mem_map.mpr ⟨_, hterm, rfl⟩)⟩
  · exact advanced_same h (put_log_of_ne ho)

private theorem advanced_appendEntries (h : Keeps g s conf) {request : AppendEntriesRequest}
    (hrequest : request ∈ s.requests)
    (hcontinues : s.accepts request = true → (s.nodes request.peerId).takes request = true →
      Continues (s.nodes request.peerId) request)
    (hstep : s.handleAppendEntries conf stepDownWhenVoteTimedout request = some s') (id : PeerId) :
    Advanced (g.logs id) (g.written id) id s' := by
  obtain ⟨after, helect, hstep⟩ := Option.bind_eq_some_iff.mp hstep
  have hlog := elect_log helect
  split at hstep
  · rename_i haccepts
    obtain ⟨replica, hreplica, hstep⟩ := Option.bind_eq_some_iff.mp hstep
    cases hstep
    by_cases ho : id = request.peerId
    · subst ho
      obtain ⟨cluster, -, rfl⟩ := Option.map_eq_some_iff.mp helect
      obtain ⟨more, hmore⟩ := handleEntries_log h (h.requests request hrequest)
        (hlog request.peerId) (fun htakes => by
          obtain ⟨hindex, hprev, hentries⟩ := hcontinues haccepts htakes
          exact ⟨hindex, hprev, hentries⟩) hreplica
      refine ⟨more, [], ?_, List.nil_prefix, fun _ he => (List.not_mem_nil he).elim⟩
      rw [put_self]
      exact hmore
    · exact advanced_same h ((put_log_of_ne ho).trans (hlog id))
  · cases hstep
    exact advanced_same h (hlog id)

theorem advanced_step (h : Keeps g s conf) {event : Event} (hguard : Orderly s event)
    (hstep : s.step conf stepDownWhenVoteTimedout event = some s') (id : PeerId) :
    Advanced (g.logs id) (g.written id) id s' ∨ event = .crash id ∧
      InOrder ((g.logs id).take (g.written id)) (g.written id) (s'.nodes id).log := by
  unfold Replicas.step at hstep
  cases event with
  | electionTimeout other =>
    obtain ⟨lastLogId, -, hstep⟩ := Option.bind_eq_some_iff.mp hstep
    exact .inl (advanced_same h (elect_log hstep id))
  | voteTimeout other =>
    obtain ⟨lastLogId, -, hstep⟩ := Option.bind_eq_some_iff.mp hstep
    exact .inl (advanced_same h (elect_log hstep id))
  | receive position => exact .inl (advanced_same h (elect_log hstep id))
  | call other position =>
    cases hstep
    exact .inl (advanced_put_still h (call_inOrder h other position) id)
  | resume other position =>
    dsimp only [Replicas.resume] at hstep
    refine .inl (advanced_same h ?_)
    split at hstep
    · split at hstep
      · cases hstep
        rfl
      · refine (elect_log hstep id).trans (put_log_of_eq ?_ id)
        rfl
    · cases hstep
      rfl
  | saveVote other => exact .inl (advanced_same h (elect_log hstep id))
  | increaseTermTo other newTerm => exact .inl (advanced_same h (elect_log hstep id))
  | stepdownTimeout other => exact .inl (advanced_same h (elect_log hstep id))
  | apply other tasks =>
    dsimp only at hstep
    split at hstep
    · cases hstep
      exact .inl (advanced_same h rfl)
    · obtain ⟨replica, hreplica, rfl⟩ := Option.map_eq_some_iff.mp hstep
      obtain ⟨more, hmore⟩ := apply_log h hreplica
      exact .inl (advanced_put h hmore id)
  | sendEntries other peer index committedIndex committedOoIndex =>
    obtain ⟨requests, -, rfl⟩ := Option.map_eq_some_iff.mp hstep
    exact .inl (advanced_same h rfl)
  | sendEmptyEntries other peer prevLogIndex committedIndex committedOoIndex =>
    obtain ⟨requests, -, rfl⟩ := Option.map_eq_some_iff.mp hstep
    exact .inl (advanced_same h rfl)
  | appendEntries position =>
    dsimp only at hstep
    split at hstep
    · rename_i request hrequest
      exact .inl (advanced_appendEntries h (List.mem_of_getElem? hrequest)
        (hguard request hrequest).2 hstep id)
    · cases hstep
      exact .inl (advanced_same h rfl)
  | diskWrite other =>
    cases hstep
    exact .inl (advanced_diskWrite h other id)
  | diskBatchEnd other =>
    cases hstep
    exact .inl (advanced_put_still h (h.log other).inOrder.diskBatchEnd.1 id)
  | commitAt other indexes peer =>
    obtain ⟨outcome, -, rfl⟩ := Option.map_eq_some_iff.mp hstep
    refine .inl (advanced_same h (put_log_of_eq ?_ id))
    rfl
  | applied other appliedId =>
    cases hstep
    exact .inl (advanced_put_still h ((h.log other).inOrder.setAppliedId appliedId).1 id)
  | crash other =>
    obtain ⟨after, helect, rfl⟩ := Option.map_eq_some_iff.mp hstep
    have hlog := elect_log helect
    by_cases ho : id = other
    · subst ho
      refine .inr ⟨rfl, ?_⟩
      rw [put_self, Replica.restart, hlog id]
      exact (h.log id).inOrder.restart.1
    · exact .inl (advanced_same h ((put_log_of_ne ho).trans (hlog id)))

private theorem read_kept (h : Keeps g s conf)
    (hadvanced : Advanced (g.logs id) (g.written id) id s')
    {index : Int} {entry : LogEntry}
    (hread : (s.nodes id).log.getEntry index = some (some entry)) :
    (s'.nodes id).log.getEntry index = some (some entry) := by
  obtain ⟨k, rfl, hk⟩ := (h.log id).inOrder.getEntry hread
  obtain ⟨more, batch, hinOrder, -, -⟩ := hadvanced
  rw [getEntry_eq hinOrder, Int.add_sub_cancel, item, if_pos (Int.natCast_nonneg k),
    Int.toNat_natCast, List.getElem?_append_left (List.getElem?_eq_some_iff.mp hk).1, hk]

/-- Every entry in the storage of a node is among those written. -/
def Recorded (s : Replicas) : Prop :=
  ∀ id index entry, (s.nodes id).log.storage.getEntry index = some entry →
    ∃ term, ⟨id, term, entry⟩ ∈ s.stored

theorem recorded_init (dependencyLookBack : Int) : Recorded (.init dependencyLookBack) := by
  intro id index entry hentry
  obtain ⟨hlow, hhigh⟩ := item_eq_some_bounds
    ((inOrder_fresh dependencyLookBack).storage index ▸ hentry)
  exact absurd hhigh (by simpa using hlow)

theorem recorded_step (h : Keeps g s conf) (hrecorded : Recorded s) {event : Event}
    (hguard : Orderly s event) (hstep : s.step conf stepDownWhenVoteTimedout event = some s') :
    Recorded s' := by
  have hgrows := grows_step hstep
  intro id index entry hentry
  have hold : item ((g.logs id).take (g.written id)) (index - 1) = some entry →
      ∃ term, ⟨id, term, entry⟩ ∈ s'.stored := by
    intro hitem
    rw [← (h.log id).inOrder.storage] at hitem
    obtain ⟨term, hstored⟩ := hrecorded id index entry hitem
    exact ⟨term, hgrows.stored hstored⟩
  rcases advanced_step h hguard hstep id with ⟨more, batch, hinOrder, hbatch, hwritten⟩ |
    ⟨-, hinOrder⟩
  · obtain ⟨rest, hrest⟩ := hbatch
    have hlength := congrArg List.length hrest
    rw [List.length_append, List.length_drop] at hlength
    have hbounded := (h.log id).inOrder.bounded
    have htake : (g.logs id ++ more).take (g.written id + batch.length) =
        (g.logs id).take (g.written id) ++ batch := by
      rw [List.take_append_of_le_length (by omega), List.take_add, ← hrest, List.take_left]
    rw [hinOrder.storage, htake] at hentry
    obtain ⟨hlow, -⟩ := item_eq_some_bounds hentry
    rw [item, if_pos hlow] at hentry
    rcases lt_or_ge (index - 1).toNat ((g.logs id).take (g.written id)).length with hlt | hge
    · rw [List.getElem?_append_left hlt] at hentry
      exact hold (by rw [item, if_pos hlow, hentry])
    · rw [List.getElem?_append_right hge] at hentry
      exact hwritten entry (List.mem_of_getElem? hentry)
  · rw [hinOrder.storage, List.take_take, min_self] at hentry
    exact hold hentry

end Logs

section Onward

/-- A step that leaves the committed indexes of the boxes and the requests as they are. -/
structure Onward (s s' : Replicas) : Prop where
  term : ∀ id, (s.cluster.nodes id).currentTerm ≤ (s'.cluster.nodes id).currentTerm
  last : ∀ id, (s'.nodes id).ballotBox.lastCommittedIndex =
    (s.nodes id).ballotBox.lastCommittedIndex
  requests : s'.requests = s.requests

private theorem onward_refl (s : Replicas) : Onward s s := ⟨fun _ => le_rfl, fun _ => rfl, rfl⟩

theorem Onward.trans {s'' : Replicas} (h : Onward s s') (h' : Onward s' s'') : Onward s s'' :=
  ⟨fun id => (h.term id).trans (h'.term id), fun id => (h'.last id).trans (h.last id),
    h'.requests.trans h.requests⟩

private theorem onward_put {replica : Replica} (hlast : replica.ballotBox.lastCommittedIndex =
    (s.nodes id).ballotBox.lastCommittedIndex) : Onward s (s.put id replica) := by
  refine ⟨fun _ => le_rfl, fun other => ?_, rfl⟩
  by_cases ho : other = id
  · rw [ho, put_self, hlast]
  · rw [put_box_of_ne ho]

private theorem follow_last {n n' : ElectionNode} {replica : Replica} :
    (replica.follow conf n n').ballotBox.lastCommittedIndex =
      replica.ballotBox.lastCommittedIndex := by
  unfold Replica.follow
  dsimp only
  split
  · rfl
  · split
    · rfl
    · rfl

theorem onward_elect (h : Keeps g s conf) {event : VoteProtocol.Event}
    (hstep : s.elect conf stepDownWhenVoteTimedout event = some s')
    (hfits : OneLeader.TermsFit s.cluster event) (hdisk : TermOnDisk s.cluster event) :
    Onward s s' := by
  obtain ⟨cluster, hcluster, rfl⟩ := Option.map_eq_some_iff.mp hstep
  refine ⟨fun other => ?_, fun _ => follow_last, rfl⟩
  dsimp only
  rcases oneTurn_step h.votes hfits hdisk hcluster with rfl | ⟨id, effect, rfl, hturn⟩
  · exact le_rfl
  · by_cases ho : other = id
    · subst ho
      rw [show (s.cluster.put other effect).nodes other = effect.node from Function.update_self ..]
      exact hturn.term
    · rw [show (s.cluster.put id effect).nodes other = s.cluster.nodes other from
        Function.update_of_ne ho ..]

/-- The events besides sends, acknowledgements and crashes. -/
def Plain : Event → Bool
  | .sendEntries _ _ _ _ _ | .sendEmptyEntries _ _ _ _ _ | .commitAt _ _ _ | .crash _ => false
  | _ => true

private theorem onward_appendEntries (h : Keeps g s conf) {request : AppendEntriesRequest}
    (hfits : OneLeader.TermsFit s.cluster
      (.appendEntries request.peerId request.term request.serverId))
    (hstep : s.handleAppendEntries conf stepDownWhenVoteTimedout request = some s') :
    Onward s s' := by
  obtain ⟨after, helect, hstep⟩ := Option.bind_eq_some_iff.mp hstep
  have hafter := onward_elect h helect hfits trivial
  split at hstep
  · obtain ⟨replica, hreplica, hstep⟩ := Option.bind_eq_some_iff.mp hstep
    cases hstep
    refine hafter.trans (onward_put ?_)
    unfold Replica.handleEntries at hreplica
    obtain ⟨localTerm, -, hreplica⟩ := Option.bind_eq_some_iff.mp hreplica
    split at hreplica
    · obtain ⟨result, -, heq⟩ := Option.bind_eq_some_iff.mp hreplica
      cases heq
      rfl
    · cases hreplica
      rfl
  · cases hstep
    exact hafter

private theorem foldl_appendPendingTask_last (tasks : List Task) (box : BallotBox) :
    (tasks.foldl (fun box _ => box.appendPendingTask conf none) box).lastCommittedIndex =
      box.lastCommittedIndex := by
  induction tasks generalizing box with
  | nil => rfl
  | cons task tasks ih => exact ih _

theorem onward_step (h : Keeps g s conf) {event : Event} (hguard : Orderly s event)
    (hplain : Plain event = true)
    (hstep : s.step conf stepDownWhenVoteTimedout event = some s') : Onward s s' := by
  unfold Replicas.step at hstep
  cases event with
  | electionTimeout other =>
    obtain ⟨lastLogId, -, hstep⟩ := Option.bind_eq_some_iff.mp hstep
    exact onward_elect h hstep trivial trivial
  | voteTimeout other =>
    obtain ⟨lastLogId, -, hstep⟩ := Option.bind_eq_some_iff.mp hstep
    exact onward_elect h hstep trivial trivial
  | receive position => exact onward_elect h hstep trivial trivial
  | call other position =>
    cases hstep
    refine onward_put ?_
    unfold Replica.call
    split
    · rfl
    · rfl
  | resume other position =>
    dsimp only [Replicas.resume] at hstep
    split at hstep
    · split at hstep
      · cases hstep
        exact onward_refl s
      · refine Onward.trans ?_ (onward_elect (h.takeAnswer position) hstep trivial trivial)
        exact onward_put rfl
    · cases hstep
      exact onward_refl s
  | saveVote other => exact onward_elect h hstep trivial trivial
  | increaseTermTo other newTerm => exact onward_elect h hstep hguard trivial
  | stepdownTimeout other => exact onward_elect h hstep trivial trivial
  | apply other tasks =>
    dsimp only at hstep
    split at hstep
    · cases hstep
      exact onward_refl s
    · obtain ⟨replica, hreplica, rfl⟩ := Option.map_eq_some_iff.mp hstep
      obtain ⟨result, -, rfl⟩ := Option.map_eq_some_iff.mp hreplica
      exact onward_put (foldl_appendPendingTask_last _ _)
  | sendEntries other peer index committedIndex committedOoIndex => cases hplain
  | sendEmptyEntries other peer prevLogIndex committedIndex committedOoIndex => cases hplain
  | appendEntries position =>
    dsimp only at hstep
    split at hstep
    · rename_i request hrequest
      exact onward_appendEntries h (hguard request hrequest).1 hstep
    · cases hstep
      exact onward_refl s
  | diskWrite other =>
    cases hstep
    have hbox : (s.nodes other).diskWrite.1.ballotBox = (s.nodes other).ballotBox := by
      rcases diskWrite_cases (s.nodes other) with
        hidle | ⟨log, task, status, answers, entries, -, hresult, -⟩
      · rw [hidle]
      · rw [hresult]
    have hput : Onward s (s.put other (s.nodes other).diskWrite.1) :=
      onward_put (congrArg BallotBox.lastCommittedIndex hbox)
    exact ⟨hput.term, hput.last, hput.requests⟩
  | diskBatchEnd other =>
    cases hstep
    exact onward_put rfl
  | commitAt other indexes peer => cases hplain
  | applied other appliedId =>
    cases hstep
    exact onward_put rfl
  | crash other => cases hplain

theorem term_step (h : Keeps g s conf) {event : Event} (hguard : Orderly s event)
    (hstep : s.step conf stepDownWhenVoteTimedout event = some s') (id : PeerId) :
    (s.cluster.nodes id).currentTerm ≤ (s'.cluster.nodes id).currentTerm := by
  by_cases hplain : Plain event = true
  · exact (onward_step h hguard hplain hstep).term id
  · cases event with
    | sendEntries other peer index committedIndex committedOoIndex =>
      obtain ⟨requests, -, rfl⟩ := Option.map_eq_some_iff.mp hstep
      exact le_rfl
    | sendEmptyEntries other peer prevLogIndex committedIndex committedOoIndex =>
      obtain ⟨requests, -, rfl⟩ := Option.map_eq_some_iff.mp hstep
      exact le_rfl
    | commitAt other indexes peer =>
      obtain ⟨outcome, -, rfl⟩ := Option.map_eq_some_iff.mp hstep
      exact le_rfl
    | crash other =>
      unfold Replicas.step at hstep
      obtain ⟨after, helect, rfl⟩ := Option.map_eq_some_iff.mp hstep
      exact (onward_elect h helect trivial hguard).term id
    | _ => exact absurd rfl hplain

end Onward

section Settled

variable {grant : Granted} {entry : LogEntry}

/-- A written entry of the log that ends with a committed one. -/
structure Settled (conf : Configuration) (s : Replicas) (grant : Granted) (entry : LogEntry) :
    Prop where
  committed : Committed conf s grant
  within : entry.id.index ≤ grant.entry.id.index
  written : ∃ holder term, ⟨holder, grant.term, grant.entry⟩ ∈ s.stored ∧
    ⟨holder, term, entry⟩ ∈ s.stored

theorem Settled.mono (h : Settled conf s grant entry) (hgrows : Grows s s') :
    Settled conf s' grant entry := by
  obtain ⟨holder, term, hlast, hentry⟩ := h.written
  exact ⟨hgrows.committed h.committed, h.within, holder, term, hgrows.stored hlast,
    hgrows.stored hentry⟩

theorem Settled.origin (h : Keeps g s conf) (hsettled : Settled conf s grant entry) :
    ∃ k : Nat, entry.id.index = k + 1 ∧ (g.origin grant.term)[k]? = some entry := by
  obtain ⟨holder, term, hlast, hentry⟩ := hsettled.written
  obtain ⟨m, -, hm, hlastIndex⟩ := h.stored_position hlast
  obtain ⟨k, -, hk, hindex⟩ := h.stored_position hentry
  have hwithin := hsettled.within
  dsimp only at hm hlastIndex hk hindex
  have horigin := origin_entry h hm (show k ≤ m by omega)
  rw [show termOf grant.entry = grant.term from h.granted grant hsettled.committed.1, hk] at horigin
  exact ⟨k, hindex, horigin⟩

theorem settled_unique (h : Keeps g s conf) {a b : Granted} {mine yours : LogEntry}
    (ha : Settled conf s a mine) (hb : Settled conf s b yours)
    (hindex : mine.id.index = yours.id.index) : mine = yours := by
  obtain ⟨k, hk, hmine⟩ := ha.origin h
  obtain ⟨m, hm, hyours⟩ := hb.origin h
  have hwithin := ha.within
  have hwithin' := hb.within
  obtain rfl : m = k := by omega
  have hsame : (g.origin b.term)[m]? = (g.origin a.term)[m]? := by
    rcases le_total a.term b.term with hle | hle
    · exact committed_below h ha.committed hb.committed hle (by omega)
    · exact (committed_below h hb.committed ha.committed hle (by omega)).symm
  rw [hmine, hyours] at hsame
  exact (Option.some.inj hsame).symm

private theorem exists_settled (h : Keeps g s conf) (hrecorded : Recorded s)
    (hcommitted : Committed conf s grant) {i : Int} (hlow : 1 ≤ i)
    (hhigh : i ≤ grant.entry.id.index) :
    ∃ entry, entry.id.index = i ∧ Settled conf s grant entry := by
  obtain ⟨holder, -, hholder, -⟩ := hcommitted.2.common_member hcommitted.2
  have hstored := (Finset.mem_filter.mp hholder).2
  obtain ⟨m, hm, hget, hindex⟩ := h.stored_position hstored
  dsimp only at hm hget hindex
  obtain ⟨k, rfl⟩ : ∃ k : Nat, i = k + 1 := ⟨(i - 1).toNat, by omega⟩
  have hlength := (List.getElem?_eq_some_iff.mp hget).1
  have hentry : (g.logs holder)[k]? = some (g.logs holder)[k] :=
    List.getElem?_eq_getElem (by omega)
  have hread : (s.nodes holder).log.storage.getEntry (k + 1) = some (g.logs holder)[k] := by
    rw [(h.log holder).inOrder.getEntry_storage, List.getElem?_take_of_lt (by omega)]
    exact hentry
  obtain ⟨term, hwritten⟩ := hrecorded holder _ _ hread
  have hid := (h.log holder).inOrder.numbered.index k _ hentry
  exact ⟨_, hid, hcommitted, by omega, holder, term, hstored, hwritten⟩

private theorem leader_below (h : Keeps g s conf)
    (hleading : (s.cluster.nodes id).state.leading = true) (hcommitted : Committed conf s grant)
    (hle : grant.term ≤ (s.cluster.nodes id).currentTerm) {j : Nat}
    (hj : (j : Int) + 1 ≤ grant.entry.id.index) :
    (g.logs id)[j]? = (g.origin grant.term)[j]? := by
  have helected := (h.lead id).elected hleading
  rw [← (h.lead id).own helected (.inl hleading)]
  rcases eq_or_lt_of_le hle with heq | hlt
  · rw [heq]
  · obtain ⟨k, hk, -, -⟩ := committed_origin h hcommitted
    have hbase := Keeps.base_holds h hcommitted.1 hcommitted.2 hk
      (d := ((s.cluster.nodes id).currentTerm - grant.term - 1).toNat) helected
      (by dsimp only; omega)
    have hlength := (List.getElem?_eq_some_iff.mp hbase).1
    have horigin := (getElem?_of_isPrefix (h.led _ helected).origin hlength).trans hbase
    refine committed_within h hcommitted hle (fun hnil => ?_) hj
    rw [hnil] at horigin
    cases horigin

/-- The node reads the settled entry of the index. -/
def Reads (conf : Configuration) (s : Replicas) (id : PeerId) (i : Int) : Prop :=
  ∃ grant entry, Settled conf s grant entry ∧ entry.id.index = i ∧
    grant.term ≤ (s.cluster.nodes id).currentTerm ∧
      (s.nodes id).log.getEntry i = some (some entry)

private theorem getEntry_of_get {log : List LogEntry} {written : Nat} {γ : Type} {m : LogManager γ}
    (h : InOrder log written m) {k : Nat} (hk : log[k]? = some entry) :
    m.getEntry (k + 1) = some (some entry) := by
  rw [getEntry_eq h, Int.add_sub_cancel, item, if_pos (Int.natCast_nonneg k), Int.toNat_natCast, hk]

theorem reads_of_leading (h : Keeps g s conf) (hrecorded : Recorded s)
    (hleading : (s.cluster.nodes id).state.leading = true) (hcommitted : Committed conf s grant)
    (hle : grant.term ≤ (s.cluster.nodes id).currentTerm) {i : Int} (hlow : 1 ≤ i)
    (hhigh : i ≤ grant.entry.id.index) : Reads conf s id i := by
  obtain ⟨entry, rfl, hsettled⟩ := exists_settled h hrecorded hcommitted hlow hhigh
  obtain ⟨k, hk, horigin⟩ := hsettled.origin h
  have hget := leader_below h hleading hcommitted hle (j := k) (by omega)
  rw [horigin] at hget
  refine ⟨grant, entry, hsettled, rfl, hle, ?_⟩
  rw [hk]
  exact getEntry_of_get (h.log id).inOrder hget

/-- A log whose entry at the index is of the term holds what is committed by the grant, as
far as the index: it has the granted entry, or the grant has its entry. -/
def Anchored (conf : Configuration) (s : Replicas) (grant : Granted) (last : LogId) : Prop :=
  (grant.entry.id.index ≤ last.index ∧ grant.term ≤ last.term) ∨
    ∃ entry, Settled conf s grant entry ∧ entry.id = last

theorem Anchored.mono {last : LogId} (h : Anchored conf s grant last) (hgrows : Grows s s') :
    Anchored conf s' grant last :=
  h.imp_right fun ⟨entry, hsettled, hid⟩ => ⟨entry, hsettled.mono hgrows, hid⟩

theorem anchored_of_leading (h : Keeps g s conf) (hrecorded : Recorded s)
    (hleading : (s.cluster.nodes id).state.leading = true) (hcommitted : Committed conf s grant)
    (hle : grant.term ≤ (s.cluster.nodes id).currentTerm) {m : Nat}
    (hm : (g.logs id)[m]? = some entry) : Anchored conf s grant entry.id := by
  have hnumbered := (h.log id).inOrder.numbered
  have hindex := hnumbered.index m entry hm
  rcases le_or_gt grant.entry.id.index entry.id.index with hbehind | hahead
  · obtain ⟨k, hk, hown, -⟩ := committed_origin h hcommitted
    have hget := leader_below h hleading hcommitted hle (j := k) (by omega)
    rw [hown] at hget
    refine .inl ⟨hbehind, ?_⟩
    have hterm : grant.entry.id.term = grant.term := h.granted grant hcommitted.1
    rcases Nat.lt_or_ge k m with hlt | hge
    · have hbefore := hnumbered.before hget hm hlt
      rw [LogId.before_iff] at hbefore
      omega
    · obtain rfl : k = m := by omega
      rw [Option.some.inj (hm.symm.trans hget), hterm]
  · obtain ⟨other, hother, hsettled⟩ :=
      exists_settled h hrecorded hcommitted (i := entry.id.index) (by omega) hahead.le
    obtain ⟨k, hk, horigin⟩ := hsettled.origin h
    obtain rfl : k = m := by omega
    have hget := leader_below h hleading hcommitted hle (j := k) (by omega)
    rw [hm, horigin] at hget
    rw [← Option.some.inj hget] at hsettled
    exact .inr ⟨entry, hsettled, rfl⟩

theorem anchored_reads (h : Keeps g s conf) {last : LogEntry} {m : Nat}
    (hm : (g.logs id)[m]? = some last) (hanchored : Anchored conf s grant last.id)
    (hsettled : Settled conf s grant entry) (hhigh : entry.id.index ≤ last.id.index) :
    (s.nodes id).log.getEntry entry.id.index = some (some entry) := by
  have hindex := (h.log id).inOrder.numbered.index m last hm
  obtain ⟨k, hk, horigin⟩ := hsettled.origin h
  have hwithin := hsettled.within
  have hterm : grant.entry.id.term = grant.term := h.granted grant hsettled.committed.1
  have hget : (g.logs id)[k]? = some entry := by
    rcases hanchored with ⟨hbehind, hle⟩ | ⟨other, hother, hid⟩
    · obtain ⟨n, hn, hheld⟩ := committed_held h hsettled.committed hm
        (by rw [LogId.before_iff]; omega)
      rw [← origin_entry h hheld (show k ≤ n by omega),
        show termOf grant.entry = grant.term from hterm]
      exact horigin
    · obtain ⟨n, hn, hget⟩ := hother.origin h
      have hsame := congrArg LogId.index hid
      obtain rfl : n = m := by omega
      -- Both are the log of the term in which they agree.
      have hprefix := (h.origin grant.term).chained n other hget
      have hlength := (List.getElem?_eq_some_iff.mp hget).1
      rw [show termOf other = termOf last from congrArg LogId.term hid] at hprefix
      rw [← origin_entry h hm (show k ≤ n by omega),
        getElem?_of_isPrefix hprefix (by rw [List.length_take_of_le (by omega)]; omega),
        List.getElem?_take_of_lt (by omega)]
      exact horigin
  rw [hk]
  exact getEntry_of_get (h.log id).inOrder hget

theorem Reads.later (h : Keeps g s conf) {i : Int} (hreads : Reads conf s id i)
    (hgrows : Grows s s')
    (hterm : (s.cluster.nodes id).currentTerm ≤ (s'.cluster.nodes id).currentTerm)
    (hadvanced : Advanced (g.logs id) (g.written id) id s') : Reads conf s' id i := by
  obtain ⟨grant, entry, hsettled, hindex, hle, hread⟩ := hreads
  exact ⟨grant, entry, hsettled.mono hgrows, hindex, hle.trans hterm, read_kept h hadvanced hread⟩

theorem getElem_of_term {log : List LogEntry} {written : Nat} {γ : Type} {m : LogManager γ}
    (h : InOrder log written m) {index term : Int} (hterm : m.unsafeGetTerm index = some term)
    (hne : term ≠ 0) : ∃ (k : Nat) (entry : LogEntry), log[k]? = some entry ∧
      entry.id = ⟨index, term⟩ := by
  have hrange : 1 ≤ index ∧ index ≤ log.length := by
    by_contra hout
    unfold LogManager.unsafeGetTerm at hterm
    rw [h.largest, h.first] at hterm
    split at hterm
    · exact hne (Option.some.inj hterm).symm
    · rw [if_pos (by omega)] at hterm
      exact hne (Option.some.inj hterm).symm
  obtain ⟨k, rfl⟩ : ∃ k : Nat, index = (k + 1 : Nat) := ⟨(index - 1).toNat, by omega⟩
  have he : log[k]? = some log[k] := List.getElem?_eq_getElem (by omega)
  rw [h.unsafeGetTerm (by omega), lastIdOf_take_succ he] at hterm
  have hindex := h.numbered.index k _ he
  refine ⟨k, log[k], he, ?_⟩
  calc log[k].id = ⟨log[k].id.index, log[k].id.term⟩ := rfl
    _ = ⟨(k + 1 : Nat), term⟩ := by rw [hindex, Option.some.inj hterm, Nat.cast_succ]

end Settled

end HitConsistency.Election.SettledEntries
