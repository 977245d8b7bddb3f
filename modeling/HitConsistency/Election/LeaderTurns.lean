/- GID: HitConsistency/Election/LeaderTurns
   digest: Votes and elections of a group with logs: what a new leader was elected with. -/

import HitConsistency.Election.ReplicaSteps

set_option autoImplicit false
set_option relaxedAutoImplicit false

namespace HitConsistency.Election.LeaderTurns

open HitConsistency.Base.MajorityQuorum
open HitConsistency.Base.TermChains
open HitConsistency.Commit.PendingQueues
open HitConsistency.Election.HandlerTurns
open HitConsistency.Election.InOrderReplication
open HitConsistency.Election.OneLeader
open HitConsistency.Election.ReplicaSteps
open HitConsistency.Election.ReplicatedLogs
open HitConsistency.Election.VoteProtocol (Cluster Effect ElectionNode Message RequestVoteRequest
  Waiting)
open HitConsistency.Group.Peers
open HitConsistency.Log.Entry
open HitConsistency.Log.InOrderLog
open HitConsistency.Log.MemoryLog
open HitConsistency.Node.RoleState

def turned (conf : Configuration) (s : Replicas) (cluster : Cluster) : Replicas :=
  { s with
    cluster := cluster
    nodes := fun id => (s.nodes id).follow conf (s.cluster.nodes id) (cluster.nodes id)
    leaderships := s.leaderships ++
      (cluster.elected.drop s.cluster.elected.length).map fun winner =>
        ⟨winner.1, winner.2, (s.nodes winner.1).log.storage⟩ }

section Follow

variable {conf : Configuration} {n n' : ElectionNode} {replica : Replica}

private theorem follow_of_same (hleading : n'.state.leading = n.state.leading)
    (hwaiting : n'.waiting.drop n.waiting.length = []) : replica.follow conf n n' = replica := by
  unfold Replica.follow
  rw [hleading, hwaiting]
  cases n.state.leading with
  | true => simp
  | false => simp

private theorem follow_self (n : ElectionNode) : replica.follow conf n n = replica :=
  follow_of_same rfl (List.drop_length ..)

theorem follow_box_begins (hbefore : n.state.leading = false) (hafter : n'.state.leading = true) :
    (replica.follow conf n n').ballotBox =
      replica.ballotBox.resetPendingIndex (replica.log.lastLogIndex + 1) := by
  unfold Replica.follow
  rw [hbefore, hafter]
  rfl

private theorem follow_box_ends (hbefore : n.state.leading = true)
    (hafter : n'.state.leading = false) :
    (replica.follow conf n n').ballotBox = replica.ballotBox.clearPendingTasks := by
  unfold Replica.follow
  rw [hbefore, hafter]
  rfl

theorem follow_box_same (h : n'.state.leading = n.state.leading) :
    (replica.follow conf n n').ballotBox = replica.ballotBox := by
  unfold Replica.follow
  rw [h]
  cases n.state.leading with
  | true => rfl
  | false => rfl

private theorem mem_foldl_addReplicator {term : Int} {peers : List PeerId}
    {rmap : List (PeerId × Int)}
    {item : PeerId × Int} (h : item ∈ peers.foldl (Replica.addReplicator term) rmap) :
    item ∈ rmap ∨ item.1 ∈ peers ∧ item.2 = term := by
  induction peers generalizing rmap with
  | nil => exact .inl h
  | cons peer peers ih =>
    rcases ih h with hin | ⟨hmem, hterm⟩
    · unfold Replica.addReplicator at hin
      split at hin
      · exact .inl hin
      · rcases List.mem_append.mp hin with hold | hnew
        · exact .inl hold
        · cases List.mem_singleton.mp hnew
          exact .inr ⟨by simp, rfl⟩
    · exact .inr ⟨by simp [hmem], hterm⟩

/-- A replicator that is there behind a handler was there before it, or the node has
become the leader. -/
private theorem mem_follow_rmap {item : PeerId × Int} (h : item ∈ (replica.follow conf n n').rmap) :
    item ∈ replica.rmap ∨
      item.1 ≠ n'.serverId ∧ item.2 = n'.currentTerm ∧ n'.state.leading = true := by
  unfold Replica.follow at h
  dsimp only at h
  split at h
  · rename_i hbegins
    rw [Bool.and_eq_true] at hbegins
    rcases mem_foldl_addReplicator h with hold | ⟨hmem, hterm⟩
    · exact .inl hold
    · have hpeer := (List.mem_filter.mp hmem).2
      exact .inr ⟨by simpa using hpeer, hterm, hbegins.1⟩
  · exact .inl h

end Follow

section Turns

variable {conf : Configuration} {g g' : Chronicle} {s : Replicas} {id : PeerId} {effect : Effect}
  {votes : Ledger}

/-- What the log has answered to a handler that goes on. -/
def Answered (g : Chronicle) (s : Replicas) (id : PeerId) (thread : Waiting) (lastLogId : LogId) :
    Prop :=
  Asks g s id thread ∧
    ∃ n, Covered g s id (threadTerm thread) n ∧ lastLogId = lastIdOf ((g.logs id).take n)

/-- A turn of the node, with the vote ledger behind it. -/
structure TakesTurn (conf : Configuration) (g : Chronicle) (s : Replicas) (id : PeerId)
    (effect : Effect) (votes : Ledger) : Prop where
  turn : Turn (fun request => .requestVote request ∈ s.cluster.network) (Answered g s id)
    (s.cluster.nodes id) effect
  inv : Inv conf votes (s.cluster.put id effect)
  votes : Extends g.votes votes (s.cluster.put id effect)

def behind (conf : Configuration) (s : Replicas) (id : PeerId) (effect : Effect) : Replicas :=
  turned conf s (s.cluster.put id effect)

@[simp] theorem behind_role : (behind conf s id effect).cluster.nodes id = effect.node :=
  Function.update_self ..

theorem behind_role_of_ne {other : PeerId} (ho : other ≠ id) :
    (behind conf s id effect).cluster.nodes other = s.cluster.nodes other :=
  Function.update_of_ne ho ..

theorem behind_replica : (behind conf s id effect).nodes id =
    (s.nodes id).follow conf (s.cluster.nodes id) effect.node := by
  show (s.nodes id).follow conf (s.cluster.nodes id) ((s.cluster.put id effect).nodes id) = _
  rw [show (s.cluster.put id effect).nodes id = effect.node from Function.update_self ..]

theorem behind_replica_of_ne {other : PeerId} (ho : other ≠ id) :
    (behind conf s id effect).nodes other = s.nodes other := by
  show (s.nodes other).follow conf _ ((s.cluster.put id effect).nodes other) = _
  rw [show (s.cluster.put id effect).nodes other = s.cluster.nodes other from
    Function.update_of_ne ho .., follow_self]

private theorem mem_behind_elected {winner : PeerId × Int} :
    winner ∈ (behind conf s id effect).cluster.elected ↔ winner ∈ s.cluster.elected ∨
      effect.leads = true ∧ winner = (id, effect.node.currentTerm) := by
  show winner ∈ s.cluster.elected ++ (if effect.leads then _ else _) ↔ _
  rw [List.mem_append]
  cases effect.leads with
  | true => simp
  | false => simp

/-- The chronicle keeps all logs, and what the earlier leaders were elected with. -/
structure KeepsLogs (g : Chronicle) (s : Replicas) (g' : Chronicle) : Prop where
  logs : g'.logs = g.logs
  written : g'.written = g.written
  grows : ∀ term, g.origin term <+: g'.origin term
  origin : ∀ winner ∈ s.cluster.elected, g'.origin winner.2 = g.origin winner.2
  base : ∀ winner ∈ s.cluster.elected, g'.base winner.2 = g.base winner.2

theorem KeepsLogs.later (hk : KeepsLogs g s g') (ht : TakesTurn conf g s id effect votes) :
    Later g s g' (behind conf s id effect) where
  written := fun _ => by rw [hk.written]
  logs := fun _ => by rw [hk.logs]
  current := fun other => by
    by_cases ho : other = id
    · rw [ho, behind_role]
      exact ht.turn.term
    · rw [behind_role_of_ne ho]
  queue := fun _ _ hc => .inl hc
  stored := fun _ hi => .inl hi
  elected := fun _ hw => mem_behind_elected.mpr (.inl hw)
  origin := hk.grows
  base := hk.base

theorem KeepsLogs.untouched (hk : KeepsLogs g s g') {other : PeerId} (ho : other ≠ id) :
    Untouched g s g' (behind conf s id effect) other where
  role := behind_role_of_ne ho
  replica := behind_replica_of_ne ho
  logs := by rw [hk.logs]
  written := by rw [hk.written]
  elected := fun term hterm => by
    rcases mem_behind_elected.mp hterm with hold | ⟨-, heq⟩
    · exact hold
    · cases heq
      exact absurd rfl ho
  origin := fun _ helected => hk.origin _ helected

theorem Answered.named {thread : Waiting} {lastLogId : LogId} (h : Answered g s id thread lastLogId) :
    Names g id lastLogId := by
  obtain ⟨-, n, hcovered, hid⟩ := h
  exact ⟨n, hcovered.length, hid⟩

theorem LogPart.behind (h : LogPart g s id) (hk : KeepsLogs g s g')
    (ht : TakesTurn conf g s id effect votes) : LogPart g' (behind conf s id effect) id := by
  have hterm := (hk.later ht).current id
  refine ⟨?_, ?_, ?_, ?_⟩
  · rw [hk.logs, hk.written]
    exact h.inOrder
  · rw [hk.logs]
    exact h.chained.mono hk.grows
  · rw [hk.logs]
    exact fun entry he => (h.bounded entry he).trans hterm
  · exact lt_of_lt_of_le h.positive hterm

theorem TakesTurn.leading (ht : TakesTurn conf g s id effect votes) (h : LeadPart g s id)
    (hleading : effect.node.state.leading = true) :
    (id, effect.node.currentTerm) ∈ (behind conf s id effect).cluster.elected := by
  rw [mem_behind_elected]
  rcases ht.turn.leading hleading with hleads | ⟨hold, hterm⟩
  · exact .inr ⟨hleads, rfl⟩
  · rw [hterm]
    exact .inl (h.elected hold)

theorem Ballots.behind (h : LeadPart g s id) (hlog : LogPart g s id) (hk : KeepsLogs g s g')
    (ht : TakesTurn conf g s id effect votes) (hleading : effect.node.state.leading = true) :
    Ballots g' (behind conf s id effect) id := by
  have hbox : ((LeaderTurns.behind conf s id effect).nodes id).ballotBox =
      ((s.nodes id).follow conf (s.cluster.nodes id) effect.node).ballotBox := by
    rw [behind_replica]
  cases hbefore : (s.cluster.nodes id).state.leading with
  | true =>
    obtain ⟨hpending, hcount, hown⟩ := h.ballots hbefore
    have hterm : effect.node.currentTerm = (s.cluster.nodes id).currentTerm := by
      rcases ht.turn.leading hleading with hleads | ⟨-, hsame⟩
      · exact (ht.turn.leads hleads).2.1
      · exact hsame
    rw [follow_box_same (hleading.trans hbefore.symm)] at hbox
    refine ⟨?_, ?_, ?_⟩
    · rw [hbox]
      exact hpending
    · rw [hbox, hk.logs]
      exact hcount
    · rw [hbox, hk.logs, behind_role, hterm]
      exact hown
  | false =>
    obtain ⟨-, hempty⟩ := h.idle hbefore
    rw [follow_box_begins hbefore hleading, hlog.inOrder.last] at hbox
    refine ⟨?_, ?_, ?_⟩
    · rw [hbox]
      show (1 : Int) ≤ (g.logs id).length + 1
      omega
    · rw [hbox, hk.logs]
      show ((g.logs id).length : Int) + 1 + ((s.nodes id).ballotBox.pendingMetaQueue.length : Nat) = _
      rw [hempty]
      exact Int.add_zero _
    · rw [hbox, hk.logs]
      intro k entry hget hlow
      have hlength := (List.getElem?_eq_some_iff.mp hget).1
      change ((g.logs id).length : Int) + 1 ≤ k + 1 at hlow
      omega

theorem LeadPart.behind (h : LeadPart g s id) (hlog : LogPart g s id) (hk : KeepsLogs g s g')
    (ht : TakesTurn conf g s id effect votes)
    (hown : (id, effect.node.currentTerm) ∈ (behind conf s id effect).cluster.elected →
      effect.node.state.leading = true ∨ Campaigning effect.node →
        g'.origin effect.node.currentTerm = g.logs id) :
    LeadPart g' (behind conf s id effect) id := by
  have hserver : effect.node.serverId = id := by
    have hnode := (ht.inv.nodes id).serverId
    rw [show (s.cluster.put id effect).nodes id = effect.node from Function.update_self ..] at hnode
    exact hnode
  refine ⟨?_, ?_, ?_, ?_, ?_⟩
  · rw [behind_role]
    exact ht.leading h
  · rw [behind_role, hk.logs]
    exact hown
  · rw [behind_role]
    exact Ballots.behind h hlog hk ht
  · rw [behind_role, behind_replica]
    intro hfollows
    cases hbefore : (s.cluster.nodes id).state.leading with
    | true =>
      rw [follow_box_ends hbefore hfollows]
      exact ⟨rfl, rfl⟩
    | false =>
      rw [follow_box_same (hfollows.trans hbefore.symm)]
      exact h.idle hbefore
  · rw [behind_replica]
    intro item hitem
    rcases mem_follow_rmap hitem with hold | ⟨hpeer, hterm, hleading⟩
    · exact ⟨(h.replicators item hold).1, (hk.later ht).elected _ (h.replicators item hold).2⟩
    · rw [hterm]
      rw [hserver] at hpeer
      exact ⟨hpeer, ht.leading h hleading⟩

theorem PipePart.behind (h : PipePart g s id) (hk : KeepsLogs g s g')
    (ht : TakesTurn conf g s id effect votes)
    (hsent : ∀ request, .requestVote request ∈ s.cluster.network →
      Names g request.serverId ⟨request.lastLogIndex, request.lastLogTerm⟩) :
    PipePart g' (behind conf s id effect) id := by
  have hl := hk.later ht
  refine ⟨?_, ?_, h.order, ?_, ?_⟩
  · rw [behind_replica]
    intro thread hthread
    rcases List.mem_append.mp hthread with hold | hnew
    · exact (h.calling thread hold).later hl
    · obtain ⟨hterm, hasked⟩ := ht.turn.threads thread hnew
      refine ⟨?_, fun request hr => (hsent request (hasked request hr)).later hl⟩
      rw [behind_role]
      exact hterm
  · exact fun thread hthread => (h.queued thread hthread).later hl
  · exact fun answer hanswer => h.answer_later hl hanswer
  · rw [behind_role]
    intro hsaving
    obtain ⟨_, -, n, hcovered, -⟩ := ht.turn.saving hsaving
    exact ⟨n, hcovered.later hl⟩

private theorem vote_of_disk {voter : PeerId} {n n' : ElectionNode} {before : Ledger}
    (h : NodeInv conf before voter n) (h' : NodeInv conf votes voter n')
    (hsame : n'.metaStorage = n.metaStorage) {term : Int} {candidate : PeerId}
    (hdisk : n'.metaStorage = ⟨term, candidate⟩) (hvote : votes voter term = some candidate) :
    before voter term = some candidate := by
  have hsaved := h.saved
  have hsaved' := h'.saved
  rw [← hsame, hdisk] at hsaved
  rw [hdisk] at hsaved'
  dsimp only at hsaved hsaved'
  rw [hsaved, ← hsaved']
  exact hvote

private theorem Keeps.voted_behind (h : Keeps g s conf) (hk : KeepsLogs g s g')
    (ht : TakesTurn conf g s id effect votes) {voter candidate : PeerId} {term : Int}
    (hvote : votes voter term = some candidate) :
    ∃ lastLogId, Names g' candidate lastLogId ∧
      Voted g' (behind conf s id effect) voter term lastLogId := by
  have hl := hk.later ht
  have hold : g.votes voter term = some candidate → ∃ lastLogId, Names g' candidate lastLogId ∧
      Voted g' (behind conf s id effect) voter term lastLogId := by
    intro hbefore
    obtain ⟨lastLogId, hnames, hvoted⟩ := h.voted voter term candidate hbefore
    exact ⟨lastLogId, hnames.later hl, hvoted.later hl⟩
  rcases ht.votes.fresh voter term candidate hvote with hbefore | hdisk
  · exact hold hbefore
  · have hinv := ht.inv.nodes voter
    by_cases ho : voter = id
    · subst ho
      have hnode : (s.cluster.put voter effect).nodes voter = effect.node := Function.update_self ..
      rw [hnode] at hdisk hinv
      rcases ht.turn.vote with hsame | hempty | ⟨request, lastLogId, hanswered, hok, hcast⟩ |
        ⟨hsaving, hself⟩
      · exact hold (vote_of_disk (h.votes.nodes voter) hinv hsame hdisk hvote)
      · have hsaved := hinv.saved
        rw [if_pos hempty, hdisk] at hsaved
        dsimp only at hsaved
        rw [hvote] at hsaved
        cases hsaved
      · obtain ⟨hasks, n, hcovered, rfl⟩ := hanswered
        rw [hcast] at hdisk
        cases hdisk
        have hvoted : Voted g s voter request.term ⟨request.lastLogIndex, request.lastLogTerm⟩ :=
          ⟨n, hcovered, hok⟩
        exact ⟨_, (hasks.2 request rfl).later hl, hvoted.later hl⟩
      · obtain ⟨n, hcovered⟩ := (h.pipe voter).saving hsaving
        have hserver := (h.votes.nodes voter).serverId
        rw [hself, hserver] at hdisk
        cases hdisk
        have hnames : Names g voter (lastIdOf ((g.logs voter).take n)) :=
          ⟨n, hcovered.length, rfl⟩
        have hvoted : Voted g s voter (s.cluster.nodes voter).currentTerm
            (lastIdOf ((g.logs voter).take n)) := by
          refine ⟨n, hcovered, ?_⟩
          rw [LogId.before_iff]
          omega
        exact ⟨_, hnames.later hl, hvoted.later hl⟩
    · have hnode : (s.cluster.put id effect).nodes voter = s.cluster.nodes voter :=
        Function.update_of_ne ho ..
      rw [hnode] at hdisk hinv
      exact hold (vote_of_disk (h.votes.nodes voter) hinv rfl hdisk hvote)

private theorem Keeps.sent_behind (h : Keeps g s conf) (hk : KeepsLogs g s g')
    (ht : TakesTurn conf g s id effect votes) {request : RequestVoteRequest}
    (hrequest : .requestVote request ∈ (behind conf s id effect).cluster.network) :
    Names g' request.serverId ⟨request.lastLogIndex, request.lastLogTerm⟩ := by
  have hl := hk.later ht
  rcases List.mem_append.mp hrequest with hold | hnew
  · exact (h.sent request hold).later hl
  · obtain ⟨hserver, hanswered⟩ := ht.turn.sent request hnew
    rw [hserver, (h.votes.nodes id).serverId]
    exact (Answered.named hanswered).later hl

theorem Keeps.behind (h : Keeps g s conf) (hk : KeepsLogs g s g') (hvotes : g'.votes = votes)
    (ht : TakesTurn conf g s id effect votes)
    (hown : (id, effect.node.currentTerm) ∈ (behind conf s id effect).cluster.elected →
      effect.node.state.leading = true ∨ Campaigning effect.node →
        g'.origin effect.node.currentTerm = g.logs id)
    (horigin : ∀ term, OriginPart g' (behind conf s id effect) term)
    (hled : effect.leads = true →
      Led g' (behind conf s id effect) conf id effect.node.currentTerm) :
    Keeps g' (LeaderTurns.behind conf s id effect) conf := by
  have hl := hk.later ht
  have hfirst : ∀ winner ∈ (LeaderTurns.behind conf s id effect).cluster.elected,
      Led g' (LeaderTurns.behind conf s id effect) conf winner.1 winner.2 := by
    intro winner hwinner
    rcases mem_behind_elected.mp hwinner with hold | ⟨hleads, rfl⟩
    · exact (h.led winner hold).later hold hl
    · exact hled hleads
  refine
    { votes := ?_
      log := fun other => ?_
      lead := fun other => ?_
      pipe := fun other => ?_
      origin := horigin
      led := hfirst
      sent := fun request hr => Keeps.sent_behind h hk ht hr
      voted := fun voter term candidate hv => ?_
      requests := fun request hr => (h.requests request hr).later hl
      stored := fun item hi => (hl.durable item.node).subset (h.stored item hi)
      granted := h.granted
      held := fun leadership hm => ?_ }
  · rw [hvotes]
    exact ht.inv
  · by_cases ho : other = id
    · rw [ho]
      exact LogPart.behind (h.log id) hk ht
    · exact (h.log other).untouched hl (hk.untouched ho)
  · by_cases ho : other = id
    · rw [ho]
      exact LeadPart.behind (h.lead id) (h.log id) hk ht hown
    · exact (h.lead other).untouched hl (hk.untouched ho)
  · by_cases ho : other = id
    · rw [ho]
      exact PipePart.behind (h.pipe id) hk ht h.sent
    · exact (h.pipe other).untouched hl (hk.untouched ho)
  · rw [hvotes] at hv
    exact Keeps.voted_behind h hk ht hv
  · rcases List.mem_append.mp hm with hold | hnew
    · obtain ⟨helected, hheld⟩ := h.held leadership hold
      have hbase := hl.base _ helected
      dsimp only at hbase
      rw [hbase]
      exact ⟨hl.elected _ helected, hheld⟩
    · obtain ⟨winner, hwinner, rfl⟩ := List.mem_map.mp hnew
      have helected : winner ∈ (LeaderTurns.behind conf s id effect).cluster.elected :=
        List.mem_of_mem_drop hwinner
      refine ⟨helected, fun k entry hget => ?_⟩
      have hdurable := (hfirst winner helected).durable
      dsimp only at hget ⊢
      rw [(h.log winner.1).inOrder.getEntry_storage]
      have hlength := (List.getElem?_eq_some_iff.mp hget).1
      have hsame := getElem?_of_isPrefix hdurable hlength
      rw [Chronicle.durable, hk.logs, hk.written, hget] at hsame
      exact hsame

private theorem Keeps.turn_same (h : Keeps g s conf) (ht : TakesTurn conf g s id effect votes)
    (hnone : effect.leads = true → (id, effect.node.currentTerm) ∈ s.cluster.elected) :
    Keeps { g with votes := votes } (LeaderTurns.behind conf s id effect) conf := by
  have hk : KeepsLogs g s { g with votes := votes } :=
    ⟨rfl, rfl, fun _ => List.prefix_rfl, fun _ _ => rfl, fun _ _ => rfl⟩
  have hold : ∀ winner, winner ∈ (LeaderTurns.behind conf s id effect).cluster.elected →
      winner ∈ s.cluster.elected := by
    intro winner hwinner
    rcases mem_behind_elected.mp hwinner with hold | ⟨hleads, rfl⟩
    · exact hold
    · exact hnone hleads
  refine Keeps.behind h hk rfl ht (fun helected hactive => ?_) (fun term => ?_) fun hleads => ?_
  · have hbefore := hold _ helected
    have hterm : effect.node.currentTerm = (s.cluster.nodes id).currentTerm :=
      le_antisymm (h.led _ hbefore).current ht.turn.term
    rw [hterm] at hbefore ⊢
    refine (h.lead id).own hbefore ?_
    rcases hactive with hleading | hcampaigning
    · rcases ht.turn.leading hleading with hleads | ⟨hleading, -⟩
      · exact .inr (ht.turn.leads hleads).1
      · exact .inl hleading
    · exact .inr (ht.turn.campaigning hcampaigning hterm)
  · obtain ⟨hnumbered, hchained, hbounded, hunled⟩ := h.origin term
    refine ⟨hnumbered, hchained, hbounded, fun hnobody => hunled fun leader hleader => ?_⟩
    exact hnobody leader (mem_behind_elected.mpr (.inl hleader))
  · have hbefore := hnone hleads
    exact (h.led _ hbefore).later hbefore (hk.later ht)

/-- The chronicle in which the log of the node is that of the leader of the term. -/
def Chronicle.crown (g : Chronicle) (votes : Ledger) (id : PeerId) (term : Int) : Chronicle :=
  { g with
    votes := votes
    origin := Function.update g.origin term (g.logs id)
    base := Function.update g.base term (g.durable id) }

private theorem Chronicle.crown_origin {term : Int} :
    (Chronicle.crown g votes id term).origin term = g.logs id :=
  Function.update_self ..

private theorem Chronicle.crown_base {term : Int} :
    (Chronicle.crown g votes id term).base term = g.durable id :=
  Function.update_self ..

private theorem Chronicle.keepsLogs_crown {term : Int}
    (hnobody : ∀ leader, (leader, term) ∉ s.cluster.elected)
    (hempty : g.origin term = []) : KeepsLogs g s (Chronicle.crown g votes id term) := by
  have hne : ∀ winner ∈ s.cluster.elected, winner.2 ≠ term := by
    intro winner hwinner heq
    apply hnobody winner.1
    rw [← heq]
    exact hwinner
  refine ⟨rfl, rfl, fun other => ?_, fun winner hw => ?_, fun winner hw => ?_⟩
  · by_cases ho : other = term
    · rw [ho, hempty]
      exact List.nil_prefix
    · rw [show (Chronicle.crown g votes id term).origin other = g.origin other from
        Function.update_of_ne ho ..]
  · exact Function.update_of_ne (hne winner hw) ..
  · exact Function.update_of_ne (hne winner hw) ..

private theorem Keeps.turn_crowned (h : Keeps g s conf) (ht : TakesTurn conf g s id effect votes)
    (hleads : effect.leads = true) (hfirst : (id, effect.node.currentTerm) ∉ s.cluster.elected) :
    Keeps (Chronicle.crown g votes id effect.node.currentTerm)
      (LeaderTurns.behind conf s id effect) conf := by
  have helected : (id, effect.node.currentTerm) ∈
      (LeaderTurns.behind conf s id effect).cluster.elected :=
    mem_behind_elected.mpr (.inr ⟨hleads, rfl⟩)
  have hnobody : ∀ leader, (leader, effect.node.currentTerm) ∉ s.cluster.elected := by
    intro leader hleader
    have hin : (leader, effect.node.currentTerm) ∈
        (LeaderTurns.behind conf s id effect).cluster.elected :=
      mem_behind_elected.mpr (.inl hleader)
    have hsame : leader = id := won_unique (ht.inv.elected _ hin) (ht.inv.elected _ helected)
    rw [hsame] at hleader
    exact hfirst hleader
  have hempty := (h.origin _).unled hnobody
  have hk : KeepsLogs g s (Chronicle.crown g votes id effect.node.currentTerm) :=
    Chronicle.keepsLogs_crown hnobody hempty
  have hlog := h.log id
  have hbounded : ∀ entry ∈ g.logs id, termOf entry ≤ effect.node.currentTerm :=
    fun entry he => (hlog.bounded entry he).trans ht.turn.term
  refine Keeps.behind h hk rfl ht (fun _ _ => Chronicle.crown_origin) (fun term => ?_) fun _ => ?_
  · by_cases hterm : term = effect.node.currentTerm
    · subst hterm
      refine ⟨?_, ?_, ?_, fun hnone => absurd helected (hnone id)⟩
      · rw [Chronicle.crown_origin]
        exact hlog.inOrder.numbered
      · rw [Chronicle.crown_origin]
        exact hlog.chained.mono hk.grows
      · rw [Chronicle.crown_origin]
        exact fun entry he => ⟨hbounded entry he, Keeps.wired h he⟩
    · obtain ⟨hnumbered, hchained, hbounded, hunled⟩ := h.origin term
      have hsame : (Chronicle.crown g votes id effect.node.currentTerm).origin term =
          g.origin term := Function.update_of_ne hterm ..
      refine ⟨?_, ?_, ?_, ?_⟩
      · rw [hsame]
        exact hnumbered
      · rw [hsame]
        exact hchained.mono hk.grows
      · rw [hsame]
        exact hbounded
      · rw [hsame]
        exact fun hnone => hunled fun leader hleader =>
          hnone leader (mem_behind_elected.mpr (.inl hleader))
  · refine ⟨?_, ?_, ?_, ?_, ?_⟩
    · rw [behind_role]
    · rw [Chronicle.crown_base]
      exact List.prefix_rfl
    · rw [Chronicle.crown_base, Chronicle.crown_origin]
      exact List.take_prefix ..
    · rw [Chronicle.crown_base]
      -- An entry of the new term would come from a log of that term, and there was none.
      intro entry hentry
      have hin : entry ∈ g.logs id := List.mem_of_mem_take hentry
      refine lt_of_le_of_ne (hbounded entry hin) fun heq => ?_
      obtain ⟨k, hk⟩ := List.mem_iff_getElem?.mp hin
      have hpiece := hlog.chained k entry hk
      rw [heq, hempty, List.prefix_nil] at hpiece
      rw [List.take_add_one, hk] at hpiece
      simp at hpiece
    · obtain ⟨voters, hmajority, hvotes⟩ := ht.inv.elected _ helected
      refine ⟨voters, hmajority, fun voter hvoter => ?_⟩
      obtain ⟨lastLogId, ⟨n, hn, rfl⟩, hvoted⟩ := Keeps.voted_behind h hk ht (hvotes voter hvoter)
      rw [Chronicle.crown_base]
      exact ⟨(g.logs id).take n, List.take_prefix_take_left hn, hvoted⟩

private theorem Keeps.takesTurn (h : Keeps g s conf) (ht : TakesTurn conf g s id effect votes) :
    ∃ g', Keeps g' (LeaderTurns.behind conf s id effect) conf := by
  by_cases hnew : effect.leads = true ∧ (id, effect.node.currentTerm) ∉ s.cluster.elected
  · exact ⟨_, Keeps.turn_crowned h ht hnew.1 hnew.2⟩
  · refine ⟨_, Keeps.turn_same h ht fun hleads => ?_⟩
    by_contra hfirst
    exact hnew ⟨hleads, hfirst⟩

theorem turned_self : turned conf s s.cluster = s := by
  unfold turned
  simp only [follow_self, List.drop_length, List.map_nil, List.append_nil]

theorem Keeps.elect (h : Keeps g s conf) {stepDownWhenVoteTimedout : Bool}
    {event : VoteProtocol.Event} (hfits : TermsFit s.cluster event)
    (hdisk : TermOnDisk s.cluster event)
    (hanswered : ∀ id thread lastLogId, Resumes s.cluster event id thread lastLogId →
      Answered g s id thread lastLogId)
    {s' : Replicas} (hstep : s.elect conf stepDownWhenVoteTimedout event = some s') :
    ∃ g', Keeps g' s' conf := by
  obtain ⟨cluster, hcluster, rfl⟩ := Option.map_eq_some_iff.mp hstep
  change ∃ g', Keeps g' (turned conf s cluster) conf
  obtain ⟨votes, hinv, hextends⟩ := inv_step h.votes hfits hcluster
  rcases oneTurn_step h.votes hfits hdisk hcluster with rfl | ⟨id, effect, rfl, hturn⟩
  · rw [turned_self]
    exact ⟨g, h⟩
  · exact Keeps.takesTurn h ⟨hturn.mono (hanswered id), hinv, hextends⟩

end Turns

end HitConsistency.Election.LeaderTurns
