/- GID: HitConsistency/Election/LeaderCompleteness
   digest: Later leaders hold what a majority stored, as long as entries arrive in order. -/

import HitConsistency.Election.LeaderTurns

set_option autoImplicit false
set_option relaxedAutoImplicit false

namespace HitConsistency.Election.LeaderCompleteness

open HitConsistency.Base.GuardedRuns
open HitConsistency.Base.MajorityQuorum
open HitConsistency.Base.TermChains
open HitConsistency.Election.HandlerTurns
open HitConsistency.Election.InOrderReplication
open HitConsistency.Election.LeaderTurns
open HitConsistency.Election.OneLeader
open HitConsistency.Election.ReplicaSteps
open HitConsistency.Election.ReplicatedLogs
open HitConsistency.Election.VoteProtocol (Cluster Effect ElectionNode)
open HitConsistency.Group.Peers
open HitConsistency.Log.Entry
open HitConsistency.Log.InOrderLog
open HitConsistency.Node.RoleState

variable {conf : Configuration} {g : Chronicle} {s : Replicas}

/-- A voter that holds an entry passes it on: the piece of the log that it voted for has
the entry too, if the leaders of the terms between have it. -/
private theorem Keeps.piece_holds (h : Keeps g s conf) {voter : PeerId} {term : Int} {n k : Nat}
    {piece : List LogEntry} {entry : LogEntry} (hpiece : Chained termOf g.origin piece)
    (hnumbered : Numbered piece)
    (hnot : ¬ (lastIdOf piece).Before (lastIdOf ((g.logs voter).take n)))
    (hget : ((g.logs voter).take n)[k]? = some entry)
    (hearlier : ∀ e ∈ piece, termOf e < term)
    (hbetween : ∀ t, termOf entry < t → t < term → g.origin t ≠ [] →
      (g.origin t)[k]? = some entry) : piece[k]? = some entry := by
  have hlog := (h.log voter).inOrder.numbered.take n
  have hchained := (h.log voter).chained.isPrefix (List.take_prefix n _)
  obtain ⟨x, hx⟩ : ∃ x, ((g.logs voter).take n).getLast? = some x := by
    refine ⟨_, List.getLast?_eq_getLast_of_ne_nil ?_⟩
    intro hnil
    rw [hnil] at hget
    cases hget
  have hxid : lastIdOf ((g.logs voter).take n) = x.id := by
    rw [lastIdOf, hx]
    rfl
  have hxterm : 0 < termOf x := hlog.term x (List.mem_of_getLast? hx)
  have hxindex := hlog.lastIdOf_index
  rw [hxid] at hnot hxindex
  rw [LogId.before_iff] at hnot
  cases hy : piece.getLast? with
  | none =>
    rw [lastIdOf, hy] at hnot
    exact absurd (.inl hxterm) hnot
  | some y =>
    have hyindex := hnumbered.lastIdOf_index
    have hyid : lastIdOf piece = y.id := by
      rw [lastIdOf, hy]
      rfl
    rw [hyid] at hnot hyindex
    have hyterm : termOf y < term := hearlier y (List.mem_of_getLast? hy)
    refine hchained.holds hpiece hlog.sorted hx hy hget ?_ fun hlt => ?_
    · unfold termOf
      omega
    · have hlast := hpiece.last hy
      have hne : g.origin (termOf y) ≠ [] := by
        intro hnil
        rw [hnil, List.prefix_nil] at hlast
        rw [hlast] at hy
        cases hy
      have horigin := hbetween _ hlt hyterm hne
      have hsorted := (h.origin (termOf y)).numbered.sorted
      exact ⟨lt_length_of_sorted hlast hsorted hy horigin hlt, horigin⟩

/-- What the leader of each later term was elected with holds a granted entry that a
majority has stored. -/
theorem Keeps.base_holds (h : Keeps g s conf) {grant : Granted} (hgrant : grant ∈ s.granted)
    (hmajority : Majority conf.members (s.holders conf grant)) {k : Nat}
    (hk : grant.entry.id.index = k + 1) {d : Nat} {winner : PeerId × Int}
    (hwinner : winner ∈ s.cluster.elected) (hlater : winner.2 = grant.term + d + 1) :
    (g.base winner.2)[k]? = some grant.entry := by
  induction d using Nat.strong_induction_on generalizing winner with
  | _ d ih =>
    obtain ⟨leader, term⟩ := winner
    have hled := h.led _ hwinner
    obtain ⟨voters, hvoters, hvoted⟩ := hled.voters
    obtain ⟨voter, -, hholder, hvoter⟩ := hmajority.common_member hvoters
    obtain ⟨piece, hpiece, n, hcovered, hnot⟩ := hvoted voter hvoter
    have hstored := (Finset.mem_filter.mp hholder).2
    dsimp only at hlater
    have hindex := hcovered.stored _ hstored rfl (by show grant.term < term; omega)
    have hget : ((g.logs voter).take n)[k]? = some grant.entry := by
      obtain ⟨j, -, hj, hposition⟩ := h.stored_position hstored
      dsimp only at hj hposition hindex
      obtain rfl : j = k := by omega
      rw [List.getElem?_take_of_lt (by omega)]
      exact hj
    have hterm := h.granted grant hgrant
    have hbase := (h.origin term).chained.isPrefix hled.origin
    have hnumbered := (h.origin term).numbered.isPrefix hled.origin
    have hhas := Keeps.piece_holds h (hbase.isPrefix hpiece) (hnumbered.isPrefix hpiece)
      hnot hget (fun e he => hled.earlier e (hpiece.subset he)) ?_
    · rw [getElem?_of_isPrefix hpiece (List.getElem?_eq_some_iff.mp hhas).1]
      exact hhas
    · intro t hlow hhigh hne
      obtain ⟨other, hother⟩ : ∃ other, (other, t) ∈ s.cluster.elected := by
        by_contra hnone
        exact hne ((h.origin t).unled fun other ho => hnone ⟨other, ho⟩)
      dsimp only at hhigh
      have hsmall := ih (t - grant.term - 1).toNat (by omega) hother (by dsimp only; omega)
      rw [getElem?_of_isPrefix (h.led _ hother).origin (List.getElem?_eq_some_iff.mp hsmall).1]
      exact hsmall

theorem Keeps.leaderComplete (h : Keeps g s conf) : s.LeaderComplete conf := by
  intro grant hgrant hmajority leadership hleadership hlater
  obtain ⟨helected, hheld⟩ := h.held leadership hleadership
  obtain ⟨holder, -, hholder, -⟩ := hmajority.common_member hmajority
  have hstored := (Finset.mem_filter.mp hholder).2
  obtain ⟨k, -, -, hindex⟩ := h.stored_position hstored
  dsimp only at hindex
  rw [hindex]
  refine hheld k _ ?_
  exact Keeps.base_holds h hgrant hmajority hindex (d := (leadership.term - grant.term - 1).toNat)
    helected (by dsimp only; omega)

def Chronicle.blank : Chronicle :=
  ⟨fun _ _ => none, fun _ => [], fun _ => 0, fun _ => [], fun _ => []⟩

theorem keeps_init (conf : Configuration) (dependencyLookBack : Int) :
    Keeps Chronicle.blank (.init dependencyLookBack) conf where
  votes := inv_init conf
  log := fun id => ⟨inOrder_fresh dependencyLookBack, .nil, fun _ he => (List.not_mem_nil he).elim,
    by show (0 : Int) < toInt32 1; decide⟩
  lead := fun id => by
    refine ⟨fun hlead => ?_, fun helected _ => ?_, fun hlead => ?_, fun _ => ⟨rfl, rfl⟩,
      fun _ hi => (List.not_mem_nil hi).elim⟩
    · cases hlead
    · cases helected
    · cases hlead
  pipe := fun id => by
    refine ⟨fun _ ht => (List.not_mem_nil ht).elim, fun _ ht => (List.not_mem_nil ht).elim, .nil,
      fun _ ha => (List.not_mem_nil ha).elim, fun hsaving => ?_⟩
    cases hsaving
  origin := fun _ => ⟨.nil, .nil, fun _ he => (List.not_mem_nil he).elim, fun _ => rfl⟩
  led := fun _ hw => (List.not_mem_nil hw).elim
  sent := fun _ hr => (List.not_mem_nil hr).elim
  voted := fun _ _ _ hv => by cases hv
  requests := fun _ hr => (List.not_mem_nil hr).elim
  stored := fun _ hi => (List.not_mem_nil hi).elim
  granted := fun _ hg => (List.not_mem_nil hg).elim
  held := fun _ hm => (List.not_mem_nil hm).elim

/-- A request that is taken continues the log of its receiver, terms fit into 31 bits, and
a process that dies has its current term on the disk. -/
def Orderly (s : Replicas) : Event → Prop
  | .appendEntries position => ∀ request ∈ s.requests[position]?,
      TermsFit s.cluster (.appendEntries request.peerId request.term request.serverId) ∧
        (s.accepts request = true → (s.nodes request.peerId).takes request = true →
          Continues (s.nodes request.peerId) request)
  | .increaseTermTo _ newTerm => newTerm < 2 ^ 31
  | .crash id => (s.cluster.nodes id).metaStorage.term = (s.cluster.nodes id).currentTerm
  | _ => True

instance continuesDecidable (replica : Replica) (request : AppendEntriesRequest) :
    Decidable (Continues replica request) :=
  decidable_of_iff (_ ∧ _ ∧ _) ⟨fun h => ⟨h.1, h.2.1, h.2.2⟩, fun h => ⟨h.1, h.2, h.3⟩⟩

instance orderlyDecidable (s : Replicas) : ∀ event, Decidable (Orderly s event)
  | .appendEntries position =>
      inferInstanceAs (Decidable (∀ request ∈ s.requests[position]?, _ ∧ (_ → _ → Continues _ _)))
  | .increaseTermTo _ _ => inferInstanceAs (Decidable (_ < _))
  | .crash _ => inferInstanceAs (Decidable (_ = _))
  | .electionTimeout _ | .voteTimeout _ | .receive _ | .call _ _ | .resume _ _ | .saveVote _
  | .stepdownTimeout _ | .apply _ _ | .sendEntries _ _ _ _ _ | .sendEmptyEntries _ _ _ _ _
  | .diskWrite _ | .diskBatchEnd _ | .commitAt _ _ _ | .applied _ _ =>
      inferInstanceAs (Decidable True)

section Steps

variable {stepDownWhenVoteTimedout : Bool} {s' : Replicas}

private theorem Keeps.elect_quiet (h : Keeps g s conf) {event : VoteProtocol.Event}
    (hstep : s.elect conf stepDownWhenVoteTimedout event = some s')
    (hfits : TermsFit s.cluster event) (hdisk : TermOnDisk s.cluster event)
    (hevent : ∀ id position lastLogId, event ≠ .resume id position lastLogId) :
    ∃ g', Keeps g' s' conf := by
  refine Keeps.elect h hfits hdisk (fun id thread lastLogId hresumes => ?_) hstep
  obtain ⟨position, heq, -⟩ := hresumes
  exact absurd heq (hevent id position lastLogId)

theorem Keeps.resume (h : Keeps g s conf) {id : PeerId} {position : Nat}
    (hstep : s.resume conf stepDownWhenVoteTimedout id position = some s') :
    ∃ g', Keeps g' s' conf := by
  unfold Replicas.resume at hstep
  dsimp only at hstep
  split at hstep
  · rename_i thread lastLogId hanswer
    split at hstep
    · cases hstep
      exact ⟨g, h⟩
    · obtain ⟨hasks, n, hcovered, hid⟩ := (h.pipe id).answers _ (List.mem_of_getElem? hanswer)
      have hl := (puts_put s id { s.nodes id with
        answers := (s.nodes id).answers.eraseIdx position }).later_same (g := g) rfl fun _ hc => hc
      have hfits : TermsFit s.cluster
          (.resume id ((s.cluster.nodes id).waiting.idxOf thread) lastLogId) := trivial
      refine Keeps.elect (h.takeAnswer position) hfits trivial ?_ hstep
      rintro _ other _ ⟨place, heq, hother⟩
      cases heq
      change (s.cluster.nodes id).waiting[_]? = some other at hother
      obtain ⟨hlength, heq⟩ := List.getElem?_eq_some_iff.mp hother
      rw [List.getElem_idxOf] at heq
      rw [← heq]
      exact ⟨hasks.later hl, n, hcovered.later hl, hid⟩
  · cases hstep
    exact ⟨g, h⟩

theorem accepted (h : Inv conf g.votes s.cluster) {request : AppendEntriesRequest}
    (hfit : request.term < 2 ^ 31) (haccepts : s.accepts request = true) {cluster : Cluster}
    (hstep : s.cluster.step conf stepDownWhenVoteTimedout
      (.appendEntries request.peerId request.term request.serverId) = some cluster) :
    (cluster.nodes request.peerId).state = .follower ∧
      (cluster.nodes request.peerId).currentTerm = request.term := by
  unfold Replicas.accepts at haccepts
  simp only [Bool.and_eq_true, Bool.not_eq_true', decide_eq_true_eq] at haccepts
  obtain ⟨⟨hfree, hterm⟩, hleader⟩ := haccepts
  have hrange := (h.nodes request.peerId).termRange
  unfold Cluster.step Cluster.act at hstep
  dsimp only at hstep
  rw [if_neg (Bool.eq_false_iff.mp hfree)] at hstep
  cases hstep
  have hnode : ∀ effect : Effect,
      (s.cluster.put request.peerId effect).nodes request.peerId = effect.node :=
    fun _ => Function.update_self ..
  rw [hnode]
  unfold ElectionNode.receiveAppendEntries
  rw [if_neg (not_lt.mpr hterm)]
  dsimp only [ElectionNode.quiet]
  rw [if_neg (not_not.mpr hleader.symm)]
  exact ⟨checkStepDown_state .., checkStepDown_term (hrange.1.trans hterm) hfit hterm _⟩

theorem Keeps.handleAppendEntries (h : Keeps g s conf) {request : AppendEntriesRequest}
    (hrequest : request ∈ s.requests)
    (hfits : TermsFit s.cluster (.appendEntries request.peerId request.term request.serverId))
    (hcontinues : s.accepts request = true → (s.nodes request.peerId).takes request = true →
      Continues (s.nodes request.peerId) request)
    (hstep : s.handleAppendEntries conf stepDownWhenVoteTimedout request = some s') :
    ∃ g', Keeps g' s' conf := by
  obtain ⟨after, helect, hstep⟩ := Option.bind_eq_some_iff.mp hstep
  obtain ⟨g', h'⟩ := Keeps.elect_quiet h helect hfits trivial fun _ _ _ heq => by cases heq
  split at hstep
  · rename_i haccepts
    obtain ⟨replica, hreplica, hstep⟩ := Option.bind_eq_some_iff.mp hstep
    cases hstep
    obtain ⟨cluster, hcluster, rfl⟩ := Option.map_eq_some_iff.mp helect
    obtain ⟨hstate, hterm⟩ := accepted h.votes hfits.1 haccepts hcluster
    -- The role has changed, and the log is still that of the node before.
    have hlog : ∀ before after : ElectionNode,
        ((s.nodes request.peerId).follow conf before after).takes request = true →
          Continues ((s.nodes request.peerId).follow conf before after) request := by
      intro before after htakes
      obtain ⟨hindex, hprev, hentries⟩ := hcontinues haccepts htakes
      exact ⟨hindex, hprev, hentries⟩
    refine Keeps.handleEntries h' (h'.requests request hrequest) rfl ?_ hterm (hlog _ _) hreplica
    show (cluster.nodes request.peerId).state.leading = false
    rw [hstate]
    rfl
  · cases hstep
    exact ⟨g', h'⟩

theorem Keeps.crash (h : Keeps g s conf) {id : PeerId}
    (hdisk : (s.cluster.nodes id).metaStorage.term = (s.cluster.nodes id).currentTerm)
    (hstep : (s.elect conf stepDownWhenVoteTimedout (.crash id)).map
      (fun after => after.put id (after.nodes id).restart) = some s') :
    ∃ g', Keeps g' s' conf := by
  obtain ⟨after, helect, rfl⟩ := Option.map_eq_some_iff.mp hstep
  obtain ⟨g', h'⟩ := Keeps.elect_quiet h helect trivial hdisk fun _ _ _ heq => by cases heq
  obtain ⟨cluster, hcluster, rfl⟩ := Option.map_eq_some_iff.mp helect
  cases hcluster
  have hboot : (s.cluster.put id (ElectionNode.boot id
      (s.cluster.nodes id).metaStorage).quiet).nodes id =
        ElectionNode.boot id (s.cluster.nodes id).metaStorage := Function.update_self ..
  refine Keeps.restart h' ?_ ?_
  · dsimp only
    rw [hboot]
    rfl
  · dsimp only
    rw [hboot]
    intro hcampaigning
    rcases hcampaigning with hstate | hwait | hsave
    · cases hstate
    · cases hwait
    · cases hsave

theorem Keeps.step (h : Keeps g s conf) {event : Event} (hguard : Orderly s event)
    (hstep : s.step conf stepDownWhenVoteTimedout event = some s') : ∃ g', Keeps g' s' conf := by
  unfold Replicas.step at hstep
  cases event with
  | electionTimeout id =>
    obtain ⟨lastLogId, -, hstep⟩ := Option.bind_eq_some_iff.mp hstep
    exact Keeps.elect_quiet h hstep trivial trivial fun _ _ _ heq => by cases heq
  | voteTimeout id =>
    obtain ⟨lastLogId, -, hstep⟩ := Option.bind_eq_some_iff.mp hstep
    exact Keeps.elect_quiet h hstep trivial trivial fun _ _ _ heq => by cases heq
  | receive position =>
    exact Keeps.elect_quiet h hstep trivial trivial fun _ _ _ heq => by cases heq
  | call id position =>
    cases hstep
    exact ⟨g, h.call position⟩
  | resume id position => exact Keeps.resume h hstep
  | saveVote id => exact Keeps.elect_quiet h hstep trivial trivial fun _ _ _ heq => by cases heq
  | increaseTermTo id newTerm =>
    exact Keeps.elect_quiet h hstep hguard trivial fun _ _ _ heq => by cases heq
  | stepdownTimeout id =>
    exact Keeps.elect_quiet h hstep trivial trivial fun _ _ _ heq => by cases heq
  | apply id tasks =>
    dsimp only at hstep
    split at hstep
    · cases hstep
      exact ⟨g, h⟩
    · rename_i hnot
      obtain ⟨replica, hreplica, rfl⟩ := Option.map_eq_some_iff.mp hstep
      rw [not_or, not_not] at hnot
      exact Keeps.apply h hnot.2 hreplica
  | sendEntries id peer index committedIndex committedOoIndex =>
    obtain ⟨requests, hrequests, rfl⟩ := Option.map_eq_some_iff.mp hstep
    exact ⟨g, Keeps.sendEntries h hrequests⟩
  | sendEmptyEntries id peer prevLogIndex committedIndex committedOoIndex =>
    obtain ⟨requests, hrequests, rfl⟩ := Option.map_eq_some_iff.mp hstep
    exact ⟨g, Keeps.sendEmptyEntries h hrequests⟩
  | appendEntries position =>
    dsimp only at hstep
    split at hstep
    · rename_i request hrequest
      obtain ⟨hfits, hcontinues⟩ := hguard request hrequest
      exact Keeps.handleAppendEntries h (List.mem_of_getElem? hrequest) hfits hcontinues hstep
    · cases hstep
      exact ⟨g, h⟩
  | diskWrite id =>
    cases hstep
    exact Keeps.diskWrite h id
  | diskBatchEnd id =>
    cases hstep
    obtain ⟨hinOrder, hqueue⟩ := (h.log id).inOrder.diskBatchEnd
    exact ⟨g, h.relog hinOrder hqueue⟩
  | commitAt id indexes peer =>
    obtain ⟨outcome, houtcome, rfl⟩ := Option.map_eq_some_iff.mp hstep
    exact ⟨g, Keeps.commitAt h houtcome⟩
  | applied id appliedId =>
    cases hstep
    obtain ⟨hinOrder, hqueue⟩ := (h.log id).inOrder.setAppliedId appliedId
    exact ⟨g, h.relog hinOrder hqueue⟩
  | crash id => exact Keeps.crash h hguard hstep

end Steps

/-- Through every interleaving of elections, replication, disk writes, ballots and crashes
in which each request that is taken continues the log of its receiver, every leader holds
the entries that were granted in an earlier term and are stored by a majority. -/
theorem leader_complete_in_order (conf : Configuration) (stepDownWhenVoteTimedout : Bool)
    (dependencyLookBack : Int) (events : List Event) (s : Replicas)
    (hguard : Guarded (Replicas.step conf stepDownWhenVoteTimedout) Orderly
      (.init dependencyLookBack) events)
    (hrun : runEvents (Replicas.step conf stepDownWhenVoteTimedout) (.init dependencyLookBack)
      events = some s) : s.LeaderComplete conf := by
  have hkeep : ∀ s event s', (∃ g, Keeps g s conf) → Orderly s event →
      s.step conf stepDownWhenVoteTimedout event = some s' → ∃ g, Keeps g s' conf := by
    intro s event s' hs hguard hstep
    obtain ⟨g, h⟩ := hs
    exact Keeps.step h hguard hstep
  obtain ⟨g, h⟩ := invariant_of_step hkeep ⟨_, keeps_init conf dependencyLookBack⟩ hguard hrun
  exact Keeps.leaderComplete h

private def nodeA : PeerId := ⟨1, 8000, 0⟩

private def nodeB : PeerId := ⟨2, 8001, 0⟩

private def nodeC : PeerId := ⟨3, 8000, 0⟩

private def sampleConf : Configuration := ⟨[nodeA, nodeB, nodeC], by decide⟩

/-- `nodeA` is elected by `nodeB`, takes two entries and has requests for both followers. -/
private def leaderEvents : List Event :=
  [.electionTimeout nodeA, .receive 0, .call nodeB 0, .diskWrite nodeB, .resume nodeB 0,
    .receive 2, .call nodeA 0, .diskWrite nodeA, .resume nodeA 0, .saveVote nodeA, .receive 3,
    .call nodeB 0, .diskWrite nodeB, .resume nodeB 0, .receive 5,
    .apply nodeA [⟨-1, 0, []⟩, ⟨-1, 0, [1]⟩], .diskWrite nodeA, .sendEntries nodeA nodeB 1 0 [],
    .sendEntries nodeA nodeB 2 0 [], .sendEntries nodeA nodeC 1 0 [],
    .sendEntries nodeA nodeC 2 0 []]

/-- `nodeC` is elected by `nodeB`. -/
private def laterEvents : List Event :=
  [.electionTimeout nodeC, .receive 7, .call nodeB 0, .diskWrite nodeB, .resume nodeB 0,
    .receive 8, .call nodeC 0, .diskWrite nodeC, .resume nodeC 0, .saveVote nodeC, .receive 10,
    .call nodeB 0, .diskWrite nodeB, .resume nodeB 0, .receive 11]

/-- Both followers get the entries in order. -/
private def inOrderEvents : List Event :=
  leaderEvents ++ [.appendEntries 0, .appendEntries 1, .diskWrite nodeB, .diskWrite nodeB,
    .diskBatchEnd nodeB, .commitAt nodeA [1, 2] nodeA, .commitAt nodeA [1, 2] nodeB,
    .appendEntries 2, .appendEntries 3, .diskWrite nodeC, .diskWrite nodeC] ++ laterEvents

theorem leader_complete_in_order_elected :
    ((runEvents (Replicas.step sampleConf true) (.init 8) inOrderEvents).map fun s =>
      (s.granted.map fun grant => (grant.term, grant.entry.id.index),
        s.leaderships.map fun leadership => (leadership.leader, leadership.term))) =
      some ([(2, 1), (2, 2)], [(nodeA, 2), (nodeC, 3)]) ∧
    ∀ s, runEvents (Replicas.step sampleConf true) (.init 8) inOrderEvents = some s →
      s.LeaderComplete sampleConf :=
  ⟨by decide +kernel,
    fun s => leader_complete_in_order sampleConf true 8 inOrderEvents s (by decide +kernel)⟩

/-- `nodeB` gets the second entry first, and writes the first one last; `nodeC` has only
the first one. -/
private def swappedEvents : List Event :=
  leaderEvents ++ [.appendEntries 1, .appendEntries 0, .diskWrite nodeB, .diskWrite nodeB,
    .diskBatchEnd nodeB, .commitAt nodeA [1, 2] nodeA, .commitAt nodeA [2] nodeB,
    .appendEntries 2, .diskWrite nodeC] ++ laterEvents

theorem swapped_entries_lost :
    ∃ s, runEvents (Replicas.step sampleConf true) (.init 8) swappedEvents = some s ∧
      ¬ s.LeaderComplete sampleConf := by
  have hlost : (runEvents (Replicas.step sampleConf true) (.init 8) swappedEvents).map
      (fun s => decide (s.LeaderComplete sampleConf)) = some false := by
    decide +kernel
  obtain ⟨s, hrun, hnot⟩ := Option.map_eq_some_iff.mp hlost
  exact ⟨s, hrun, of_decide_eq_false hnot⟩

end HitConsistency.Election.LeaderCompleteness
