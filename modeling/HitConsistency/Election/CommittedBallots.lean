/- GID: HitConsistency/Election/CommittedBallots
   digest: A ballot granted on honest acknowledgements is for an entry a majority has written. -/

import HitConsistency.Commit.QuorumLedger
import HitConsistency.Election.CommittedAgreement

set_option autoImplicit false
set_option relaxedAutoImplicit false

/-!
An acknowledgement is honest if the peer has written the entries of the leader in the
leader's term. The ballots of a leader then count members that have written the entry, as
long as the box has no flags of an earlier leadership.
-/

namespace HitConsistency.Election.CommittedBallots

open HitConsistency.Base.GuardedRuns
open HitConsistency.Base.IndexedDeque
open HitConsistency.Base.MajorityQuorum
open HitConsistency.Commit.PendingQueues
open HitConsistency.Commit.QuorumLedger (Ledger Tracks reported tracks_start tracks_append
  tracks_commit reached_bounds reached_append voteAll_votes voteAll_tasks voteAll_first
  voteAll_bound)
open HitConsistency.Election.CommittedAgreement
open HitConsistency.Election.HandlerTurns
open HitConsistency.Election.InOrderReplication
open HitConsistency.Election.LeaderCompleteness
open HitConsistency.Election.LeaderTurns
open HitConsistency.Election.ReplicaSteps
open HitConsistency.Election.ReplicatedLogs
open HitConsistency.Group.Peers
open HitConsistency.Log.Entry

variable {conf : Configuration} {g : Chronicle} {s s' : Replicas} {id : PeerId}
  {stepDownWhenVoteTimedout : Bool}

theorem put_self {replica : Replica} : (s.put id replica).nodes id = replica :=
  Function.update_self ..

section Ballots

/-- The list of acknowledged indexes is ascending, the box has no flags of an earlier
leadership, and the peer has written the leader's entries, in the leader's term. -/
def Honest (s : Replicas) : Event → Prop
  | .commitAt id indexes peer => (s.cluster.nodes id).state.leading = true →
      indexes.Pairwise (· < ·) ∧
        (s.nodes id).ballotBox.committedIndexQueue.length =
          (s.nodes id).ballotBox.pendingMetaQueue.length ∧
        ∀ i ∈ indexes, (s.nodes id).ballotBox.pendingIndex ≤ i →
          ∃ entry ∈ ((s.nodes id).log.getEntry i).join,
            ⟨peer, (s.cluster.nodes id).currentTerm, entry⟩ ∈ s.stored
  | _ => True

instance honestDecidable (s : Replicas) : ∀ event, Decidable (Honest s event)
  | .commitAt _ _ _ => inferInstanceAs (Decidable (_ → _ ∧ _ ∧ _))
  | .electionTimeout _ | .voteTimeout _ | .receive _ | .call _ _ | .resume _ _ | .saveVote _
  | .increaseTermTo _ _ | .stepdownTimeout _ | .apply _ _ | .sendEntries _ _ _ _ _
  | .sendEmptyEntries _ _ _ _ _ | .appendEntries _ | .diskWrite _ | .diskBatchEnd _
  | .applied _ _ | .crash _ => inferInstanceAs (Decidable True)

/-- The votes of a ledger stand for written entries of the leader's term, and whatever has
its quorum is granted. -/
structure Backed (conf : Configuration) (s : Replicas) (id : PeerId) (L : Ledger) : Prop where
  tasks : ∀ task ∈ L.tasks, task = ⟨conf, none⟩
  votes : ∀ i, (s.nodes id).ballotBox.pendingIndex ≤ i → ∀ peer ∈ L.votes i,
    ∃ entry, entry.id = ⟨i, (s.cluster.nodes id).currentTerm⟩ ∧
      ⟨peer, (s.cluster.nodes id).currentTerm, entry⟩ ∈ s.stored
  granted : ∀ i, L.Reached i → ∃ entry, entry.id = ⟨i, (s.cluster.nodes id).currentTerm⟩ ∧
    ⟨(s.cluster.nodes id).currentTerm, entry⟩ ∈ s.granted

/-- The ballots of a leader, without flags of an earlier leadership, count such votes. -/
def Counted (conf : Configuration) (s : Replicas) (id : PeerId) : Prop :=
  (s.cluster.nodes id).state.leading = true →
    (s.nodes id).ballotBox.committedIndexQueue.length =
        (s.nodes id).ballotBox.pendingMetaQueue.length →
      ∃ L, Tracks L (s.nodes id).ballotBox ∧ Backed conf s id L

theorem Counted.mono (h : Counted conf s id) (hgrows : Grows s s')
    (hleading : (s'.cluster.nodes id).state.leading = true →
      (s.cluster.nodes id).state.leading = true ∧
        (s'.cluster.nodes id).currentTerm = (s.cluster.nodes id).currentTerm)
    (hbox : (s'.nodes id).ballotBox = (s.nodes id).ballotBox) : Counted conf s' id := by
  intro hleads hlength
  obtain ⟨hled, hterm⟩ := hleading hleads
  rw [hbox] at hlength
  obtain ⟨L, htracks, htasks, hvotes, hgranted⟩ := h hled hlength
  refine ⟨L, by rwa [hbox], htasks, ?_, ?_⟩
  · rw [hbox, hterm]
    intro i hi peer hpeer
    obtain ⟨entry, hid, hstored⟩ := hvotes i hi peer hpeer
    exact ⟨entry, hid, hgrows.stored hstored⟩
  · rw [hterm]
    intro i hreached
    obtain ⟨entry, hid, hgrant⟩ := hgranted i hreached
    exact ⟨entry, hid, hgrows.granted hgrant⟩

private theorem entry_unique (h : Keeps g s conf) {a b : PeerId} {j k : Nat} {mine yours : LogEntry}
    (hmine : (g.logs a)[j]? = some mine) (hyours : (g.logs b)[k]? = some yours)
    (hid : mine.id = yours.id) : mine = yours := by
  have hindex := (h.log a).inOrder.numbered.index j mine hmine
  have hindex' := (h.log b).inOrder.numbered.index k yours hyours
  obtain rfl : j = k := by
    have := congrArg LogId.index hid
    omega
  have horigin := origin_entry h hmine (Nat.le_refl j)
  have horigin' := origin_entry h hyours (Nat.le_refl j)
  rw [show termOf mine = termOf yours from congrArg LogId.term hid, horigin', hmine,
    hyours] at horigin
  exact (Option.some.inj horigin).symm

private theorem own_id (h : Keeps g s conf) (hleading : (s.cluster.nodes id).state.leading = true)
    {i : Int} {entry : LogEntry} (hread : (s.nodes id).log.getEntry i = some (some entry))
    (hpending : (s.nodes id).ballotBox.pendingIndex ≤ i) :
    entry.id = ⟨i, (s.cluster.nodes id).currentTerm⟩ := by
  obtain ⟨k, rfl, hk⟩ := (h.log id).inOrder.getEntry hread
  have hterm := ((h.lead id).ballots hleading).own k entry hk hpending
  have hindex := (h.log id).inOrder.numbered.index k entry hk
  calc entry.id = ⟨entry.id.index, entry.id.term⟩ := rfl
    _ = ⟨k + 1, (s.cluster.nodes id).currentTerm⟩ := by rw [hindex, ← hterm]; rfl

section Commit

variable {indexes : List Int} {peer : PeerId} {outcome : Outcome} {L : Ledger}

private theorem votes_commit (h : Keeps g s conf)
    (hleading : (s.cluster.nodes id).state.leading = true)
    (hbacked : Backed conf s id L) (hacks : ∀ i ∈ indexes,
      (s.nodes id).ballotBox.pendingIndex ≤ i → ∃ entry ∈ ((s.nodes id).log.getEntry i).join,
        ⟨peer, (s.cluster.nodes id).currentTerm, entry⟩ ∈ s.stored)
    {i : Int} (hi : (s.nodes id).ballotBox.pendingIndex ≤ i) {voter : PeerId}
    (hvoter : voter ∈ (L.commit indexes peer).votes i) :
    ∃ entry, entry.id = ⟨i, (s.cluster.nodes id).currentTerm⟩ ∧
      ⟨voter, (s.cluster.nodes id).currentTerm, entry⟩ ∈ s.stored := by
  unfold Ledger.commit at hvoter
  split at hvoter
  · rw [voteAll_votes] at hvoter
    split at hvoter
    · rename_i hmem
      rcases Finset.mem_insert.mp hvoter with rfl | hold
      · obtain ⟨entry, hentry, hstored⟩ := hacks i hmem hi
        exact ⟨entry, own_id h hleading (Option.join_eq_some_iff.mp hentry) hi, hstored⟩
      · exact hbacked.votes i hi voter hold
    · exact hbacked.votes i hi voter hvoter
  · exact hbacked.votes i hi voter hvoter

private theorem commit_tasks (L : Ledger) : (L.commit indexes peer).tasks = L.tasks := by
  unfold Ledger.commit
  split
  · exact voteAll_tasks L peer indexes
  · rfl

theorem granted_reported (h : Keeps g s conf)
    (hleading : (s.cluster.nodes id).state.leading = true)
    (htracks : Tracks L (s.nodes id).ballotBox)
    {i : Int} (hopen : ¬ L.Reached i) (hreached : (L.commit indexes peer).Reached i)
    (hreported : i ∈ reported outcome) :
    (s.nodes id).ballotBox.pendingIndex ≤ i ∧
      ∃ entry, (s.nodes id).log.getEntry i = some (some entry) ∧
        entry.id = ⟨i, (s.cluster.nodes id).currentTerm⟩ ∧
        ⟨(s.cluster.nodes id).currentTerm, entry⟩ ∈ s.grants id outcome := by
  obtain ⟨hpositive, hcount, -⟩ := (h.lead id).ballots hleading
  have hbounds := reached_bounds hreached
  have hsame : (L.commit indexes peer).first = L.first ∧
      (L.commit indexes peer).bound = L.bound := by
    unfold Ledger.commit
    split
    · exact ⟨voteAll_first L peer indexes, voteAll_bound L peer indexes⟩
    · exact ⟨rfl, rfl⟩
  have hmeta := htracks.matching.metaLength
  have hpending : (s.nodes id).ballotBox.pendingIndex ≤ i := by
    by_contra hbelow
    exact hopen (htracks.below i (by omega) (by omega))
  obtain ⟨entry, hitem⟩ : ∃ entry, item (g.logs id) (i - 1) = some entry :=
    exists_item (by omega) (by omega)
  have hread : (s.nodes id).log.getEntry i = some (some entry) := by
    rw [getEntry_eq (h.log id).inOrder, hitem]
  refine ⟨hpending, entry, hread, own_id h hleading hread hpending, ?_⟩
  refine List.mem_filterMap.mpr ⟨i, hreported, ?_⟩
  rw [hread]
  rfl

private theorem majority_votes (h : Keeps g s conf) (hgrows : Grows s s') {grant : Granted}
    {votes : Finset PeerId} (hmajority : Majority conf.members votes)
    {k : Nat} (hk : (g.logs id)[k]? = some grant.entry)
    (hvotes : ∀ voter ∈ votes, ∃ entry, entry.id = grant.entry.id ∧
      ⟨voter, grant.term, entry⟩ ∈ s.stored) :
    Majority conf.members (s'.holders conf grant) := by
  have hinner : Majority conf.members (conf.members ∩ votes) := by
    unfold Majority at hmajority ⊢
    rwa [← Finset.inter_assoc, Finset.inter_self]
  refine hinner.mono fun voter hvoter => ?_
  obtain ⟨hmember, hvote⟩ := Finset.mem_inter.mp hvoter
  obtain ⟨entry, hid, hstored⟩ := hvotes voter hvote
  obtain ⟨j, -, hj, -⟩ := h.stored_position hstored
  obtain rfl := entry_unique h hj hk hid
  exact Finset.mem_filter.mpr ⟨hmember, hgrows.stored hstored⟩

end Commit

private theorem counted_behind (h : Keeps g s conf) (hcounted : ∀ id, Counted conf s id)
    {asked : VoteProtocol.RequestVoteRequest → Prop}
    {answered : VoteProtocol.Waiting → LogId → Prop} {effect : VoteProtocol.Effect}
    (hturn : Turn asked answered (s.cluster.nodes id) effect) (other : PeerId) :
    Counted conf (behind conf s id effect) other := by
  have hgrows : Grows s (behind conf s id effect) := .of_eq rfl rfl
  by_cases ho : other = id
  · subst ho
    cases hbefore : (s.cluster.nodes other).state.leading with
    | true =>
      refine fun hleads => (hcounted other).mono hgrows (fun hleads => ⟨hbefore, ?_⟩) ?_ hleads
      · rw [behind_role] at hleads ⊢
        rcases hturn.leading hleads with hnew | ⟨-, hsame⟩
        · exact (hturn.leads hnew).2.1
        · exact hsame
      · rw [behind_role] at hleads
        rw [behind_replica, follow_box_same (hleads.trans hbefore.symm)]
    | false =>
      intro hleads hlength
      rw [behind_role] at hleads
      obtain ⟨-, hempty⟩ := (h.lead other).idle hbefore
      have hbox : ((behind conf s other effect).nodes other).ballotBox =
          (s.nodes other).ballotBox.resetPendingIndex ((s.nodes other).log.lastLogIndex + 1) := by
        rw [behind_replica, follow_box_begins hbefore hleads]
      rw [hbox] at hlength
      -- No ballot and no flag, so the box is the one that a leadership begins with.
      have hflags : (s.nodes other).ballotBox.committedIndexQueue = [] := by
        apply List.length_eq_zero_iff.mp
        rw [show (s.nodes other).ballotBox.committedIndexQueue.length =
          (s.nodes other).ballotBox.pendingMetaQueue.length from hlength, hempty]
        rfl
      have hidle : (s.nodes other).ballotBox.resetPendingIndex
          ((s.nodes other).log.lastLogIndex + 1) =
            (BallotBox.idle (s.nodes other).ballotBox.lastCommittedIndex).resetPendingIndex
              ((s.nodes other).log.lastLogIndex + 1) := by
        unfold BallotBox.resetPendingIndex BallotBox.idle
        rw [hempty, hflags]
      have htracks := tracks_start (s.nodes other).ballotBox.lastCommittedIndex
        ((s.nodes other).log.lastLogIndex + 1)
      rw [← hidle, ← hbox] at htracks
      refine ⟨_, htracks, fun task htask => (List.not_mem_nil htask).elim, fun i _ peer hpeer =>
        (Finset.notMem_empty peer hpeer).elim, fun i hreached => ?_⟩
      have hbounds := reached_bounds hreached
      simp only [Ledger.start, Ledger.bound, List.length_nil] at hbounds
      omega
  · refine (hcounted other).mono hgrows (fun hleads => ?_) ?_
    · rw [behind_role_of_ne ho] at hleads ⊢
      exact ⟨hleads, rfl⟩
    · rw [behind_replica_of_ne ho]

private theorem counted_elect (h : Keeps g s conf) (hcounted : ∀ id, Counted conf s id)
    {event : VoteProtocol.Event} (hfits : OneLeader.TermsFit s.cluster event)
    (hdisk : TermOnDisk s.cluster event)
    (hstep : s.elect conf stepDownWhenVoteTimedout event = some s') (other : PeerId) :
    Counted conf s' other := by
  obtain ⟨cluster, hcluster, rfl⟩ := Option.map_eq_some_iff.mp hstep
  change Counted conf (turned conf s cluster) other
  rcases oneTurn_step h.votes hfits hdisk hcluster with rfl | ⟨id, effect, rfl, hturn⟩
  · rw [turned_self]
    exact hcounted other
  · exact counted_behind h hcounted hturn other

/-- A box without flags of an earlier leadership counts backed votes. -/
def Counts (conf : Configuration) (backed : Int → PeerId → Prop) (granted : Int → Prop)
    (box : BallotBox) : Prop :=
  box.committedIndexQueue.length = box.pendingMetaQueue.length → ∃ L, Tracks L box ∧
    (∀ task ∈ L.tasks, task = ⟨conf, none⟩) ∧
    (∀ i, box.pendingIndex ≤ i → ∀ peer ∈ L.votes i, backed i peer) ∧
    ∀ i, L.Reached i → granted i

section Tasks

variable {backed : Int → PeerId → Prop} {granted : Int → Prop} {box : BallotBox}

theorem Counts.append (h : Counts conf backed granted box) :
    Counts conf backed granted (box.appendPendingTask conf none) := by
  intro hlength
  obtain ⟨L, htracks, htasks, hvotes, hgranted⟩ :=
    h (by simpa [BallotBox.appendPendingTask] using hlength)
  refine ⟨L.append ⟨conf, none⟩, tracks_append htracks ⟨conf, none⟩, fun task htask => ?_,
    hvotes, fun i hreached => hgranted i ?_⟩
  · rcases List.mem_append.mp htask with hold | hnew
    · exact htasks task hold
    · exact List.mem_singleton.mp hnew
  · exact (reached_append ⟨conf, none⟩ (htracks.fresh L.bound le_rfl) i).mp hreached

theorem Counts.appends (h : Counts conf backed granted box) (tasks : List Task) :
    Counts conf backed granted
      (tasks.foldl (fun box _ => box.appendPendingTask conf none) box) := by
  induction tasks generalizing box with
  | nil => exact h
  | cons task tasks ih => exact ih h.append

end Tasks

private theorem counted_apply (hcounted : ∀ id, Counted conf s id) {tasks : List Task}
    {replica : Replica}
    (hrun : (s.nodes id).apply conf (s.cluster.nodes id).currentTerm tasks = some replica)
    (other : PeerId) : Counted conf (s.put id replica) other := by
  unfold Replica.apply at hrun
  obtain ⟨⟨log, status⟩, -, rfl⟩ := Option.map_eq_some_iff.mp hrun
  by_cases ho : other = id
  · subst ho
    intro hleads hlength
    rw [put_self] at hlength
    have hcounts : Counts conf
        (fun i peer => ∃ entry, entry.id = ⟨i, (s.cluster.nodes other).currentTerm⟩ ∧
          ⟨peer, (s.cluster.nodes other).currentTerm, entry⟩ ∈ s.stored)
        (fun i => ∃ entry, entry.id = ⟨i, (s.cluster.nodes other).currentTerm⟩ ∧
          ⟨(s.cluster.nodes other).currentTerm, entry⟩ ∈ s.granted)
        (s.nodes other).ballotBox := by
      intro hsame
      obtain ⟨L, htracks, hbacked⟩ := hcounted other hleads hsame
      exact ⟨L, htracks, hbacked.tasks, hbacked.votes, hbacked.granted⟩
    obtain ⟨L, htracks, htasks, hvotes, hgranted⟩ := hcounts.appends _ hlength
    refine ⟨L, ?_, htasks, ?_, hgranted⟩
    · rw [put_self]
      exact htracks
    · rw [put_self]
      exact hvotes
  · refine (hcounted other).mono (.of_eq rfl rfl) (fun hleads => ⟨hleads, rfl⟩) ?_
    rw [show (s.put id _).nodes other = s.nodes other from Function.update_of_ne ho ..]

private theorem sound_commitAt (h : Keeps g s conf) (hcounted : ∀ id, Counted conf s id)
    (hcommitted : ∀ grant ∈ s.granted, Majority conf.members (s.holders conf grant))
    {indexes : List Int} {peer : PeerId} {outcome : Outcome}
    (hhonest : Honest s (.commitAt id indexes peer))
    (hrun : (s.nodes id).ballotBox.commitAt indexes peer = some outcome)
    (hs' : s' = { s.put id { s.nodes id with ballotBox := outcome.box } with
      granted := s.granted ++ s.grants id outcome }) :
    (∀ other, Counted conf s' other) ∧
      ∀ grant ∈ s'.granted, Majority conf.members (s'.holders conf grant) := by
  have hgrows : Grows s s' := by
    rw [hs']
    exact ⟨List.subset_append_left _ _, List.Subset.refl _⟩
  have hcluster : s'.cluster = s.cluster := by rw [hs']; rfl
  have hself : (s'.nodes id).ballotBox = outcome.box := by
    rw [hs']
    exact congrArg Replica.ballotBox (put_self (s := s))
  have hothers : ∀ other, other ≠ id → (s'.nodes other).ballotBox = (s.nodes other).ballotBox := by
    intro other ho
    rw [hs']
    exact congrArg Replica.ballotBox (Function.update_of_ne ho ..)
  have hnew : ∀ grant ∈ s'.granted, grant ∈ s.granted ∨ grant ∈ s.grants id outcome := by
    intro grant hgrant
    rw [hs'] at hgrant
    exact List.mem_append.mp hgrant
  have hold : ∀ grant ∈ s.granted, Majority conf.members (s'.holders conf grant) :=
    fun grant hgrant => (hgrows.committed ⟨hgrant, hcommitted grant hgrant⟩).2
  have hrest : ∀ other, other ≠ id → Counted conf s' other := fun other ho =>
    (hcounted other).mono hgrows (fun hleads => by
      rw [hcluster] at hleads ⊢
      exact ⟨hleads, rfl⟩) (hothers other ho)
  cases hleading : (s.cluster.nodes id).state.leading with
  | false =>
    -- Without a leadership nothing is counted.
    unfold BallotBox.commitAt at hrun
    rw [if_pos ((h.lead id).idle hleading).1] at hrun
    cases hrun
    refine ⟨fun other => ?_, fun grant hgrant => ?_⟩
    · by_cases ho : other = id
      · subst ho
        intro hleads
        rw [hcluster, hleading] at hleads
        cases hleads
      · exact hrest other ho
    · rcases hnew grant hgrant with hbefore | hin
      · exact hold grant hbefore
      · exact (List.not_mem_nil hin).elim
  | true =>
    obtain ⟨hascending, hlength, hacks⟩ := hhonest hleading
    obtain ⟨L, htracks, hbacked⟩ := hcounted id hleading hlength
    obtain ⟨hpositive, -, -⟩ := (h.lead id).ballots hleading
    obtain ⟨outcome', hrun', htracks', hpending, hreported, -⟩ :=
      tracks_commit htracks peer (by omega) hascending
    cases hrun'.symm.trans hrun
    refine ⟨fun other => ?_, fun grant hgrant => ?_⟩
    · by_cases ho : other = id
      · subst ho
        refine fun _ _ => ⟨L.commit indexes peer, by rwa [hself], ?_, ?_, ?_⟩
        · rw [commit_tasks]
          exact hbacked.tasks
        · rw [hself, hcluster]
          intro i hi voter hvoter
          obtain ⟨entry, hid, hstored⟩ :=
            votes_commit h hleading hbacked hacks (hpending.trans hi) hvoter
          exact ⟨entry, hid, hgrows.stored hstored⟩
        · rw [hcluster]
          intro i hreached
          by_cases hbefore : L.Reached i
          · obtain ⟨entry, hid, hgrant⟩ := hbacked.granted i hbefore
            exact ⟨entry, hid, hgrows.granted hgrant⟩
          · obtain ⟨-, entry, -, hid, hgrant⟩ := granted_reported h hleading htracks hbefore
              hreached ((hreported i).mpr ⟨hbefore, hreached⟩)
            refine ⟨entry, hid, ?_⟩
            rw [hs']
            exact List.mem_append_right _ hgrant
      · exact hrest other ho
    · rcases hnew grant hgrant with hbefore | hin
      · exact hold grant hbefore
      · obtain ⟨i, hi, hentry⟩ := List.mem_filterMap.mp hin
        obtain ⟨entry, hread, rfl⟩ := Option.map_eq_some_iff.mp hentry
        obtain ⟨hopen, hreached⟩ := (hreported i).mp hi
        obtain ⟨hlow, other, hread', hid, -⟩ :=
          granted_reported h hleading htracks hopen hreached hi
        obtain rfl : other = entry :=
          Option.some.inj (Option.some.inj (hread'.symm.trans (Option.join_eq_some_iff.mp hread)))
        obtain ⟨task, htask, hquorum⟩ := hreached
        have hconf : task = ⟨conf, none⟩ := by
          have hmem := mem_of_item htask
          rw [commit_tasks] at hmem
          exact hbacked.tasks task hmem
        obtain ⟨k, -, hk⟩ := (h.log id).inOrder.getEntry hread'
        refine majority_votes h hgrows (hconf ▸ hquorum.1) hk fun voter hvoter => ?_
        dsimp only
        rw [hid]
        exact votes_commit h hleading hbacked hacks hlow hvoter

end Ballots

section Runs

/-- The ballots of a leader count those who have written the entry, and what is granted a
majority has written. -/
structure Balloted (conf : Configuration) (s : Replicas) : Prop where
  counted : ∀ id, Counted conf s id
  committed : ∀ grant ∈ s.granted, Majority conf.members (s.holders conf grant)

theorem Balloted.mono (h : Balloted conf s) (hgrows : Grows s s')
    (hgranted : s'.granted = s.granted)
    (hleading : ∀ id, (s'.cluster.nodes id).state.leading = true →
      (s.cluster.nodes id).state.leading = true ∧
        (s'.cluster.nodes id).currentTerm = (s.cluster.nodes id).currentTerm ∧
        (s'.nodes id).ballotBox = (s.nodes id).ballotBox) : Balloted conf s' := by
  refine ⟨fun id hleads => ?_, fun grant hgrant => ?_⟩
  · obtain ⟨hbefore, hterm, hbox⟩ := hleading id hleads
    exact (h.counted id).mono hgrows (fun _ => ⟨hbefore, hterm⟩) hbox hleads
  · rw [hgranted] at hgrant
    exact (hgrows.committed ⟨hgrant, h.committed grant hgrant⟩).2

theorem put_box_of_ne {replica : Replica} {other : PeerId} (hne : other ≠ id) :
    ((s.put id replica).nodes other).ballotBox = (s.nodes other).ballotBox := by
  rw [show (s.put id replica).nodes other = s.nodes other from Function.update_of_ne hne ..]

private theorem put_box_of_eq {replica : Replica}
    (hbox : replica.ballotBox = (s.nodes id).ballotBox)
    (other : PeerId) : ((s.put id replica).nodes other).ballotBox = (s.nodes other).ballotBox := by
  by_cases ho : other = id
  · rw [ho, put_self, hbox]
  · exact put_box_of_ne ho

theorem Balloted.put (h : Balloted conf s) {replica : Replica}
    (hbox : replica.ballotBox = (s.nodes id).ballotBox) : Balloted conf (s.put id replica) :=
  h.mono (.of_eq rfl rfl) rfl fun other hleads => ⟨hleads, rfl, put_box_of_eq hbox other⟩

theorem Balloted.elect (h : Keeps g s conf) (hs : Balloted conf s) {event : VoteProtocol.Event}
    (hstep : s.elect conf stepDownWhenVoteTimedout event = some s')
    (hfits : OneLeader.TermsFit s.cluster event) (hdisk : TermOnDisk s.cluster event) :
    Balloted conf s' := by
  refine ⟨counted_elect h hs.counted hfits hdisk hstep, ?_⟩
  have hgrows := grows_elect hstep
  obtain ⟨cluster, -, rfl⟩ := Option.map_eq_some_iff.mp hstep
  exact fun grant hgrant => (hgrows.committed ⟨hgrant, hs.committed grant hgrant⟩).2

theorem Balloted.handleAppendEntries (h : Keeps g s conf) (hs : Balloted conf s)
    {request : AppendEntriesRequest}
    (hfits : OneLeader.TermsFit s.cluster
      (.appendEntries request.peerId request.term request.serverId))
    (hstep : s.handleAppendEntries conf stepDownWhenVoteTimedout request = some s') :
    Balloted conf s' := by
  obtain ⟨after, helect, hstep⟩ := Option.bind_eq_some_iff.mp hstep
  have hafter := Balloted.elect h hs helect hfits trivial
  split at hstep
  · obtain ⟨replica, hreplica, hstep⟩ := Option.bind_eq_some_iff.mp hstep
    cases hstep
    refine hafter.put ?_
    unfold Replica.handleEntries at hreplica
    obtain ⟨localTerm, -, hreplica⟩ := Option.bind_eq_some_iff.mp hreplica
    split at hreplica
    · obtain ⟨result, -, heq⟩ := Option.bind_eq_some_iff.mp hreplica
      cases heq
      rfl
    · cases hreplica
      rfl
  · cases hstep
    exact hafter

theorem Balloted.resume (h : Keeps g s conf) (hs : Balloted conf s) {position : Nat}
    (hstep : s.resume conf stepDownWhenVoteTimedout id position = some s') : Balloted conf s' := by
  unfold Replicas.resume at hstep
  dsimp only at hstep
  split at hstep
  · split at hstep
    · cases hstep
      exact hs
    · exact Balloted.elect (h.takeAnswer position) (hs.put rfl) hstep trivial trivial
  · cases hstep
    exact hs

theorem Balloted.crash (h : Keeps g s conf) (hs : Balloted conf s)
    (hdisk : (s.cluster.nodes id).metaStorage.term = (s.cluster.nodes id).currentTerm)
    {after : Replicas} (helect : s.elect conf stepDownWhenVoteTimedout (.crash id) = some after) :
    Balloted conf (after.put id (after.nodes id).restart) := by
  have hafter := Balloted.elect h hs helect trivial hdisk
  obtain ⟨cluster, hcluster, rfl⟩ := Option.map_eq_some_iff.mp helect
  cases hcluster
  refine hafter.mono (.of_eq rfl rfl) rfl fun other hleads => ?_
  by_cases ho : other = id
  · subst ho
    change ((Function.update s.cluster.nodes other _) other).state.leading = true at hleads
    rw [Function.update_self] at hleads
    cases hleads
  · exact ⟨hleads, rfl, put_box_of_ne ho⟩

theorem Balloted.step (h : Keeps g s conf) (hs : Balloted conf s) {event : Event}
    (hguard : Orderly s event) (hhonest : Honest s event)
    (hstep : s.step conf stepDownWhenVoteTimedout event = some s') : Balloted conf s' := by
  have hgrows := grows_step hstep
  unfold Replicas.step at hstep
  cases event with
  | electionTimeout other =>
    obtain ⟨lastLogId, -, hstep⟩ := Option.bind_eq_some_iff.mp hstep
    exact Balloted.elect h hs hstep trivial trivial
  | voteTimeout other =>
    obtain ⟨lastLogId, -, hstep⟩ := Option.bind_eq_some_iff.mp hstep
    exact Balloted.elect h hs hstep trivial trivial
  | receive position => exact Balloted.elect h hs hstep trivial trivial
  | call other position =>
    cases hstep
    refine hs.put ?_
    unfold Replica.call
    split <;> rfl
  | resume other position => exact Balloted.resume h hs hstep
  | saveVote other => exact Balloted.elect h hs hstep trivial trivial
  | increaseTermTo other newTerm => exact Balloted.elect h hs hstep hguard trivial
  | stepdownTimeout other => exact Balloted.elect h hs hstep trivial trivial
  | apply other tasks =>
    dsimp only at hstep
    split at hstep
    · cases hstep
      exact hs
    · obtain ⟨replica, hreplica, rfl⟩ := Option.map_eq_some_iff.mp hstep
      exact ⟨counted_apply hs.counted hreplica, hs.committed⟩
  | sendEntries other peer index committedIndex committedOoIndex =>
    obtain ⟨requests, -, rfl⟩ := Option.map_eq_some_iff.mp hstep
    exact hs.mono hgrows rfl fun id hleads => ⟨hleads, rfl, rfl⟩
  | sendEmptyEntries other peer prevLogIndex committedIndex committedOoIndex =>
    obtain ⟨requests, -, rfl⟩ := Option.map_eq_some_iff.mp hstep
    exact hs.mono hgrows rfl fun id hleads => ⟨hleads, rfl, rfl⟩
  | appendEntries position =>
    dsimp only at hstep
    split at hstep
    · rename_i request hrequest
      exact Balloted.handleAppendEntries h hs (hguard request hrequest).1 hstep
    · cases hstep
      exact hs
  | diskWrite other =>
    cases hstep
    refine hs.mono hgrows rfl fun id hleads => ⟨hleads, rfl, ?_⟩
    have hbox : (s.nodes other).diskWrite.1.ballotBox = (s.nodes other).ballotBox := by
      rcases diskWrite_cases (s.nodes other) with
        hidle | ⟨log, task, status, answers, entries, -, hresult, -⟩
      · rw [hidle]
      · rw [hresult]
    exact put_box_of_eq hbox id
  | diskBatchEnd other =>
    cases hstep
    exact hs.put rfl
  | commitAt other indexes peer =>
    obtain ⟨outcome, houtcome, rfl⟩ := Option.map_eq_some_iff.mp hstep
    obtain ⟨hcounted, hcommitted⟩ :=
      sound_commitAt h hs.counted hs.committed hhonest houtcome rfl
    exact ⟨hcounted, hcommitted⟩
  | applied other appliedId =>
    cases hstep
    exact hs.put rfl
  | crash other =>
    obtain ⟨after, helect, rfl⟩ := Option.map_eq_some_iff.mp hstep
    exact Balloted.crash h hs hguard helect

theorem balloted_init (conf : Configuration) (dependencyLookBack : Int) :
    Balloted conf (.init dependencyLookBack) :=
  ⟨fun _ hleads => (Bool.false_ne_true hleads).elim,
    fun _ hgrant => (List.not_mem_nil hgrant).elim⟩

private theorem balloted_of_run {dependencyLookBack : Int} {events : List Event}
    (hguard : Guarded (Replicas.step conf stepDownWhenVoteTimedout)
      (fun s event => Orderly s event ∧ Honest s event) (.init dependencyLookBack) events)
    (hrun : runEvents (Replicas.step conf stepDownWhenVoteTimedout) (.init dependencyLookBack)
      events = some s) : (∃ g, Keeps g s conf) ∧ Balloted conf s := by
  have hkeep : ∀ s event s', (∃ g, Keeps g s conf) ∧ Balloted conf s →
      Orderly s event ∧ Honest s event → s.step conf stepDownWhenVoteTimedout event = some s' →
        (∃ g, Keeps g s' conf) ∧ Balloted conf s' := by
    rintro s event s' ⟨⟨g, h⟩, hballoted⟩ ⟨hguard, hhonest⟩ hstep
    exact ⟨Keeps.step h hguard hstep, hballoted.step h hguard hhonest hstep⟩
  exact invariant_of_step hkeep ⟨⟨_, keeps_init conf dependencyLookBack⟩,
    balloted_init conf dependencyLookBack⟩ hguard hrun

private def elder : PeerId := ⟨1, 8000, 0⟩

private def voter : PeerId := ⟨2, 8001, 0⟩

private def heir : PeerId := ⟨3, 8000, 0⟩

private def trio : Configuration := ⟨[elder, voter, heir], by decide⟩

/-- `elder` is elected by `voter`, and two entries are granted on the writes of both. -/
private def granting : List Event :=
  [.electionTimeout elder, .receive 0, .call voter 0, .diskWrite voter, .resume voter 0,
    .receive 2, .call elder 0, .diskWrite elder, .resume elder 0, .saveVote elder, .receive 3,
    .call voter 0, .diskWrite voter, .resume voter 0, .receive 5,
    .apply elder [⟨-1, 0, []⟩, ⟨-1, 0, [1]⟩], .diskWrite elder, .sendEntries elder voter 1 0 [],
    .sendEntries elder voter 2 0 [], .sendEntries elder heir 1 0 [],
    .sendEntries elder heir 2 0 [], .appendEntries 0, .appendEntries 1, .diskWrite voter,
    .diskWrite voter, .diskBatchEnd voter, .commitAt elder [1, 2] elder,
    .commitAt elder [1, 2] voter]

/-- `heir` gets the entries, is elected by `voter`, and has one of its own term granted. -/
private def inheriting : List Event :=
  [.appendEntries 2, .appendEntries 3, .diskWrite heir, .diskWrite heir,
    .electionTimeout heir, .receive 7, .call voter 0, .diskWrite voter, .resume voter 0,
    .receive 8, .call heir 0, .diskWrite heir, .resume heir 0, .saveVote heir, .receive 10,
    .call voter 0, .diskWrite voter, .resume voter 0, .receive 11,
    .apply heir [⟨-1, 0, [2]⟩], .diskWrite heir, .sendEntries heir voter 3 0 [],
    .appendEntries 4, .diskWrite voter, .commitAt heir [3] heir, .commitAt heir [3] voter]

/-- In a run whose acknowledgements are honest, what a ballot box grants at any point is
written by a majority, is held by every leader elected in a later term, and is the only
entry that any leader ever grants at its index. -/
theorem granted_final (conf : Configuration) (stepDownWhenVoteTimedout : Bool)
    (dependencyLookBack : Int) (pre post : List Event) (s t : Replicas)
    (hguard : Guarded (Replicas.step conf stepDownWhenVoteTimedout)
      (fun s event => Orderly s event ∧ Honest s event) (.init dependencyLookBack) (pre ++ post))
    (hpre : runEvents (Replicas.step conf stepDownWhenVoteTimedout) (.init dependencyLookBack)
      pre = some s)
    (hpost : runEvents (Replicas.step conf stepDownWhenVoteTimedout) s post = some t)
    (grant : Granted) (hgrant : grant ∈ s.granted) :
    Majority conf.members (s.holders conf grant) ∧
      (∀ leadership ∈ t.leaderships, grant.term < leadership.term →
        leadership.held.getEntry grant.entry.id.index = some grant.entry) ∧
      ∀ other ∈ t.granted, other.entry.id.index = grant.entry.id.index →
        other.entry = grant.entry := by
  have hwritten := (balloted_of_run (guarded_append_left hguard) hpre).2.committed grant hgrant
  obtain ⟨⟨g, h⟩, hballoted⟩ :=
    balloted_of_run hguard (runEvents_append_eq_some.mpr ⟨s, hpre, hpost⟩)
  have hcommitted : Committed conf t grant := (grows_run hpost).committed ⟨hgrant, hwritten⟩
  refine ⟨hwritten, ?_, fun other hother hindex => ?_⟩
  · exact Keeps.leaderComplete h grant hcommitted.1 hcommitted.2
  · exact committed_unique h ⟨hother, hballoted.committed other hother⟩ hcommitted hindex

private def earlierEntry : LogEntry := ⟨.data, ⟨1, 2⟩, 0, none, none, []⟩

theorem granted_final_inherited : ∃ s t,
    runEvents (Replicas.step trio true) (.init 8) granting = some s ∧
    runEvents (Replicas.step trio true) s inheriting = some t ∧
    t.granted.map (fun grant => (grant.term, grant.entry.id.index)) = [(2, 1), (2, 2), (3, 3)] ∧
    Majority trio.members (s.holders trio ⟨2, earlierEntry⟩) ∧
      (∀ leadership ∈ t.leaderships, 2 < leadership.term →
        leadership.held.getEntry 1 = some earlierEntry) ∧
      ∀ other ∈ t.granted, other.entry.id.index = 1 → other.entry = earlierEntry := by
  have hgranted : (runEvents (Replicas.step trio true) (.init 8) granting).map
      (fun s => decide (⟨2, earlierEntry⟩ ∈ s.granted)) = some true := by
    decide +kernel
  obtain ⟨s, hpre, hgranted⟩ := Option.map_eq_some_iff.mp hgranted
  have hafter : (runEvents (Replicas.step trio true) (.init 8) (granting ++ inheriting)).map
      (fun t => t.granted.map fun grant => (grant.term, grant.entry.id.index)) =
        some [(2, 1), (2, 2), (3, 3)] := by
    decide +kernel
  obtain ⟨t, hrun, hafter⟩ := Option.map_eq_some_iff.mp hafter
  obtain ⟨s', hpre', hpost⟩ := runEvents_append_eq_some.mp hrun
  cases hpre.symm.trans hpre'
  exact ⟨s, t, hpre, hpost, hafter, granted_final trio true 8 granting inheriting s t
    (by decide +kernel) hpre hpost ⟨2, earlierEntry⟩ (of_decide_eq_true hgranted)⟩

end Runs

end HitConsistency.Election.CommittedBallots
