/- GID: HitConsistency/Election/ReplicaSteps
   digest: What the ballots, the disk thread and new entries of one node keep in order. -/

import HitConsistency.Election.InOrderReplication

set_option autoImplicit false
set_option relaxedAutoImplicit false

namespace HitConsistency.Election.ReplicaSteps

open HitConsistency.Base.TermChains
open HitConsistency.Commit.PendingQueues
open HitConsistency.Election.HandlerTurns
open HitConsistency.Election.InOrderReplication
open HitConsistency.Election.OneLeader
open HitConsistency.Election.ReplicatedLogs
open HitConsistency.Election.VoteProtocol (Waiting)
open HitConsistency.Group.Peers
open HitConsistency.Log.Entry
open HitConsistency.Log.InOrderLog
open HitConsistency.Log.KeptEntries (length_assignIndexes)
open HitConsistency.Log.MemoryLog
open HitConsistency.Node.AppendHandler (Follower)
open HitConsistency.Node.RoleState

variable {conf : Configuration} {g : Chronicle} {s : Replicas} {id : PeerId}

section Ballots

variable {indexes : List Int} {peer : PeerId} {outcome : Outcome}

private theorem Keeps.grants_term (h : Keeps g s conf)
    (hrun : (s.nodes id).ballotBox.commitAt indexes peer = some outcome) :
    ∀ grant ∈ s.grants id outcome, termOf grant.entry = grant.term := by
  intro grant hgrant
  obtain ⟨index, hindex, hentry⟩ := List.mem_filterMap.mp hgrant
  obtain ⟨entry, hget, rfl⟩ := Option.map_eq_some_iff.mp hentry
  cases hreport : outcome.onCommitted with
  | none =>
    rw [hreport] at hindex
    simp at hindex
  | some report =>
    rw [hreport] at hindex
    obtain ⟨hopen, hpending⟩ := commitAt_pending hrun hreport
    have hleading : (s.cluster.nodes id).state.leading = true := by
      by_contra hnot
      exact hopen ((h.lead id).idle (Bool.eq_false_iff.mpr hnot)).1
    obtain ⟨k, rfl, hk⟩ := (h.log id).inOrder.getEntry (Option.join_eq_some_iff.mp hget)
    exact ((h.lead id).ballots hleading).own k entry hk (hpending _ hindex)

theorem Keeps.commitAt (h : Keeps g s conf)
    (hrun : (s.nodes id).ballotBox.commitAt indexes peer = some outcome) :
    Keeps g { s.put id { s.nodes id with ballotBox := outcome.box } with
      granted := s.granted ++ s.grants id outcome } conf := by
  have hp : Puts s id { s.nodes id with ballotBox := outcome.box }
      { s.put id { s.nodes id with ballotBox := outcome.box } with
        granted := s.granted ++ s.grants id outcome } := ⟨rfl, rfl, rfl, rfl⟩
  have hlead := h.lead id
  obtain ⟨k, hlength, -, hshift, -⟩ := commitAt_shift hrun
  refine h.put_same hp rfl (fun _ hc => hc) (h.log id).inOrder ?_
    (fun hl => (h.pipe id).put hl hp (fun _ ht => ht) (fun _ ht => .inl ht) (h.pipe id).order
      fun _ ha => .inl ha) ?_
  · refine ⟨hlead.elected, hlead.own, ?_, ?_, ?_⟩
    · intro hleading
      obtain ⟨hpending, hcount, hown⟩ := hlead.ballots hleading
      refine ⟨?_, ?_, ?_⟩
      · rw [hp.self]
        dsimp only
        omega
      · rw [hp.self]
        dsimp only
        omega
      · rw [hp.self]
        intro j entry hj hle
        exact hown j entry hj (by dsimp only at hle; omega)
    · intro hidle
      obtain ⟨hzero, hempty⟩ := hlead.idle hidle
      rw [hp.self]
      unfold BallotBox.commitAt at hrun
      rw [if_pos hzero] at hrun
      cases hrun
      exact ⟨hzero, hempty⟩
    · rw [hp.self]
      exact hlead.replicators
  · intro grant hgrant
    rcases List.mem_append.mp hgrant with hold | hnew
    · exact .inl hold
    · exact .inr (grants_term h hrun grant hnew)

end Ballots

section Disk

variable {log : LogManager Done} {task : DiskTask Done} {status : Status}

/-- The disk thread takes a task off the queue. What it has written is stored, and whoever
asked for the last entry has an answer. -/
theorem Keeps.wrote (h : Keeps g s conf)
    (hwrite : (s.nodes id).log.diskWrite = some (log, task, status))
    {answers : List (Waiting × LogId)} {stored : List Stored}
    (hanswers : ∀ answer ∈ answers, answer ∈ (s.nodes id).answers ∨
      task = .lastLogId (.lastLogId answer.1) ∧ answer.2 = log.lastId)
    (hstored : ∀ item ∈ stored, item ∈ s.stored ∨ item.node = id ∧
      ∃ closure, task = .append closure ∧ closure.done.term = item.term ∧
        item.entry ∈ closure.entries) :
    ∃ g', Keeps g' { s.put id { s.nodes id with log := log, answers := answers } with
      stored := stored } conf := by
  obtain ⟨hqueue, -, hbatch, hinOrder⟩ := (h.log id).inOrder.diskWrite hwrite
  have hp : Puts s id { s.nodes id with log := log, answers := answers }
      { s.put id { s.nodes id with log := log, answers := answers } with stored := stored } :=
    ⟨rfl, rfl, rfl, rfl⟩
  have hpipe := h.pipe id
  have htail : ∀ other ∈ log.diskQueue, other ∈ (s.nodes id).log.diskQueue := by
    rw [hqueue]
    exact fun other ho => List.mem_cons_of_mem _ ho
  have hhead : task ∈ (s.nodes id).log.diskQueue := by
    rw [hqueue]
    exact List.mem_cons_self
  have horder := hpipe.order
  rw [hqueue] at horder
  let g' := g.grow id (g.logs id) (g.written id + (batch task).length) g.origin
  have hdurable : ∀ entry ∈ batch task, entry ∈ g'.durable id := by
    intro entry hentry
    obtain ⟨rest, hrest⟩ := hbatch
    have htaken : (g.logs id).take (g.written id + (batch task).length) =
        (g.logs id).take (g.written id) ++ batch task := by
      rw [List.take_add, ← hrest, List.take_left]
    show entry ∈ (g'.logs id).take (g'.written id)
    rw [Chronicle.grow_logs, Chronicle.grow_written, htaken]
    exact List.mem_append_right _ hentry
  have hl : Later g s g' { s.put id { s.nodes id with log := log, answers := answers } with
      stored := stored } := by
    refine hp.later (Nat.le_add_right _ _) rfl (fun _ => List.prefix_rfl)
      (fun closure hc => .inl (htail _ hc)) fun item hi => ?_
    rcases hstored item hi with hold | ⟨hnode, closure, htask, hterm, -⟩
    · exact .inl hold
    · refine .inr ⟨closure, ?_, hterm⟩
      rw [hnode, ← htask]
      exact hhead
  refine ⟨g', h.replica_step hl rfl rfl (fun other ho => hp.untouched ho fun _ _ => rfl) ?_ ?_ ?_
    (fun term => ?_) rfl (fun item hi => ?_) (fun _ hg => .inl hg) rfl⟩
  · refine ⟨?_, ?_, ?_, (h.log id).positive⟩
    · rw [hp.self, Chronicle.grow_logs, Chronicle.grow_written]
      exact hinOrder
    · rw [Chronicle.grow_logs]
      exact (h.log id).chained
    · rw [Chronicle.grow_logs]
      exact (h.log id).bounded
  · exact (h.lead id).put hp rfl rfl Chronicle.grow_logs rfl
  · refine hpipe.put hl hp (fun _ ht => ht) (fun thread ht => .inl (htail _ ht))
      (List.pairwise_cons.mp horder).2 fun answer ha => ?_
    rcases hanswers answer ha with hold | ⟨htask, hid⟩
    · exact .inl hold
    · subst htask
      have hasks := hpipe.queued answer.1 hhead
      refine .inr ⟨hasks.later hl, g.written id, ?_, ?_⟩
      · refine ⟨Nat.le_add_right _ _ |>.trans_eq Chronicle.grow_written.symm, hasks.1, ?_, ?_⟩
        · intro item hi hnode _
          rcases hstored item hi with hold | ⟨-, closure, htask, -⟩
          · obtain ⟨k, hk, -, hindex⟩ := h.stored_position hold
            rw [hnode] at hk
            omega
          · cases htask
        · intro closure hc
          change .append closure ∈ (Function.update s.nodes id _ id).log.diskQueue at hc
          rw [Function.update_self] at hc
          exact (List.pairwise_cons.mp horder).1 _ hc
      · rw [hid, hinOrder.lastId, Chronicle.grow_logs]
        rfl
  · obtain ⟨hnumbered, hchained, hbounded, hunled⟩ := h.origin term
    exact ⟨hnumbered, hchained, hbounded, hunled⟩
  · rcases hstored item hi with hold | ⟨hnode, closure, htask, -, hentry⟩
    · exact .inl hold
    · refine .inr ?_
      rw [hnode]
      apply hdurable
      rw [htask]
      exact hentry

theorem diskWrite_cases (replica : Replica) :
    (replica.diskWrite = (replica, [])) ∨
      ∃ log task status answers entries, replica.log.diskWrite = some (log, task, status) ∧
        replica.diskWrite = ({ replica with log := log, answers := answers }, entries) ∧
        (∀ answer ∈ answers, answer ∈ replica.answers ∨
          task = .lastLogId (.lastLogId answer.1) ∧ answer.2 = log.lastId) ∧
        ∀ entry ∈ entries, ∃ closure, task = .append closure ∧ closure.done.term = entry.1 ∧
          entry.2 ∈ closure.entries := by
  unfold Replica.diskWrite
  cases hwrite : replica.log.diskWrite with
  | none => exact .inl rfl
  | some result =>
    obtain ⟨log, task, status⟩ := result
    right
    cases task with
    | append closure =>
      refine ⟨log, _, status, replica.answers, _, rfl, rfl, fun _ ha => .inl ha, ?_⟩
      intro entry hentry
      obtain ⟨written, hwritten, rfl⟩ := List.mem_map.mp hentry
      exact ⟨closure, rfl, rfl, hwritten⟩
    | lastLogId waiter =>
      cases waiter with
      | leader term =>
        exact ⟨log, _, status, replica.answers, [], rfl, rfl, fun _ ha => .inl ha, by simp⟩
      | follower term =>
        exact ⟨log, _, status, replica.answers, [], rfl, rfl, fun _ ha => .inl ha, by simp⟩
      | lastLogId thread =>
        refine ⟨log, _, status, replica.answers ++ [(thread, log.lastId)], [], rfl, rfl, ?_, by simp⟩
        intro answer ha
        rcases List.mem_append.mp ha with hold | hnew
        · exact .inl hold
        · cases List.mem_singleton.mp hnew
          exact .inr ⟨rfl, rfl⟩
    | truncateSuffix kept term =>
      exact ⟨log, _, status, replica.answers, [], rfl, rfl, fun _ ha => .inl ha, by simp⟩

theorem Keeps.diskWrite (h : Keeps g s conf) (id : PeerId) :
    ∃ g', Keeps g' { s.put id (s.nodes id).diskWrite.1 with
      stored := s.stored ++ (s.nodes id).diskWrite.2.map fun entry =>
        ⟨id, entry.1, entry.2⟩ } conf := by
  rcases diskWrite_cases (s.nodes id) with
    hidle | ⟨log, task, status, answers, entries, hwrite, hresult, hanswers, hentries⟩
  · rw [hidle, List.map_nil, List.append_nil]
    exact ⟨g, h.relog (h.log id).inOrder rfl⟩
  · rw [hresult]
    refine wrote h hwrite hanswers fun item hi => ?_
    rcases List.mem_append.mp hi with hold | hnew
    · exact .inl hold
    · obtain ⟨entry, hentry, rfl⟩ := List.mem_map.mp hnew
      exact .inr ⟨rfl, hentries entry hentry⟩

end Disk

section Entries

variable {log : LogManager Done} {box : BallotBox} {more : List LogEntry} {done : Done}
  {front : Int} {origin : Int → List LogEntry}

private theorem Keeps.grew (h : Keeps g s conf)
    (hinOrder : InOrder (g.logs id ++ more) (g.written id) log)
    (hqueue : log.diskQueue = (s.nodes id).log.diskQueue ++ [.append ⟨front, more, done⟩])
    (hdone : done.term = (s.cluster.nodes id).currentTerm)
    (hgrows : ∀ term, g.origin term <+: origin term)
    (hothers : ∀ other term, other ≠ id → (other, term) ∈ s.cluster.elected →
      origin term = g.origin term)
    (hchained : Chained termOf origin (g.logs id ++ more))
    (hbounded : ∀ entry ∈ more, termOf entry ≤ (s.cluster.nodes id).currentTerm)
    (hlead : LeadPart (g.grow id (g.logs id ++ more) (g.written id) origin)
      (s.put id { s.nodes id with log := log, ballotBox := box }) id)
    (horigin : ∀ term, OriginPart (g.grow id (g.logs id ++ more) (g.written id) origin)
      (s.put id { s.nodes id with log := log, ballotBox := box }) term) :
    Keeps (g.grow id (g.logs id ++ more) (g.written id) origin)
      (s.put id { s.nodes id with log := log, ballotBox := box }) conf := by
  have hp := puts_put s id { s.nodes id with log := log, ballotBox := box }
  have hpipe := h.pipe id
  have hl : Later g s (g.grow id (g.logs id ++ more) (g.written id) origin)
      (s.put id { s.nodes id with log := log, ballotBox := box }) := by
    refine hp.later le_rfl (List.take_append_of_le_length (h.log id).inOrder.bounded) hgrows
      (fun closure hc => ?_) fun _ hi => .inl hi
    change .append closure ∈ log.diskQueue at hc
    rw [hqueue] at hc
    rcases List.mem_append.mp hc with hold | hnew
    · exact .inl hold
    · cases List.mem_singleton.mp hnew
      exact .inr hdone.ge
  refine h.replica_step hl rfl rfl
    (fun other ho => hp.untouched ho fun term ht => hothers other term ho ht) ?_ hlead ?_ horigin
    rfl (fun _ hi => .inl hi) (fun _ hg => .inl hg) rfl
  · refine ⟨?_, ?_, ?_, (h.log id).positive⟩
    · rw [hp.self, Chronicle.grow_logs, Chronicle.grow_written]
      exact hinOrder
    · rw [Chronicle.grow_logs]
      exact hchained
    · rw [Chronicle.grow_logs]
      intro entry hentry
      rcases List.mem_append.mp hentry with hold | hnew
      · exact (h.log id).bounded entry hold
      · exact hbounded entry hnew
  · refine hpipe.put hl hp (fun _ ht => ht) (fun thread ht => .inl ?_) ?_ fun _ ha => .inl ha
    · change .lastLogId (.lastLogId thread) ∈ log.diskQueue at ht
      rw [hqueue] at ht
      rcases List.mem_append.mp ht with hold | hnew
      · exact hold
      · cases List.mem_singleton.mp hnew
    · show log.diskQueue.Pairwise Ahead
      rw [hqueue]
      refine List.pairwise_append.mpr ⟨hpipe.order, List.pairwise_singleton .., ?_⟩
      intro task htask next hnext
      rw [List.mem_singleton.mp hnext]
      -- A handler that waits has asked in the current term or before.
      cases task with
      | append closure => trivial
      | lastLogId waiter =>
        cases waiter with
        | leader term => trivial
        | follower term => trivial
        | lastLogId thread => exact (hpipe.queued thread htask).1.trans hdone.ge
      | truncateSuffix kept term => trivial

private theorem wired_data {entry : LogEntry} (htype : entry.type = .data)
    (hpeers : entry.peers = none ∧ entry.oldPeers = none) : Wired entry := by
  obtain ⟨type, id, dependency, peers, oldPeers, data⟩ := entry
  obtain ⟨rfl, rfl⟩ := hpeers
  cases htype
  unfold Wired LogEntry.toMeta Follower.parseEntries Follower.parseEntries
  simp

private theorem foldl_appendPendingTask (conf : Configuration) (tasks : List Task)
    (box : BallotBox) :
    (tasks.foldl (fun box _ => box.appendPendingTask conf none) box).pendingIndex =
        box.pendingIndex ∧
      (tasks.foldl (fun box _ => box.appendPendingTask conf none) box).pendingMetaQueue.length =
        box.pendingMetaQueue.length + tasks.length := by
  induction tasks generalizing box with
  | nil => exact ⟨rfl, rfl⟩
  | cons task tasks ih =>
    obtain ⟨hpending, hlength⟩ := ih (box.appendPendingTask conf none)
    refine ⟨hpending, hlength.trans ?_⟩
    simp [BallotBox.appendPendingTask]
    omega

private theorem Keeps.own_entries (h : Keeps g s conf)
    (hleading : (s.cluster.nodes id).state.leading = true)
    (hinOrder : InOrder (g.logs id ++ more) (g.written id) log)
    (hqueue : log.diskQueue = (s.nodes id).log.diskQueue ++ [.append ⟨front, more, done⟩])
    (hdone : done.term = (s.cluster.nodes id).currentTerm)
    (hterm : ∀ entry ∈ more, termOf entry = (s.cluster.nodes id).currentTerm ∧ Wired entry)
    (hpending : box.pendingIndex = (s.nodes id).ballotBox.pendingIndex)
    (hlength : box.pendingMetaQueue.length =
      (s.nodes id).ballotBox.pendingMetaQueue.length + more.length) :
    ∃ g', Keeps g' (s.put id { s.nodes id with log := log, ballotBox := box }) conf := by
  have hlead := h.lead id
  have helected := hlead.elected hleading
  have hown := hlead.own helected (.inl hleading)
  let origin := Function.update g.origin (s.cluster.nodes id).currentTerm (g.logs id ++ more)
  have hself : origin (s.cluster.nodes id).currentTerm = g.logs id ++ more := Function.update_self ..
  have hother : ∀ term, term ≠ (s.cluster.nodes id).currentTerm → origin term = g.origin term :=
    fun term ht => Function.update_of_ne ht ..
  have hgrows : ∀ term, g.origin term <+: origin term := by
    intro term
    by_cases ht : term = (s.cluster.nodes id).currentTerm
    · rw [ht, hself, hown]
      exact List.prefix_append ..
    · rw [hother term ht]
  have hchained : Chained termOf origin (g.logs id ++ more) :=
    ((h.log id).chained.mono hgrows).append (fun entry he => (hterm entry he).1) (by rw [hself])
  have hp := puts_put s id { s.nodes id with log := log, ballotBox := box }
  refine ⟨_, grew h hinOrder hqueue hdone hgrows (fun other term ho ht => ?_) hchained
    (fun entry he => (hterm entry he).1.le) ?_ fun term => ?_⟩
  · refine hother term fun hsame => ho ?_
    rw [hsame] at ht
    exact h.unique_leader ht helected
  · refine ⟨hlead.elected, ?_, ?_, ?_, ?_⟩
    · intro _ _
      rw [Chronicle.grow_logs]
      exact hself
    · intro _
      obtain ⟨hpositive, hcount, hownTerm⟩ := hlead.ballots hleading
      refine ⟨?_, ?_, ?_⟩
      · rw [hp.self]
        dsimp only
        omega
      · rw [hp.self, Chronicle.grow_logs, List.length_append]
        dsimp only
        push_cast
        omega
      · rw [hp.self, Chronicle.grow_logs]
        intro k entry hk hle
        rcases lt_or_ge k (g.logs id).length with hlt | hge
        · rw [List.getElem?_append_left hlt] at hk
          exact hownTerm k entry hk (by dsimp only at hle; omega)
        · rw [List.getElem?_append_right hge] at hk
          exact (hterm entry (List.mem_of_getElem? hk)).1
    · intro hidle
      exact absurd hleading (Bool.eq_false_iff.mp hidle)
    · rw [hp.self]
      exact hlead.replicators
  · obtain ⟨hnumbered, hchainedOld, hbounded, hunled⟩ := h.origin term
    by_cases ht : term = (s.cluster.nodes id).currentTerm
    · subst ht
      refine ⟨?_, ?_, ?_, ?_⟩
      · show Numbered (origin _)
        rw [hself]
        exact hinOrder.numbered
      · show Chained termOf origin (origin _)
        rw [hself]
        exact hchained
      · show ∀ entry ∈ origin _, _
        rw [hself]
        intro entry he
        rcases List.mem_append.mp he with hold | hnew
        · rw [← hown] at hold
          exact hbounded entry hold
        · exact ⟨(hterm entry hnew).1.le, (hterm entry hnew).2⟩
      · intro hnone
        exact absurd helected (hnone id)
    · refine ⟨?_, ?_, ?_, ?_⟩
      · show Numbered (origin term)
        rw [hother term ht]
        exact hnumbered
      · show Chained termOf origin (origin term)
        rw [hother term ht]
        exact hchainedOld.mono hgrows
      · show ∀ entry ∈ origin term, _
        rw [hother term ht]
        exact hbounded
      · show _ → origin term = []
        rw [hother term ht]
        exact hunled

private theorem Keeps.append_own (h : Keeps g s conf)
    (hleading : (s.cluster.nodes id).state.leading = true) {entries : List LogEntry}
    (hraw : ∀ entry ∈ entries, entry.id = ⟨0, (s.cluster.nodes id).currentTerm⟩ ∧
      entry.type = .data ∧ entry.peers = none ∧ entry.oldPeers = none) {status : Option Status}
    (happend : (s.nodes id).log.appendEntries entries
      (.leader (s.cluster.nodes id).currentTerm) false = some (log, status))
    (hpending : box.pendingIndex = (s.nodes id).ballotBox.pendingIndex)
    (hlength : box.pendingMetaQueue.length =
      (s.nodes id).ballotBox.pendingMetaQueue.length + entries.length) :
    ∃ g', Keeps g' (s.put id { s.nodes id with log := log, ballotBox := box }) conf := by
  have hinOrder := (h.log id).inOrder
  have hassigned : ∀ (k : Nat) entry,
      (LogManager.assignIndexes (g.logs id).length entries)[k]? = some entry →
      entry.id = ⟨(g.logs id).length + k + 1, (s.cluster.nodes id).currentTerm⟩ ∧ Wired entry := by
    intro k entry hk
    rw [getElem?_assignIndexes] at hk
    obtain ⟨raw, hentry, rfl⟩ := Option.map_eq_some_iff.mp hk
    obtain ⟨hid, htype, hpeers⟩ := hraw raw (List.mem_of_getElem? hentry)
    refine ⟨?_, wired_data htype hpeers⟩
    rw [hid]
  have hterm : ∀ entry ∈ LogManager.assignIndexes (g.logs id).length entries,
      termOf entry = (s.cluster.nodes id).currentTerm ∧ Wired entry := by
    intro entry hentry
    obtain ⟨k, hk⟩ := List.mem_iff_getElem?.mp hentry
    obtain ⟨hid, hwired⟩ := hassigned k entry hk
    exact ⟨congrArg LogId.term hid, hwired⟩
  have hnumbered : Numbered
      (g.logs id ++ LogManager.assignIndexes (g.logs id).length entries) :=
    hinOrder.numbered.append (h.log id).positive (h.log id).bounded
      (fun entry he => (hterm entry he).1)
      fun k entry hk => congrArg LogId.index (hassigned k entry hk).1
  have hzero : ∀ entry ∈ entries, entry.id.index = 0 :=
    fun entry he => congrArg LogId.index (hraw entry he).1
  obtain ⟨hnew, front, hqueue⟩ := hinOrder.appendOwn hzero hnumbered happend
  refine own_entries h hleading hnew hqueue rfl hterm hpending ?_
  rw [hlength, length_assignIndexes]

theorem Keeps.apply (h : Keeps g s conf) (hleader : (s.cluster.nodes id).state = .leader)
    {tasks : List Task} {replica : Replica}
    (hrun : (s.nodes id).apply conf (s.cluster.nodes id).currentTerm tasks = some replica) :
    ∃ g', Keeps g' (s.put id replica) conf := by
  unfold Replica.apply at hrun
  obtain ⟨⟨log, status⟩, happend, rfl⟩ := Option.map_eq_some_iff.mp hrun
  obtain ⟨hpending, hlength⟩ := foldl_appendPendingTask conf (tasks.filter fun task =>
    task.expectedTerm = -1 ∨ task.expectedTerm = (s.cluster.nodes id).currentTerm)
      (s.nodes id).ballotBox
  refine append_own h (by rw [hleader]; rfl) (fun entry he => ?_) happend hpending ?_
  · obtain ⟨task, -, rfl⟩ := List.mem_map.mp he
    exact ⟨rfl, rfl, rfl, rfl⟩
  · rw [hlength, List.length_map]

theorem eq_of_lastTerm {a b : List LogEntry} (ha : Chained termOf origin a)
    (hb : Chained termOf origin b) (hlength : a.length = b.length)
    (hterm : (lastIdOf a).term = (lastIdOf b).term) : a = b := by
  refine ha.eq_of_last hb hlength ?_
  rcases List.eq_nil_or_concat a with rfl | ⟨before, x, rfl⟩
  · rw [List.length_eq_zero_iff.mp hlength.symm]
  · rcases List.eq_nil_or_concat b with rfl | ⟨before', y, rfl⟩
    · simp at hlength
    · have hsame : x.id.term = y.id.term := by simpa [lastIdOf] using hterm
      simp [termOf, hsame]

variable {request : AppendEntriesRequest} {replica : Replica}

/-- The request begins right behind the log of its receiver, and no entry is of a later
term than the request. -/
structure Continues (replica : Replica) (request : AppendEntriesRequest) : Prop where
  index : request.prevLogIndex = replica.log.lastLogIndex
  term : replica.log.unsafeGetTerm request.prevLogIndex = some request.prevLogTerm
  entries : ∀ entry ∈ request.entries, entry.term ≤ request.term

private theorem Keeps.leader_entry (h : Keeps g s conf)
    (hfollows : (s.cluster.nodes id).state.leading = false)
    (hnot : (id, (s.cluster.nodes id).currentTerm) ∉ s.cluster.elected)
    (hinOrder : InOrder (g.logs id ++ more) (g.written id) log)
    (hqueue : log.diskQueue = (s.nodes id).log.diskQueue ++ [.append ⟨front, more, done⟩])
    (hdone : done.term = (s.cluster.nodes id).currentTerm)
    (hchained : Chained termOf g.origin (g.logs id ++ more))
    (hbounded : ∀ entry ∈ more, termOf entry ≤ (s.cluster.nodes id).currentTerm) :
    ∃ g', Keeps g' (s.put id { s.nodes id with log := log }) conf := by
  have hlead := h.lead id
  have hp := puts_put s id { s.nodes id with log := log }
  refine ⟨_, grew h hinOrder hqueue hdone (fun _ => List.prefix_rfl) (fun _ _ _ _ => rfl) hchained
    hbounded ?_ fun term => ?_⟩
  · refine ⟨hlead.elected, fun helected => absurd helected hnot, fun hleading => ?_, ?_, ?_⟩
    · exact absurd hleading (Bool.eq_false_iff.mp hfollows)
    · rw [hp.self]
      exact hlead.idle
    · rw [hp.self]
      exact hlead.replicators
  · obtain ⟨hnumbered, hchainedOrigin, hboundedOrigin, hunled⟩ := h.origin term
    exact ⟨hnumbered, hchainedOrigin, hboundedOrigin, hunled⟩

theorem Keeps.handleEntries (h : Keeps g s conf) (hcarries : Carries g s request)
    (hid : request.peerId = id) (hfollows : (s.cluster.nodes id).state.leading = false)
    (hterm : (s.cluster.nodes id).currentTerm = request.term)
    (hcontinues : (s.nodes id).takes request = true → Continues (s.nodes id) request)
    (hrun : (s.nodes id).handleEntries (s.cluster.nodes id).currentTerm request = some replica) :
    ∃ g', Keeps g' (s.put id replica) conf := by
  have hinOrder := (h.log id).inOrder
  unfold Replica.handleEntries at hrun
  obtain ⟨localTerm, -, hrun⟩ := Option.bind_eq_some_iff.mp hrun
  split at hrun
  · rename_i htakes
    obtain ⟨⟨log, status⟩, happend, hreplica⟩ := Option.bind_eq_some_iff.mp hrun
    cases hreplica
    obtain ⟨hindex, hprev, hentryTerm⟩ := hcontinues htakes
    rcases hcarries.entries with hnil | ⟨piece, entry, hentries, hnumbered, hchained, hwired, hlast⟩
    · rw [Replica.takes, hnil] at htakes
      simp at htakes
    · have hpieceNumbered := hnumbered.isPrefix (List.prefix_append piece [entry])
      have hpieceChained := hchained.isPrefix (List.prefix_append piece [entry])
      have hprevIndex : request.prevLogIndex = piece.length := by
        rw [← hpieceNumbered.lastIdOf_index, hlast]
      have hlength : piece.length = (g.logs id).length := by
        have := hinOrder.last
        omega
      -- The log up to the entry is that of the leader.
      obtain rfl : piece = g.logs id := by
        refine eq_of_lastTerm hpieceChained (h.log id).chained hlength ?_
        rw [hprevIndex, hlength, hinOrder.unsafeGetTerm le_rfl, List.take_length] at hprev
        rw [hlast]
        exact (Option.some.inj hprev).symm
      have hentryIndex : entry.id.index = (g.logs id).length + 1 :=
        hnumbered.index (g.logs id).length entry (by simp)
      have hparsed : Follower.parseEntries request.prevLogIndex request.entries = [entry] := by
        rw [hentries, show request.prevLogIndex = entry.id.index - 1 by omega]
        exact hwired
      rw [hparsed] at happend
      rcases hinOrder.appendNext hnumbered happend with rfl | ⟨hnew, front, hqueue⟩
      · exact ⟨g, h.relog hinOrder rfl⟩
      · refine leader_entry h hfollows (fun helected => ?_) hnew hqueue rfl hchained fun e he => ?_
        · rw [hterm] at helected
          exact hcarries.other (hid.trans (h.unique_leader helected hcarries.elected))
        · rw [List.mem_singleton.mp he, hterm]
          exact hentryTerm entry.toMeta (by rw [hentries]; simp)
  · cases hrun
    exact ⟨g, h.relog hinOrder rfl⟩

end Entries

section Process

theorem Keeps.restart (h : Keeps g s conf)
    (hfollows : (s.cluster.nodes id).state.leading = false)
    (hquiet : ¬ Campaigning (s.cluster.nodes id)) :
    ∃ g', Keeps g' (s.put id (s.nodes id).restart) conf := by
  obtain ⟨hinOrder, hqueue⟩ := (h.log id).inOrder.restart
  have hp := puts_put s id (s.nodes id).restart
  have hnothing : ∀ task, task ∉ (s.nodes id).restart.log.diskQueue := by
    intro task htask
    change task ∈ (s.nodes id).log.restart.diskQueue at htask
    rw [hqueue] at htask
    cases htask
  let g' := g.grow id (g.durable id) (g.written id) g.origin
  have hl : Later g s g' (s.put id (s.nodes id).restart) := by
    refine hp.later le_rfl ?_ (fun _ => List.prefix_rfl) (fun closure hc => ?_) fun _ hi => .inl hi
    · unfold Chronicle.durable
      rw [List.take_take, min_self]
    · exact absurd hc (hnothing _)
  refine ⟨g', h.replica_step hl rfl rfl (fun other ho => hp.untouched ho fun _ _ => rfl) ?_ ?_ ?_
    (fun term => ?_) rfl (fun _ hi => .inl hi) (fun _ hg => .inl hg) rfl⟩
  · refine ⟨?_, ?_, ?_, (h.log id).positive⟩
    · rw [hp.self, Chronicle.grow_logs, Chronicle.grow_written]
      exact hinOrder
    · rw [Chronicle.grow_logs]
      exact (h.log id).chained.isPrefix (List.take_prefix ..)
    · rw [Chronicle.grow_logs]
      exact fun entry he => (h.log id).bounded entry (List.mem_of_mem_take he)
  · refine ⟨(h.lead id).elected, fun _ hactive => ?_, fun hleading => ?_, fun _ => ?_, ?_⟩
    · rcases hactive with hleading | hcampaigning
      · exact absurd hleading (Bool.eq_false_iff.mp hfollows)
      · exact absurd hcampaigning hquiet
    · exact absurd hleading (Bool.eq_false_iff.mp hfollows)
    · rw [hp.self]
      exact ⟨rfl, rfl⟩
    · rw [hp.self]
      intro item hi
      cases hi
  · refine (h.pipe id).put hl hp (fun thread ht => ?_) (fun thread ht => absurd ht (hnothing _)) ?_
      fun answer ha => ?_
    · cases ht
    · show (s.nodes id).log.restart.diskQueue.Pairwise Ahead
      rw [hqueue]
      exact .nil
    · cases ha
  · obtain ⟨hnumbered, hchained, hbounded, hunled⟩ := h.origin term
    exact ⟨hnumbered, hchained, hbounded, hunled⟩

end Process

section Requests

variable {request : AppendEntriesRequest}

theorem Keeps.send (h : Keeps g s conf) {requests : List AppendEntriesRequest}
    (hnew : ∀ request ∈ requests, Carries g s request) :
    Keeps g { s with requests := s.requests ++ requests } conf := by
  have hl : Later g s g { s with requests := s.requests ++ requests } :=
    ⟨fun _ => le_rfl, fun _ => rfl, fun _ => le_rfl, fun _ _ hc => .inl hc, fun _ hi => .inl hi,
      fun _ hw => hw, fun _ => List.prefix_rfl, fun _ _ => rfl⟩
  have hu : ∀ id, Untouched g s g { s with requests := s.requests ++ requests } id :=
    fun id => ⟨rfl, rfl, rfl, rfl, fun _ ht => ht, fun _ _ => rfl⟩
  refine
    { votes := h.votes
      log := fun id => (h.log id).untouched hl (hu id)
      lead := fun id => (h.lead id).untouched hl (hu id)
      pipe := fun id => (h.pipe id).untouched hl (hu id)
      origin := fun term => ?_
      led := fun winner hw => (h.led winner hw).later hw hl
      sent := h.sent
      voted := fun voter term candidate hv => ?_
      requests := fun request hr => ?_
      stored := h.stored
      granted := h.granted
      held := h.held }
  · obtain ⟨hnumbered, hchained, hbounded, hunled⟩ := h.origin term
    exact ⟨hnumbered, hchained, hbounded, hunled⟩
  · obtain ⟨lastLogId, hnames, hvoted⟩ := h.voted voter term candidate hv
    exact ⟨lastLogId, hnames, hvoted.later hl⟩
  · rcases List.mem_append.mp hr with hold | hsent
    · exact (h.requests request hold).later hl
    · exact (hnew request hsent).later hl

theorem Keeps.wired (h : Keeps g s conf) {entry : LogEntry} (hentry : entry ∈ g.logs id) :
    Wired entry := by
  obtain ⟨k, hk⟩ := List.mem_iff_getElem?.mp hentry
  have hpiece := (h.log id).chained k entry hk
  have hmem : entry ∈ (g.logs id).take (k + 1) := by
    rw [List.take_add_one, hk]
    simp
  exact ((h.origin (termOf entry)).bounded entry (hpiece.subset hmem)).2

theorem Keeps.replicator (h : Keeps g s conf) {peer : PeerId} {item : PeerId × Int}
    (hfind : ((s.nodes id).rmap.find? fun item => item.1 = peer) = some item) :
    peer ≠ id ∧ (id, item.2) ∈ s.cluster.elected := by
  have hpeer : item.1 = peer := by simpa using List.find?_some hfind
  rw [← hpeer]
  exact (h.lead id).replicators item (List.mem_of_find?_eq_some hfind)

private theorem Keeps.carries_entry (h : Keeps g s conf) {index prevLogTerm : Int}
    {entry : LogEntry}
    (hprev : (s.nodes id).log.unsafeGetTerm (index - 1) = some prevLogTerm)
    (hget : (s.nodes id).log.getEntry index = some (some entry)) :
    ∃ piece, Numbered (piece ++ [entry]) ∧ Chained termOf g.origin (piece ++ [entry]) ∧
      Wired entry ∧ lastIdOf piece = ⟨index - 1, prevLogTerm⟩ := by
  have hinOrder := (h.log id).inOrder
  obtain ⟨k, rfl, hk⟩ := hinOrder.getEntry hget
  have hlength : k < (g.logs id).length := (List.getElem?_eq_some_iff.mp hk).1
  have hpiece : (g.logs id).take k ++ [entry] = (g.logs id).take (k + 1) := by
    rw [List.take_add_one, hk]
    rfl
  have hbefore : (g.logs id).take k ++ [entry] <+: g.logs id := by
    rw [hpiece]
    exact List.take_prefix ..
  refine ⟨(g.logs id).take k, hinOrder.numbered.isPrefix hbefore,
    (h.log id).chained.isPrefix hbefore, wired h (List.mem_of_getElem? hk), ?_⟩
  rw [Int.add_sub_cancel, hinOrder.unsafeGetTerm hlength.le] at hprev
  have hindex := (hinOrder.numbered.take k).lastIdOf_index
  rw [List.length_take_of_le hlength.le] at hindex
  calc lastIdOf ((g.logs id).take k)
      = ⟨(lastIdOf ((g.logs id).take k)).index, (lastIdOf ((g.logs id).take k)).term⟩ := rfl
    _ = ⟨k + 1 - 1, prevLogTerm⟩ := by rw [hindex, Option.some.inj hprev, Int.add_sub_cancel]

theorem Keeps.sendEntries (h : Keeps g s conf) {peer : PeerId} {index committedIndex : Int}
    {committedOoIndex : List Int} {requests : List AppendEntriesRequest}
    (hrun : (s.nodes id).sendEntries id peer index committedIndex committedOoIndex =
      some requests) : Keeps g { s with requests := s.requests ++ requests } conf := by
  refine send h fun request hrequest => ?_
  unfold Replica.sendEntries at hrun
  split at hrun
  · cases hrun
    cases hrequest
  · rename_i found term hfound
    obtain ⟨hother, helected⟩ := replicator h hfound
    obtain ⟨prevLogTerm, hprev, hrun⟩ := Option.bind_eq_some_iff.mp hrun
    split at hrun
    · cases hrun
      cases hrequest
    · obtain ⟨slot, hget, hrun⟩ := Option.bind_eq_some_iff.mp hrun
      cases hrun
      cases slot with
      | none => cases hrequest
      | some entry =>
        cases List.mem_singleton.mp hrequest
        obtain ⟨piece, hnumbered, hchained, hwired, hlast⟩ := carries_entry h hprev hget
        exact ⟨helected, hother, .inr ⟨piece, entry, rfl, hnumbered, hchained, hwired, hlast⟩⟩

theorem Keeps.sendEmptyEntries (h : Keeps g s conf) {peer : PeerId}
    {prevLogIndex committedIndex : Int} {committedOoIndex : List Int}
    {requests : List AppendEntriesRequest}
    (hrun : (s.nodes id).sendEmptyEntries id peer prevLogIndex committedIndex committedOoIndex =
      some requests) : Keeps g { s with requests := s.requests ++ requests } conf := by
  refine send h fun request hrequest => ?_
  unfold Replica.sendEmptyEntries at hrun
  split at hrun
  · cases hrun
    cases hrequest
  · rename_i found term hfound
    obtain ⟨hother, helected⟩ := replicator h hfound
    obtain ⟨prevLogTerm, -, hrun⟩ := Option.bind_eq_some_iff.mp hrun
    cases hrun
    cases List.mem_singleton.mp hrequest
    exact ⟨helected, hother, .inl rfl⟩

end Requests

end HitConsistency.Election.ReplicaSteps
