/- GID: HitConsistency/Replication/CommitPasses
   digest: A replicator passes every acknowledged index to the ballot box once. -/

import HitConsistency.Replication.ReplicatorTraffic

set_option autoImplicit false
set_option relaxedAutoImplicit false

/-!
What has been passed on is what the window counts as acknowledged, from the first index
on. A response passes on what it adds, so no index comes twice. The invariant does not
need the responses to be successes; only a request that starts below the first index, as
it may behind a rejection, would not have all its indexes passed on.
-/

namespace HitConsistency.Replication.CommitPasses

open HitConsistency.Base.GuardedRuns
open HitConsistency.Base.IndexedDeque
open HitConsistency.Commit.PendingQueues
open HitConsistency.Group.Peers
open HitConsistency.Log.Entry
open HitConsistency.Replication.AckWindow
open HitConsistency.Replication.PeerSender (Flags LogView Carries nextWindow_ascending)
open HitConsistency.Replication.ReplicatorCalls
open HitConsistency.Replication.ReplicatorTraffic

/-- A response is a success, and it reports no index above the highest one sent, if its
request had entries. -/
def Successful (s : Traffic) : Event → Prop
  | .rpcReturned _ callId failed response =>
      failed = false ∧ response.success = true ∧
        ∀ request ∈ s.sent[callId]?, request.entries ≠ [] → ∃ other ∈ s.sent,
          other.entries ≠ [] ∧
            response.lastLogIndex ≤ other.prevLogIndex + other.entries.length
  | _ => True

instance successfulDecidable (s : Traffic) : (event : Event) → Decidable (Successful s event)
  | .rpcReturned _ _ _ _ => inferInstanceAs (Decidable (_ ∧ _ ∧ ∀ request ∈ _, _))
  | .run _ _ => inferInstanceAs (Decidable True)
  | .resetNextIndex => inferInstanceAs (Decidable True)
  | .waitForCaughtUp _ _ _ => inferInstanceAs (Decidable True)
  | .catchUpTimedout _ => inferInstanceAs (Decidable True)
  | .transferLeadership _ _ => inferInstanceAs (Decidable True)
  | .stopTransferLeadership => inferInstanceAs (Decidable True)

/-- The lists given to `commit_at` are ascending and share no index, they hold every index
of the requests answered in flight, and the bookkeeping of the calls in flight adds up. -/
structure PassesOnce (s : Traffic) : Prop where
  ascending : ∀ indexes ∈ s.passed, indexes.Pairwise (· < ·)
  once : s.passed.flatten.Nodup
  answered : ∀ request ∈ s.answered, ∀ i, Carries request i → i ∈ s.passed.flatten
  lengths : s.replicator.appendEntriesInFly.length = s.replicator.statusAppendEntriesInFly.length
  flying : s.replicator.flyingAppendEntriesSize = entriesInFly s.replicator.appendEntriesInFly

/-- The passed indexes are those that the window counts, from 1 on. -/
structure Ledger (s : Traffic) : Prop where
  sound : Sound (queues s.replicator) s.sent
  ascending : ∀ indexes ∈ s.passed, indexes.Pairwise (· < ·)
  once : s.passed.flatten.Nodup
  start_pos : 1 ≤ (queues s.replicator).ooStartIndex
  passed_iff : ∀ i, i ∈ s.passed.flatten ↔ 1 ≤ i ∧ (queues s.replicator).Known i
  answered : ∀ request ∈ s.answered, request ∈ s.sent ∧
    ∀ i, Carries request i → (queues s.replicator).Known i
  flying : (queues s.replicator).flyingAppendEntriesSize =
    entriesInFly (queues s.replicator).appendEntriesInFly

structure FromOne (s : Traffic) : Prop where
  nextIndex : 1 ≤ (queues s.replicator).nextIndex
  inFly : ∀ rpc ∈ (queues s.replicator).appendEntriesInFly, 1 ≤ rpc.logIndex
  sent : ∀ request ∈ s.sent, 0 ≤ request.prevLogIndex

section Sums

private theorem entriesInFly_append (front back : List FlyingAppendEntriesRpc) :
    entriesInFly (front ++ back) = entriesInFly front + entriesInFly back := by
  simp [entriesInFly]

theorem entriesInFly_eraseIdx {rpcs : List FlyingAppendEntriesRpc} {k : Nat}
    {rpc : FlyingAppendEntriesRpc} (hk : rpcs[k]? = some rpc) :
    entriesInFly rpcs = rpc.entriesSize + entriesInFly (rpcs.eraseIdx k) := by
  obtain ⟨hlt, rfl⟩ := List.getElem?_eq_some_iff.mp hk
  have hperm := (List.getElem_cons_eraseIdx_perm hlt).map fun rpc => (rpc.entriesSize : Int)
  rw [entriesInFly, ← hperm.sum_eq, List.map_cons, List.sum_cons]
  rfl

theorem entriesInFly_dropWhile (rpcs : List FlyingAppendEntriesRpc)
    (p : FlyingAppendEntriesRpc → Bool) :
    entriesInFly (rpcs.dropWhile p) = entriesInFly rpcs - entriesInFly (rpcs.takeWhile p) := by
  have hsplit := entriesInFly_append (rpcs.takeWhile p) (rpcs.dropWhile p)
  rw [List.takeWhile_append_dropWhile] at hsplit
  omega

end Sums

section Sends

variable {q q' : Queues} {callId : Nat} {request : Option AppendEntriesRequest}

private theorem known_sends (h : Sends q callId q' request) (i : Int) : q'.Known i ↔ q.Known i := by
  cases h with
  | same => exact Iff.rfl
  | reset i => exact Iff.rfl
  | push request pad => exact acknowledged_pad pad

private theorem ooStartIndex_sends (h : Sends q callId q' request) :
    q'.ooStartIndex = q.ooStartIndex := by
  cases h <;> rfl

theorem flying_sends (h : Sends q callId q' request)
    (hflying : q.flyingAppendEntriesSize = entriesInFly q.appendEntriesInFly) :
    q'.flyingAppendEntriesSize = entriesInFly q'.appendEntriesInFly := by
  cases h with
  | same => exact hflying
  | reset i => rfl
  | push request pad =>
    show q.flyingAppendEntriesSize + request.entries.length = entriesInFly (_ ++ [_])
    rw [entriesInFly_append, hflying]
    simp [entriesInFly]

end Sends

variable {flags : Flags} {s t : Traffic} {event : Event}

private theorem ledger_sending (h : Ledger s) (hsending : Sending s t) : Ledger t := by
  obtain ⟨hpassed, hanswered, request, hsent, hsends⟩ := hsending
  refine ⟨hsent ▸ h.sound.sends hsends, hpassed ▸ h.ascending, hpassed ▸ h.once, ?_, ?_, ?_,
    flying_sends hsends h.flying⟩
  · rw [ooStartIndex_sends hsends]
    exact h.start_pos
  · intro i
    rw [hpassed, known_sends hsends]
    exact h.passed_iff i
  · intro old hold
    rw [hanswered] at hold
    obtain ⟨hmem, hknown⟩ := h.answered old hold
    refine ⟨hsent ▸ List.mem_append_left _ hmem, fun i hi => ?_⟩
    rw [known_sends hsends]
    exact hknown i hi

private theorem passed_next (h : Ledger s) {request : AppendEntriesRequest}
    {response : AppendEntriesResponse} {next : (Int × List Bool) × Option (List Int)}
    (hnext : s.replicator.view.nextWindow request response = some next) :
    (∀ i, (queues s.replicator).Known i → Acknowledged next.1.1 next.1.2 i) ∧
      (∀ i, Carries request i → Acknowledged next.1.1 next.1.2 i) ∧
      1 ≤ next.1.1 ∧ (s.passed ++ next.2.toList).flatten.Nodup ∧
      ∀ i, i ∈ (s.passed ++ next.2.toList).flatten ↔
        1 ≤ i ∧ Acknowledged next.1.1 next.1.2 i := by
  by_cases hentries : request.entries = []
  · rw [nextWindow_of_empty hentries] at hnext
    cases hnext
    rw [Option.toList_none, List.append_nil]
    refine ⟨fun i hi => hi, fun i hi => ?_, h.start_pos, h.once, h.passed_iff⟩
    rw [Carries, hentries, List.length_nil] at hi
    omega
  · have hascending := nextWindow_ascending hnext
    obtain ⟨-, hfront, hknown, indexes, heq, hmem⟩ := nextWindow_spec hentries hnext
    have hgrows : ∀ i, (queues s.replicator).Known i → Acknowledged next.1.1 next.1.2 i :=
      fun i hi => (hknown i).mpr (.inl hi)
    have hstart : s.replicator.ooStartIndex ≤ next.1.1 := by
      by_contra hlt
      exact hfront (hgrows _ (.inl (not_le.mp hlt)))
    have hpositive : ∀ i ∈ indexes, 1 ≤ i := by
      intro i hi
      by_contra hlow
      exact ((hmem i).mp hi).1 (.inl (lt_of_lt_of_le (by omega) h.start_pos))
    rw [heq] at hascending ⊢
    refine ⟨hgrows, fun i hi => (hknown i).mpr (.inr (.inr hi)), h.start_pos.trans hstart, ?_, ?_⟩
    · rw [Option.toList_some, List.flatten_append, List.flatten_singleton, List.nodup_append]
      refine ⟨h.once, (hascending indexes rfl).imp ne_of_lt, ?_⟩
      rintro i hold j hnew rfl
      exact ((hmem i).mp hnew).1 ((h.passed_iff i).mp hold).2
    · intro i
      rw [Option.toList_some, List.flatten_append, List.flatten_singleton, List.mem_append,
        h.passed_iff, hknown]
      constructor
      · rintro (⟨hpos, hold⟩ | hnew)
        · exact ⟨hpos, .inl hold⟩
        · exact ⟨hpositive i hnew, .inr ((hmem i).mp hnew).2⟩
      · rintro ⟨hpos, hor⟩
        by_cases hold : (queues s.replicator).Known i
        · exact .inl ⟨hpos, hold⟩
        · exact .inr ((hmem i).mpr ⟨hold, hor.resolve_left hold⟩)

private theorem ledger_resetTo (h : Ledger s) {i : Int}
    (hqueues : queues t.replicator = (queues s.replicator).resetTo i) (hsent : t.sent = s.sent)
    (hpassed : t.passed = s.passed) (hanswered : t.answered = s.answered) : Ledger t := by
  constructor
  · rw [hqueues, hsent]
    exact h.sound.resetTo i
  · rw [hpassed]
    exact h.ascending
  · rw [hpassed]
    exact h.once
  · rw [hqueues]
    exact h.start_pos
  · rw [hqueues, hpassed]
    exact h.passed_iff
  · rw [hqueues, hsent, hanswered]
    exact h.answered
  · rw [hqueues]
    rfl

private theorem flying_settle (h : Ledger s) {k : Nat} {rpc : FlyingAppendEntriesRpc}
    (hk : (queues s.replicator).appendEntriesInFly[k]? = some rpc) (window : Int × List Bool) :
    ((queues s.replicator).settle k rpc.entriesSize window).flyingAppendEntriesSize =
      entriesInFly
        ((queues s.replicator).settle k rpc.entriesSize window).appendEntriesInFly := by
  rw [h.sound.settle_eq (List.getElem?_eq_some_iff.mp hk).1]
  dsimp only
  rw [entriesInFly_dropWhile, h.flying, entriesInFly_eraseIdx hk]
  omega

private theorem ledger_settle (h : Ledger s) {k : Nat} {rpc : FlyingAppendEntriesRpc}
    {request : AppendEntriesRequest} {response : AppendEntriesResponse}
    {next : (Int × List Bool) × Option (List Int)} (hrequest : request ∈ s.sent)
    (hk : (queues s.replicator).appendEntriesInFly[k]? = some rpc)
    (hsize : request.entries.length = rpc.entriesSize)
    (hnext : s.replicator.view.nextWindow request response = some next)
    (hqueues : queues t.replicator =
      (queues s.replicator).settle k request.entries.length next.1) (hsent : t.sent = s.sent)
    (hpassed : t.passed = s.passed ++ next.2.toList)
    (hanswered : t.answered = s.answered ++ [request]) : Ledger t := by
  have hlt := (List.getElem?_eq_some_iff.mp hk).1
  obtain ⟨hend, hfront⟩ := window_of_next h.sound hnext
  obtain ⟨hgrows, hcarried, hstart, honce, hpassed'⟩ := passed_next h hnext
  constructor
  · rw [hqueues, hsent]
    exact h.sound.settle hlt hend hfront
  · rw [hpassed]
    intro indexes hindexes
    rcases List.mem_append.mp hindexes with hold | hnew
    · exact h.ascending indexes hold
    · exact nextWindow_ascending hnext indexes (Option.mem_toList.mp hnew)
  · rw [hpassed]
    exact honce
  · rw [hqueues]
    exact hstart
  · rw [hqueues, hpassed]
    exact hpassed'
  · rw [hqueues, hsent, hanswered]
    intro old hold
    rcases List.mem_append.mp hold with hold | hnew
    · obtain ⟨hmem, hknown⟩ := h.answered old hold
      exact ⟨hmem, fun i hi => hgrows i (hknown i hi)⟩
    · cases List.mem_singleton.mp hnew
      exact ⟨hrequest, hcarried⟩
  · rw [hqueues, hsize]
    exact flying_settle h hk next.1

private theorem ledger_returned (h : Ledger s) {env : Env} {callId : Nat} {failed : Bool}
    {request : AppendEntriesRequest} {response : AppendEntriesResponse}
    (hrequest : s.sent[callId]? = some request)
    (hreturned : s.rpcReturned env callId request failed response = some t) : Ledger t := by
  obtain ⟨returned, hrun, rfl⟩ := Option.map_eq_some_iff.mp hreturned
  obtain ⟨hnone, hcases⟩ := onRpcReturned_cases hrun
  have hsent : s.sent ++ returned.request.toList = s.sent := by
    rw [hnone, Option.toList_none, List.append_nil]
  rcases hcases with ⟨hfind, hcommit, hqueues⟩ |
    ⟨k, i, hfind, hcommit, hqueues, hrefused, -⟩ |
    ⟨k, next, hfind, hfailed, hsuccess, hterm, hnext, hcommit, hqueues⟩
  · have hrefused : ¬ s.Accepts callId request failed response := by
      rintro ⟨hfound, -⟩
      rw [show s.replicator.findRpc callId request = none from hfind] at hfound
      cases hfound
    refine ledger_sending h ⟨?_, if_neg hrefused, none, ?_, ?_⟩
    · simp [Traffic.receive, hcommit]
    · simp [Traffic.receive, hnone]
    · show Sends _ _ (queues returned.replicator) _
      rw [hqueues]
      exact .same
  · exact ledger_resetTo h hqueues hsent (by simp [Traffic.receive, hcommit])
      (if_neg fun haccepts => hrefused haccepts.2)
  · obtain ⟨rpc, hk, hid⟩ := findFlying_spec hfind
    obtain ⟨own, hown, -, hsize⟩ := h.sound.own rpc (List.mem_of_getElem? hk)
    rw [hid, hrequest] at hown
    cases hown
    have haccepts : s.Accepts callId request failed response :=
      ⟨Option.isSome_iff_exists.mpr ⟨k, hfind⟩, hfailed, hsuccess, hterm⟩
    exact ledger_settle h (List.mem_of_getElem? hrequest) hk hsize hnext hqueues hsent
      (by simp [Traffic.receive, hcommit]) (if_pos haccepts)

private theorem ledger_step (h : Ledger s) (hstep : Traffic.step flags s event = some t) :
    Ledger t := by
  rcases step_cases hstep with hsending |
    ⟨env, callId, failed, response, request, -, hrequest, hreturned⟩
  · exact ledger_sending h hsending
  · exact ledger_returned h hrequest hreturned

private theorem fromOne_resetTo (h : FromOne s) {i : Int}
    (hi : i = (queues s.replicator).nextIndex ∨
      ∃ rpc ∈ (queues s.replicator).appendEntriesInFly, i = rpc.logIndex)
    (hqueues : queues t.replicator = (queues s.replicator).resetTo i) (hsent : t.sent = s.sent) :
    FromOne t := by
  constructor
  · rw [hqueues]
    rcases hi with rfl | ⟨rpc, hrpc, rfl⟩
    · exact h.nextIndex
    · exact h.inFly rpc hrpc
  · rw [hqueues]
    intro rpc hrpc
    cases hrpc
  · rw [hsent]
    exact h.sent

private theorem fromOne_sending (h : FromOne s) (hsending : Sending s t) : FromOne t := by
  obtain ⟨-, -, request, hsent, hsends⟩ := hsending
  generalize hqueues : queues t.replicator = q at hsends
  cases hsends with
  | same =>
    rw [Option.toList_none, List.append_nil] at hsent
    exact ⟨hqueues ▸ h.nextIndex, hqueues ▸ h.inFly, hsent ▸ h.sent⟩
  | reset i hi =>
    rw [Option.toList_none, List.append_nil] at hsent
    exact fromOne_resetTo h hi hqueues hsent
  | push request pad hprev =>
    have hnext := h.nextIndex
    constructor
    · rw [hqueues]
      show 1 ≤ (queues s.replicator).nextIndex + request.entries.length
      omega
    · rw [hqueues]
      intro rpc hrpc
      rcases List.mem_append.mp hrpc with hold | hnew
      · exact h.inFly rpc hold
      · rw [List.mem_singleton.mp hnew]
        exact hnext
    · rw [hsent]
      intro other hother
      rcases List.mem_append.mp hother with hold | hnew
      · exact h.sent other hold
      · rw [List.mem_singleton.mp hnew, hprev]
        omega

private theorem fromOne_step (h : FromOne s) (hledger : Ledger s) (hguard : Successful s event)
    (hstep : Traffic.step flags s event = some t) : FromOne t := by
  rcases step_cases hstep with hsending |
    ⟨env, callId, failed, response, request, rfl, hrequest, hreturned⟩
  · exact fromOne_sending h hsending
  · obtain ⟨hfailed, hsuccess, -⟩ := hguard
    obtain ⟨returned, hrun, rfl⟩ := Option.map_eq_some_iff.mp hreturned
    obtain ⟨hnone, hcases⟩ := onRpcReturned_cases hrun
    have hsent : s.sent ++ returned.request.toList = s.sent := by
      rw [hnone, Option.toList_none, List.append_nil]
    have hsent' : ∀ other ∈ s.sent ++ returned.request.toList, 0 ≤ other.prevLogIndex := by
      rw [hsent]
      exact h.sent
    rcases hcases with ⟨-, -, hqueues⟩ | ⟨k, i, -, -, hqueues, -, hi⟩ |
      ⟨k, next, hfind, -, -, -, -, -, hqueues⟩
    · exact ⟨hqueues ▸ h.nextIndex, hqueues ▸ h.inFly, hsent'⟩
    · exact fromOne_resetTo h (hi hfailed hsuccess) hqueues hsent
    · obtain ⟨rpc, hk, -⟩ := findFlying_spec hfind
      have heq := hledger.sound.settle_eq (List.getElem?_eq_some_iff.mp hk).1
        request.entries.length next.1
      have hqueues' : queues returned.replicator = _ := hqueues.trans heq
      refine ⟨hqueues' ▸ h.nextIndex, ?_, hsent'⟩
      show ∀ rpc ∈ (queues returned.replicator).appendEntriesInFly, 1 ≤ rpc.logIndex
      rw [hqueues']
      intro rpc hrpc
      exact h.inFly rpc (List.mem_of_mem_eraseIdx ((List.dropWhile_sublist _).subset hrpc))

theorem step_defined (h : Ledger s) (hguard : Successful s event) :
    ∃ t, Traffic.step flags s event = some t := by
  unfold Traffic.step
  split
  · exact ⟨s, rfl⟩
  · cases event with
    | rpcReturned env callId failed response =>
      dsimp only
      split
      · exact ⟨s, rfl⟩
      · rename_i request hrequest
        have hdefined : (s.replicator.lock.onRpcReturned env callId failed request
            response).isSome := by
          rw [onRpcReturned_isSome]
          intro _ _ _ _
          by_cases hentries : request.entries = []
          · rw [nextWindow_of_empty hentries]
            rfl
          · obtain ⟨other, hother, hsome, hlast⟩ := hguard.2.2 request hrequest hentries
            have hcovered := h.sound.covered other hother hsome
            have hsent := h.sound.covered request (List.mem_of_getElem? hrequest) hentries
            apply (nextWindow_isSome (r := s.replicator.lock.view) hentries hsent).mpr
            exact (lt_of_le_of_lt hlast hcovered).le
        obtain ⟨returned, hreturned⟩ := Option.isSome_iff_exists.mp hdefined
        rw [Traffic.rpcReturned, hreturned]
        exact ⟨_, rfl⟩
    | _ => exact ⟨_, rfl⟩

private theorem ledger_start (serverId peerId : PeerId) (term : Int) (log : LogView) :
    Ledger (.start (.start serverId peerId term log)) := by
  refine ⟨sound_start _ _ _ _, fun _ h => (by cases h), .nil, le_rfl, fun i => ?_,
    fun _ h => (by cases h), rfl⟩
  refine iff_of_false (fun h => (by cases h)) ?_
  rintro ⟨hpos, hlow | hflag⟩
  · exact absurd hlow (not_lt.mpr hpos)
  · have hbounds := item_eq_some_bounds hflag
    have hlength : (queues (Traffic.start (.start serverId peerId term log)).replicator
        ).ooCommittedEntries.length = 0 := rfl
    omega

private theorem passesOnce_of_ledger (h : Ledger s) (hfrom : FromOne s) : PassesOnce s := by
  refine ⟨h.ascending, h.once, fun request hrequest i hi => ?_, ?_, h.flying⟩
  · obtain ⟨hsent, hknown⟩ := h.answered request hrequest
    have hprev := hfrom.sent request hsent
    exact (h.passed_iff i).mpr ⟨by have := hi.1; omega, hknown i hi⟩
  · have hlength := congrArg List.length h.sound.unanswered
    rw [List.length_replicate] at hlength
    exact hlength.symm

/-- In any order of sends, resets and successes that report no index above what was sent,
every index is passed on once, and every index of an answered request is. -/
theorem passesOnce_run (flags : Flags) (serverId peerId : PeerId) (term : Int) (log : LogView)
    (hlog : 0 ≤ log.lastLogIndex) (events : List Event)
    (hguard : Guarded (Traffic.step flags) Successful
      (.start (.start serverId peerId term log)) events) :
    ∃ s, runEvents (Traffic.step flags) (.start (.start serverId peerId term log)) events =
      some s ∧ PassesOnce s := by
  have hfrom : FromOne (.start (.start serverId peerId term log)) :=
    ⟨by show 1 ≤ log.lastLogIndex + 1; omega, fun _ h => (by cases h), fun _ h => (by cases h)⟩
  have hkeep : ∀ (s : Traffic) event, Ledger s ∧ FromOne s → Successful s event →
      ∃ t, Traffic.step flags s event = some t ∧ Ledger t ∧ FromOne t := by
    rintro s event ⟨hledger, hfrom⟩ hguard
    obtain ⟨t, hstep⟩ := step_defined hledger hguard
    exact ⟨t, hstep, ledger_step hledger hstep, fromOne_step hfrom hledger hguard hstep⟩
  obtain ⟨s, hrun, hledger, hfrom'⟩ :=
    run_defined_of_step hkeep ⟨ledger_start serverId peerId term log, hfrom⟩ hguard
  exact ⟨s, hrun, passesOnce_of_ledger hledger hfrom'⟩

private def latecomers : List Event :=
  [.run (steadyEnv 1) .sendEmptyEntries, .rpcReturned (steadyEnv 3) 0 false ⟨1, true, 1⟩,
    .run (steadyEnv 3) .sendEntries, .run (steadyEnv 3) .sendEntries,
    .rpcReturned (steadyEnv 3) 2 false ⟨1, true, 3⟩, .rpcReturned (steadyEnv 3) 1 false ⟨1, true, 3⟩,
    .resetNextIndex]

theorem passesOnce_run_latecomers :
    ∃ s, runEvents (Traffic.step ⟨1024, 256, 1024⟩)
      (.start (.start ⟨1, 8000, 0⟩ ⟨2, 8001, 0⟩ 1 (steadyEnv 1).log)) latecomers = some s ∧
        PassesOnce s :=
  passesOnce_run _ _ _ _ _ (by decide) latecomers (by decide)

end HitConsistency.Replication.CommitPasses
