/- GID: HitConsistency/Replication/DurableAcks
   digest: What a leader passes on for a follower is on the follower's disk, if its memory is. -/

import HitConsistency.Log.KeptEntries
import HitConsistency.Node.DependencyOrder
import HitConsistency.Replication.FollowerChannel

set_option autoImplicit false
set_option relaxedAutoImplicit false

/-!
A stable closure answers behind its own disk write, but it reports the last index of
the memory, and the leader takes everything below it for written. The invariant
follows each request from the disk queue through its closure to its answer; the one
thing it needs from outside is that no entry below the reported index still waits
for the disk when a closure answers.
-/

namespace HitConsistency.Replication.DurableAcks

open HitConsistency.Base.GuardedRuns
open HitConsistency.Log.Entry
open HitConsistency.Log.MemoryLog
open HitConsistency.Log.KeptEntries
open HitConsistency.Node.RoleState
open HitConsistency.Node.AppendHandler
open HitConsistency.Node.DependencyOrder (Pending pending_checkAppendEntriesCache
  pending_handleOutOfOrder)
open HitConsistency.Replication.PeerSender (Carries Replicator onRpcReturned_passed mem_indexRange)
open HitConsistency.Replication.PeerSender.Replicator (indexRange)
open HitConsistency.Replication.FollowerChannel

section Handler

variable {flags : Flags} {f f' : Follower} {rpc : AppendEntriesRpc}

/-- The handler has answered the request, kept it in the cache, or done nothing; a
success is only the answer to an empty request. -/
structure Passive (f f' : Follower) (rpc : AppendEntriesRpc) : Prop where
  log : f'.log = f.log
  stable : f'.stable = f.stable
  pending : ∀ other, Pending f' other → Pending f other ∨ other = rpc
  replies : f'.replies = f.replies ∨ ∃ response, f'.replies = f.replies ++ [(rpc.call, response)] ∧
    (response.success = true → rpc.request.entries = [])

/-- The handler has given the entries to the log manager. -/
structure Appended (flags : Flags) (f f' : Follower) (rpc : AppendEntriesRpc) : Prop where
  entries : rpc.request.entries ≠ []
  replies : f'.replies = f.replies
  pending : ∀ other, Pending f' other → Pending f other ∨ other = rpc
  log : ∃ closure status, closure.rpc = rpc ∧
    f.log.appendEntries (Follower.parseEntries rpc.request.prevLogIndex rpc.request.entries)
      closure flags.ooEnabled = some (f'.log, status) ∧
    f'.stable = f.stable ++ (status.map fun status => (closure, status)).toList

private theorem passive_reply (f : Follower) (rpc : AppendEntriesRpc)
    {response : AppendEntriesResponse}
    (h : response.success = true → rpc.request.entries = []) : Passive f (f.reply rpc response) rpc :=
  ⟨rfl, rfl, fun _ hp => .inl hp, .inr ⟨response, rfl, h⟩⟩

theorem checkAndSetConfiguration_frame (f : Follower) :
    f.checkAndSetConfiguration.log = f.log ∧ f.checkAndSetConfiguration.stable = f.stable ∧
      f.checkAndSetConfiguration.replies = f.replies ∧
      ∀ other, Pending f.checkAndSetConfiguration other → Pending f other := by
  unfold Follower.checkAndSetConfiguration
  split
  · exact ⟨rfl, rfl, rfl, fun other hp => hp⟩
  · exact ⟨rfl, rfl, rfl, fun other hp => hp⟩

private theorem handleEntries_outcome {timerStarts fromCache : Bool}
    (hrun : f.handleEntries flags timerStarts fromCache rpc = some f') :
    Passive f f' rpc ∨ Appended flags f f' rpc := by
  obtain ⟨wait, -, hrun⟩ := Option.bind_eq_some_iff.mp hrun
  split at hrun
  · cases hrun
    refine .inl ?_
    split
    · cases hcached : f.handleOutOfOrderAppendEntries flags timerStarts rpc with
      | none => exact passive_reply f rpc fun hfalse => by cases hfalse
      | some kept =>
        have hpending : ∀ other, Pending kept other → Pending f other ∨ other = rpc :=
          fun other => pending_handleOutOfOrder hcached
        unfold Follower.handleOutOfOrderAppendEntries at hcached
        split at hcached
        · cases hcached
        · cases hcached
          exact ⟨rfl, rfl, hpending, .inl rfl⟩
    · exact passive_reply f rpc fun hfalse => by cases hfalse
  · split at hrun
    · rename_i hempty
      cases hrun
      exact .inl (passive_reply f rpc fun _ => hempty)
    · rename_i hne
      obtain ⟨mid, happend, hrun⟩ := Option.bind_eq_some_iff.mp hrun
      obtain ⟨⟨log, status⟩, hlog, hmid⟩ := Option.map_eq_some_iff.mp happend
      cases hrun
      cases hmid
      refine .inr ⟨hne, ?_, ?_, ⟨rpc, f.currentTerm⟩, status, rfl, ?_, ?_⟩
      · rw [(checkAndSetConfiguration_frame _).2.2.1]
        split <;> rfl
      · intro other hp
        have hp := (checkAndSetConfiguration_frame _).2.2.2 other hp
        split at hp
        · exact .inl (pending_checkAppendEntriesCache hp)
        · exact .inl hp
      · rw [(checkAndSetConfiguration_frame _).1]
        split <;> exact hlog
      · rw [(checkAndSetConfiguration_frame _).2.1]
        split <;> rfl

private theorem handleRequest_outcome {timerStarts fromCache : Bool}
    (hrun : f.handleAppendEntriesRequest flags timerStarts fromCache rpc = some f') :
    Passive f f' rpc ∨ Appended flags f f' rpc := by
  unfold Follower.handleAppendEntriesRequest at hrun
  split at hrun
  · cases hrun
    exact .inl (passive_reply f rpc fun hfalse => by cases hfalse)
  · dsimp only at hrun
    split at hrun
    · cases hrun
      exact .inl ⟨rfl, rfl, fun _ hp => .inl hp,
        .inr ⟨_, rfl, fun hfalse => by cases hfalse⟩⟩
    · rcases handleEntries_outcome hrun with hpassive | happended
      · exact .inl ⟨hpassive.log, hpassive.stable, hpassive.pending, hpassive.replies⟩
      · exact .inr ⟨happended.entries, happended.replies, happended.pending, happended.log⟩

end Handler

section Condition

variable (terms : Int → Int)

/-- The entries on the wire are those of the leader's log, behind the given index. -/
def Carried : Int → List EntryMeta → Prop
  | _, [] => True
  | index, entry :: rest =>
      entry.type ≠ .unknown ∧ 0 < entry.term ∧ entry.term = terms (index + 1) ∧
        Carried (index + 1) rest

instance carriedDecidable : ∀ index entries, Decidable (Carried terms index entries)
  | _, [] => inferInstanceAs (Decidable True)
  | index, entry :: rest =>
      have := carriedDecidable (index + 1) rest
      inferInstanceAs (Decidable (entry.type ≠ .unknown ∧ 0 < entry.term ∧
        entry.term = terms (index + 1) ∧ Carried terms (index + 1) rest))

/-- The request holds entries of the leader's log only. -/
def FromLeader (rpc : AppendEntriesRpc) : Prop :=
  0 ≤ rpc.request.prevLogIndex ∧ Carried terms rpc.request.prevLogIndex rpc.request.entries

/-- No entry of the request conflicts with the local log, and one that ends at or below
the applied index is on disk. -/
def Fits (flags : Flags) (f : Follower) (rpc : AppendEntriesRpc) : Prop :=
  (∀ entry ∈ Follower.parseEntries rpc.request.prevLogIndex rpc.request.entries,
    Agrees f.log flags.ooEnabled entry) ∧
  (rpc.lastIndex ≤ f.log.appliedId.index →
    ∀ i ∈ indexRange rpc.firstIndex rpc.lastIndex, OnDisk terms f.log.storage i)

/-- The task writes only entries from the index on. -/
def WritesFrom {γ : Type} (index : Int) : DiskTask γ → Prop
  | .append closure => ∀ entry ∈ closure.entries, index ≤ entry.id.index
  | _ => True

instance writesFromDecidable {γ : Type} (index : Int) :
    ∀ task : DiskTask γ, Decidable (WritesFrom index task)
  | .append closure => inferInstanceAs (Decidable (∀ entry ∈ closure.entries, _))
  | .lastLogId _ | .truncateSuffix _ _ => inferInstanceAs (Decidable True)

/-- No entry below the last index of the memory waits for the disk thread. -/
def Drained (m : LogManager FollowerStableClosure) : Prop :=
  ∀ task ∈ m.diskQueue, WritesFrom m.lastLogIndex task

def Careful (flags : Flags) (s : Channel) : FollowerChannel.Event → Prop
  | .follower (.deliver rpc _) => FromLeader terms rpc ∧ Fits terms flags s.follower rpc
  | .follower (.handleCached position) =>
      ∀ rpc ∈ s.follower.fromCache[position]?, Fits terms flags s.follower rpc
  | .follower (.runClosure position _ _) =>
      ∀ due ∈ s.follower.stable[position]?, due.2 = .ok → due.1.term = s.follower.currentTerm →
        Drained s.follower.log
  | _ => True

instance carefulDecidable (flags : Flags) (s : Channel) :
    ∀ event, Decidable (Careful terms flags s event)
  | .follower (.deliver _ _) => inferInstanceAs (Decidable ((_ ∧ _) ∧ (_ ∧ (_ → _))))
  | .follower (.handleCached position) =>
      inferInstanceAs (Decidable (∀ rpc ∈ s.follower.fromCache[position]?, _ ∧ (_ → _)))
  | .follower (.runClosure position _ _) =>
      inferInstanceAs (Decidable (∀ due ∈ s.follower.stable[position]?, _ → _ → ∀ task ∈ _, _))
  | .follower (.failCached _) | .follower .diskWrite | .follower .diskBatchEnd |
    .follower (.applied _) | .start _ _ _ _ | .send _ _ _ _ | .respond _ | .fail _ =>
      inferInstanceAs (Decidable True)

end Condition

section Parse

variable {terms : Int → Int}

theorem carried_follows {index : Int} {entries : List EntryMeta}
    (h : Carried terms index entries) :
    Follows terms (index + 1) (Follower.parseEntries index entries) ∧
      (Follower.parseEntries index entries).length = entries.length ∧
      ∀ entry ∈ Follower.parseEntries index entries, 0 < entry.id.term := by
  induction entries generalizing index with
  | nil => exact ⟨trivial, rfl, by simp [Follower.parseEntries]⟩
  | cons head rest ih =>
    obtain ⟨htype, hpos, hterm, hrest⟩ := h
    obtain ⟨hfollows, hlen, hall⟩ := ih hrest
    rw [Follower.parseEntries, if_pos htype]
    refine ⟨⟨by rw [hterm], hfollows⟩, by simp [hlen], ?_⟩
    intro entry he
    rcases List.mem_cons.mp he with rfl | he
    · exact hpos
    · exact hall entry he

end Parse

/-- Every index of the request is kept by what the disk thread will have written. -/
def Promised (terms : Int → Int) (rpc : AppendEntriesRpc) (storage : LogStorage)
    (tasks : List (DiskTask FollowerStableClosure)) : Prop :=
  ∀ i, Carries rpc.request i → KeptBy terms storage tasks i

def Earned (terms : Int → Int) (storage : LogStorage) (rpc : AppendEntriesRpc)
    (lastLogIndex : Int) : Prop :=
  ∀ i, 1 ≤ i ∧ i < lastLogIndex ∨ Carries rpc.request i → OnDisk terms storage i

structure FollowerInv (terms : Int → Int) (requests : List AppendEntriesRpc) (f : Follower) :
    Prop where
  log : Keeps terms f.log
  pending : ∀ rpc, Pending f rpc → rpc ∈ requests
  queue : ∀ n closure, f.log.diskQueue[n]? = some (.append closure) →
    closure.done.rpc ∈ requests ∧
      Promised terms closure.done.rpc f.log.storage (f.log.diskQueue.take (n + 1))
  stable : ∀ closure status, (closure, status) ∈ f.stable → closure.rpc ∈ requests ∧
    (status = .ok → ∀ i, Carries closure.rpc.request i → OnDisk terms f.log.storage i)
  replies : ∀ call response, (call, response) ∈ f.replies → response.success = true →
    ∃ rpc ∈ requests, rpc.call = call ∧
      (rpc.request.entries ≠ [] → Earned terms f.log.storage rpc response.lastLogIndex)

section FollowerSteps

variable {terms : Int → Int} {requests : List AppendEntriesRpc} {flags : Flags}
  {f f' : Follower} {rpc : AppendEntriesRpc}

private theorem inv_passive (h : FollowerInv terms requests f) (hrpc : rpc ∈ requests)
    (hp : Passive f f' rpc) : FollowerInv terms requests f' := by
  refine ⟨hp.log ▸ h.log, ?_, hp.log ▸ h.queue, ?_, ?_⟩
  · intro other hother
    rcases hp.pending other hother with hold | rfl
    · exact h.pending other hold
    · exact hrpc
  · rw [hp.stable, hp.log]
    exact h.stable
  · rw [hp.log]
    intro call response hmem hsuccess
    rcases hp.replies with hsame | ⟨answer, hnew, honly⟩
    · exact h.replies call response (hsame ▸ hmem) hsuccess
    · rw [hnew] at hmem
      rcases List.mem_append.mp hmem with hold | hlast
      · exact h.replies call response hold hsuccess
      · cases List.mem_singleton.mp hlast
        exact ⟨rpc, hrpc, rfl, fun hne => absurd (honly hsuccess) hne⟩

private theorem inv_appended (h : FollowerInv terms requests f) (hrpc : rpc ∈ requests)
    (hfrom : FromLeader terms rpc) (hfits : Fits terms flags f rpc)
    (ha : Appended flags f f' rpc) : FollowerInv terms requests f' := by
  obtain ⟨hprev, hcarried⟩ := hfrom
  obtain ⟨hagrees, happlied⟩ := hfits
  obtain ⟨hfollows, hlen, hterms⟩ := carried_follows hcarried
  obtain ⟨closure, status, hclosure, hrun, hstable⟩ := ha.log
  have hne : Follower.parseEntries rpc.request.prevLogIndex rpc.request.entries ≠ [] := by
    intro hnil
    rw [hnil] at hlen
    exact ha.entries (List.length_eq_zero_iff.mp hlen.symm)
  have hpending : ∀ other, Pending f' other → other ∈ requests := by
    intro other hother
    rcases ha.pending other hother with hold | rfl
    · exact h.pending other hold
    · exact hrpc
  rcases keeps_append h.log hfollows hterms hagrees (by omega) hne hrun with
    ⟨s, rfl, hsame, hok⟩ | ⟨rfl, hkeeps, hstorage, batch, hqueue, hdone, hkept⟩
  · -- The closure is due at once; with success the request was applied and is on disk.
    refine ⟨hsame ▸ h.log, hpending, hsame ▸ h.queue, ?_, ?_⟩
    · intro c st hmem
      rw [hstable] at hmem
      rw [hsame]
      rcases List.mem_append.mp hmem with hold | hnew
      · exact h.stable c st hold
      · have hpair : (c, st) = (closure, s) := by simpa using hnew
        cases hpair
        refine ⟨hclosure ▸ hrpc, fun hs i hi => ?_⟩
        rw [hclosure] at hi
        have hle := hok hs
        rw [hlen] at hle
        refine happlied ?_ i (mem_indexRange.mpr ⟨?_, hi.2⟩)
        · unfold AppendEntriesRpc.lastIndex
          omega
        · unfold AppendEntriesRpc.firstIndex
          have := hi.1
          omega
    · rw [ha.replies, hsame]
      exact h.replies
  · have hstable' : f'.stable = f.stable := by simpa using hstable
    refine ⟨hkeeps, hpending, ?_, ?_, ?_⟩
    · intro n c hn
      rw [hqueue] at hn ⊢
      rw [hstorage]
      by_cases hlast : n < f.log.diskQueue.length
      · rw [List.getElem?_append_left hlast] at hn
        rw [List.take_append_of_le_length (by omega)]
        exact h.queue n c hn
      · have hnew : n = f.log.diskQueue.length := by
          have := (List.getElem?_eq_some_iff.mp hn).1
          rw [List.length_append, List.length_singleton] at this
          omega
        subst hnew
        have hc : c = batch := by simpa using hn.symm
        subst hc
        rw [hdone, hclosure]
        refine ⟨hrpc, fun i hi => ?_⟩
        have hall := hkept i (by have := hi.1; omega) (by have := hi.2; rw [hlen]; omega)
        rw [hstorage, hqueue] at hall
        rwa [List.take_of_length_le (by simp)]
    · rw [hstable', hstorage]
      exact h.stable
    · rw [ha.replies, hstorage]
      exact h.replies

private theorem inv_erase (h : FollowerInv terms requests f)
    (hlog : f'.log = f.log) (hpending : ∀ other, Pending f' other → Pending f other)
    (hstable : ∀ due ∈ f'.stable, due ∈ f.stable) (hreplies : f'.replies = f.replies) :
    FollowerInv terms requests f' :=
  ⟨hlog ▸ h.log, fun other hother => h.pending other (hpending other hother), hlog ▸ h.queue,
    fun closure status hmem => hlog ▸ h.stable closure status (hstable _ hmem),
    by rw [hreplies, hlog]; exact h.replies⟩

private theorem inv_log (h : FollowerInv terms requests f) {log : LogManager FollowerStableClosure}
    (hkeeps : Keeps terms log) (hstorage : log.storage = f.log.storage)
    (hqueue : log.diskQueue = f.log.diskQueue) :
    FollowerInv terms requests { f with log := log } := by
  refine ⟨hkeeps, h.pending, ?_, ?_, ?_⟩
  · intro n closure hn
    change log.diskQueue[n]? = _ at hn
    show _ ∧ Promised terms _ log.storage (log.diskQueue.take (n + 1))
    rw [hqueue] at hn ⊢
    rw [hstorage]
    exact h.queue n closure hn
  · intro closure status hmem
    show _ ∧ (_ → ∀ i, _ → OnDisk terms log.storage i)
    rw [hstorage]
    exact h.stable closure status hmem
  · intro call response hmem hsuccess
    obtain ⟨rpc, hrpc, hcall, hearned⟩ := h.replies call response hmem hsuccess
    refine ⟨rpc, hrpc, hcall, fun hne => ?_⟩
    show Earned terms log.storage rpc response.lastLogIndex
    rw [hstorage]
    exact hearned hne

private theorem inv_diskStep (h : FollowerInv terms requests f) :
    FollowerInv terms requests f.diskStep := by
  unfold Follower.diskStep
  cases hw : f.log.diskWrite with
  | none => exact h
  | some result =>
    obtain ⟨log, task, status⟩ := result
    obtain ⟨hkeeps, closure, rfl, rfl, hqueue, hdisk, hmoves⟩ := keeps_diskWrite h.log hw
    dsimp only
    have hearned : ∀ rpc last, Earned terms f.log.storage rpc last →
        Earned terms log.storage rpc last := fun rpc last he i hi => hdisk i (he i hi)
    refine ⟨hkeeps, h.pending, ?_, ?_, ?_⟩
    · intro n c hn
      have hold := h.queue (n + 1) c (by rw [hqueue]; exact hn)
      refine ⟨hold.1, fun i hi => hmoves _ i ?_⟩
      have := hold.2 i hi
      rwa [hqueue, List.take_succ_cons] at this
    · intro c st hmem
      rcases List.mem_append.mp hmem with hold | hnew
      · exact ⟨(h.stable c st hold).1, fun hs i hi => hdisk i ((h.stable c st hold).2 hs i hi)⟩
      · -- The closure becomes due behind the write of its own batch.
        cases List.mem_singleton.mp hnew
        have hfront := h.queue 0 closure (by rw [hqueue]; rfl)
        refine ⟨hfront.1, fun _ i hi => ?_⟩
        have hkept := hfront.2 i hi
        rw [hqueue] at hkept
        rcases hmoves [] i hkept with hon | ⟨c, hc, -⟩
        · exact hon
        · cases hc
    · intro call response hmem hsuccess
      obtain ⟨rpc, hrpc, hcall, he⟩ := h.replies call response hmem hsuccess
      exact ⟨rpc, hrpc, hcall, fun hne => hearned rpc _ (he hne)⟩

private theorem inv_runStableClosure (h : FollowerInv terms requests f)
    {closure : FollowerStableClosure} {status : Status} (hrpc : closure.rpc ∈ requests)
    (hown : status = .ok → ∀ i, Carries closure.rpc.request i → OnDisk terms f.log.storage i)
    (hdrained : status = .ok → closure.term = f.currentTerm → Drained f.log)
    (bitmap : BitVec 1024) (last : Int) :
    FollowerInv terms requests (f.runStableClosure closure status bitmap last) := by
  unfold Follower.runStableClosure
  split
  · exact h
  · rename_i hok
    have hok : status = .ok := by simpa using hok
    split
    · refine inv_passive h hrpc (passive_reply f closure.rpc fun hfalse => by cases hfalse)
    · rename_i hterm
      have hterm : closure.term = f.currentTerm := by simpa using hterm
      have hempty := hdrained hok hterm
      have hbelow : ∀ i, 1 ≤ i → i < f.log.lastLogIndex → OnDisk terms f.log.storage i := by
        intro i hlo hhi
        rcases h.log.last i hlo (by omega) with hon | ⟨batch, hbatch, entry, he, hid⟩
        · exact hon
        · have hwaits : f.log.lastLogIndex ≤ entry.id.index := hempty _ hbatch entry he
          rw [hid] at hwaits
          dsimp only at hwaits
          omega
      refine ⟨h.log, fun other hp => h.pending other (pending_checkAppendEntriesCache hp),
        h.queue, h.stable, ?_⟩
      intro call response hmem hsuccess
      rcases List.mem_append.mp hmem with hold | hnew
      · exact h.replies call response hold hsuccess
      · cases List.mem_singleton.mp hnew
        refine ⟨closure.rpc, hrpc, rfl, fun _ i hi => ?_⟩
        rcases hi with ⟨hlo, hhi⟩ | hcarries
        · exact hbelow i hlo hhi
        · exact hown hok i hcarries

private theorem frame_setDiskId (m : LogManager FollowerStableClosure) (id : LogId) :
    (m.setDiskId id).storage = m.storage ∧ (m.setDiskId id).diskQueue = m.diskQueue := by
  unfold LogManager.setDiskId
  split <;> exact ⟨rfl, rfl⟩

private theorem frame_setAppliedId (m : LogManager FollowerStableClosure) (id : LogId) :
    (m.setAppliedId id).storage = m.storage ∧ (m.setAppliedId id).diskQueue = m.diskQueue := by
  unfold LogManager.setAppliedId
  split <;> exact ⟨rfl, rfl⟩

end FollowerSteps

structure Inv (terms : Int → Int) (s : Channel) : Prop where
  window : ∀ r ∈ s.replicator, 1 ≤ r.ooStartIndex
  calls : (s.requests.map AppendEntriesRpc.call).Nodup
  fromLeader : ∀ rpc ∈ s.requests, FromLeader terms rpc
  follower : FollowerInv terms s.requests s.follower

section Window

open PeerSender (LogView)
open PeerSender.Replicator

variable (flags : PeerSender.Flags) (r : Replicator) (box : Commit.PendingQueues.BallotBox)
  (log : LogView) (callId : Nat)

private theorem waitMoreEntries_window : (r.waitMoreEntries flags log).ooStartIndex =
    r.ooStartIndex := by
  unfold waitMoreEntries
  dsimp only
  split_ifs <;> rfl

private theorem sendEmptyEntries_window (isHeartbeat : Bool) :
    (r.sendEmptyEntries box log callId isHeartbeat).1.ooStartIndex = r.ooStartIndex := by
  unfold sendEmptyEntries
  split
  · rfl
  · split <;> rfl

private theorem sendEntries_window :
    (r.sendEntries flags box log callId).1.ooStartIndex = r.ooStartIndex := by
  unfold sendEntries
  split
  · rfl
  · split
    · rfl
    · split
      · split
        · rfl
        · exact waitMoreEntries_window flags r log
      · exact waitMoreEntries_window flags _ log

private theorem send_window (send : AdvertisedCommit.Send) :
    (send.run flags r box log callId).1.ooStartIndex = r.ooStartIndex := by
  cases send with
  | emptyEntries isHeartbeat => exact sendEmptyEntries_window r box log callId isHeartbeat
  | entries => exact sendEntries_window flags r box log callId
  | continueSending timedOut =>
    show (r.continueSending flags box log callId timedOut).1.ooStartIndex = _
    unfold continueSending
    split
    · split
      · rfl
      · exact sendEmptyEntries_window r box log callId false
    · split
      · rfl
      · exact sendEntries_window flags _ box log callId

end Window

section ChannelSteps

variable {terms : Int → Int} {senderFlags : PeerSender.Flags} {flags : Flags} {s t : Channel}

theorem FollowerInv.more {requests : List AppendEntriesRpc} {f : Follower}
    (h : FollowerInv terms requests f) (more : List AppendEntriesRpc) :
    FollowerInv terms (requests ++ more) f := by
  have grows : ∀ {rpc}, rpc ∈ requests → rpc ∈ requests ++ more := List.mem_append_left _
  refine ⟨h.log, fun rpc hrpc => grows (h.pending rpc hrpc), ?_, ?_, ?_⟩
  · intro n closure hn
    exact ⟨grows (h.queue n closure hn).1, (h.queue n closure hn).2⟩
  · intro closure status hmem
    exact ⟨grows (h.stable closure status hmem).1, (h.stable closure status hmem).2⟩
  · intro call response hmem hsuccess
    obtain ⟨rpc, hrpc, hrest⟩ := h.replies call response hmem hsuccess
    exact ⟨rpc, grows hrpc, hrest⟩

private theorem inv_handled {requests : List AppendEntriesRpc} {f f' : Follower}
    {rpc : AppendEntriesRpc}
    (h : FollowerInv terms requests f) (hrpc : rpc ∈ requests) (hfrom : FromLeader terms rpc)
    (hfits : Fits terms flags f rpc) {timerStarts fromCache : Bool}
    (hrun : f.handleAppendEntriesRequest flags timerStarts fromCache rpc = some f') :
    FollowerInv terms requests f' := by
  rcases handleRequest_outcome hrun with hpassive | happended
  · exact inv_passive h hrpc hpassive
  · exact inv_appended h hrpc hfrom hfits happended

theorem inv_followerStep (h : Inv terms s) {event : Follower.Event} {f' : Follower}
    (hcareful : Careful terms flags s (.follower event))
    (hnew : ∀ rpc timerStarts, event ≠ .deliver rpc timerStarts)
    (hstep : s.follower.step flags event = some f') : FollowerInv terms s.requests f' := by
  have hf := h.follower
  cases event with
  | deliver rpc timerStarts => exact absurd rfl (hnew rpc timerStarts)
  | handleCached position =>
    simp only [Follower.step] at hstep
    cases hcached : s.follower.fromCache[position]? with
    | none =>
      rw [hcached] at hstep
      cases hstep
      exact hf
    | some rpc =>
      rw [hcached] at hstep
      have hmem : rpc ∈ s.requests :=
        hf.pending rpc (.inr (.inr (List.mem_of_getElem? hcached)))
      have herased : FollowerInv terms s.requests
          { s.follower with fromCache := s.follower.fromCache.eraseIdx position } := by
        refine inv_erase hf rfl (fun other hp => ?_) (fun due hd => hd) rfl
        rcases hp with hp | hp | hp
        · exact .inl hp
        · exact .inr (.inl hp)
        · exact .inr (.inr ((List.eraseIdx_sublist _ _).subset hp))
      exact inv_handled herased hmem (h.fromLeader rpc hmem) (hcareful rpc hcached) hstep
  | failCached position =>
    cases hstep
    refine inv_erase hf rfl (fun other hp => ?_) (fun due hd => hd) rfl
    rcases hp with hp | hp | hp
    · exact .inl hp
    · exact .inr (.inl hp)
    · exact .inr (.inr ((List.eraseIdx_sublist _ _).subset hp))
  | diskWrite =>
    cases hstep
    exact inv_diskStep hf
  | diskBatchEnd =>
    cases hstep
    obtain ⟨hstorage, hqueue⟩ := frame_setDiskId s.follower.log s.follower.log.lastId
    exact inv_log hf (keeps_diskBatchEnd hf.log) hstorage hqueue
  | runClosure position bitmap last =>
    simp only [Follower.step] at hstep
    cases hdue : s.follower.stable[position]? with
    | none =>
      rw [hdue] at hstep
      cases hstep
      exact hf
    | some due =>
      obtain ⟨closure, status⟩ := due
      rw [hdue] at hstep
      cases hstep
      obtain ⟨hrpc, hown⟩ := hf.stable closure status (List.mem_of_getElem? hdue)
      have herased : FollowerInv terms s.requests
          { s.follower with stable := s.follower.stable.eraseIdx position } :=
        inv_erase hf rfl (fun other hp => hp)
          (fun due hd => (List.eraseIdx_sublist _ _).subset hd) rfl
      exact inv_runStableClosure herased hrpc hown (hcareful _ hdue) bitmap last
  | applied lastIndex =>
    obtain ⟨lastTerm, -, rfl⟩ := Option.map_eq_some_iff.mp hstep
    obtain ⟨hstorage, hqueue⟩ := frame_setAppliedId s.follower.log ⟨lastIndex, lastTerm⟩
    exact inv_log hf (keeps_setAppliedId hf.log _) hstorage hqueue

private theorem unlocked_window (h : Inv terms s) {r : Replicator} (hr : s.unlocked = some r) :
    1 ≤ r.ooStartIndex :=
  h.window r (Option.filter_eq_some_iff.mp hr).1

private theorem inv_returned (h : Inv terms s) {r : Replicator} (hr : s.unlocked = some r)
    {callId : Nat}
    {failed : Bool} {request : AppendEntriesRequest} {response : AppendEntriesResponse}
    {handled : Replicator.Handled}
    (hrun : r.onRpcReturned callId failed request response = some handled) :
    Inv terms { s with replicator := handled.replicator } := by
  refine { h with window := fun r' hr' => ?_ }
  have hle := (onRpcReturned_passed hrun).1 r' hr'
  have := unlocked_window h hr
  omega

theorem inv_deliver (h : Inv terms s) {rpc : AppendEntriesRpc} {timerStarts : Bool} {f' : Follower}
    (hcareful : Careful terms flags s (.follower (.deliver rpc timerStarts)))
    (hfree : rpc.call ∉ s.requests.map AppendEntriesRpc.call)
    (hstep : s.follower.step flags (.deliver rpc timerStarts) = some f') :
    Inv terms { s with follower := f', requests := s.requests ++ [rpc] } := by
  obtain ⟨hfrom, hfits⟩ := hcareful
  refine ⟨h.window, ?_, ?_, ?_⟩
  · rw [List.map_append, List.map_singleton]
    refine List.nodup_append.mpr ⟨h.calls, List.nodup_singleton _, ?_⟩
    intro call hcall other hother heq
    cases List.mem_singleton.mp hother
    exact hfree (heq ▸ hcall)
  · intro other hother
    rcases List.mem_append.mp hother with hold | hnew
    · exact h.fromLeader other hold
    · cases List.mem_singleton.mp hnew
      exact hfrom
  · exact inv_handled (h.follower.more [rpc]) (by simp) hfrom hfits hstep

theorem inv_step (event : FollowerChannel.Event) (h : Inv terms s)
    (hcareful : Careful terms flags s event)
    (hstep : s.step senderFlags flags event = some t) : Inv terms t := by
  cases event with
  | start serverId peer term log =>
    cases hstep
    refine { h with window := fun r hr => ?_ }
    cases Option.mem_some_iff.mp hr
    exact le_rfl
  | send box log callId send =>
    rw [Channel.step] at hstep
    split at hstep
    · cases hstep
      exact h
    · rename_i r hr
      cases hstep
      refine { h with window := fun r' hr' => ?_ }
      cases Option.mem_some_iff.mp hr'
      rw [send_window]
      exact unlocked_window h hr
  | follower event =>
    rw [Channel.step] at hstep
    split at hstep
    · cases hstep
      exact h
    · rename_i hfree
      obtain ⟨f', hf', rfl⟩ := Option.map_eq_some_iff.mp hstep
      by_cases hdeliver : ∃ rpc timerStarts, event = .deliver rpc timerStarts
      · obtain ⟨rpc, timerStarts, rfl⟩ := hdeliver
        exact inv_deliver h hcareful hfree hf'
      · have hnew : ∀ rpc timerStarts, event ≠ .deliver rpc timerStarts :=
          fun rpc timerStarts heq => hdeliver ⟨rpc, timerStarts, heq⟩
        have hsame : s.requests ++ Channel.newRequests event = s.requests := by
          cases event with
          | deliver rpc timerStarts => exact absurd rfl (hnew rpc timerStarts)
          | _ => exact List.append_nil _
        rw [hsame]
        exact { h with follower := inv_followerStep h hcareful hnew hf' }
  | respond position =>
    rw [Channel.step] at hstep
    split at hstep
    · rename_i r rpc response hr _
      obtain ⟨handled, hrun, rfl⟩ := Option.map_eq_some_iff.mp hstep
      exact inv_returned h hr hrun
    · cases hstep
      exact h
  | fail rpc =>
    rw [Channel.step] at hstep
    split at hstep
    · cases hstep
      exact h
    · rename_i r hr
      obtain ⟨handled, hrun, rfl⟩ := Option.map_eq_some_iff.mp hstep
      exact inv_returned h hr hrun

private theorem find_request (h : Inv terms s) {rpc found : AppendEntriesRpc}
    (hrpc : rpc ∈ s.requests)
    (hfound : s.requests.find? (fun other => other.call = rpc.call) = some found) :
    found = rpc := by
  have hmem := List.mem_of_find?_eq_some hfound
  have hcall : found.call = rpc.call := by simpa using List.find?_some hfound
  exact List.inj_on_of_nodup_map h.calls hmem hrpc hcall

private theorem passed_onDisk (h : Inv terms s) (event : FollowerChannel.Event) :
    ∀ i ∈ s.passed event, OnDisk terms s.follower.log.storage i := by
  intro i hi
  cases event with
  | respond position =>
    rw [Channel.passed] at hi
    split at hi
    · rename_i r rpc response hr hanswer
      cases hrun : r.onRpcReturned rpc.call false rpc.request response with
      | none =>
        rw [hrun] at hi
        cases hi
      | some handled =>
        rw [hrun, Option.bind_some] at hi
        cases hindexes : handled.commitIndexes with
        | none =>
          rw [hindexes] at hi
          cases hi
        | some indexes =>
          rw [hindexes] at hi
          obtain ⟨-, hsuccess, hne, hpassed⟩ := (onRpcReturned_passed hrun).2 indexes hindexes
          obtain ⟨⟨call, answer⟩, hreply, hanswer⟩ := Option.bind_eq_some_iff.mp hanswer
          obtain ⟨found, hfound, hpair⟩ := Option.bind_eq_some_iff.mp hanswer
          cases hpair
          obtain ⟨asked, hasked, hcall, hearned⟩ :=
            h.follower.replies call _ (List.mem_of_getElem? hreply) hsuccess
          have hsame := find_request h hasked (by rw [hcall]; exact hfound)
          subst hsame
          apply hearned hne i
          have hwindow := unlocked_window h hr
          rcases hpassed i hi with ⟨hlo, hhi⟩ | hcarries
          · exact .inl ⟨by omega, hhi⟩
          · exact .inr hcarries
    · cases hi
  | start serverId peer term log => cases hi
  | send box log callId send => cases hi
  | follower event => cases hi
  | fail rpc => cases hi

end ChannelSteps

theorem inv_new (terms : Int → Int) (role : Role) (conf : ConfigurationEntry) (lookBack : Int) :
    Inv terms (.new role conf lookBack) := by
  refine ⟨fun r hr => (by cases hr), List.nodup_nil, fun rpc hrpc => (by cases hrpc), ?_⟩
  refine ⟨keeps_fresh terms lookBack, ?_, ?_, ?_, ?_⟩
  · intro rpc hp
    rcases hp with hp | hp | hp <;> cases hp
  · intro n closure hn
    cases hn
  · intro closure status hmem
    cases hmem
  · intro call response hmem
    cases hmem

/-- In every run whose steps are careful, whatever the replicator passes to `commit_at`
for the follower is in the follower's storage, with the leader's term. -/
theorem passed_indexes_on_disk (senderFlags : PeerSender.Flags) (flags : Flags)
    (terms : Int → Int) (role : Role) (conf : ConfigurationEntry) (lookBack : Int)
    (events : List FollowerChannel.Event)
    (hcareful : Guarded (Channel.step senderFlags flags) (Careful terms flags)
      (.new role conf lookBack) events) :
    ∀ pre event post s, events = pre ++ event :: post →
      runEvents (Channel.step senderFlags flags) (.new role conf lookBack) pre = some s →
      ∀ i ∈ s.passed event, OnDisk terms s.follower.log.storage i := by
  intro pre event post s hsplit hrun
  rw [hsplit] at hcareful
  have hinv := invariant_of_step (fun s event t hs hg => inv_step event hs hg)
    (inv_new terms role conf lookBack) (guarded_append_left hcareful) hrun
  exact passed_onDisk hinv event

private def leaderId : Group.Peers.PeerId := ⟨1, 8000, 0⟩

private def followerId : Group.Peers.PeerId := ⟨2, 8001, 0⟩

/-- The leader's log in the samples: three entries of term 1. -/
private def threeEntries : PeerSender.LogView :=
  ⟨fun i => if 1 ≤ i ∧ i ≤ 3 then 1 else 0,
    fun i => if 1 ≤ i ∧ i ≤ 3 then some ⟨.data, ⟨i, 1⟩, 0, none, none, []⟩ else none, 1, 3⟩

private def sendThree : List FollowerChannel.Event :=
  [.start leaderId followerId 1 ⟨fun _ => 0, fun _ => none, 1, 0⟩,
    .send .new threeEntries 1 .entries, .send .new threeEntries 2 .entries,
    .send .new threeEntries 3 .entries]

private def requestOf (i : Nat) : AppendEntriesRpc :=
  ⟨i, ⟨leaderId, followerId, 1, if i = 1 then 0 else 1, i - 1, [⟨1, .data, none, none, 0, []⟩],
    0, [], 0⟩⟩

private def deliverThree : List FollowerChannel.Event :=
  [.follower (.deliver (requestOf 1) true), .follower (.deliver (requestOf 2) true),
    .follower (.deliver (requestOf 3) true)]

private def emptyFollower : Channel :=
  .new ⟨followerId, .follower, 1, .empty, .empty, ⟨1, .empty⟩⟩ ⟨.zero, .none, .none⟩ 63

private def settings : PeerSender.Flags := ⟨1024, 8, 512⟩

/-- All three writes come before the first closure. -/
private def writtenFirst : List FollowerChannel.Event :=
  sendThree ++ deliverThree ++ [.follower .diskWrite, .follower .diskWrite, .follower .diskWrite,
    .follower (.runClosure 0 0 0)]

theorem passed_indexes_on_disk_sample :
    ∃ s, runEvents (Channel.step settings ⟨false, true, 8⟩) emptyFollower writtenFirst = some s ∧
      s.passed (.respond 0) = [1, 2] ∧
      ∀ i ∈ s.passed (.respond 0), OnDisk (fun _ => 1) s.follower.log.storage i := by
  have hpassed : (runEvents (Channel.step settings ⟨false, true, 8⟩) emptyFollower
      writtenFirst).map (fun s => s.passed (.respond 0)) = some [1, 2] := by
    decide +kernel
  obtain ⟨s, hrun, hlist⟩ := Option.map_eq_some_iff.mp hpassed
  refine ⟨s, hrun, hlist, ?_⟩
  exact passed_indexes_on_disk settings ⟨false, true, 8⟩ (fun _ => 1) _ _ _
    (writtenFirst ++ [.respond 0]) (by decide +kernel) writtenFirst (.respond 0) [] s rfl hrun

/-- The first closure runs when only its own entry is written; the follower reports its
last index in memory, and the leader counts the second entry as well. -/
theorem unwritten_index_passed :
    ∃ s, runEvents (Channel.step settings ⟨false, true, 8⟩) emptyFollower
        (sendThree ++ deliverThree ++ [.follower .diskWrite, .follower (.runClosure 0 0 0)]) =
          some s ∧
      2 ∈ s.passed (.respond 0) ∧ s.follower.log.storage.getEntry 2 = none := by
  have hrun : (runEvents (Channel.step settings ⟨false, true, 8⟩) emptyFollower
      (sendThree ++ deliverThree ++
        [.follower .diskWrite, .follower (.runClosure 0 0 0)])).map (fun s =>
          (s.passed (.respond 0), s.follower.log.storage.getEntry 2)) = some ([1, 2], none) := by
    decide +kernel
  obtain ⟨s, hs, hpair⟩ := Option.map_eq_some_iff.mp hrun
  refine ⟨s, hs, ?_, congrArg Prod.snd hpair⟩
  have hlist : s.passed (.respond 0) = [1, 2] := congrArg Prod.fst hpair
  simp [hlist]

end HitConsistency.Replication.DurableAcks
