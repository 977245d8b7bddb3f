/- GID: HitConsistency/Node/FollowerCommit
   digest: The committed index of a follower against the end of its log. -/

import HitConsistency.Commit.PendingQueues
import HitConsistency.Replication.DurableAcks

set_option autoImplicit false
set_option relaxedAutoImplicit false

/-!
A follower takes the committed index out of the requests. For an empty request the
handler clamps it to the previous index, which it does not check under out-of-order
replication; a stable closure takes it as it is. Both calls of
`set_last_committed_index` are made behind the node's mutex.
-/

namespace HitConsistency.Node.FollowerCommit

open HitConsistency.Base.GuardedRuns
open HitConsistency.Commit.PendingQueues
open HitConsistency.Group.Peers
open HitConsistency.Log.Entry
open HitConsistency.Log.KeptEntries
open HitConsistency.Log.MemoryLog
open HitConsistency.Node.AppendHandler
open HitConsistency.Node.RoleState
open HitConsistency.Replication.DurableAcks (Carried FromLeader carried_follows
  checkAndSetConfiguration_frame)

structure CommittingFollower where
  follower : Follower
  box : BallotBox
  /-- The arguments of `set_last_committed_index` calls that are about to be made. -/
  commits : List Int

inductive Event
  | follower (event : Follower.Event)
  | setLastCommittedIndex (position : Nat)

/-- The request reaches the part of the handler behind its checks. -/
def accepts (flags : Flags) (f : Follower) (rpc : AppendEntriesRpc) : Bool :=
  f.currentTerm ≤ rpc.request.term ∧
    rpc.request.serverId = (f.checkStepDown rpc.request.term rpc.request.serverId).leaderId ∧
    f.mustWait flags rpc = some false

/-- The committed index that the handler takes out of a request. -/
def handlerCommit (flags : Flags) (f : Follower) (rpc : AppendEntriesRpc) : List Int :=
  if accepts flags f rpc ∧ rpc.request.entries = [] then
    [min rpc.request.committedIndex rpc.request.prevLogIndex]
  else []

/-- The committed index that a stable closure takes out of its request. -/
def closureCommit (f : Follower) : FollowerStableClosure × Status → List Int
  | (closure, status) =>
      if status = .ok ∧ closure.term = f.currentTerm then [closure.rpc.request.committedIndex]
      else []

namespace CommittingFollower

def new (role : Role) (conf : ConfigurationEntry) (dependencyLookBack : Int) :
    CommittingFollower where
  follower :=
    { toRole := role
      conf := conf
      log := .fresh dependencyLookBack
      appendEntriesCache := .new
      fromCache := []
      stable := []
      replies := [] }
  box := .new
  commits := []

def newCommits (flags : Flags) (f : Follower) : Follower.Event → List Int
  | .deliver rpc _ => handlerCommit flags f rpc
  | .handleCached position => (f.fromCache[position]?.map (handlerCommit flags f)).getD []
  | .runClosure position _ _ => (f.stable[position]?.map (closureCommit f)).getD []
  | _ => []

/-- The state machine applies nothing above the committed index. -/
def step (flags : Flags) (s : CommittingFollower) : Event → Option CommittingFollower
  | .follower (.applied lastIndex) =>
      if lastIndex ≤ s.box.lastCommittedIndex then
        (s.follower.step flags (.applied lastIndex)).map fun f => { s with follower := f }
      else some s
  | .follower event =>
      (s.follower.step flags event).map fun f =>
        { s with follower := f, commits := s.commits ++ newCommits flags s.follower event }
  | .setLastCommittedIndex position =>
      match s.commits[position]? with
      | none => some s
      | some committedIndex =>
          some { s with
            box := (s.box.setLastCommittedIndex committedIndex []).box
            commits := s.commits.eraseIdx position }

end CommittingFollower

section Condition

variable (terms : Int → Int) (flags : Flags)

/-- The request names no committed index behind a gap: the local log reaches it, or it
reaches the request and the request reaches it. -/
def Reaches (f : Follower) (rpc : AppendEntriesRpc) : Prop :=
  rpc.request.committedIndex ≤ f.log.lastLogIndex ∨
    rpc.request.prevLogIndex ≤ f.log.lastLogIndex ∧
      (rpc.request.entries = [] ∨ rpc.request.committedIndex ≤ rpc.lastIndex)

/-- The entries are those of the leader's log, and none conflicts with the local log. -/
def Matching (f : Follower) (rpc : AppendEntriesRpc) : Prop :=
  FromLeader terms rpc ∧
    ∀ entry ∈ Follower.parseEntries rpc.request.prevLogIndex rpc.request.entries,
      Agrees f.log flags.ooEnabled entry

/-- The condition on a request that the handler accepts. -/
def Supported (s : CommittingFollower) : Event → Prop
  | .follower (.deliver rpc _) => accepts flags s.follower rpc = true →
      Matching terms flags s.follower rpc ∧ Reaches s.follower rpc
  | .follower (.handleCached position) => ∀ rpc ∈ s.follower.fromCache[position]?,
      accepts flags s.follower rpc = true →
        Matching terms flags s.follower rpc ∧ Reaches s.follower rpc
  | _ => True

instance supportedDecidable (s : CommittingFollower) :
    ∀ event, Decidable (Supported terms flags s event)
  | .follower (.deliver _ _) => inferInstanceAs (Decidable (_ → ((_ ∧ _) ∧ _) ∧ (_ ∨ _)))
  | .follower (.handleCached position) =>
      inferInstanceAs (Decidable (∀ rpc ∈ s.follower.fromCache[position]?, _ → ((_ ∧ _) ∧ _) ∧ (_ ∨ _)))
  | .follower (.failCached _) | .follower .diskWrite | .follower .diskBatchEnd |
    .follower (.runClosure _ _ _) | .follower (.applied _) | .setLastCommittedIndex _ =>
      inferInstanceAs (Decidable True)

end Condition

section Handler

variable {flags : Flags} {f f' : Follower} {rpc : AppendEntriesRpc}

/-- What the handler does to the log: it gives an accepted request with entries to the
log manager, and nothing else. -/
private theorem handleRequest_log {timerStarts fromCache : Bool}
    (hrun : f.handleAppendEntriesRequest flags timerStarts fromCache rpc = some f') :
    (f'.log = f.log ∧ f'.stable = f.stable) ∨
    accepts flags f rpc = true ∧ rpc.request.entries ≠ [] ∧ ∃ closure status, closure.rpc = rpc ∧
      f.log.appendEntries (Follower.parseEntries rpc.request.prevLogIndex rpc.request.entries)
        closure flags.ooEnabled = some (f'.log, status) ∧
      f'.stable = f.stable ++ (status.map fun status => (closure, status)).toList := by
  unfold Follower.handleAppendEntriesRequest at hrun
  split at hrun
  · cases hrun
    exact .inl ⟨rfl, rfl⟩
  · rename_i hterm
    dsimp only at hrun
    split at hrun
    · cases hrun
      exact .inl ⟨rfl, rfl⟩
    · rename_i hleader
      obtain ⟨wait, hwait, hrun⟩ := Option.bind_eq_some_iff.mp hrun
      split at hrun
      · cases hrun
        refine .inl ?_
        split
        · unfold Follower.handleOutOfOrderAppendEntries
          split <;> exact ⟨rfl, rfl⟩
        · exact ⟨rfl, rfl⟩
      · rename_i hno
        split at hrun
        · cases hrun
          exact .inl ⟨rfl, rfl⟩
        · rename_i hne
          obtain ⟨mid, happend, hrun⟩ := Option.bind_eq_some_iff.mp hrun
          obtain ⟨⟨log, status⟩, hlog, hmid⟩ := Option.map_eq_some_iff.mp happend
          cases hrun
          cases hmid
          have haccepts : accepts flags f rpc = true := by
            have hleader : rpc.request.serverId =
                (f.checkStepDown rpc.request.term rpc.request.serverId).leaderId := by
              simpa using hleader
            have hwait : f.mustWait flags rpc = some wait := hwait
            have hno : wait = false := by simpa using hno
            rw [hno] at hwait
            have hle : f.currentTerm ≤ rpc.request.term := by omega
            simp only [accepts, hwait, ← hleader, hle, and_self, decide_true]
          refine .inr ⟨haccepts, hne,
            ⟨rpc, (f.checkStepDown rpc.request.term rpc.request.serverId).currentTerm⟩, status, rfl,
            ?_, ?_⟩
          · rw [(checkAndSetConfiguration_frame _).1]
            split <;> exact hlog
          · rw [(checkAndSetConfiguration_frame _).2.1]
            split <;> rfl

end Handler

/-- Every committed index that is on its way to the box is within the log. -/
structure Bounded (terms : Int → Int) (ooEnabled : Bool) (log : LogManager FollowerStableClosure)
    (stable : List (FollowerStableClosure × Status)) (box : BallotBox) (commits : List Int) :
    Prop where
  keeps : Keeps terms log
  inOrder : ooEnabled = false → log.maxLogIndex ≤ log.lastLogIndex
  queue : ∀ closure, .append closure ∈ log.diskQueue →
    closure.done.rpc.request.committedIndex ≤ log.lastLogIndex
  stable : ∀ closure, (closure, Status.ok) ∈ stable →
    closure.rpc.request.committedIndex ≤ log.lastLogIndex
  commits : ∀ committedIndex ∈ commits, committedIndex ≤ log.lastLogIndex
  committed : box.lastCommittedIndex ≤ log.lastLogIndex
  applied : log.appliedId.index ≤ box.lastCommittedIndex
  idle : box.pendingIndex = 0 ∧ box.pendingMetaQueue = []

section Steps

variable {terms : Int → Int} {flags : Flags} {log log' : LogManager FollowerStableClosure}
  {stable : List (FollowerStableClosure × Status)} {box : BallotBox} {commits : List Int}

theorem Bounded.ofLog (h : Bounded terms flags.ooEnabled log stable box commits)
    (hkeeps : Keeps terms log') (hlast : log'.lastLogIndex = log.lastLogIndex)
    (hmax : log'.maxLogIndex = log.maxLogIndex) (hqueue : log'.diskQueue = log.diskQueue)
    (happlied : log'.appliedId.index ≤ box.lastCommittedIndex) :
    Bounded terms flags.ooEnabled log' stable box commits := by
  refine ⟨hkeeps, ?_, ?_, ?_, ?_, ?_, happlied, h.idle⟩
  · rw [hmax, hlast]
    exact h.inOrder
  · rw [hqueue, hlast]
    exact h.queue
  · rw [hlast]
    exact h.stable
  · rw [hlast]
    exact h.commits
  · rw [hlast]
    exact h.committed

theorem Bounded.weaken {stable' : List (FollowerStableClosure × Status)} {commits' : List Int}
    (h : Bounded terms flags.ooEnabled log stable box commits)
    (hstable : ∀ closure, (closure, Status.ok) ∈ stable' →
      closure.rpc.request.committedIndex ≤ log.lastLogIndex)
    (hcommits : ∀ committedIndex ∈ commits', committedIndex ≤ log.lastLogIndex) :
    Bounded terms flags.ooEnabled log stable' box commits' :=
  { h with stable := hstable, commits := hcommits }

theorem Bounded.append {f : Follower} {rpc : AppendEntriesRpc} {closure : FollowerStableClosure}
    {status : Option Status} (h : Bounded terms flags.ooEnabled f.log stable box commits)
    (hmatching : Matching terms flags f rpc) (hreaches : Reaches f rpc)
    (hne : rpc.request.entries ≠ []) (hclosure : closure.rpc = rpc)
    (hrun : f.log.appendEntries
      (Follower.parseEntries rpc.request.prevLogIndex rpc.request.entries) closure
      flags.ooEnabled = some (log', status)) :
    Bounded terms flags.ooEnabled log'
      (stable ++ (status.map fun status => (closure, status)).toList) box commits := by
  obtain ⟨⟨hprev, hcarried⟩, hagrees⟩ := hmatching
  obtain ⟨hfollows, hlength, hterms⟩ := carried_follows hcarried
  have hparsed : Follower.parseEntries rpc.request.prevLogIndex rpc.request.entries ≠ [] := by
    intro hnil
    rw [hnil] at hlength
    exact hne (List.length_eq_zero_iff.mp hlength.symm)
  have hlast : rpc.lastIndex = rpc.request.prevLogIndex + 1 +
      (Follower.parseEntries rpc.request.prevLogIndex rpc.request.entries).length - 1 := by
    rw [hlength, AppendEntriesRpc.lastIndex]
    omega
  rcases keeps_append h.keeps hfollows hterms hagrees (by omega) hparsed hrun with
    ⟨s, rfl, rfl, hok⟩ | ⟨rfl, hkeeps, -, batch, hqueue, hdone, -⟩
  · -- The closure is due at once; with success the request ends at or below the applied index.
    refine h.weaken ?_ h.commits
    intro c hc
    rcases List.mem_append.mp hc with hold | hnew
    · exact h.stable c hold
    · have hpair : (c, Status.ok) = (closure, s) := by simpa using hnew
      cases hpair
      have hle := hok rfl
      have happlied := h.applied
      have hcommitted := h.committed
      rw [hclosure]
      rcases hreaches with hreached | ⟨-, hnil | hin⟩
      · exact hreached
      · exact absurd hnil hne
      · omega
  · obtain ⟨hgrows, hcovers, hinOrder⟩ :=
      last_append h.keeps hfollows hterms hagrees (by omega) hparsed h.inOrder hrun
    have hnew : rpc.request.committedIndex ≤ log'.lastLogIndex := by
      rcases hreaches with hreached | ⟨hstart, hnil | hin⟩
      · exact hreached.trans hgrows
      · exact absurd hnil hne
      · have := hcovers (by omega)
        omega
    have happlied : log'.appliedId = f.log.appliedId := (LogManager.appendEntries_frame hrun).2
    refine ⟨hkeeps, hinOrder, ?_, ?_, ?_, h.committed.trans hgrows, happlied ▸ h.applied, h.idle⟩
    · intro c hc
      rw [hqueue] at hc
      rcases List.mem_append.mp hc with hold | hlastTask
      · exact (h.queue c hold).trans hgrows
      · cases List.mem_singleton.mp hlastTask
        rw [hdone, hclosure]
        exact hnew
    · intro c hc
      exact (h.stable c (by simpa using hc)).trans hgrows
    · intro c hc
      exact (h.commits c hc).trans hgrows

theorem Bounded.handle {f f' : Follower} {rpc : AppendEntriesRpc} {timerStarts fromCache : Bool}
    (h : Bounded terms flags.ooEnabled f.log f.stable box commits)
    (hsupported : accepts flags f rpc = true → Matching terms flags f rpc ∧ Reaches f rpc)
    (hrun : f.handleAppendEntriesRequest flags timerStarts fromCache rpc = some f') :
    Bounded terms flags.ooEnabled f'.log f'.stable box (commits ++ handlerCommit flags f rpc) := by
  rcases handleRequest_log hrun with ⟨hlog, hstable⟩ | ⟨haccepts, hne, closure, status, hclosure,
    happend, hstable⟩
  · rw [hlog, hstable]
    refine h.weaken h.stable ?_
    intro c hc
    rcases List.mem_append.mp hc with hold | hnew
    · exact h.commits c hold
    · unfold handlerCommit at hnew
      split at hnew
      · rename_i hboth
        cases List.mem_singleton.mp hnew
        rcases (hsupported hboth.1).2 with hreached | ⟨hstart, -⟩
        · exact (min_le_left _ _).trans hreached
        · exact (min_le_right _ _).trans hstart
      · cases hnew
  · rw [handlerCommit, if_neg (fun hboth => hne hboth.2), List.append_nil, hstable]
    exact h.append (hsupported haccepts).1 (hsupported haccepts).2 hne hclosure happend

theorem Bounded.diskStep {f : Follower}
    (h : Bounded terms flags.ooEnabled f.log f.stable box commits) :
    Bounded terms flags.ooEnabled f.diskStep.log f.diskStep.stable box commits := by
  unfold Follower.diskStep
  cases hwrite : f.log.diskWrite with
  | none => exact h
  | some result =>
    obtain ⟨log, task, status⟩ := result
    obtain ⟨hkeeps, closure, rfl, rfl, hqueue, -, -⟩ := keeps_diskWrite h.keeps hwrite
    obtain ⟨hlast, hmax, happlied⟩ : log.lastLogIndex = f.log.lastLogIndex ∧
        log.maxLogIndex = f.log.maxLogIndex ∧ log.appliedId = f.log.appliedId := by
      rw [LogManager.diskWrite, hqueue] at hwrite
      dsimp only at hwrite
      rw [if_neg (by simp [h.keeps.noError])] at hwrite
      have hlog := (Prod.mk.inj (Option.some.inj hwrite)).1
      exact ⟨(congrArg (fun m => m.lastLogIndex) hlog).symm,
        (congrArg (fun m => m.maxLogIndex) hlog).symm,
        (congrArg (fun m => m.appliedId) hlog).symm⟩
    refine ⟨hkeeps, ?_, ?_, ?_, ?_, hlast ▸ h.committed, happlied ▸ h.applied, h.idle⟩
    · rw [hmax, hlast]
      exact h.inOrder
    · intro c hc
      rw [hlast]
      exact h.queue c (by rw [hqueue]; exact List.mem_cons_of_mem _ hc)
    · intro c hc
      rw [hlast]
      rcases List.mem_append.mp hc with hold | hnew
      · exact h.stable c hold
      · cases List.mem_singleton.mp hnew
        exact h.queue closure (by rw [hqueue]; simp)
    · rw [hlast]
      exact h.commits

private theorem diskBatchEnd_ends (m : LogManager FollowerStableClosure) :
    m.diskBatchEnd.lastLogIndex = m.lastLogIndex ∧ m.diskBatchEnd.maxLogIndex = m.maxLogIndex ∧
      m.diskBatchEnd.diskQueue = m.diskQueue ∧ m.diskBatchEnd.appliedId = m.appliedId := by
  unfold LogManager.diskBatchEnd LogManager.setDiskId
  dsimp only
  split <;> exact ⟨rfl, rfl, rfl, rfl⟩

private theorem setAppliedId_ends (m : LogManager FollowerStableClosure) (id : LogId) :
    (m.setAppliedId id).lastLogIndex = m.lastLogIndex ∧
      (m.setAppliedId id).maxLogIndex = m.maxLogIndex ∧
      (m.setAppliedId id).diskQueue = m.diskQueue ∧
      ((m.setAppliedId id).appliedId = m.appliedId ∨ (m.setAppliedId id).appliedId = id) := by
  unfold LogManager.setAppliedId
  split
  · exact ⟨rfl, rfl, rfl, .inl rfl⟩
  · exact ⟨rfl, rfl, rfl, .inr rfl⟩

private theorem setLastCommittedIndex_bound (box : BallotBox) (committedIndex : Int) :
    (box.setLastCommittedIndex committedIndex []).box.pendingIndex = box.pendingIndex ∧
      (box.setLastCommittedIndex committedIndex []).box.pendingMetaQueue = box.pendingMetaQueue ∧
      box.lastCommittedIndex ≤
        (box.setLastCommittedIndex committedIndex []).box.lastCommittedIndex ∧
      (box.setLastCommittedIndex committedIndex []).box.lastCommittedIndex ≤
        max box.lastCommittedIndex committedIndex := by
  unfold BallotBox.setLastCommittedIndex
  split_ifs <;> refine ⟨rfl, rfl, ?_, ?_⟩ <;> dsimp only <;> omega

variable {s t : CommittingFollower}

def Inv (terms : Int → Int) (flags : Flags) (s : CommittingFollower) : Prop :=
  Bounded terms flags.ooEnabled s.follower.log s.follower.stable s.box s.commits

theorem inv_followerStep {event : Follower.Event} (h : Inv terms flags s)
    (hsupported : Supported terms flags s (.follower event))
    (happlied : ∀ lastIndex, event ≠ .applied lastIndex)
    (hstep : s.step flags (.follower event) = some t) : Inv terms flags t := by
  have hrun : (s.follower.step flags event).map (fun f => ({ s with
      follower := f
      commits := s.commits ++ CommittingFollower.newCommits flags s.follower event } :
        CommittingFollower)) = some t := by
    cases event with
    | applied lastIndex => exact absurd rfl (happlied lastIndex)
    | _ => exact hstep
  obtain ⟨f, hf, rfl⟩ := Option.map_eq_some_iff.mp hrun
  unfold Inv at h ⊢
  cases event with
  | deliver rpc timerStarts => exact h.handle hsupported hf
  | handleCached position =>
    simp only [Follower.step] at hf
    split at hf
    · rename_i rpc hrpc
      have hhandled := Bounded.handle (f := { s.follower with
        fromCache := s.follower.fromCache.eraseIdx position }) h (hsupported rpc hrpc) hf
      have hcommits : CommittingFollower.newCommits flags s.follower (.handleCached position) =
          handlerCommit flags s.follower rpc := by
        simp [CommittingFollower.newCommits, hrpc]
      rw [hcommits]
      exact hhandled
    · rename_i hnone
      cases hf
      simpa [CommittingFollower.newCommits, hnone] using h
  | failCached position =>
    cases hf
    simpa [CommittingFollower.newCommits] using h
  | diskWrite =>
    cases hf
    simpa [CommittingFollower.newCommits] using h.diskStep
  | diskBatchEnd =>
    cases hf
    obtain ⟨hlast, hmax, hqueue, happlied⟩ := diskBatchEnd_ends s.follower.log
    simpa [CommittingFollower.newCommits] using
      h.ofLog (keeps_diskBatchEnd h.keeps) hlast hmax hqueue (happlied ▸ h.applied)
  | runClosure position dependencyBitmap lastLogIndex =>
    simp only [Follower.step] at hf
    split at hf
    · rename_i closure status hdue
      cases hf
      have hmem := List.mem_of_getElem? hdue
      have hstable : ∀ c, (c, Status.ok) ∈ s.follower.stable.eraseIdx position →
          c.rpc.request.committedIndex ≤ s.follower.log.lastLogIndex :=
        fun c hc => h.stable c (List.mem_of_mem_eraseIdx hc)
      have hcommits : ∀ c ∈ s.commits ++ CommittingFollower.newCommits flags s.follower
          (.runClosure position dependencyBitmap lastLogIndex),
          c ≤ s.follower.log.lastLogIndex := by
        intro c hc
        rcases List.mem_append.mp hc with hold | hnew
        · exact h.commits c hold
        · simp only [CommittingFollower.newCommits, hdue, Option.map_some, Option.getD_some,
            closureCommit] at hnew
          split at hnew
          · rename_i hboth
            cases List.mem_singleton.mp hnew
            exact h.stable closure (hboth.1 ▸ hmem)
          · cases hnew
      unfold Follower.runStableClosure
      split
      · exact h.weaken hstable hcommits
      · split
        · exact h.weaken hstable hcommits
        · exact h.weaken hstable hcommits
    · rename_i hnone
      cases hf
      simpa [CommittingFollower.newCommits, hnone] using h
  | applied lastIndex => exact absurd rfl (happlied lastIndex)

theorem inv_applied {lastIndex : Int} (h : Inv terms flags s)
    (hstep : s.step flags (.follower (.applied lastIndex)) = some t) : Inv terms flags t := by
  simp only [CommittingFollower.step] at hstep
  split at hstep
  · rename_i hle
    obtain ⟨f, hf, rfl⟩ := Option.map_eq_some_iff.mp hstep
    obtain ⟨term, -, rfl⟩ := Option.map_eq_some_iff.mp hf
    obtain ⟨hlast, hmax, hqueue, hid⟩ := setAppliedId_ends s.follower.log ⟨lastIndex, term⟩
    refine Bounded.ofLog h (keeps_setAppliedId (Bounded.keeps h) _) hlast hmax hqueue ?_
    rcases hid with hid | hid
    · rw [hid]
      exact Bounded.applied h
    · rw [hid]
      exact hle
  · cases hstep
    exact h

private theorem inv_setLastCommittedIndex {position : Nat} (h : Inv terms flags s)
    (hstep : s.step flags (.setLastCommittedIndex position) = some t) : Inv terms flags t := by
  simp only [CommittingFollower.step] at hstep
  split at hstep
  · cases hstep
    exact h
  · rename_i committedIndex hcommit
    cases hstep
    obtain ⟨hpending, hmeta, hlow, hhigh⟩ := setLastCommittedIndex_bound s.box committedIndex
    have hwithin := Bounded.commits h committedIndex (List.mem_of_getElem? hcommit)
    have hcommitted := Bounded.committed h
    have happlied := Bounded.applied h
    have hidle := Bounded.idle h
    refine ⟨Bounded.keeps h, Bounded.inOrder h, Bounded.queue h, Bounded.stable h, ?_, ?_, ?_, ?_⟩
    · intro c hc
      exact Bounded.commits h c (List.mem_of_mem_eraseIdx hc)
    · dsimp only
      omega
    · dsimp only
      omega
    · exact ⟨hpending.trans hidle.1, hmeta.trans hidle.2⟩

theorem inv_step (s : CommittingFollower) (event : Event) (t : CommittingFollower)
    (h : Inv terms flags s) (hsupported : Supported terms flags s event)
    (hstep : s.step flags event = some t) : Inv terms flags t := by
  cases event with
  | follower event =>
    by_cases happlied : ∃ lastIndex, event = .applied lastIndex
    · obtain ⟨lastIndex, rfl⟩ := happlied
      exact inv_applied h hstep
    · exact inv_followerStep h hsupported (fun lastIndex heq => happlied ⟨lastIndex, heq⟩) hstep
  | setLastCommittedIndex position => exact inv_setLastCommittedIndex h hstep

theorem inv_new (terms : Int → Int) (flags : Flags) (role : Role) (conf : ConfigurationEntry)
    (dependencyLookBack : Int) : Inv terms flags (.new role conf dependencyLookBack) := by
  refine ⟨keeps_fresh terms dependencyLookBack, fun _ => le_rfl, ?_, ?_, ?_, le_rfl, le_rfl,
    rfl, rfl⟩
  · intro closure hc
    cases hc
  · intro closure hc
    cases hc
  · intro c hc
    cases hc

/-- As long as every accepted request agrees with the local log and names no committed
index behind a gap, a follower commits only what it holds, and it may become leader. -/
theorem commits_only_held (flags : Flags) (terms : Int → Int) (role : Role)
    (conf : ConfigurationEntry) (dependencyLookBack : Int) (events : List Event)
    (s : CommittingFollower)
    (hsupported : Guarded (CommittingFollower.step flags) (Supported terms flags)
      (.new role conf dependencyLookBack) events)
    (hrun : runEvents (CommittingFollower.step flags) (.new role conf dependencyLookBack) events =
      some s) :
    s.box.lastCommittedIndex ≤ s.follower.log.lastLogIndex ∧
      (∀ i, 1 ≤ i → i ≤ s.box.lastCommittedIndex →
        KeptBy terms s.follower.log.storage s.follower.log.diskQueue i) ∧
      s.box.ResetCheck (s.follower.log.lastLogIndex + 1) := by
  have h : Inv terms flags s := invariant_of_step inv_step
    (inv_new terms flags role conf dependencyLookBack) hsupported hrun
  have hcommitted := Bounded.committed h
  refine ⟨hcommitted, ?_, (Bounded.idle h).1, (Bounded.idle h).2, by omega⟩
  intro i hlo hhi
  exact (Bounded.keeps h).last i hlo (hhi.trans hcommitted)

end Steps

private def leader : PeerId := ⟨1, 8000, 0⟩

private def startFollower : CommittingFollower :=
  .new ⟨⟨2, 8000, 0⟩, .follower, 1, .empty, .empty, ⟨1, .empty⟩⟩ ⟨.zero, .none, .none⟩ 63

private def outOfOrder : Flags := ⟨true, true, 8⟩

/-- A request of the leader with one entry, or with none. -/
private def requestBehind (call : Nat) (prevLogIndex committedIndex : Int)
    (entries : List EntryMeta) : Event :=
  .follower (.deliver ⟨call, ⟨leader, ⟨2, 8000, 0⟩, 1, if prevLogIndex = 0 then 0 else 1,
    prevLogIndex, entries, committedIndex, [], 0⟩⟩ true)

private def entryOfTerm : EntryMeta := ⟨1, .data, none, none, 0, []⟩

/-- The second request leaves a gap, and names an index in front of it. -/
private def aboveGap : List Event :=
  [requestBehind 1 0 0 [entryOfTerm], requestBehind 2 2 1 [entryOfTerm], .follower .diskWrite,
    .follower .diskWrite, .follower (.runClosure 1 0 0), .setLastCommittedIndex 0]

theorem aboveGap_commits_only_held :
    Guarded (CommittingFollower.step outOfOrder) (Supported (fun _ => 1) outOfOrder) startFollower
        aboveGap ∧
      ∃ s, runEvents (CommittingFollower.step outOfOrder) startFollower aboveGap = some s ∧
        s.box.lastCommittedIndex = 1 ∧ s.box.lastCommittedIndex ≤ s.follower.log.lastLogIndex := by
  have hguard : Guarded (CommittingFollower.step outOfOrder) (Supported (fun _ => 1) outOfOrder)
      startFollower aboveGap := by
    decide +kernel
  have hrun : (runEvents (CommittingFollower.step outOfOrder) startFollower aboveGap).map
      (fun s => s.box.lastCommittedIndex) = some 1 := by
    decide +kernel
  obtain ⟨s, hs, hlast⟩ := Option.map_eq_some_iff.mp hrun
  exact ⟨hguard, s, hs, hlast,
    (commits_only_held outOfOrder (fun _ => 1) _ _ _ aboveGap s hguard hs).1⟩

/-- A new leader probes at the end of its own log, where it has committed everything. -/
private def probeAhead : List Event := [requestBehind 1 2 2 [], .setLastCommittedIndex 0]

theorem probeAhead_commits_missing :
    ∃ s, runEvents (CommittingFollower.step outOfOrder) startFollower probeAhead = some s ∧
      s.follower.log.lastLogIndex = 0 ∧ s.box.lastCommittedIndex = 2 ∧
      ¬ s.box.ResetCheck (s.follower.log.lastLogIndex + 1) := by
  have hrun : (runEvents (CommittingFollower.step outOfOrder) startFollower probeAhead).map
      (fun s => (s.follower.log.lastLogIndex, s.box.lastCommittedIndex,
        decide (s.box.ResetCheck (s.follower.log.lastLogIndex + 1)))) = some (0, 2, false) := by
    decide +kernel
  obtain ⟨s, hs, hvalues⟩ := Option.map_eq_some_iff.mp hrun
  obtain ⟨hlog, hrest⟩ := Prod.mk.inj hvalues
  obtain ⟨hbox, hcheck⟩ := Prod.mk.inj hrest
  exact ⟨s, hs, hlog, hbox, of_decide_eq_false hcheck⟩

end HitConsistency.Node.FollowerCommit
