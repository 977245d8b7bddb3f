/- GID: HitConsistency/Node/CacheAdmission
   digest: When the request cache releases a request that the handler then lets pass. -/

import HitConsistency.Node.DependencyOrder

set_option autoImplicit false
set_option relaxedAutoImplicit false

namespace HitConsistency.Node.CacheAdmission

open HitConsistency.Base.SlidingBitmap
open HitConsistency.Group.Peers
open HitConsistency.Log.DependencyCheck
open HitConsistency.Log.MemoryLog
open HitConsistency.Node.AppendHandler
open HitConsistency.Node.RoleState

/-- The request is in the cache and comes from the leader of the current term. -/
structure Cached (f : Follower) (rpc : AppendEntriesRpc) : Prop where
  map : rpc ∈ f.appendEntriesCache.rpcMap
  queue : rpc ∈ f.appendEntriesCache.rpcQueue
  term : rpc.request.term = f.currentTerm
  leader : rpc.request.serverId = f.leaderId

/-- `process_runable_rpcs`, called with the bitmap and the largest index of the log. -/
def Released (f : Follower) (rpc : AppendEntriesRpc) : Prop :=
  rpc ∈ (f.appendEntriesCache.processRunableRpcs f.log.dependencyBitmap f.log.maxLogIndex).2

/-- The handler answers the request, as it comes from the cache, with `success=false`. -/
def Refused (flags : Flags) (f : Follower) (rpc : AppendEntriesRpc) : Prop :=
  ∃ f', f.handleAppendEntriesRequest flags true true rpc = some f' ∧
    f'.replies = f.replies ++ [(rpc.call, ⟨f.currentTerm, false, f.log.lastLogIndex⟩)]

/-- The handler can read the term of the entry in front, and does not refuse. -/
def GetsPast (flags : Flags) (f : Follower) (rpc : AppendEntriesRpc) : Prop :=
  (f.log.unsafeGetTerm rpc.request.prevLogIndex).isSome ∧ ¬ Refused flags f rpc

/-- All dependencies of the request have their bits. -/
def Covered (f : Follower) (rpc : AppendEntriesRpc) : Prop :=
  Marked f.log.dependencyBitmap f.log.maxLogIndex rpc.lastIndex rpc.request.dependency

/-- The entry in front has the term the request names, or the flag makes it not matter. -/
def PrevTermPasses (flags : Flags) (f : Follower) (rpc : AppendEntriesRpc) : Prop :=
  ∃ term, f.log.unsafeGetTerm rpc.request.prevLogIndex = some term ∧
    (term = rpc.request.prevLogTerm ∨ flags.ooEnabled)

variable {flags : Flags} {f : Follower} {rpc : AppendEntriesRpc}

private theorem runable_iff (map : BitVec 1024) (top : Int) :
    AppendEntriesCache.runable map top rpc = true ↔
      Marked map top rpc.lastIndex rpc.request.dependency := by
  unfold AppendEntriesCache.runable
  dsimp only
  split
  · rename_i hgap
    rw [decide_eq_true_eq, ushiftRight_covers_iff (by decide) _ (by omega)]
  · rename_i hgap
    rw [decide_eq_true_eq, show -(top - rpc.lastIndex) = rpc.lastIndex - top by omega,
      shiftLeft_covers_iff (by decide) _ (by omega)]

private theorem released_iff (h : Cached f rpc) : Released f rpc ↔ Covered f rpc := by
  have hmap : f.appendEntriesCache.rpcMap.isEmpty = false := by
    simpa using List.ne_nil_of_mem h.map
  have hqueue : f.appendEntriesCache.rpcQueue.isEmpty = false := by
    simpa using List.ne_nil_of_mem h.queue
  unfold Released AppendEntriesCache.processRunableRpcs
  rw [if_neg (by simp [hmap, hqueue])]
  dsimp only
  rw [List.mem_filter, runable_iff, and_iff_right h.map]
  rfl

private theorem mustWait_iff : f.mustWait flags rpc = some false ↔
    PrevTermPasses flags f rpc ∧ (FarBehind f.log rpc.lastIndex ∨ Covered f rpc) := by
  unfold Follower.mustWait PrevTermPasses Covered
  rw [← checkDependency_iff, Option.map_eq_some_iff]
  simp only [decide_eq_false_iff_not, not_or, Bool.not_eq_true', Bool.not_eq_false,
    ← exists_and_right]
  refine exists_congr fun term => ?_
  rw [and_assoc]
  refine and_congr_right fun _ => and_congr_left fun _ => ?_
  by_cases hterm : term = rpc.request.prevLogTerm <;> simp [hterm]

/-- The term checks let a request of the current term and leader through, and the role is
that of its follower. -/
private theorem handleAppendEntriesRequest_cached (h : Cached f rpc) :
    ∃ role : Role, role.currentTerm = f.currentTerm ∧
      f.handleAppendEntriesRequest flags true true rpc =
        { f with toRole := role }.handleEntries flags true true rpc := by
  have hstep : (f.checkStepDown rpc.request.term rpc.request.serverId).leaderId =
        rpc.request.serverId ∧
      (f.checkStepDown rpc.request.term rpc.request.serverId).currentTerm = f.currentTerm := by
    unfold Role.checkStepDown Role.stepDown
    rw [h.term, h.leader]
    dsimp only
    have hempty : PeerId.empty.isEmpty = true := rfl
    split_ifs <;> simp_all
  refine ⟨_, hstep.2, ?_⟩
  unfold Follower.handleAppendEntriesRequest
  rw [if_neg (by rw [h.term]; exact lt_irrefl _)]
  dsimp only
  rw [if_neg (by rw [hstep.1]; exact fun hne => hne rfl)]

private theorem append_replies {f' : Follower} (h : f.append flags rpc = some f') :
    f'.replies = f.replies := by
  obtain ⟨⟨log, status⟩, -, rfl⟩ := Option.map_eq_some_iff.mp h
  rfl

private theorem refused_iff (h : Cached f rpc) :
    Refused flags f rpc ↔ f.mustWait flags rpc = some true := by
  obtain ⟨role, hterm, hhandle⟩ : ∃ role : Role, role.currentTerm = f.currentTerm ∧
      f.handleAppendEntriesRequest flags true true rpc =
        { f with toRole := role }.handleEntries flags true true rpc :=
    handleAppendEntriesRequest_cached h
  have hsame : { f with toRole := role }.mustWait flags rpc = f.mustWait flags rpc := rfl
  unfold Refused
  rw [hhandle]
  unfold Follower.handleEntries
  rw [hsame]
  constructor
  · rintro ⟨f', hf', hreplies⟩
    obtain ⟨wait, hwait, hf'⟩ := Option.bind_eq_some_iff.mp hf'
    cases wait with
    | true => exact hwait
    | false =>
      exfalso
      rw [if_neg Bool.false_ne_true] at hf'
      split at hf'
      · cases hf'
        have hlast := List.append_cancel_left hreplies
        simp at hlast
      · obtain ⟨f1, hf1, hf'⟩ := Option.bind_eq_some_iff.mp hf'
        have hkeep : f'.replies = f.replies := by
          cases hf'
          rw [← append_replies hf1]
          unfold Follower.checkAndSetConfiguration
          split_ifs <;> rfl
        rw [hkeep] at hreplies
        have := congrArg List.length hreplies
        simp at this
  · intro hwait
    rw [hwait]
    refine ⟨_, rfl, ?_⟩
    -- A request from the cache is not cached again.
    rw [if_neg (by simp)]
    show f.replies ++ [(rpc.call, ⟨role.currentTerm, false, f.log.lastLogIndex⟩)] = _
    rw [hterm]

private theorem getsPast_iff (h : Cached f rpc) : GetsPast flags f rpc ↔
    PrevTermPasses flags f rpc ∧ (FarBehind f.log rpc.lastIndex ∨ Covered f rpc) := by
  unfold GetsPast
  rw [refused_iff h, ← mustWait_iff]
  unfold Follower.mustWait
  cases f.log.unsafeGetTerm rpc.request.prevLogIndex with
  | none => simp
  | some term => simp

/-- The cache releases what the handler lets pass, except for two kinds of requests: those
that are covered but whose term in front is refused, and those far behind that the handler
lets pass without their dependencies. -/
theorem released_iff_getsPast (flags : Flags) (f : Follower) (rpc : AppendEntriesRpc)
    (h : Cached f rpc) :
    (Released f rpc ↔ GetsPast flags f rpc) ↔
      ¬ (Covered f rpc ∧ ¬ PrevTermPasses flags f rpc) ∧
      ¬ (FarBehind f.log rpc.lastIndex ∧ PrevTermPasses flags f rpc ∧ ¬ Covered f rpc) := by
  rw [released_iff h, getsPast_iff h]
  tauto

private def sampleRole : Role :=
  ⟨⟨2, 8001, 0⟩, .follower, 1, .empty, ⟨1, 8000, 0⟩, ⟨1, .empty⟩⟩

/-- Entry 6 of the leader, without a dependency, behind an entry of term 1. -/
private def sixth : AppendEntriesRpc :=
  ⟨0, ⟨⟨1, 8000, 0⟩, ⟨2, 8001, 0⟩, 1, 1, 5, [⟨1, .data, none, none, 0, []⟩], 0, [], 0⟩⟩

private def sampleStart : Follower :=
  DependencyOrder.start 63 sampleRole ⟨.zero, .none, .none⟩

private def holdingSixth : Follower :=
  { sampleStart with appendEntriesCache := ⟨[sixth], [sixth]⟩ }

private theorem holdingSixth_cached : Cached holdingSixth sixth := by
  constructor <;> decide

theorem released_iff_getsPast_oo :
    (Released holdingSixth sixth ↔ GetsPast ⟨true, true, 8⟩ holdingSixth sixth) ∧
    ((Released holdingSixth sixth ↔ GetsPast ⟨true, true, 8⟩ holdingSixth sixth) ↔
      ¬ (Covered holdingSixth sixth ∧ ¬ PrevTermPasses ⟨true, true, 8⟩ holdingSixth sixth) ∧
      ¬ (FarBehind holdingSixth.log sixth.lastIndex ∧
        PrevTermPasses ⟨true, true, 8⟩ holdingSixth sixth ∧ ¬ Covered holdingSixth sixth)) := by
  have hiff := released_iff_getsPast ⟨true, true, 8⟩ holdingSixth sixth holdingSixth_cached
  refine ⟨hiff.mpr ⟨?_, ?_⟩, hiff⟩
  · rintro ⟨-, hrefused⟩
    exact hrefused ⟨0, rfl, .inr rfl⟩
  · rintro ⟨hfar, -⟩
    exact absurd hfar (by decide)

/-- Without out-of-order replication a follower with an empty log caches entry 6; the cache
releases it at once, and the handler refuses it. -/
theorem releases_refused_request :
    Follower.step ⟨false, true, 8⟩ sampleStart (.deliver sixth true) = some holdingSixth ∧
    Cached holdingSixth sixth ∧ Released holdingSixth sixth ∧
    Refused ⟨false, true, 8⟩ holdingSixth sixth ∧
    ¬ (Released holdingSixth sixth ↔ GetsPast ⟨false, true, 8⟩ holdingSixth sixth) := by
  have hreleased : Released holdingSixth sixth := by
    unfold Released
    decide +kernel
  have hrefused : Refused ⟨false, true, 8⟩ holdingSixth sixth := ⟨_, rfl, rfl⟩
  exact ⟨rfl, holdingSixth_cached, hreleased, hrefused,
    fun hiff => (hiff.mp hreleased).2 hrefused⟩

end HitConsistency.Node.CacheAdmission
