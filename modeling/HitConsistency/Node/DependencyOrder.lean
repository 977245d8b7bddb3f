/- GID: HitConsistency/Node/DependencyOrder
   digest: A follower appends an entry only behind the entries its mask points at. -/

import HitConsistency.Log.DependencyCheck
import HitConsistency.Log.OutOfOrderAppend
import HitConsistency.Node.AppendHandler
import HitConsistency.Replication.DependencyMask

set_option autoImplicit false
set_option relaxedAutoImplicit false

namespace HitConsistency.Node.DependencyOrder

open HitConsistency.Base.GuardedRuns
open HitConsistency.Base.IndexedDeque
open HitConsistency.Base.SlidingBitmap
open HitConsistency.Group.Peers
open HitConsistency.Log.DependencyCheck
open HitConsistency.Log.Entry
open HitConsistency.Log.MemoryLog
open HitConsistency.Log.OutOfOrderAppend
open HitConsistency.Node.AppendHandler
open HitConsistency.Node.RoleState
open HitConsistency.Replication.DependencyMask

section Dependency

variable {γ : Type} {source : Int → LogEntry} {term : Int} {got : Int → Prop} {m : LogManager γ}

private theorem checkDependency_got (h : Mirrors source term got m) {lookBack : Nat}
    (hlook : m.dependencyLookBack = lookBack) {i : Int}
    (hnear : m.maxLogIndex - i < 1024 - lookBack) {dependency : BitVec 64}
    (hcheck : m.checkDependency i dependency = true) {k : Nat} (hk : k ≤ lookBack)
    (hbit : dependency.getLsbD k = true) : got (i - k) := by
  have hnotfar : ¬ FarBehind m i := by
    rintro ⟨-, hfar⟩
    omega
  have hpresent := ((checkDependency_iff m i dependency).mp hcheck).resolve_left hnotfar k hbit
  exact h.memory.bitWant _ (by omega) hpresent

private theorem getTerm_any (h : Mirrors source term got m) (hsource : OneTerm source term)
    (i : Int) :
    ∃ t, m.unsafeGetTerm i = some t ∧ (t = 0 ∨ t = term) := by
  by_cases hrange : 1 ≤ i ∧ i ≤ m.maxLogIndex
  · exact h.getTerm hsource hrange.1 hrange.2
  · refine ⟨0, ?_, .inl rfl⟩
    unfold LogManager.unsafeGetTerm
    by_cases hzero : i = 0
    · rw [if_pos hzero]
    · rw [if_neg hzero, if_pos (by rw [h.first]; omega)]

private theorem appendEntries_applied (h : Mirrors source term got m)
    (hsource : OneTerm source term)
    {i : Int} (hpos : 1 ≤ i) (happlied : i ≤ m.appliedId.index) (done : γ) :
    m.appendEntries [source i] done true = some (m, some .ok) := by
  have hi : (source i).id.index = i := by rw [hsource]
  simp [LogManager.appendEntries, h.noError, LogManager.checkAndResolveConflict, hi, happlied,
    show ¬ i = 0 by omega]

private theorem diskWrite_queue {m' : LogManager γ} {task : DiskTask γ} {status : Status}
    (h : m.diskWrite = some (m', task, status)) : m.diskQueue = task :: m'.diskQueue := by
  cases hq : m.diskQueue with
  | nil => simp [LogManager.diskWrite, hq] at h
  | cons front rest =>
    cases front with
    | append closure =>
      by_cases herror : m.hasError = true
      · simp only [LogManager.diskWrite, hq, herror, if_true, Option.some.injEq,
          Prod.mk.injEq] at h
        obtain ⟨rfl, rfl, -⟩ := h
        rfl
      · simp only [LogManager.diskWrite, hq, herror, Bool.false_eq_true, if_false,
          Option.some.injEq, Prod.mk.injEq] at h
        obtain ⟨rfl, rfl, -⟩ := h
        rfl
    | lastLogId waiter =>
      simp only [LogManager.diskWrite, hq, Option.some.injEq, Prod.mk.injEq] at h
      obtain ⟨rfl, rfl, -⟩ := h
      rfl
    | truncateSuffix lastIndexKept lastTermKept =>
      simp only [LogManager.diskWrite, hq, Option.some.injEq, Prod.mk.injEq] at h
      obtain ⟨rfl, rfl, -⟩ := h
      rfl

private theorem setDiskId_queue (m : LogManager γ) (id : LogId) :
    (m.setDiskId id).diskQueue.length = m.diskQueue.length := by
  unfold LogManager.setDiskId
  split <;> rfl

private theorem setAppliedId_queue (m : LogManager γ) (id : LogId) :
    (m.setAppliedId id).diskQueue.length = m.diskQueue.length := by
  unfold LogManager.setAppliedId
  split <;> rfl

end Dependency

/-- A request that is in the cache or on its way back from it. -/
def Pending (f : Follower) (rpc : AppendEntriesRpc) : Prop :=
  rpc ∈ f.appendEntriesCache.rpcMap ∨ rpc ∈ f.appendEntriesCache.rpcQueue ∨ rpc ∈ f.fromCache

section Handler

variable {f : Follower} {rpc other : AppendEntriesRpc}

private theorem mem_store {cache : AppendEntriesCache} {maxSize : Nat} {timerStarts : Bool}
    (h : other ∈ (cache.store maxSize timerStarts rpc).1.rpcMap ∨
      other ∈ (cache.store maxSize timerStarts rpc).1.rpcQueue ∨
      other ∈ (cache.store maxSize timerStarts rpc).2) :
    other = rpc ∨ other ∈ cache.rpcMap ∨ other ∈ cache.rpcQueue := by
  have hmap : other ∈ AppendEntriesCache.insert rpc cache.rpcMap →
      other = rpc ∨ other ∈ cache.rpcMap ∨ other ∈ cache.rpcQueue :=
    fun hm => (AppendEntriesCache.mem_insert hm).imp id .inl
  have hqueue : other ∈ cache.rpcQueue ++ [rpc] →
      other = rpc ∨ other ∈ cache.rpcMap ∨ other ∈ cache.rpcQueue := by
    intro hq
    rcases List.mem_append.mp hq with hq | hq
    · exact .inr (.inr hq)
    · exact .inl (List.mem_singleton.mp hq)
  unfold AppendEntriesCache.store at h
  dsimp only at h
  split at h
  · rcases h with h | h | h
    · cases h
    · cases h
    · exact hqueue h
  · rcases h with h | h | h
    · exact hmap (List.mem_of_mem_take h)
    · exact hqueue (List.diff_subset _ _ h)
    · exact hmap (List.mem_of_mem_drop (List.mem_reverse.mp h))

theorem pending_checkAppendEntriesCache {bitmap : BitVec 1024} {last : Int}
    (h : Pending (f.checkAppendEntriesCache bitmap last) other) : Pending f other := by
  unfold Pending Follower.checkAppendEntriesCache AppendEntriesCache.processRunableRpcs at h
  dsimp only at h
  split at h
  · simpa [Pending] using h
  · rcases h with h | h | h
    · exact .inl (List.mem_of_mem_filter h)
    · exact .inr (.inl (List.diff_subset _ _ h))
    · rcases List.mem_append.mp h with h | h
      · exact .inr (.inr h)
      · exact .inl (List.mem_of_mem_filter h)

theorem pending_handleOutOfOrder {flags : Flags} {timerStarts : Bool} {f' : Follower}
    (hcached : f.handleOutOfOrderAppendEntries flags timerStarts rpc = some f')
    (h : Pending f' other) : Pending f other ∨ other = rpc := by
  unfold Follower.handleOutOfOrderAppendEntries at hcached
  split at hcached
  · cases hcached
  · cases hcached
    have hcache : other = rpc ∨ other ∈ f.appendEntriesCache.rpcMap ∨
        other ∈ f.appendEntriesCache.rpcQueue → Pending f other ∨ other = rpc := by
      rintro (he | he | he)
      · exact .inr he
      · exact .inl (.inl he)
      · exact .inl (.inr (.inl he))
    rcases h with h | h | h
    · exact hcache (mem_store (.inl h))
    · exact hcache (mem_store (.inr (.inl h)))
    · rcases List.mem_append.mp h with h | h
      · exact .inl (.inr (.inr h))
      · exact hcache (mem_store (.inr (.inr h)))

private theorem checkAndSetConfiguration_frame (f : Follower) :
    f.checkAndSetConfiguration.log = f.log ∧
      ∀ other, Pending f.checkAndSetConfiguration other → Pending f other := by
  unfold Follower.checkAndSetConfiguration
  split
  · exact ⟨rfl, fun other h => h⟩
  · exact ⟨rfl, fun other h => h⟩

private theorem runStableClosure_frame (f : Follower) (closure : FollowerStableClosure)
    (status : Status) (bitmap : BitVec 1024) (last : Int) :
    (f.runStableClosure closure status bitmap last).log = f.log ∧
      ∀ other, Pending (f.runStableClosure closure status bitmap last) other → Pending f other := by
  unfold Follower.runStableClosure
  split
  · exact ⟨rfl, fun other h => h⟩
  · split
    · exact ⟨rfl, fun other h => h⟩
    · exact ⟨rfl, fun other h => pending_checkAppendEntriesCache h⟩

/-- A handled request leaves the log alone, or passes the dependency check and goes to
the log manager; either way no request but itself can become pending. -/
private theorem handleEntries_cases (flags : Flags) (hoo : flags.ooEnabled = true)
    (timerStarts fromCache : Bool) {prevTerm : Int}
    (hprev : f.log.unsafeGetTerm rpc.request.prevLogIndex = some prevTerm) :
    (∃ f', f.handleEntries flags timerStarts fromCache rpc = some f' ∧ f'.log = f.log ∧
      ∀ other, Pending f' other → Pending f other ∨ other = rpc) ∨
    (f.log.checkDependency rpc.lastIndex rpc.request.dependency = true ∧
      rpc.request.entries ≠ [] ∧ ∀ log status,
        f.log.appendEntries (Follower.parseEntries rpc.request.prevLogIndex rpc.request.entries)
          ⟨rpc, f.currentTerm⟩ true = some (log, status) →
        ∃ f', f.handleEntries flags timerStarts fromCache rpc = some f' ∧ f'.log = log ∧
          ∀ other, Pending f' other → Pending f other ∨ other = rpc) := by
  have hwait : f.mustWait flags rpc =
      some (!f.log.checkDependency rpc.lastIndex rpc.request.dependency) := by
    simp [Follower.mustWait, hprev, hoo]
  cases hcheck : f.log.checkDependency rpc.lastIndex rpc.request.dependency with
  | false =>
    refine .inl ?_
    rw [hcheck] at hwait
    simp only [Follower.handleEntries, hwait, Option.bind_eq_bind, Option.bind_some,
      Bool.not_false, if_true]
    split
    · cases hcached : f.handleOutOfOrderAppendEntries flags timerStarts rpc with
      | none => exact ⟨_, rfl, rfl, fun other h => .inl h⟩
      | some f' =>
        refine ⟨f', rfl, ?_, fun other h => pending_handleOutOfOrder hcached h⟩
        unfold Follower.handleOutOfOrderAppendEntries at hcached
        split at hcached
        · cases hcached
        · cases hcached
          rfl
    · exact ⟨_, rfl, rfl, fun other h => .inl h⟩
  | true =>
    rw [hcheck] at hwait
    by_cases hempty : rpc.request.entries = []
    · refine .inl ⟨f.reply rpc ⟨f.currentTerm, true, f.log.lastLogIndex⟩, ?_, rfl,
        fun other h => .inl h⟩
      simp [Follower.handleEntries, hwait, hempty]
    · refine .inr ⟨rfl, hempty, fun log status happend => ?_⟩
      obtain ⟨f₁, hf₁, hlog, hpending⟩ : ∃ f₁, f.append flags rpc = some f₁ ∧ f₁.log = log ∧
          ∀ other, Pending f₁ other → Pending f other := by
        have happended : f.append flags rpc = some { f with
            log := log
            stable := f.stable ++ (status.map fun status =>
              ((⟨rpc, f.currentTerm⟩ : FollowerStableClosure), status)).toList } := by
          simp only [Follower.append, hoo, happend, Option.map_some]
        exact ⟨_, happended, rfl, fun other h => h⟩
      simp only [Follower.handleEntries, hwait, hf₁, Option.bind_eq_bind, Option.bind_some,
        Bool.not_true, Bool.false_eq_true, if_false, hempty]
      obtain ⟨hset, hsetPending⟩ := checkAndSetConfiguration_frame
        (if flags.cacheEnabled then f₁.checkAppendEntriesCache f₁.log.dependencyBitmap
          f₁.log.maxLogIndex else f₁)
      refine ⟨_, rfl, ?_, fun other h => ?_⟩
      · rw [hset]
        split <;> exact hlog
      · have h := hsetPending other h
        split at h
        · exact .inl (hpending other (pending_checkAppendEntriesCache h))
        · exact .inl (hpending other h)

theorem handleRequest_cases (flags : Flags) (hoo : flags.ooEnabled = true)
    (timerStarts fromCache : Bool) {prevTerm : Int}
    (hprev : f.log.unsafeGetTerm rpc.request.prevLogIndex = some prevTerm) :
    (∃ f', f.handleAppendEntriesRequest flags timerStarts fromCache rpc = some f' ∧
      f'.log = f.log ∧ ∀ other, Pending f' other → Pending f other ∨ other = rpc) ∨
    (f.log.checkDependency rpc.lastIndex rpc.request.dependency = true ∧
      rpc.request.entries ≠ [] ∧ ∃ closure, ∀ log status,
        f.log.appendEntries (Follower.parseEntries rpc.request.prevLogIndex rpc.request.entries)
          closure true = some (log, status) →
        ∃ f', f.handleAppendEntriesRequest flags timerStarts fromCache rpc = some f' ∧
          f'.log = log ∧ ∀ other, Pending f' other → Pending f other ∨ other = rpc) := by
  unfold Follower.handleAppendEntriesRequest
  split
  · exact .inl ⟨_, rfl, rfl, fun other h => .inl h⟩
  · dsimp only
    split
    · exact .inl ⟨_, rfl, rfl, fun other h => .inl h⟩
    · rcases handleEntries_cases (f := { f with
          toRole := f.checkStepDown rpc.request.term rpc.request.serverId }) flags hoo timerStarts
          fromCache hprev with h | ⟨hcheck, hne, h⟩
      · exact .inl h
      · exact .inr ⟨hcheck, hne, _, h⟩

end Handler

section Run

variable (term : Int) (lookBack : Nat) (tasks : List Task)

/-- The leader's entry at each index; past the end of its log the value is not used. -/
def source (i : Int) : LogEntry :=
  (item (leaderLog term lookBack tasks) (i - 1)).getD ⟨.data, ⟨i, term⟩, 0, none, none, []⟩

/-- A request of the leader: empty, or with one entry of its log. -/
def FromLeader (request : AppendEntriesRequest) : Prop :=
  request.term = term ∧
    (request.entries = [] ∧ request.dependency = 0 ∨
      ∃ entry ∈ leaderLog term lookBack tasks, request.prevLogIndex = entry.id.index - 1 ∧
        request.entries = [entry.toMeta] ∧ request.dependency = entry.dependency)

/-- An arriving entry does not lag the largest index by `1024 - lookBack` or more. -/
def Near (f : Follower) (rpc : AppendEntriesRpc) : Prop :=
  rpc.request.entries ≠ [] → f.log.maxLogIndex - rpc.lastIndex < 1024 - lookBack

def Arrives (f : Follower) : Follower.Event → Prop
  | .deliver rpc _ => FromLeader term lookBack tasks rpc.request ∧ Near lookBack f rpc
  | .handleCached position => ∀ rpc ∈ f.fromCache[position]?, Near lookBack f rpc
  | _ => True

instance arrivesDecidable (f : Follower) : ∀ event, Decidable (Arrives term lookBack tasks f event)
  | .deliver _ _ => inferInstanceAs (Decidable ((_ ∧ (_ ∨ _)) ∧ (_ → _)))
  | .handleCached position =>
      match h : f.fromCache[position]? with
      | none => .isTrue (by simp [Arrives, h])
      | some rpc =>
          decidable_of_iff (rpc.request.entries ≠ [] →
            f.log.maxLogIndex - rpc.lastIndex < 1024 - lookBack) (by simp [Arrives, Near, h])
  | .failCached _ | .diskWrite | .diskBatchEnd | .runClosure _ _ _ | .applied _ =>
      inferInstanceAs (Decidable True)

/-- A follower in any role, with an empty log and an empty cache. -/
def start (role : Role) (conf : ConfigurationEntry) : Follower where
  toRole := role
  conf := conf
  log := .fresh lookBack
  appendEntriesCache := .new
  fromCache := []
  stable := []
  replies := []

def Appends (f f' : Follower) (entry : LogEntry) : Prop :=
  ∃ closure, f'.log.diskQueue = f.log.diskQueue ++ [.append closure] ∧ entry ∈ closure.entries

structure Inv (got : Int → Prop) (f : Follower) : Prop where
  mirrors : Mirrors (source term lookBack tasks) term got f.log
  look : f.log.dependencyLookBack = lookBack
  pending : ∀ rpc, Pending f rpc → FromLeader term lookBack tasks rpc.request

/-- Whatever the step appends is of the leader's log, and the entries its mask points
at had arrived before. -/
def Behind (got : Int → Prop) (f f' : Follower) : Prop :=
  ∀ entry, Appends f f' entry → ∃ i, item (leaderLog term lookBack tasks) (i - 1) = some entry ∧
    ∀ k ≤ lookBack, entry.dependency.getLsbD k = true → got (i - k)

variable {term lookBack tasks}

private theorem source_of_item {i : Int} {entry : LogEntry}
    (h : item (leaderLog term lookBack tasks) (i - 1) = some entry) :
    source term lookBack tasks i = entry := by
  rw [source, h, Option.getD_some]

private theorem source_oneTerm (hsmall : lookBack ≤ 63) : OneTerm
    (source term lookBack tasks) term := by
  intro i
  cases h : item (leaderLog term lookBack tasks) (i - 1) with
  | none => rw [source, h, Option.getD_none]
  | some entry =>
    rw [source_of_item h]
    exact (leaderLog_entry hsmall tasks h).2.1

variable {got : Int → Prop} {f f' : Follower} {rpc : AppendEntriesRpc} {flags : Flags}

private theorem behind_of_queue_eq (h : f'.log.diskQueue.length ≤ f.log.diskQueue.length) :
    Behind term lookBack tasks got f f' := by
  rintro entry ⟨closure, hq, -⟩
  rw [hq, List.length_append, List.length_singleton] at h
  omega

private theorem parse_single {entry : LogEntry} {i : Int}
    (hplain : entry.type = .data ∧ entry.peers = none ∧ entry.oldPeers = none)
    (hid : entry.id = ⟨i, term⟩) :
    Follower.parseEntries (entry.id.index - 1) [entry.toMeta] = [entry] := by
  obtain ⟨htype, hpeers, hold⟩ := hplain
  cases entry
  simp_all [Follower.parseEntries, LogEntry.toMeta]

private theorem handle_keeps (hoo : flags.ooEnabled = true) (hsmall : lookBack ≤ 63)
    (h : Inv term lookBack tasks got f) (hreq : FromLeader term lookBack tasks rpc.request)
    (hnear : Near lookBack f rpc) (timerStarts fromCache : Bool) :
    ∃ f' got', f.handleAppendEntriesRequest flags timerStarts fromCache rpc = some f' ∧
      Inv term lookBack tasks got' f' ∧ Behind term lookBack tasks got f f' := by
  have hsource : OneTerm (source term lookBack tasks) term := source_oneTerm hsmall
  have hpending : ∀ f', (∀ other, Pending f' other → Pending f other ∨ other = rpc) →
      ∀ other, Pending f' other → FromLeader term lookBack tasks other.request := by
    intro f' hsub other hother
    rcases hsub other hother with ho | rfl
    · exact h.pending other ho
    · exact hreq
  obtain ⟨prevTerm, hprev, -⟩ := getTerm_any h.mirrors hsource rpc.request.prevLogIndex
  rcases handleRequest_cases flags hoo timerStarts fromCache hprev with
    ⟨f', hf', hlog, hsub⟩ | ⟨hcheck, hne, closure, hrun⟩
  · refine ⟨f', got, hf', ⟨?_, ?_, hpending f' hsub⟩, behind_of_queue_eq (by rw [hlog])⟩
    · rw [hlog]
      exact h.mirrors
    · rw [hlog]
      exact h.look
  · obtain ⟨entry, hentry, hindex, hentries, hdependency⟩ := hreq.2.resolve_left fun he => hne he.1
    obtain ⟨n, hn⟩ := List.getElem?_of_mem hentry
    have hitem : item (leaderLog term lookBack tasks) ((n + 1 : Int) - 1) = some entry := by
      have hpos : (0 : Int) ≤ (n + 1 : Int) - 1 := by omega
      simpa [item, hpos] using hn
    obtain ⟨hplain, hid, -⟩ := leaderLog_entry hsmall tasks hitem
    have hsrc := source_of_item hitem
    have hparse : Follower.parseEntries rpc.request.prevLogIndex rpc.request.entries =
        [source term lookBack tasks (n + 1)] := by
      rw [hentries, hindex, hsrc]
      exact parse_single hplain hid
    have hlast : rpc.lastIndex = n + 1 := by
      rw [AppendEntriesRpc.lastIndex, hindex, hentries, hid]
      simp
    have hlag := hnear hne
    rw [hparse] at hrun
    rw [hlast] at hcheck hlag
    by_cases happlied : (n + 1 : Int) ≤ f.log.appliedId.index
    · obtain ⟨f', hf', hlog, hsub⟩ := hrun _ _
        (appendEntries_applied h.mirrors hsource (by omega) happlied closure)
      refine ⟨f', got, hf', ⟨?_, ?_, hpending f' hsub⟩, behind_of_queue_eq (by rw [hlog])⟩
      · rw [hlog]
        exact h.mirrors
      · rw [hlog]
        exact h.look
    · obtain ⟨log, happend, hmirrors, -, -, hlook, hqueue⟩ := mirrors_append h.mirrors hsource
        (show (1 : Int) ≤ n + 1 by omega) (show 0 < 1 by omega) (by omega) (by omega) closure
      obtain ⟨f', hf', hlog, hsub⟩ := hrun _ _ happend
      refine ⟨f', _, hf', ⟨hlog ▸ hmirrors, ?_, hpending f' hsub⟩, ?_⟩
      · rw [hlog, hlook, h.look]
      · rintro other ⟨task, htask, hother⟩
        rw [hlog, hqueue, List.append_cancel_left_eq] at htask
        cases htask
        have hsame : other = entry := (List.mem_singleton.mp hother).trans hsrc
        refine ⟨n + 1, hsame ▸ hitem, fun k hk hbit => ?_⟩
        rw [hsame, ← hdependency] at hbit
        exact checkDependency_got h.mirrors h.look hlag hcheck hk hbit

private theorem inv_eraseIdx (h : Inv term lookBack tasks got f) (position : Nat) :
    Inv term lookBack tasks got { f with fromCache := f.fromCache.eraseIdx position } := by
  refine ⟨h.mirrors, h.look, ?_⟩
  rintro other (ho | ho | ho)
  · exact h.pending other (.inl ho)
  · exact h.pending other (.inr (.inl ho))
  · exact h.pending other (.inr (.inr (List.mem_of_mem_eraseIdx ho)))

private theorem step_keeps (hoo : flags.ooEnabled = true) (hpos : 0 ≤ term) (hsmall : lookBack ≤ 63)
    (h : Inv term lookBack tasks got f) {event : Follower.Event}
    (hguard : Arrives term lookBack tasks f event) :
    ∃ f' got', f.step flags event = some f' ∧ Inv term lookBack tasks got' f' ∧
      Behind term lookBack tasks got f f' := by
  have hsource : OneTerm (source term lookBack tasks) term := source_oneTerm hsmall
  cases event with
  | deliver rpc timerStarts => exact handle_keeps hoo hsmall h hguard.1 hguard.2 timerStarts false
  | handleCached position =>
    cases hget : f.fromCache[position]? with
    | none => exact ⟨f, got, by simp [Follower.step, hget], h, behind_of_queue_eq le_rfl⟩
    | some rpc =>
      obtain ⟨f', got', hf', hinv, hbehind⟩ := handle_keeps hoo hsmall (inv_eraseIdx h position)
        (h.pending rpc (.inr (.inr (List.mem_of_getElem? hget)))) (hguard rpc hget) true true
      exact ⟨f', got', by simpa [Follower.step, hget] using hf', hinv, hbehind⟩
  | failCached position => exact ⟨_, got, rfl, inv_eraseIdx h position, behind_of_queue_eq le_rfl⟩
  | diskWrite =>
    refine ⟨f.diskStep, got, rfl, ?_⟩
    cases hw : f.log.diskWrite with
    | none =>
      have hsame : f.diskStep = f := by simp [Follower.diskStep, hw]
      rw [hsame]
      exact ⟨h, behind_of_queue_eq le_rfl⟩
    | some r =>
      obtain ⟨log, task, status⟩ := r
      obtain ⟨hmirrors, -, hlook⟩ := mirrors_diskWrite h.mirrors hsource hw
      obtain ⟨hlog, hpending⟩ : f.diskStep.log = log ∧
          ∀ other, Pending f.diskStep other → Pending f other := by
        cases task <;> simp [Follower.diskStep, hw, Pending]
      refine ⟨⟨hlog ▸ hmirrors, by rw [hlog, hlook, h.look],
        fun other ho => h.pending other (hpending other ho)⟩, behind_of_queue_eq ?_⟩
      rw [hlog, diskWrite_queue hw]
      exact Nat.le_succ _
  | diskBatchEnd =>
    refine ⟨_, got, rfl, ⟨mirrors_diskBatchEnd h.mirrors hsource, ?_, h.pending⟩,
      behind_of_queue_eq ?_⟩
    · exact (setDiskId_settings f.log f.log.lastId).2.trans h.look
    · exact (setDiskId_queue f.log f.log.lastId).le
  | runClosure position bitmap last =>
    cases hget : f.stable[position]? with
    | none => exact ⟨f, got, by simp [Follower.step, hget], h, behind_of_queue_eq le_rfl⟩
    | some due =>
      obtain ⟨closure, status⟩ := due
      obtain ⟨hlog, hpending⟩ := runStableClosure_frame
        { f with stable := f.stable.eraseIdx position } closure status bitmap last
      refine ⟨_, got, by simp only [Follower.step, hget], ⟨?_, ?_, fun other ho =>
        h.pending other (hpending other ho)⟩, behind_of_queue_eq (by rw [hlog])⟩
      · rw [hlog]
        exact h.mirrors
      · rw [hlog]
        exact h.look
  | applied lastIndex =>
    obtain ⟨lastTerm, hterm, hbound⟩ := getTerm_any h.mirrors hsource lastIndex
    have hle : lastTerm ≤ term := by
      rcases hbound with rfl | rfl
      · exact hpos
      · exact le_rfl
    refine ⟨{ f with log := f.log.setAppliedId ⟨lastIndex, lastTerm⟩ }, got,
      by simp [Follower.step, hterm], ⟨mirrors_setAppliedId h.mirrors hsource hle, ?_, h.pending⟩,
      behind_of_queue_eq ?_⟩
    · exact (setAppliedId_lookBack f.log _).trans h.look
    · exact (setAppliedId_queue f.log _).le

end Run

/-- Under out-of-order replication, with the requests of one leader that started from an
empty log, in any order, repeated or lost, cached, evicted or released: every run is
defined, and whenever an entry is appended, each entry of the leader within the
look-back that has the same dependency identifier is in the log already. -/
theorem appends_behind_dependencies (flags : Flags) (hoo : flags.ooEnabled = true) (term : Int)
    (hpos : 0 ≤ term) (lookBack : Nat) (hsmall : lookBack ≤ 63) (tasks : List Task) (role : Role)
    (conf : ConfigurationEntry) (events : List Follower.Event)
    (hg : Guarded (Follower.step flags) (Arrives term lookBack tasks) (start lookBack role conf)
      events) :
    (∃ f, runEvents (Follower.step flags) (start lookBack role conf) events = some f) ∧
    ∀ pre event post f f', events = pre ++ event :: post →
      runEvents (Follower.step flags) (start lookBack role conf) pre = some f →
      f.step flags event = some f' →
      ∀ entry, Appends f f' entry →
        ∃ i, item (leaderLog term lookBack tasks) (i - 1) = some entry ∧
          ∀ k : Nat, 1 ≤ k → k ≤ lookBack → k < i →
            item (dependencyIds term tasks) (i - k - 1) = item (dependencyIds term tasks) (i - 1) →
            ∃ earlier, item (leaderLog term lookBack tasks) (i - k - 1) = some earlier ∧
              Holds f.log earlier := by
  have hstart : ∃ got, Inv term lookBack tasks got (start lookBack role conf) := by
    refine ⟨_, mirrors_fresh _ hpos lookBack, rfl, ?_⟩
    rintro rpc (h | h | h) <;> cases h
  have hprogress : ∀ f event, (∃ got, Inv term lookBack tasks got f) →
      Arrives term lookBack tasks f event →
      ∃ f', f.step flags event = some f' ∧ ∃ got, Inv term lookBack tasks got f' := by
    rintro f event ⟨got, hinv⟩ hguard
    obtain ⟨f', got', hf', hinv', -⟩ := step_keeps hoo hpos hsmall hinv hguard
    exact ⟨f', hf', got', hinv'⟩
  refine ⟨?_, ?_⟩
  · obtain ⟨f, hf, -⟩ := run_defined_of_step hprogress hstart hg
    exact ⟨f, hf⟩
  · intro pre event post f f' hsplit hpre hstep entry happends
    rw [hsplit] at hg
    obtain ⟨f₀, hf₀, got, hinv⟩ := run_defined_of_step hprogress hstart (guarded_append_left hg)
    obtain rfl : f₀ = f := Option.some.inj (hf₀.symm.trans hpre)
    obtain ⟨f₁, got', hf₁, -, hbehind⟩ :=
      step_keeps hoo hpos hsmall hinv (guarded_append_right hg hpre).1
    obtain rfl : f₁ = f' := Option.some.inj (hf₁.symm.trans hstep)
    obtain ⟨i, hitem, hgot⟩ := hbehind entry happends
    refine ⟨i, hitem, fun k hone hback hlt hsame => ?_⟩
    have hmask := (leaderLog_entry hsmall tasks hitem).2.2 k
    have hlen := (item_eq_some_bounds hitem).2
    obtain ⟨earlier, hearlier⟩ : ∃ earlier,
        item (leaderLog term lookBack tasks) (i - k - 1) = some earlier :=
      exists_item (by omega) (by omega)
    refine ⟨earlier, hearlier, ?_⟩
    rw [← source_of_item hearlier]
    exact hinv.mirrors.held _ (hgot k hback (hmask.mpr ⟨hone, hback, hlt, hsame⟩))

private def sampleTasks : List Task := [⟨[], 7, -1⟩, ⟨[], 7, -1⟩, ⟨[], 8, -1⟩]

private def sampleRequest (i : Int) (mask : BitVec 64) : AppendEntriesRpc :=
  ⟨0, ⟨⟨1, 8000, 0⟩, ⟨2, 8001, 0⟩, 1, 0, i - 1, [⟨1, .data, none, none, mask, []⟩], 0, [], mask⟩⟩

private def sampleEvents : List Follower.Event :=
  [.deliver (sampleRequest 2 2) true, .deliver (sampleRequest 3 0) true,
    .deliver (sampleRequest 1 0) true, .handleCached 0]

private def sampleStart : Follower :=
  start 63 ⟨⟨2, 8001, 0⟩, .follower, 1, .empty, .empty, ⟨1, .empty⟩⟩ ⟨.zero, .none, .none⟩

/-- Entry 2 waits in the cache for entry 1, which has the same identifier. -/
theorem appends_behind_dependencies_sample :
    ((runEvents (Follower.step ⟨true, true, 8⟩) sampleStart sampleEvents).map fun f =>
      f.log.lastLogIndex) = some 3 ∧
    ∃ f, runEvents (Follower.step ⟨true, true, 8⟩) sampleStart sampleEvents = some f :=
  ⟨by decide +kernel, (appends_behind_dependencies ⟨true, true, 8⟩ rfl 1 (by decide) 63 (by decide)
    sampleTasks _ _ sampleEvents (by decide +kernel)).1⟩

end HitConsistency.Node.DependencyOrder
