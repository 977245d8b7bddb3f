/- GID: HitConsistency/Replication/ProbeAnswer
   digest: What the follower holds below the next index once an empty probe has succeeded. -/

import HitConsistency.Node.AppendHandler
import HitConsistency.Replication.PeerSender

set_option autoImplicit false
set_option relaxedAutoImplicit false

/-!
A replicator looks for the place to resume with empty requests. The follower compares
the term before that place only while out-of-order replication is off, and the
dependency mask of an empty request is 0, so with it on every probe of a current
leader succeeds.
-/

namespace HitConsistency.Replication.ProbeAnswer

open HitConsistency.Group.Peers
open HitConsistency.Commit.PendingQueues
open HitConsistency.Log.Entry
open HitConsistency.Log.MemoryLog
open HitConsistency.Node.RoleState
open HitConsistency.Node.AppendHandler
open HitConsistency.Replication.PeerSender (LogView Replicator FlyingAppendEntriesRpc)
open HitConsistency.Replication.PeerSender.Replicator

/-- The term a node holds at an index, 0 where it has no entry. -/
def heldTerm (f : Follower) (index : Int) : Int := (f.log.unsafeGetTerm index).getD 0

/-- The leader holds an entry at every index of its log, and nowhere else. -/
structure GapFree (log : LogView) : Prop where
  first_pos : 1 ≤ log.firstLogIndex
  holds_iff : ∀ i, log.getTerm i ≠ 0 ↔ log.firstLogIndex ≤ i ∧ i ≤ log.lastLogIndex

/-- No index at or above 1 is absent below one that is present. -/
def NoHoles (f : Follower) : Prop :=
  ∀ i j, 1 ≤ i → i ≤ j → heldTerm f j ≠ 0 → heldTerm f i ≠ 0

/-- An index with one term on both sides has equal terms below it wherever both hold one. -/
def LogMatching (log : LogView) (f : Follower) : Prop :=
  ∀ i j, j ≤ i → log.getTerm i ≠ 0 → heldTerm f i = log.getTerm i →
    log.getTerm j ≠ 0 → heldTerm f j ≠ 0 → heldTerm f j = log.getTerm j

/-- One probe: sent with nothing else in fly, as `_send_empty_entries` checks, accepted
by the follower, and its answer taken by the replicator. -/
def ProbeSucceeds (flags : Flags) (box : BallotBox) (log : LogView) (r r' : Replicator)
    (f f' : Follower) : Prop :=
  r.appendEntriesInFly = [] ∧
    ∃ callId timerStarts waiting request response handled,
      r.sendEmptyEntries box log callId false = (waiting, some request) ∧
      f.handleAppendEntriesRequest flags timerStarts false ⟨callId, request⟩ = some f' ∧
      f'.replies = f.replies ++ [(callId, response)] ∧ response.success = true ∧
      waiting.onRpcReturned callId false request response = some handled ∧
      handled.replicator = some r'

/-- Every entry that the leader holds below the next index is on the follower. -/
def NothingSkipped (log : LogView) (r : Replicator) (f : Follower) : Prop :=
  ∀ i, i < r.nextIndex → log.getTerm i ≠ 0 → heldTerm f i = log.getTerm i

/-- The follower's term at the place of the probe is the leader's, and no index that the
leader holds below the probe is absent. -/
def Reaches (log : LogView) (r : Replicator) (f : Follower) : Prop :=
  heldTerm f (r.nextIndex - 1) = log.getTerm (r.nextIndex - 1) ∧
    ∀ i, i < r.nextIndex → log.getTerm i ≠ 0 → heldTerm f i ≠ 0

section Send

variable {box : BallotBox} {log : LogView} {r waiting : Replicator} {callId : Nat}
  {request : AppendEntriesRequest}

private theorem sendEmptyEntries_probe (hfly : r.appendEntriesInFly = [])
    (h : r.sendEmptyEntries box log callId false = (waiting, some request)) :
    (r.nextIndex - 1 = 0 ∨ log.getTerm (r.nextIndex - 1) ≠ 0) ∧
      request.prevLogIndex = r.nextIndex - 1 ∧
      request.prevLogTerm = log.getTerm (r.nextIndex - 1) ∧ request.entries = [] ∧
      request.dependency = 0 ∧
      waiting = { r with
        st := .appendingEntries
        appendEntriesInFly := [⟨r.nextIndex, 0, callId, true⟩] } := by
  unfold sendEmptyEntries fillCommonFields at h
  by_cases hcompacted : log.getTerm (r.nextIndex - 1) = 0 ∧ r.nextIndex - 1 ≠ 0
  · simp [hcompacted.1, hcompacted.2] at h
  · have hflag : (decide (log.getTerm (r.nextIndex - 1) = 0) && decide (r.nextIndex - 1 ≠ 0)) =
        false := by
      simpa using hcompacted
    simp only [hflag, Bool.false_and, Bool.false_eq_true, if_false, Prod.mk.injEq,
      Option.some.injEq] at h
    obtain ⟨rfl, rfl⟩ := h
    refine ⟨?_, rfl, rfl, rfl, rfl, ?_⟩
    · by_contra hno
      exact hcompacted ⟨by tauto, by tauto⟩
    · rw [hfly]
      rfl

private theorem onRpcReturned_nextIndex {response : AppendEntriesResponse} {handled : Handled}
    {r' : Replicator} (h : waiting.onRpcReturned callId false request response = some handled)
    (hr' : handled.replicator = some r')
    (hfly : waiting.appendEntriesInFly = [⟨waiting.nextIndex, 0, callId, true⟩])
    (hprev : request.prevLogIndex = waiting.nextIndex - 1)
    (hsuccess : response.success = true) : r'.nextIndex = waiting.nextIndex := by
  have hfind : findFlying (request.prevLogIndex + 1) callId waiting.appendEntriesInFly =
      some 0 := by
    rw [hfly, hprev]
    simp [findFlying]
  unfold onRpcReturned at h
  rw [hfind] at h
  simp only [Bool.false_eq_true, if_false, hsuccess, Bool.not_true] at h
  split at h
  · cases h
    cases hr'
    simp [resetNextIndex, hfly]
  · obtain ⟨next, -, rfl⟩ := Option.map_eq_some_iff.mp h
    cases hr'
    rfl

end Send

section Answer

variable {flags : Flags} {timerStarts : Bool} {f f' : Follower} {rpc : AppendEntriesRpc}
  {response : AppendEntriesResponse}

/-- A successful answer to an empty request without dependencies leaves the log alone; with
out-of-order replication off, the terms before it agree. -/
private theorem handleAppendEntriesRequest_probe (hentries : rpc.request.entries = [])
    (h : f.handleAppendEntriesRequest flags timerStarts false rpc = some f')
    (hreply : f'.replies = f.replies ++ [(rpc.call, response)])
    (hsuccess : response.success = true) :
    f'.log = f.log ∧ (flags.ooEnabled = false →
      heldTerm f rpc.request.prevLogIndex = rpc.request.prevLogTerm) := by
  have hlast : ∀ {g : Follower} {answer}, g.reply rpc answer = f' → g.replies = f.replies →
      answer = response := by
    rintro g answer rfl hsame
    simp only [Follower.reply, hsame, List.append_cancel_left_eq, List.cons.injEq,
      Prod.mk.injEq, true_and, and_true] at hreply
    exact hreply
  unfold Follower.handleAppendEntriesRequest at h
  split at h
  · obtain rfl := hlast (Option.some.inj h) rfl
    cases hsuccess
  · dsimp only at h
    split at h
    · obtain rfl := hlast (Option.some.inj h) rfl
      cases hsuccess
    · unfold Follower.handleEntries at h
      obtain ⟨wait, hwait, h⟩ := Option.bind_eq_some_iff.mp h
      split at h
      · -- An empty request is never kept, so a wait is a refusal.
        have hkeep : ∀ g : Follower,
            g.handleOutOfOrderAppendEntries flags timerStarts rpc = none := by
          intro g
          simp [Follower.handleOutOfOrderAppendEntries, hentries]
        simp only [hkeep, ite_self, Option.getD_none, Option.some.injEq] at h
        obtain rfl := hlast h rfl
        cases hsuccess
      · rename_i hgo
        cases h
        refine ⟨rfl, ?_⟩
        intro hoff
        obtain ⟨term, hterm, rfl⟩ := Option.map_eq_some_iff.mp hwait
        have hlocal : f.log.unsafeGetTerm rpc.request.prevLogIndex = some term := hterm
        rw [heldTerm, hlocal]
        by_contra hne
        exact hgo (by simpa [hoff] using Or.inl hne)

end Answer

variable {flags : Flags} {box : BallotBox} {log : LogView} {r r' : Replicator} {f f' : Follower}

/-- A successful probe moves neither the next index nor the follower's log. The leader
holds the entry before the probe, unless the probe stands at the start of the log. -/
private theorem probe_facts (hprobe : ProbeSucceeds flags box log r r' f f') :
    r'.nextIndex = r.nextIndex ∧ f'.log = f.log ∧
      (r.nextIndex - 1 = 0 ∨ log.getTerm (r.nextIndex - 1) ≠ 0) ∧
      (flags.ooEnabled = false → heldTerm f (r.nextIndex - 1) = log.getTerm (r.nextIndex - 1)) := by
  obtain ⟨hfly, callId, timerStarts, waiting, request, response, handled, hsend, hhandle, hreply,
    hsuccess, hreturn, hr'⟩ := hprobe
  obtain ⟨hplace, hprev, hterm, hentries, -, rfl⟩ := sendEmptyEntries_probe hfly hsend
  obtain ⟨hlog, hoff⟩ := handleAppendEntriesRequest_probe hentries hhandle hreply hsuccess
  have hnext := onRpcReturned_nextIndex hreturn hr' rfl hprev hsuccess
  refine ⟨hnext, hlog, hplace, ?_⟩
  intro hoo
  have hagree := hoff hoo
  dsimp only at hagree
  rw [hprev, hterm] at hagree
  exact hagree

private theorem Reaches.nothingSkipped (hgap : GapFree log) (hmatch : LogMatching log f)
    (hplace : r.nextIndex - 1 = 0 ∨ log.getTerm (r.nextIndex - 1) ≠ 0)
    (h : Reaches log r f) : NothingSkipped log r f := by
  intro i hi hheld
  rcases hplace with hzero | hterm
  · have hfirst := ((hgap.holds_iff i).mp hheld).1
    have hpos := hgap.first_pos
    omega
  · exact hmatch (r.nextIndex - 1) i (by omega) hterm h.1 hheld (h.2 i hi hheld)

/-- With out-of-order replication off the two logs meet at the probe, and a follower without
holes has all that is below. -/
private theorem reaches_of_off (hgap : GapFree log) (hholes : NoHoles f)
    (hplace : r.nextIndex - 1 = 0 ∨ log.getTerm (r.nextIndex - 1) ≠ 0)
    (hterm : heldTerm f (r.nextIndex - 1) = log.getTerm (r.nextIndex - 1)) : Reaches log r f := by
  refine ⟨hterm, ?_⟩
  intro i hi hheld
  have hfirst := ((hgap.holds_iff i).mp hheld).1
  have hpos := hgap.first_pos
  rcases hplace with hzero | hne
  · omega
  · exact hholes i (r.nextIndex - 1) (by omega) (by omega) (hterm ▸ hne)

private theorem reaches_of_nothingSkipped (hgap : GapFree log)
    (hplace : r.nextIndex - 1 = 0 ∨ log.getTerm (r.nextIndex - 1) ≠ 0)
    (h : NothingSkipped log r f) : Reaches log r f := by
  constructor
  · rcases hplace with hzero | hne
    · have hleader : log.getTerm 0 = 0 := by
        by_contra hne
        have hfirst := ((hgap.holds_iff 0).mp hne).1
        have hpos := hgap.first_pos
        omega
      rw [hzero, hleader]
      rfl
    · exact h (r.nextIndex - 1) (by omega) hne
  · intro i hi hheld
    rw [h i hi hheld]
    exact hheld

/-- A successful probe leaves nothing behind that the follower lacks exactly if
out-of-order replication is off, or the follower already reaches up to the probe. -/
theorem resumes_without_hole_iff (flags : Flags) (box : BallotBox) (log : LogView)
    (r r' : Replicator) (f f' : Follower) (hgap : GapFree log) (hmatch : LogMatching log f)
    (hholes : flags.ooEnabled = false → NoHoles f)
    (hprobe : ProbeSucceeds flags box log r r' f f') :
    NothingSkipped log r' f' ↔ flags.ooEnabled = false ∨ Reaches log r f := by
  obtain ⟨hnext, hlog, hplace, hoff⟩ := probe_facts hprobe
  have hsame : NothingSkipped log r' f' ↔ NothingSkipped log r f := by
    unfold NothingSkipped heldTerm
    rw [hnext, hlog]
  rw [hsame]
  constructor
  · intro hnone
    exact .inr (reaches_of_nothingSkipped hgap hplace hnone)
  · rintro (hoo | hreaches)
    · exact (reaches_of_off hgap (hholes hoo) hplace (hoff hoo)).nothingSkipped hgap hmatch hplace
    · exact hreaches.nothingSkipped hgap hmatch hplace

private def sampleLeaderId : PeerId := ⟨1, 8100, 0⟩

private def sampleFollowerId : PeerId := ⟨2, 8100, 0⟩

/-- A leader of term 1 with two entries. -/
private def sampleLog : LogView where
  getTerm i := if i = 1 ∨ i = 2 then 1 else 0
  getEntry i := if i = 1 ∨ i = 2 then some (sampleEntry i 1) else none
  firstLogIndex := 1
  lastLogIndex := 2

private def sampleFollower (log : LogManager FollowerStableClosure) : Follower where
  serverId := sampleFollowerId
  state := .follower
  currentTerm := 1
  votedId := .empty
  leaderId := sampleLeaderId
  metaStorage := ⟨1, .empty⟩
  conf := ⟨.zero, .none, .none⟩
  log := log
  appendEntriesCache := .new
  fromCache := []
  stable := []
  replies := []

/-- The same two entries, both on disk. -/
private def sampleFull : LogManager FollowerStableClosure :=
  { (LogManager.fresh 64) with
    maxLogIndex := 2
    lastLogIndex := 2
    storage := LogStorage.new.appendEntries [sampleEntry 1 1, sampleEntry 2 1] }

private def sampleProbe : Replicator := .start sampleLeaderId sampleFollowerId 1 sampleLog

private theorem sampleLog_gapFree : GapFree sampleLog := by
  refine ⟨by decide, ?_⟩
  intro i
  simp only [sampleLog]
  split <;> omega

private theorem heldTerm_fresh (i : Int) : heldTerm (sampleFollower (.fresh 64)) i = 0 := by
  have hout : i = 0 ∨ 0 < i ∨ i < 1 := by omega
  simp only [heldTerm, sampleFollower, LogManager.unsafeGetTerm, LogManager.fresh]
  grind

private theorem heldTerm_full (i : Int) :
    heldTerm (sampleFollower sampleFull) i = sampleLog.getTerm i := by
  simp only [heldTerm, sampleFollower, sampleLog, LogManager.unsafeGetTerm, sampleFull,
    LogManager.fresh, Memory.getEntryFromMemory, List.getLast?_nil, LogStorage.getTerm,
    LogStorage.appendEntries, List.foldl_cons, List.foldl_nil, LogStorage.getEntry_appendEntry]
  grind [sampleEntry, LogStorage.new]

private def sampleRequest : AppendEntriesRequest :=
  ⟨sampleLeaderId, sampleFollowerId, 1, 1, 2, [], 0, [], 0⟩

private def sampleSent : Replicator :=
  { sampleProbe with st := .appendingEntries, appendEntriesInFly := [⟨3, 0, 7, true⟩] }

private def sampleSettled : Replicator :=
  { sampleProbe with st := .appendingEntries, hasSucceeded := true }

/-- Out-of-order replication is on. -/
private def sampleFlags : Flags := ⟨true, true, 10⟩

private theorem sampleProbe_succeeds {log : LogManager FollowerStableClosure} {term : Int}
    (hterm : log.unsafeGetTerm 2 = some term) :
    ProbeSucceeds sampleFlags .new sampleLog sampleProbe sampleSettled (sampleFollower log)
      ((sampleFollower log).reply ⟨7, sampleRequest⟩ ⟨1, true, log.lastLogIndex⟩) := by
  refine ⟨rfl, 7, true, sampleSent, sampleRequest, ⟨1, true, log.lastLogIndex⟩,
    ⟨some sampleSettled, none, none, .sendEntries⟩, by decide, ?_, rfl, rfl, ?_, rfl⟩
  · have hwait : (sampleFollower log).mustWait sampleFlags ⟨7, sampleRequest⟩ = some false := by
      simp only [Follower.mustWait]
      rw [show (sampleFollower log).log.unsafeGetTerm sampleRequest.prevLogIndex = some term
        from hterm]
      simp [sampleFlags, sampleRequest, LogManager.checkDependency]
    change (sampleFollower log).handleEntries sampleFlags true false ⟨7, sampleRequest⟩ = _
    simp only [Follower.handleEntries, hwait, Option.bind_eq_bind, Option.bind_some]
    rfl
  · rfl

/-- With out-of-order replication on, an empty follower accepts the first probe of a
replicator, which then resumes behind two entries the follower does not have. -/
theorem probe_skips_entries :
    ∃ (flags : Flags) (box : BallotBox) (log : LogView) (r r' : Replicator) (f f' : Follower),
      GapFree log ∧ LogMatching log f ∧ (flags.ooEnabled = false → NoHoles f) ∧
        ProbeSucceeds flags box log r r' f f' ∧ ¬ NothingSkipped log r' f' := by
  refine ⟨sampleFlags, .new, sampleLog, sampleProbe, sampleSettled, sampleFollower (.fresh 64), _,
    sampleLog_gapFree, ?_, ?_, sampleProbe_succeeds rfl, ?_⟩
  · intro i j hji hi hsame hj hheld
    exact absurd (heldTerm_fresh j) hheld
  · intro hoff
    cases hoff
  · intro hnone
    exact absurd (hnone 1 (by decide) (by decide)) (by decide)

/-- The follower has both entries of the leader, and nothing is skipped. -/
theorem full_follower_resumes :
    NothingSkipped sampleLog sampleSettled
      ((sampleFollower sampleFull).reply ⟨7, sampleRequest⟩ ⟨1, true, 2⟩) := by
  refine (resumes_without_hole_iff sampleFlags .new sampleLog sampleProbe sampleSettled
    (sampleFollower sampleFull) _ sampleLog_gapFree ?_ ?_ (sampleProbe_succeeds rfl)).mpr
    (.inr ?_)
  · intro i j hji hi hsame hj hheld
    exact heldTerm_full j
  · intro hoff
    cases hoff
  · refine ⟨heldTerm_full 2, ?_⟩
    intro i hi hheld
    rw [heldTerm_full i]
    exact hheld

end HitConsistency.Replication.ProbeAnswer
