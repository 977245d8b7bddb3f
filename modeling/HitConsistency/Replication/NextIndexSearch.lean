/- GID: HitConsistency/Replication/NextIndexSearch
   digest: Probes and rejections lower the next index until a point where both logs agree. -/

import HitConsistency.Replication.ProbeAnswer

set_option autoImplicit false
set_option relaxedAutoImplicit false

/-!
Behind a rejection the replicator lowers its next index and sends the next empty request,
until one is answered with success. Each round may meet another ballot box and another
call id. The follower's log is not written to in between.
-/

namespace HitConsistency.Replication.NextIndexSearch

open HitConsistency.Base.GuardedRuns
open HitConsistency.Commit.PendingQueues
open HitConsistency.Group.Peers
open HitConsistency.Log.Entry
open HitConsistency.Log.MemoryLog
open HitConsistency.Node.AppendHandler
open HitConsistency.Node.RoleState
open HitConsistency.Replication.PeerSender (LogView Replicator)
open HitConsistency.Replication.PeerSender.Replicator
open HitConsistency.Replication.ProbeAnswer

structure Round where
  box : BallotBox
  callId : Nat
  timerStarts : Bool

/-- The two sides, what the replicator does next, and the last answer. -/
structure Search where
  replicator : Replicator
  follower : Follower
  follow : Follow
  succeeded : Bool

def answer (f f' : Follower) : Option AppendEntriesResponse :=
  (f'.replies.drop f.replies.length).head?.map Prod.snd

def step (flags : Flags) (log : LogView) (s : Search) (round : Round) : Option Search :=
  if s.follow ≠ .sendEmptyEntries then some s
  else do
    let (waiting, request) := s.replicator.sendEmptyEntries round.box log round.callId false
    let request ← request
    let follower ← s.follower.handleAppendEntriesRequest flags round.timerStarts false
      ⟨round.callId, request⟩
    let response ← answer s.follower follower
    let handled ← waiting.onRpcReturned round.callId false request response
    let replicator ← handled.replicator
    some ⟨replicator, follower, handled.follow, response.success⟩

/-- Entries, and their terms, at the indexes from 1 to the last one. -/
structure GapFreeTerms (term : Int → Int) (last : Int) : Prop where
  last_nonneg : 0 ≤ last
  holds_iff : ∀ i, term i ≠ 0 ↔ 1 ≤ i ∧ i ≤ last

/-- The follower's log has no gap, and its terms can be read. -/
structure GapFreeFollower (f : Follower) : Prop where
  readable : ∀ i, ∃ term, f.log.unsafeGetTerm i = some term
  terms : GapFreeTerms (heldTerm f) f.log.lastLogIndex

/-- The follower is in the leader's term and takes it for its leader. -/
structure Accepts (f : Follower) (r : Replicator) : Prop where
  term : f.currentTerm = r.term
  leader : (f.checkStepDown r.term r.serverId).leaderId = r.serverId

/-- The place before the next index is the start of the log, or both logs have an entry of
the same term there. -/
def MatchingPoint (log : LogView) (f : Follower) (nextIndex : Int) : Prop :=
  nextIndex - 1 = 0 ∨ log.getTerm (nextIndex - 1) ≠ 0 ∧
    heldTerm f (nextIndex - 1) = log.getTerm (nextIndex - 1)

def Descends (log : LogView) (f : Follower) (s t : Search) : Prop :=
  if t.succeeded then
    t.replicator.nextIndex = s.replicator.nextIndex ∧
      MatchingPoint log f t.replicator.nextIndex ∧ t.follow = .sendEntries
  else 1 ≤ t.replicator.nextIndex ∧ t.replicator.nextIndex < s.replicator.nextIndex

private theorem checkStepDown_same {role : Role} {term : Int} (hterm : role.currentTerm = term)
    (serverId : PeerId) : (role.checkStepDown term serverId).currentTerm = term := by
  unfold Role.checkStepDown Role.stepDown
  dsimp only
  split_ifs <;> first | exact hterm | omega

private theorem checkStepDown_again {role : Role} {term : Int} {serverId : PeerId}
    (hterm : role.currentTerm = term) (hstate : role.state = .follower)
    (hleader : role.leaderId = serverId) :
    (role.checkStepDown term serverId).leaderId = serverId := by
  have hnot : ¬ role.currentTerm < term := by omega
  unfold Role.checkStepDown Role.stepDown
  dsimp only
  simp only [if_neg hnot, if_neg (not_not.mpr hstate)]
  by_cases hempty : role.leaderId.isEmpty
  · rw [if_pos hempty]
    rfl
  · rw [if_neg hempty, if_neg hempty]
    exact hleader

theorem Accepts.again {f f' : Follower} {r r' : Replicator} (h : Accepts f r)
    (hrole : f'.toRole = f.checkStepDown r.term r.serverId) (hterm : r'.term = r.term)
    (hserver : r'.serverId = r.serverId) : Accepts f' r' := by
  have hsame := checkStepDown_same h.term r.serverId
  constructor
  · rw [hrole, hterm]
    exact hsame
  · rw [hrole, hterm, hserver]
    exact checkStepDown_again hsame (checkStepDown_state _ _ _) h.leader

section Round

variable {flags : Flags} {log : LogView} {r : Replicator} {f : Follower}

/-- The empty request for a next index whose place is in the log. -/
def probeOf (r : Replicator) (box : BallotBox) (log : LogView) : AppendEntriesRequest where
  serverId := r.serverId
  peerId := r.peerId
  term := r.term
  prevLogTerm := log.getTerm (r.nextIndex - 1)
  prevLogIndex := r.nextIndex - 1
  entries := []
  committedIndex := r.advertisedIndex box
  committedOoIndex := r.advertisedOoIndexes box
  dependency := 0

def probing (r : Replicator) (callId : Nat) : Replicator :=
  { r with
    st := .appendingEntries
    appendEntriesInFly := [⟨r.nextIndex, 0, callId, true⟩] }

private theorem sendEmptyEntries_eq (hlog : GapFreeTerms log.getTerm log.lastLogIndex)
    (hfly : r.appendEntriesInFly = []) (hlow : 1 ≤ r.nextIndex)
    (hhigh : r.nextIndex ≤ log.lastLogIndex + 1) (box : BallotBox) (callId : Nat) :
    r.sendEmptyEntries box log callId false = (probing r callId, some (probeOf r box log)) := by
  have hplace : ¬ (log.getTerm (r.nextIndex - 1) = 0 ∧ r.nextIndex - 1 ≠ 0) := by
    rintro ⟨hzero, hne⟩
    exact (hlog.holds_iff (r.nextIndex - 1)).mpr ⟨by omega, by omega⟩ hzero
  have hfill : r.fillCommonFields box log (r.nextIndex - 1) false = some (probeOf r box log) := by
    have hflag : (decide (log.getTerm (r.nextIndex - 1) = 0) && decide (r.nextIndex - 1 ≠ 0)) =
        false := by
      simpa using hplace
    simp only [fillCommonFields, hflag, Bool.false_and, Bool.false_eq_true, if_false]
    rfl
  rw [sendEmptyEntries, hfill, hfly]
  rfl

private theorem handleEntries_probeOf (hoff : flags.ooEnabled = false)
    (hfollower : GapFreeFollower f)
    (hsame : f.currentTerm = r.term) (box : BallotBox) (callId : Nat) (timerStarts : Bool) :
    f.handleEntries flags timerStarts false ⟨callId, probeOf r box log⟩ =
      some (f.reply ⟨callId, probeOf r box log⟩ ⟨r.term,
        decide (heldTerm f (r.nextIndex - 1) = log.getTerm (r.nextIndex - 1)),
        f.log.lastLogIndex⟩) := by
  obtain ⟨term, hterm⟩ := hfollower.readable (r.nextIndex - 1)
  have hheld : heldTerm f (r.nextIndex - 1) = term := by rw [heldTerm, hterm]; rfl
  have hwait : f.mustWait flags ⟨callId, probeOf r box log⟩ =
      some (decide (term ≠ log.getTerm (r.nextIndex - 1))) := by
    simp [Follower.mustWait, probeOf, hterm, hoff, LogManager.checkDependency]
  rw [Follower.handleEntries, hwait, hheld]
  by_cases hagree : term = log.getTerm (r.nextIndex - 1)
  · simp [hagree, probeOf, hsame]
  · have hnone : f.handleOutOfOrderAppendEntries flags timerStarts ⟨callId, probeOf r box log⟩ =
        none := by simp [Follower.handleOutOfOrderAppendEntries, probeOf]
    simp [hagree, hnone, hsame]

private theorem handleAppendEntriesRequest_probeOf (log : LogView) (hoff : flags.ooEnabled = false)
    (hfollower : GapFreeFollower f) (haccepts : Accepts f r) (box : BallotBox) (callId : Nat)
    (timerStarts : Bool) :
    f.handleAppendEntriesRequest flags timerStarts false ⟨callId, probeOf r box log⟩ =
      some ({ f with toRole := f.checkStepDown r.term r.serverId }.reply
        ⟨callId, probeOf r box log⟩ ⟨r.term,
          decide (heldTerm f (r.nextIndex - 1) = log.getTerm (r.nextIndex - 1)),
          f.log.lastLogIndex⟩) := by
  rw [Follower.handleAppendEntriesRequest, if_neg (by exact haccepts.term ▸ lt_irrefl _)]
  dsimp only
  rw [if_neg (by exact fun hne => hne haccepts.leader.symm)]
  exact handleEntries_probeOf (f := { f with toRole := f.checkStepDown r.term r.serverId }) hoff
    ⟨hfollower.readable, hfollower.terms⟩ (checkStepDown_same haccepts.term r.serverId) box callId
    timerStarts

private theorem findFlying_probing (r : Replicator) (callId : Nat) :
    findFlying (r.nextIndex - 1 + 1) callId (probing r callId).appendEntriesInFly = some 0 := by
  simp [probing, findFlying]

def lowered (r : Replicator) (callId : Nat) (lastLogIndex : Int) : Replicator :=
  { probing r callId with
    nextIndex := if lastLogIndex + 1 < r.nextIndex then lastLogIndex + 1
      else if 1 < r.nextIndex then r.nextIndex - 1 else r.nextIndex
    flyingAppendEntriesSize := 0
    appendEntriesInFly := []
    isWaiterCanceled := true
    waiting := false }

private theorem onRpcReturned_rejected (r : Replicator) (log : LogView) (box : BallotBox)
    (callId : Nat)
    (lastLogIndex : Int) :
    (probing r callId).onRpcReturned callId false (probeOf r box log)
        ⟨r.term, false, lastLogIndex⟩ =
      some ⟨some (lowered r callId lastLogIndex), none, none, .sendEmptyEntries⟩ := by
  have hfind := findFlying_probing r callId
  rw [onRpcReturned, show (probeOf r box log).prevLogIndex = r.nextIndex - 1 from rfl, hfind]
  simp [probing, resetNextIndex, lowered]

private theorem onRpcReturned_succeeded (r : Replicator) (log : LogView) (box : BallotBox)
    (callId : Nat)
    (lastLogIndex : Int) :
    ∃ r', (probing r callId).onRpcReturned callId false (probeOf r box log)
        ⟨r.term, true, lastLogIndex⟩ = some ⟨some r', none, none, .sendEntries⟩ ∧
      r'.nextIndex = r.nextIndex := by
  have hfind := findFlying_probing r callId
  rw [onRpcReturned, show (probeOf r box log).prevLogIndex = r.nextIndex - 1 from rfl, hfind]
  refine ⟨settle { probing r callId with
    appendEntriesInFly := (probing r callId).appendEntriesInFly.modify 0 fun rpc =>
      { rpc with unanswered := false } } 0 (probeOf r box log)
        (r.ooStartIndex, r.ooCommittedEntries), ?_, rfl⟩
  simp [probing, probeOf, nextWindow]

end Round

/-- The search goes on: nothing is in fly, and the next index is in the range of the log. -/
structure Searching (log : LogView) (f : Follower) (s : Search) : Prop where
  follow : s.follow = .sendEmptyEntries
  unsucceeded : s.succeeded = false
  fly : s.replicator.appendEntriesInFly = []
  low : 1 ≤ s.replicator.nextIndex
  high : s.replicator.nextIndex ≤ log.lastLogIndex + 1
  accepts : Accepts s.follower s.replicator
  log : s.follower.log = f.log

structure Found (log : LogView) (f : Follower) (s : Search) : Prop where
  follow : s.follow = .sendEntries
  succeeded : s.succeeded = true
  low : 1 ≤ s.replicator.nextIndex
  matching : MatchingPoint log f s.replicator.nextIndex

section Run

variable {flags : Flags} {log : LogView} {f : Follower} {s : Search}

private theorem matchingPoint_of_agree (hlog : GapFreeTerms log.getTerm log.lastLogIndex)
    {nextIndex : Int} (hlow : 1 ≤ nextIndex) (hhigh : nextIndex ≤ log.lastLogIndex + 1)
    (hagree : heldTerm f (nextIndex - 1) = log.getTerm (nextIndex - 1)) :
    MatchingPoint log f nextIndex := by
  rcases eq_or_ne (nextIndex - 1) 0 with hzero | hne
  · exact .inl hzero
  · exact .inr ⟨(hlog.holds_iff _).mpr ⟨by omega, by omega⟩, hagree⟩

private theorem one_lt_of_disagree (hlog : GapFreeTerms log.getTerm log.lastLogIndex)
    {nextIndex : Int} (hlow : 1 ≤ nextIndex)
    (hdiffers : heldTerm f (nextIndex - 1) ≠ log.getTerm (nextIndex - 1)) : 1 < nextIndex := by
  by_contra hnot
  have hone : nextIndex - 1 = 0 := by omega
  have hleader : log.getTerm 0 = 0 := by
    by_contra hne
    exact absurd ((hlog.holds_iff 0).mp hne).1 (by decide)
  exact hdiffers (by rw [hone, hleader]; rfl)

theorem Searching.round (hoff : flags.ooEnabled = false)
    (hlog : GapFreeTerms log.getTerm log.lastLogIndex) (hfollower : GapFreeFollower f)
    (h : Searching log f s) (round : Round) :
    ∃ t, step flags log s round = some t ∧ Descends log f s t ∧
      (Searching log f t ∨ Found log f t) := by
  obtain ⟨r, g, follow, succeeded⟩ := s
  obtain ⟨rfl, rfl, hfly, hlow, hhigh, haccepts, hsame⟩ := h
  dsimp only at hfly hlow hhigh haccepts hsame
  have hreadable : GapFreeFollower g :=
    ⟨hsame ▸ hfollower.readable, by
      have := hfollower.terms
      unfold heldTerm at this ⊢
      rwa [hsame]⟩
  have hheld : heldTerm g (r.nextIndex - 1) = heldTerm f (r.nextIndex - 1) := by
    rw [heldTerm, hsame, heldTerm]
  have hsend := sendEmptyEntries_eq hlog hfly hlow hhigh round.box round.callId
  have hhandle := handleAppendEntriesRequest_probeOf log hoff hreadable haccepts round.box
    round.callId round.timerStarts
  rw [hheld] at hhandle
  obtain ⟨g', hg'⟩ : ∃ g', ({ g with toRole := g.checkStepDown r.term r.serverId }.reply
      ⟨round.callId, probeOf r round.box log⟩ ⟨r.term,
        decide (heldTerm f (r.nextIndex - 1) = log.getTerm (r.nextIndex - 1)),
        g.log.lastLogIndex⟩) = g' := ⟨_, rfl⟩
  have hanswer : answer g g' = some ⟨r.term,
      decide (heldTerm f (r.nextIndex - 1) = log.getTerm (r.nextIndex - 1)),
      g.log.lastLogIndex⟩ := by
    rw [← hg']
    simp [answer, Follower.reply]
  rw [hg'] at hhandle
  by_cases hagree : heldTerm f (r.nextIndex - 1) = log.getTerm (r.nextIndex - 1)
  · obtain ⟨r', hreturn, hnext⟩ := onRpcReturned_succeeded r log round.box
      round.callId g.log.lastLogIndex
    rw [decide_eq_true hagree] at hanswer
    have hmatch := matchingPoint_of_agree hlog hlow hhigh hagree
    refine ⟨⟨r', g', .sendEntries, true⟩, ?_, ?_, .inr ⟨rfl, rfl, ?_, ?_⟩⟩
    · simp [step, hsend, hhandle, hanswer, hreturn]
    · exact (if_pos rfl).mpr ⟨hnext, hnext ▸ hmatch, rfl⟩
    · exact hnext ▸ hlow
    · exact hnext ▸ hmatch
  · have hreturn := onRpcReturned_rejected r log round.box round.callId
      g.log.lastLogIndex
    rw [decide_eq_false hagree] at hanswer
    have hone := one_lt_of_disagree hlog hlow hagree
    have hlast := hreadable.terms.last_nonneg
    have hnext : 1 ≤ (lowered r round.callId g.log.lastLogIndex).nextIndex ∧
        (lowered r round.callId g.log.lastLogIndex).nextIndex < r.nextIndex := by
      simp only [lowered]
      split_ifs <;> omega
    refine ⟨⟨lowered r round.callId g.log.lastLogIndex, g', .sendEmptyEntries, false⟩, ?_, ?_,
      .inl ⟨rfl, rfl, rfl, hnext.1, ?_, ?_, ?_⟩⟩
    · simp [step, hsend, hhandle, hanswer, hreturn]
    · exact hnext
    · exact hnext.2.le.trans hhigh
    · exact haccepts.again (by rw [← hg']; rfl) rfl rfl
    · rw [← hg']
      exact hsame

theorem Found.round (h : Found log f s) (round : Round) : step flags log s round = some s :=
  if_pos (by rw [h.follow]; decide)

/-- However many rounds there are, the search has found a point, or each round has lowered the
next index. -/
theorem Searching.run (hoff : flags.ooEnabled = false)
    (hlog : GapFreeTerms log.getTerm log.lastLogIndex) (hfollower : GapFreeFollower f)
    (h : Searching log f s) (rounds : List Round) :
    ∃ t, runEvents (step flags log) s rounds = some t ∧ (Found log f t ∨
      Searching log f t ∧ t.replicator.nextIndex + rounds.length ≤ s.replicator.nextIndex) := by
  induction rounds using List.reverseRecOn with
  | nil => exact ⟨s, rfl, .inr ⟨h, by simp⟩⟩
  | append_singleton rounds round ih =>
    obtain ⟨t, ht, hfound | ⟨hsearching, hnext⟩⟩ := ih
    · refine ⟨t, runEvents_append_eq_some.mpr ⟨t, ht, ?_⟩, .inl hfound⟩
      exact runEvents_cons_eq_some.mpr ⟨t, hfound.round round, rfl⟩
    · obtain ⟨u, hu, hdescends, hstate⟩ := hsearching.round hoff hlog hfollower round
      refine ⟨u, runEvents_append_eq_some.mpr ⟨t, ht,
        runEvents_cons_eq_some.mpr ⟨u, hu, rfl⟩⟩, ?_⟩
      rcases hstate with hsearching' | hfound
      · have hlower := (if_neg (by simp [hsearching'.unsucceeded])).mp hdescends
        refine .inr ⟨hsearching', ?_⟩
        rw [List.length_append, List.length_singleton]
        push_cast
        omega
      · exact .inl hfound

end Run

/-- Without out-of-order replication the search ends: every probe lowers the next index, never
below 1, or is answered with success where the logs agree; and there are at most as many
probes as the first next index. -/
theorem next_index_search_ends (flags : Flags) (log : LogView) (r : Replicator) (f : Follower)
    (hoff : flags.ooEnabled = false) (hlog : GapFreeTerms log.getTerm log.lastLogIndex)
    (hfollower : GapFreeFollower f) (haccepts : Accepts f r) (hfly : r.appendEntriesInFly = [])
    (hlow : 1 ≤ r.nextIndex) (hhigh : r.nextIndex ≤ log.lastLogIndex + 1) (rounds : List Round) :
    ∃ t, runEvents (step flags log) ⟨r, f, .sendEmptyEntries, false⟩ rounds = some t ∧
      1 ≤ t.replicator.nextIndex ∧
      (r.nextIndex ≤ rounds.length → t.succeeded = true) ∧
      (t.succeeded = true → MatchingPoint log f t.replicator.nextIndex) ∧
      ∀ pre round post s u, rounds = pre ++ round :: post →
        runEvents (step flags log) ⟨r, f, .sendEmptyEntries, false⟩ pre = some s →
        s.succeeded = false → step flags log s round = some u → Descends log f s u := by
  have hstart : Searching log f ⟨r, f, .sendEmptyEntries, false⟩ :=
    ⟨rfl, rfl, hfly, hlow, hhigh, haccepts, rfl⟩
  obtain ⟨t, ht, hstate⟩ := hstart.run hoff hlog hfollower rounds
  refine ⟨t, ht, ?_, fun hmany => ?_, fun hsucceeded => ?_, ?_⟩
  · rcases hstate with hfound | ⟨hsearching, -⟩
    · exact hfound.low
    · exact hsearching.low
  · rcases hstate with hfound | ⟨hsearching, hnext⟩
    · exact hfound.succeeded
    · have := hsearching.low
      dsimp only at hnext
      omega
  · rcases hstate with hfound | ⟨hsearching, -⟩
    · exact hfound.matching
    · rw [hsearching.unsucceeded] at hsucceeded
      cases hsucceeded
  · rintro pre round post s u - hs hunsucceeded hu
    obtain ⟨s', hs', hstate'⟩ := hstart.run hoff hlog hfollower pre
    rw [hs] at hs'
    cases hs'
    rcases hstate' with hfound | ⟨hsearching, -⟩
    · rw [hfound.succeeded] at hunsucceeded
      cases hunsucceeded
    · obtain ⟨u', hu', hdescends, -⟩ := hsearching.round hoff hlog hfollower round
      rw [hu] at hu'
      cases hu'
      exact hdescends

private def leaderId : PeerId := ⟨1, 8100, 0⟩

private def followerId : PeerId := ⟨2, 8100, 0⟩

/-- A leader of term 2 with two entries of its term. -/
private def leaderLog : LogView where
  getTerm i := if i = 1 ∨ i = 2 then 2 else 0
  getEntry i := if i = 1 ∨ i = 2 then some ⟨.data, ⟨i, 2⟩, 0, none, none, []⟩ else none
  firstLogIndex := 1
  lastLogIndex := 2

/-- A follower with one entry, of term 1. -/
private def diverged : Follower where
  serverId := followerId
  state := .follower
  currentTerm := 2
  votedId := .empty
  leaderId := .empty
  metaStorage := ⟨2, .empty⟩
  conf := ⟨.zero, .none, .none⟩
  log :=
    { (LogManager.fresh 64) with
      maxLogIndex := 1
      lastLogIndex := 1
      storage := LogStorage.new.appendEntries [⟨.data, ⟨1, 1⟩, 0, none, none, []⟩] }
  appendEntriesCache := .new
  fromCache := []
  stable := []
  replies := []

private theorem diverged_getTerm (i : Int) :
    diverged.log.unsafeGetTerm i = some (if i = 1 then 1 else 0) := by
  simp only [diverged, LogManager.unsafeGetTerm, LogManager.fresh, Memory.getEntryFromMemory,
    List.getLast?_nil, LogStorage.getTerm, LogStorage.appendEntries, List.foldl_cons,
    List.foldl_nil, LogStorage.getEntry_appendEntry]
  grind [LogStorage.new]

/-- The follower is shorter, and its only entry is of another term. -/
theorem next_index_search_diverged :
    ∃ t, runEvents (step ⟨false, true, 8⟩ leaderLog)
        ⟨.start leaderId followerId 2 leaderLog, diverged, .sendEmptyEntries, false⟩
        [⟨.new, 1, true⟩, ⟨.new, 2, true⟩, ⟨.new, 3, true⟩] = some t ∧
      t.succeeded = true ∧ MatchingPoint leaderLog diverged t.replicator.nextIndex := by
  have hleader : GapFreeTerms leaderLog.getTerm leaderLog.lastLogIndex := by
    refine ⟨by decide, fun i => ?_⟩
    simp only [leaderLog]
    split <;> omega
  have hfollower : GapFreeFollower diverged := by
    refine ⟨fun i => ⟨_, diverged_getTerm i⟩, by decide, fun i => ?_⟩
    rw [heldTerm, diverged_getTerm]
    show (if i = 1 then 1 else 0) ≠ (0 : Int) ↔ 1 ≤ i ∧ i ≤ 1
    split <;> omega
  obtain ⟨t, ht, -, hmany, hmatch, -⟩ := next_index_search_ends ⟨false, true, 8⟩ leaderLog
    (.start leaderId followerId 2 leaderLog) diverged rfl hleader hfollower
    ⟨rfl, by decide⟩ rfl (by decide) (by decide)
    [⟨.new, 1, true⟩, ⟨.new, 2, true⟩, ⟨.new, 3, true⟩]
  have hsucceeded := hmany (by decide)
  exact ⟨t, ht, hsucceeded, hmatch hsucceeded⟩

end HitConsistency.Replication.NextIndexSearch
