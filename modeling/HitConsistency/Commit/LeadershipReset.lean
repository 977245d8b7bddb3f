/- GID: HitConsistency/Commit/LeadershipReset
   digest: When both deques of the ballot box stay aligned over changes of leadership. -/

import HitConsistency.Commit.PendingQueues

set_option autoImplicit false
set_option relaxedAutoImplicit false

/-!
`clear_pending_tasks` swaps out the ballots and leaves the flags. Every element of
either deque is tagged here with the index it was pushed for, so that a leftover
flag that is later read for another index is visible.
-/

namespace HitConsistency.Commit.LeadershipReset

open HitConsistency.Base.GuardedRuns
open HitConsistency.Group.Peers
open HitConsistency.Commit.BallotCount
open HitConsistency.Commit.PendingQueues
open BallotBox (Op)

/-- A box with the index that every element of its deques was pushed for. -/
structure Tagged where
  box : BallotBox
  metaOwners : List Int
  flagOwners : List Int
  deriving DecidableEq

namespace Tagged

def new : Tagged := ⟨.new, [], []⟩

/-- A task is pushed for the index behind the ballots that are pending. -/
def nextIndex (s : Tagged) : Int := s.box.pendingIndex + s.box.pendingMetaQueue.length

/-- The tags follow the pushes, pops and swaps of the box. -/
def retag (s : Tagged) (box : BallotBox) : Op → Tagged
  | .appendPendingTask _ _ =>
      ⟨box, s.metaOwners ++ [s.nextIndex], s.flagOwners ++ [s.nextIndex]⟩
  | .commitAt _ _ =>
      ⟨box, s.metaOwners.drop (s.box.pendingMetaQueue.length - box.pendingMetaQueue.length),
        s.flagOwners.drop (s.box.committedIndexQueue.length - box.committedIndexQueue.length)⟩
  | .clearPendingTasks => ⟨box, [], s.flagOwners⟩
  | .resetPendingIndex _ => ⟨box, s.metaOwners, s.flagOwners⟩
  | .setLastCommittedIndex _ _ => ⟨box, s.metaOwners, s.flagOwners⟩

def step (s : Tagged) (op : Op) : Option Tagged := (s.box.perform op).map fun box => s.retag box op

end Tagged

/-- The indexes `first, ..., first + n - 1`. -/
def positions (first : Int) (n : Nat) : List Int :=
  (List.range n).map fun k : Nat => first + k

/-- Both deques have one length, and position `k` of both belongs to `pendingIndex + k`. -/
structure Aligned (s : Tagged) : Prop where
  length : s.box.committedIndexQueue.length = s.box.pendingMetaQueue.length
  ballots : s.metaOwners = positions s.box.pendingIndex s.box.pendingMetaQueue.length
  flags : s.flagOwners = positions s.box.pendingIndex s.box.committedIndexQueue.length

instance alignedDecidable (s : Tagged) : Decidable (Aligned s) :=
  decidable_of_iff (s.box.committedIndexQueue.length = s.box.pendingMetaQueue.length ∧
      s.metaOwners = positions s.box.pendingIndex s.box.pendingMetaQueue.length ∧
      s.flagOwners = positions s.box.pendingIndex s.box.committedIndexQueue.length)
    ⟨fun h => ⟨h.1, h.2.1, h.2.2⟩, fun h => ⟨h.length, h.ballots, h.flags⟩⟩

/-- A clear meets no flags, and a reset that moves the base meets no ballots. -/
def LeavesNoFlags (s : Tagged) : Op → Prop
  | .clearPendingTasks => s.box.committedIndexQueue = []
  | .resetPendingIndex n => s.box.pendingMetaQueue = [] ∨ n = s.box.pendingIndex
  | _ => True

instance leavesNoFlagsDecidable (s : Tagged) : ∀ op, Decidable (LeavesNoFlags s op)
  | .clearPendingTasks => inferInstanceAs (Decidable (_ = _))
  | .resetPendingIndex _ => inferInstanceAs (Decidable (_ ∨ _))
  | .appendPendingTask _ _ => inferInstanceAs (Decidable True)
  | .commitAt _ _ => inferInstanceAs (Decidable True)
  | .setLastCommittedIndex _ _ => inferInstanceAs (Decidable True)

@[simp] theorem positions_zero (first : Int) : positions first 0 = [] := rfl

private theorem positions_succ (first : Int) (n : Nat) :
    positions first (n + 1) = positions first n ++ [first + n] := by
  simp [positions, List.range_succ]

private theorem positions_drop (first : Int) (n k : Nat) :
    (positions first (n + k)).drop k = positions (first + k) n := by
  apply List.ext_getElem?
  intro j
  by_cases hj : j < n
  · simp [positions, hj]
    omega
  · have h1 : (positions first (n + k)).length ≤ k + j := by
      simp [positions]
      omega
    have h2 : (positions (first + k) n).length ≤ j := by
      simp [positions]
      omega
    rw [List.getElem?_drop, List.getElem?_eq_none h1, List.getElem?_eq_none h2]

private theorem positions_base {a b : Int} {n : Nat} (hn : n ≠ 0)
    (h : positions a n = positions b n) :
    a = b := by
  obtain ⟨m, rfl⟩ := Nat.exists_eq_succ_of_ne_zero hn
  simpa [positions, List.range_succ_eq_map] using congrArg List.head? h

theorem setLastCommittedIndex_queues (box : BallotBox) (last : Int) (oo : List Int) :
    (box.setLastCommittedIndex last oo).box.pendingIndex = box.pendingIndex ∧
      (box.setLastCommittedIndex last oo).box.pendingMetaQueue = box.pendingMetaQueue ∧
      (box.setLastCommittedIndex last oo).box.committedIndexQueue = box.committedIndexQueue := by
  unfold BallotBox.setLastCommittedIndex
  split_ifs <;> exact ⟨rfl, rfl, rfl⟩

theorem aligned_step {s t : Tagged} {op : Op} (h : Aligned s) (hstep : s.step op = some t) :
    Aligned t ↔ LeavesNoFlags s op := by
  obtain ⟨hlen, hballots, hflags⟩ := h
  cases op with
  | resetPendingIndex n =>
    cases hstep
    constructor
    · rintro ⟨-, hballots', -⟩
      by_cases hempty : s.box.pendingMetaQueue = []
      · exact .inl hempty
      · have hn : s.box.pendingMetaQueue.length ≠ 0 := by simpa using hempty
        exact .inr (positions_base hn (hballots'.symm.trans hballots))
    · rintro (hempty | rfl)
      · rw [hempty] at hlen hballots
        rw [hlen] at hflags
        exact ⟨by simp [Tagged.retag, BallotBox.resetPendingIndex, hlen, hempty],
          by simp [Tagged.retag, BallotBox.resetPendingIndex, hballots, hempty],
          by simp [Tagged.retag, BallotBox.resetPendingIndex, hflags, hlen]⟩
      · exact ⟨hlen, hballots, hflags⟩
  | appendPendingTask conf oldConf =>
    cases hstep
    refine iff_of_true ⟨?_, ?_, ?_⟩ trivial
    · simp [Tagged.retag, BallotBox.appendPendingTask, hlen]
    · simp only [Tagged.retag, BallotBox.appendPendingTask, List.length_append,
        List.length_singleton]
      rw [positions_succ, hballots, Tagged.nextIndex]
    · simp only [Tagged.retag, BallotBox.appendPendingTask, List.length_append,
        List.length_singleton]
      rw [positions_succ, hflags, hlen, Tagged.nextIndex]
  | commitAt indexes peer =>
    obtain ⟨box, hbox, rfl⟩ := Option.map_eq_some_iff.mp hstep
    obtain ⟨r, hr, rfl⟩ := Option.map_eq_some_iff.mp hbox
    obtain ⟨k, hmeta, hflag, hpending, -⟩ := commitAt_shift hr
    refine iff_of_true ⟨?_, ?_, ?_⟩ trivial
    · dsimp only [Tagged.retag]
      omega
    · dsimp only [Tagged.retag]
      rw [hballots, ← hmeta, Nat.add_sub_cancel_left, positions_drop, hpending]
    · dsimp only [Tagged.retag]
      rw [hflags, ← hflag, Nat.add_sub_cancel_left, positions_drop, hpending]
  | clearPendingTasks =>
    cases hstep
    constructor
    · rintro ⟨hlen', -, -⟩
      simpa [LeavesNoFlags, Tagged.retag, BallotBox.clearPendingTasks] using hlen'
    · intro hempty
      replace hempty : s.box.committedIndexQueue = [] := hempty
      exact ⟨by simp [Tagged.retag, BallotBox.clearPendingTasks, hempty], rfl,
        by simp [Tagged.retag, BallotBox.clearPendingTasks, hflags, hempty]⟩
  | setLastCommittedIndex last oo =>
    cases hstep
    obtain ⟨hp, hm, hf⟩ := setLastCommittedIndex_queues s.box last oo
    refine iff_of_true ⟨?_, ?_, ?_⟩ trivial
    · dsimp only [Tagged.retag]
      rw [hm, hf, hlen]
    · dsimp only [Tagged.retag]
      rw [hp, hm, hballots]
    · dsimp only [Tagged.retag]
      rw [hp, hf, hflags]

theorem aligned_new : Aligned Tagged.new := by decide

private theorem aligned_run {s t : Tagged} {ops : List Op} (h : Aligned s)
    (hg : Guarded Tagged.step LeavesNoFlags s ops)
    (hrun : runEvents Tagged.step s ops = some t) : Aligned t :=
  invariant_of_step (fun _ _ _ hs hop hst => (aligned_step hs hst).mpr hop) h hg hrun

private theorem guarded_of_aligned {s : Tagged} {ops : List Op}
    (hall : ∀ pre post t, ops = pre ++ post → runEvents Tagged.step s pre = some t → Aligned t) :
    Guarded Tagged.step LeavesNoFlags s ops := by
  apply guarded_iff.mpr
  rintro pre op post t rfl hrun
  have haligned : Aligned t := hall pre (op :: post) t rfl hrun
  have hnext : ∀ u, t.step op = some u → Aligned u := by
    intro u hu
    apply hall (pre ++ [op]) post u (by simp)
    exact runEvents_append_eq_some.mpr ⟨t, hrun, runEvents_cons_eq_some.mpr ⟨u, hu, rfl⟩⟩
  cases op with
  | resetPendingIndex n => exact (aligned_step haligned rfl).mp (hnext _ rfl)
  | clearPendingTasks => exact (aligned_step haligned rfl).mp (hnext _ rfl)
  | appendPendingTask conf oldConf => trivial
  | commitAt indexes peer => trivial
  | setLastCommittedIndex last oo => trivial

/-- The operation does not begin a leadership. -/
def NotReset : Op → Prop
  | .resetPendingIndex _ => False
  | _ => True

private theorem pendingIndex_zero_step {s t : Tagged} {op : Op} (h : s.box.pendingIndex = 0)
    (hop : NotReset op) (hstep : s.step op = some t) : t.box.pendingIndex = 0 := by
  cases op with
  | resetPendingIndex n => exact hop.elim
  | appendPendingTask conf oldConf =>
    cases hstep
    exact h
  | commitAt indexes peer =>
    obtain ⟨box, hbox, rfl⟩ := Option.map_eq_some_iff.mp hstep
    obtain ⟨r, hr, rfl⟩ := Option.map_eq_some_iff.mp hbox
    rw [BallotBox.commitAt, if_pos h] at hr
    cases hr
    exact h
  | clearPendingTasks =>
    cases hstep
    rfl
  | setLastCommittedIndex last oo =>
    cases hstep
    exact (setLastCommittedIndex_queues s.box last oo).1.trans h

private theorem pendingIndex_zero_run {s t : Tagged} {ops : List Op} (h : s.box.pendingIndex = 0)
    (hops : ∀ op ∈ ops, NotReset op) (hrun : runEvents Tagged.step s ops = some t) :
    t.box.pendingIndex = 0 := by
  induction ops generalizing s with
  | nil =>
    cases hrun
    exact h
  | cons op ops ih =>
    obtain ⟨m, hm, hmt⟩ := runEvents_cons_eq_some.mp hrun
    exact ih (pendingIndex_zero_step h (hops op (by simp)) hm)
      (fun o ho => hops o (by simp [ho])) hmt

/-- Every state of the run is aligned, and a reset that begins a leadership behind a
clear leaves a box that differs from an unused one in its last committed index only. -/
structure CleanRun (ops : List Op) : Prop where
  aligned : ∀ pre post s, ops = pre ++ post →
    runEvents Tagged.step .new pre = some s → Aligned s
  unused : ∀ pre mid post n s t,
    ops = pre ++ .clearPendingTasks :: mid ++ .resetPendingIndex n :: post →
    (∀ op ∈ mid, NotReset op) → n ≠ 0 →
    runEvents Tagged.step .new (pre ++ .clearPendingTasks :: mid) = some s →
    s.step (.resetPendingIndex n) = some t →
    t = ⟨(BallotBox.idle s.box.lastCommittedIndex).resetPendingIndex n, [], []⟩

private theorem unused_of_aligned {s t : Tagged} {n : Int} (h : Aligned s)
    (hzero : s.box.pendingIndex = 0) (hn : n ≠ 0)
    (hguard : LeavesNoFlags s (.resetPendingIndex n))
    (hstep : s.step (.resetPendingIndex n) = some t) :
    t = ⟨(BallotBox.idle s.box.lastCommittedIndex).resetPendingIndex n, [], []⟩ := by
  obtain ⟨hlen, hballots, hflags⟩ := h
  have hmeta : s.box.pendingMetaQueue = [] :=
    hguard.resolve_right fun e => hn (e.trans hzero)
  have hflag : s.box.committedIndexQueue = [] := by simpa [hmeta] using hlen
  cases hstep
  rw [hmeta] at hballots
  rw [hflag] at hflags
  cases hs : s.box with
  | mk last pending metaQueue flags =>
    rw [hs] at hmeta hflag
    cases hmeta
    cases hflag
    simp [Tagged.retag, BallotBox.resetPendingIndex, BallotBox.idle, hs, hballots, hflags]

/-- A run is clean exactly when every clear meets an empty flag deque and every
reset that moves the base meets no ballots. -/
theorem cleanRun_iff (ops : List Op) :
    CleanRun ops ↔ Guarded Tagged.step LeavesNoFlags .new ops := by
  constructor
  · intro h
    exact guarded_of_aligned h.aligned
  · intro hg
    refine ⟨?_, ?_⟩
    · rintro pre post s rfl hrun
      exact aligned_run aligned_new (guarded_append_left hg) hrun
    · rintro pre mid post n s t rfl hmid hn hrun hstep
      have haligned := aligned_run aligned_new (guarded_append_left hg) hrun
      have hguard := (guarded_append_right hg hrun).1
      obtain ⟨before, -, hrest⟩ := runEvents_append_eq_some.mp hrun
      obtain ⟨cleared, hclear, hmidrun⟩ := runEvents_cons_eq_some.mp hrest
      cases hclear
      exact unused_of_aligned haligned (pendingIndex_zero_run rfl hmid hmidrun) hn hguard hstep

private def soloConf : Configuration := .ofPeers [⟨1, 8000, 0⟩]

/-- Step down with one task pending: its flag stays behind. -/
private def stepDownPending : List Op :=
  [.resetPendingIndex 1, .appendPendingTask soloConf none, .clearPendingTasks]

theorem stepDownPending_not_clean : ¬ CleanRun stepDownPending := by
  intro h
  have haligned := h.aligned stepDownPending [] _ rfl rfl
  exact absurd haligned.length (by decide)

end HitConsistency.Commit.LeadershipReset
