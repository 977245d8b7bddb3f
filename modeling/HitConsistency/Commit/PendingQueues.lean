/- GID: HitConsistency/Commit/PendingQueues
   digest: The ballot box: two deques over pending indexes, their five operations and reports. -/

import HitConsistency.Base.GuardedRuns
import HitConsistency.Base.IndexedDeque
import HitConsistency.Commit.BallotCount

set_option autoImplicit false
set_option relaxedAutoImplicit false

/-!
Both deques are subscripted with `index - pendingIndex`. A subscript out of range
and a `pop_front` of an empty deque are undefined, and the operation then has no
result. A failing `CHECK` only logs, so the operations continue behind it; what a
`CHECK` states is kept as a separate predicate.
-/

namespace HitConsistency.Commit.PendingQueues

open HitConsistency.Base.GuardedRuns
open HitConsistency.Base.IndexedDeque
open HitConsistency.Group.Peers
open HitConsistency.Commit.BallotCount

/-- Return codes: `0`, `EINVAL`, `ERANGE` and `-1`. -/
inductive Errno
  | ok | einval | erange | failed
  deriving DecidableEq

structure BallotBox where
  lastCommittedIndex : Int
  pendingIndex : Int
  pendingMetaQueue : List Ballot
  committedIndexQueue : List Bool
  deriving DecidableEq

/-- The arguments of one `FSMCaller::on_committed` call. -/
structure Committed where
  committedIndex : Int
  ooCommittedEntries : List Int
  deriving DecidableEq

/-- What an operation leaves behind: its return code, the box and its report. -/
structure Outcome where
  rc : Errno
  box : BallotBox
  onCommitted : Option Committed
  deriving DecidableEq

/-- The state of the grant loop in `commit_at`. -/
structure Pass where
  metaQueue : List Ballot
  flags : List Bool
  posHint : PosHint
  ooCommittedEntries : List Int
  deriving DecidableEq

namespace BallotBox

def new : BallotBox := ⟨0, 0, [], []⟩

/-- A box without leadership that has only heard of committed indexes. -/
def idle (lastCommittedIndex : Int) : BallotBox := ⟨lastCommittedIndex, 0, [], []⟩

/-- One round of the grant loop. The flag is read only behind a granted ballot. -/
def grantOne (pendingIndex : Int) (peer : PeerId) (pass : Pass) (index : Int) : Option Pass := do
  let bl ← item pass.metaQueue (index - pendingIndex)
  let (bl, posHint) := bl.grant peer pass.posHint
  let metaQueue ← store pass.metaQueue (index - pendingIndex) bl
  if bl.granted then
    let flag ← item pass.flags (index - pendingIndex)
    if flag then
      some ⟨metaQueue, pass.flags, posHint, pass.ooCommittedEntries⟩
    else
      let flags ← store pass.flags (index - pendingIndex) true
      some ⟨metaQueue, flags, posHint, pass.ooCommittedEntries ++ [index]⟩
  else
    some ⟨metaQueue, pass.flags, posHint, pass.ooCommittedEntries⟩

/-- Pop both deques while the front flag is set, counting the pops. -/
def popCommitted : List Ballot → List Bool → Option (List Ballot × List Bool × Nat)
  | [], true :: _ => none
  | _ :: metaQueue, true :: flags =>
      (popCommitted metaQueue flags).map fun r => (r.1, r.2.1, r.2.2 + 1)
  | metaQueue, flags => some (metaQueue, flags, 0)

/-- The part of `commit_at` behind its range checks: grant, then pop the head. -/
def grantAndPop (box : BallotBox) (commitIndexes : List Int) (peer : PeerId) :
    Option Outcome := do
  let indexes := commitIndexes.dropWhile (· < box.pendingIndex)
  let pass ← runEvents (grantOne box.pendingIndex peer)
    ⟨box.pendingMetaQueue, box.committedIndexQueue, .new, []⟩ indexes
  let marked : BallotBox :=
    ⟨box.lastCommittedIndex, box.pendingIndex, pass.metaQueue, pass.flags⟩
  if pass.ooCommittedEntries.isEmpty then some ⟨.ok, marked, none⟩
  -- The test is on the front of the call's list, not on the head's quorum.
  else if indexes.head? = some box.pendingIndex then
    let (metaQueue, flags, sequential) ← popCommitted pass.metaQueue pass.flags
    let pendingIndex := box.pendingIndex + sequential
    some ⟨.ok, ⟨pendingIndex - 1, pendingIndex, metaQueue, flags⟩,
      some ⟨pendingIndex - 1, pass.ooCommittedEntries⟩⟩
  else some ⟨.ok, marked, some ⟨box.lastCommittedIndex, pass.ooCommittedEntries⟩⟩

def commitAt (box : BallotBox) (commitIndexes : List Int) (peer : PeerId) : Option Outcome :=
  if box.pendingIndex = 0 then some ⟨.einval, box, none⟩
  else match commitIndexes.getLast? with
  | none => some ⟨.ok, box, none⟩
  | some back =>
    if back < box.pendingIndex then some ⟨.ok, box, none⟩
    else if box.pendingIndex + box.pendingMetaQueue.length ≤ back then some ⟨.erange, box, none⟩
    else box.grantAndPop commitIndexes peer

/-- Swaps out the ballots only; the flag deque is left as it is. -/
def clearPendingTasks (box : BallotBox) : BallotBox :=
  { box with pendingIndex := 0, pendingMetaQueue := [] }

def resetPendingIndex (box : BallotBox) (newPendingIndex : Int) : BallotBox :=
  { box with pendingIndex := newPendingIndex }

/-- The two `CHECK`s of `reset_pending_index`. -/
def ResetCheck (box : BallotBox) (newPendingIndex : Int) : Prop :=
  box.pendingIndex = 0 ∧ box.pendingMetaQueue = [] ∧ box.lastCommittedIndex < newPendingIndex

instance resetCheckDecidable (box : BallotBox) (n : Int) : Decidable (box.ResetCheck n) :=
  inferInstanceAs (Decidable (_ ∧ _))

def setLastCommittedIndex (box : BallotBox) (lastCommittedIndex : Int)
    (ooCommittedEntries : List Int) : Outcome :=
  if box.pendingIndex ≠ 0 ∨ box.pendingMetaQueue ≠ [] then ⟨.failed, box, none⟩
  else if lastCommittedIndex < box.lastCommittedIndex then ⟨.einval, box, none⟩
  else if box.lastCommittedIndex < lastCommittedIndex then
    ⟨.ok, { box with lastCommittedIndex := lastCommittedIndex },
      some ⟨lastCommittedIndex, ooCommittedEntries⟩⟩
  else ⟨.ok, box, none⟩

def appendPendingTask (box : BallotBox) (conf : Configuration)
    (oldConf : Option Configuration) : BallotBox :=
  { box with
    pendingMetaQueue := box.pendingMetaQueue ++ [Ballot.init conf oldConf]
    committedIndexQueue := box.committedIndexQueue ++ [false] }

inductive Op
  | resetPendingIndex (newPendingIndex : Int)
  | appendPendingTask (conf : Configuration) (oldConf : Option Configuration)
  | commitAt (commitIndexes : List Int) (peer : PeerId)
  | clearPendingTasks
  | setLastCommittedIndex (lastCommittedIndex : Int) (ooCommittedEntries : List Int)
  deriving DecidableEq

def perform (box : BallotBox) : Op → Option BallotBox
  | .resetPendingIndex n => some (box.resetPendingIndex n)
  | .appendPendingTask conf oldConf => some (box.appendPendingTask conf oldConf)
  | .commitAt indexes peer => (box.commitAt indexes peer).map Outcome.box
  | .clearPendingTasks => some box.clearPendingTasks
  | .setLastCommittedIndex last oo => some (box.setLastCommittedIndex last oo).box

/-- The indexes of the set flags, counted up from the first one. -/
def flagged : Int → List Bool → List Int
  | _, [] => []
  | index, true :: flags => index :: flagged (index + 1) flags
  | index, false :: flags => flagged (index + 1) flags

/-- The pending index together with the indexes committed out of order. -/
def ooCommitedIndexes (box : BallotBox) : Int × List Int :=
  (box.pendingIndex, flagged box.pendingIndex box.committedIndexQueue)

end BallotBox

open BallotBox

theorem mem_flagged (first : Int) (flags : List Bool) (i : Int) :
    i ∈ flagged first flags ↔ item flags (i - first) = some true := by
  induction flags generalizing first with
  | nil => simp [flagged, item]
  | cons b flags ih =>
    have shift : first < i → item (b :: flags) (i - first) = item flags (i - (first + 1)) := by
      intro h
      rw [item_cons_pos b flags (by omega)]
      congr 1
      omega
    have head : i = first → item (b :: flags) (i - first) = some b := by
      rintro rfl
      rw [Int.sub_self, item_cons_zero]
    have below : i < first → item (b :: flags) (i - first) = none :=
      fun h => item_none_of_neg _ (by omega)
    have later : i ∈ flagged (first + 1) flags → first < i := by
      intro h
      have := item_eq_some_bounds ((ih (first + 1)).mp h)
      omega
    rcases lt_trichotomy i first with h | h | h
    · rw [below h]
      cases b <;> simp [flagged] <;> grind
    · rw [head h]
      cases b <;> simp [flagged] <;> grind
    · rw [shift h, ← ih (first + 1)]
      cases b <;> simp [flagged]
      omega

theorem popCommitted_eq (metaQueue : List Ballot) (flags : List Bool)
    (h : metaQueue.length = flags.length) :
    popCommitted metaQueue flags =
      some (metaQueue.drop (flags.takeWhile id).length,
        flags.drop (flags.takeWhile id).length, (flags.takeWhile id).length) := by
  induction metaQueue generalizing flags with
  | nil =>
    cases List.length_eq_zero_iff.mp h.symm
    rfl
  | cons bl metaQueue ih =>
    cases flags with
    | nil => simp at h
    | cons b flags =>
      cases b with
      | false => simp [popCommitted]
      | true =>
        have := ih flags (by simpa using h)
        simp [popCommitted, this]

theorem grantOne_lengths {p : Int} {peer : PeerId} {pass pass' : Pass} {i : Int}
    (h : grantOne p peer pass i = some pass') :
    pass'.metaQueue.length = pass.metaQueue.length ∧ pass'.flags.length = pass.flags.length := by
  simp only [grantOne, Option.bind_eq_bind, Option.bind_eq_some_iff] at h
  obtain ⟨bl, -, metaQueue, hmeta, h⟩ := h
  have hlen := store_length hmeta
  split_ifs at h
  · obtain ⟨flag, -, h⟩ := Option.bind_eq_some_iff.mp h
    split at h
    · cases h
      exact ⟨hlen, rfl⟩
    · obtain ⟨flags, hflags, h⟩ := Option.bind_eq_some_iff.mp h
      cases h
      exact ⟨hlen, store_length hflags⟩
  · cases h
    exact ⟨hlen, rfl⟩

private theorem grantLoop_lengths {p : Int} {peer : PeerId} {indexes : List Int} {pass pass' : Pass}
    (h : runEvents (grantOne p peer) pass indexes = some pass') :
    pass'.metaQueue.length = pass.metaQueue.length ∧ pass'.flags.length = pass.flags.length := by
  induction indexes generalizing pass with
  | nil =>
    cases h
    exact ⟨rfl, rfl⟩
  | cons i indexes ih =>
    obtain ⟨mid, hstep, hrest⟩ := runEvents_cons_eq_some.mp h
    have h1 := grantOne_lengths hstep
    have h2 := ih hrest
    exact ⟨h2.1.trans h1.1, h2.2.trans h1.2⟩

private theorem popCommitted_lengths {metaQueue : List Ballot} {flags : List Bool}
    {r : List Ballot × List Bool × Nat} (h : popCommitted metaQueue flags = some r) :
    r.1.length + r.2.2 = metaQueue.length ∧ r.2.1.length + r.2.2 = flags.length := by
  induction metaQueue generalizing flags r with
  | nil =>
    rcases flags with - | ⟨- | -, flags⟩
    all_goals simp [popCommitted] at h
    all_goals subst h; simp
  | cons bl metaQueue ih =>
    rcases flags with - | ⟨- | -, flags⟩
    · simp [popCommitted] at h
      subst h
      simp
    · simp [popCommitted] at h
      subst h
      simp
    · simp only [popCommitted, Option.map_eq_some_iff] at h
      obtain ⟨q, hq, rfl⟩ := h
      have := ih hq
      simp only [List.length_cons]
      omega

/-- Whatever the lists, a call pops the same number off both deques and moves the
pending index by it; the last committed index then sits right below. -/
theorem commitAt_shift {box : BallotBox} {indexes : List Int} {peer : PeerId} {r : Outcome}
    (h : box.commitAt indexes peer = some r) :
    ∃ k : Nat, r.box.pendingMetaQueue.length + k = box.pendingMetaQueue.length ∧
      r.box.committedIndexQueue.length + k = box.committedIndexQueue.length ∧
      r.box.pendingIndex = box.pendingIndex + k ∧
      (k = 0 ∧ r.box.lastCommittedIndex = box.lastCommittedIndex ∨
        r.box.lastCommittedIndex = r.box.pendingIndex - 1) := by
  have unmoved : ∀ rc, ∃ k : Nat,
      (Outcome.mk rc box none).box.pendingMetaQueue.length + k = box.pendingMetaQueue.length ∧
      (Outcome.mk rc box none).box.committedIndexQueue.length + k =
        box.committedIndexQueue.length ∧
      (Outcome.mk rc box none).box.pendingIndex = box.pendingIndex + k ∧
      (k = 0 ∧ (Outcome.mk rc box none).box.lastCommittedIndex = box.lastCommittedIndex ∨
        (Outcome.mk rc box none).box.lastCommittedIndex =
          (Outcome.mk rc box none).box.pendingIndex - 1) :=
    fun rc => ⟨0, by simp⟩
  unfold commitAt at h
  split at h
  · cases h
    exact unmoved _
  · split at h
    · cases h
      exact unmoved _
    · split_ifs at h
      · cases h
        exact unmoved _
      · cases h
        exact unmoved _
      · unfold grantAndPop at h
        obtain ⟨pass, hpass, h⟩ := Option.bind_eq_some_iff.mp h
        have hlen := grantLoop_lengths hpass
        dsimp only at h hlen
        split_ifs at h
        · cases h
          exact ⟨0, by simp [hlen]⟩
        · obtain ⟨popped, hpop, h⟩ := Option.bind_eq_some_iff.mp h
          have hpopped := popCommitted_lengths hpop
          cases h
          refine ⟨popped.2.2, ?_, ?_, rfl, .inr rfl⟩
          · exact hpopped.1.trans hlen.1
          · exact hpopped.2.trans hlen.2
        · cases h
          exact ⟨0, by simp [hlen]⟩

private theorem grantAndPop_rc {box : BallotBox} {indexes : List Int} {peer : PeerId} {r : Outcome}
    (h : box.grantAndPop indexes peer = some r) : r.rc = .ok := by
  unfold grantAndPop at h
  obtain ⟨pass, -, h⟩ := Option.bind_eq_some_iff.mp h
  dsimp only at h
  split_ifs at h
  · cases h
    rfl
  · obtain ⟨popped, -, h⟩ := Option.bind_eq_some_iff.mp h
    cases h
    rfl
  · cases h
    rfl

theorem commitAt_refused {box : BallotBox} {indexes : List Int} {peer : PeerId} {r : Outcome}
    (h : box.commitAt indexes peer = some r) (hrc : r.rc = .einval ∨ r.rc = .erange) :
    r.box = box ∧ r.onCommitted = none := by
  unfold commitAt at h
  split at h
  · cases h
    exact ⟨rfl, rfl⟩
  · split at h
    · cases h
      exact ⟨rfl, rfl⟩
    · split_ifs at h
      · cases h
        exact ⟨rfl, rfl⟩
      · cases h
        exact ⟨rfl, rfl⟩
      · rw [grantAndPop_rc h] at hrc
        simp at hrc

private theorem grantOne_reports {p : Int} {peer : PeerId} {pass pass' : Pass} {i : Int}
    (h : grantOne p peer pass i = some pass') :
    ∃ more, pass'.ooCommittedEntries = pass.ooCommittedEntries ++ more ∧
      more.Sublist [i] := by
  simp only [grantOne, Option.bind_eq_bind, Option.bind_eq_some_iff] at h
  obtain ⟨bl, -, metaQueue, -, h⟩ := h
  split_ifs at h
  · obtain ⟨flag, -, h⟩ := Option.bind_eq_some_iff.mp h
    split at h
    · cases h
      exact ⟨[], by simp, by simp⟩
    · obtain ⟨flags, -, h⟩ := Option.bind_eq_some_iff.mp h
      cases h
      exact ⟨[i], rfl, List.Sublist.refl _⟩
  · cases h
    exact ⟨[], by simp, by simp⟩

private theorem grantLoop_reports {p : Int} {peer : PeerId} {indexes : List Int} {pass pass' : Pass}
    (h : runEvents (grantOne p peer) pass indexes = some pass') :
    ∃ more, pass'.ooCommittedEntries = pass.ooCommittedEntries ++ more ∧
      more.Sublist indexes := by
  induction indexes generalizing pass with
  | nil =>
    cases h
    exact ⟨[], by simp, List.Sublist.refl _⟩
  | cons i indexes ih =>
    obtain ⟨mid, hstep, hrest⟩ := runEvents_cons_eq_some.mp h
    obtain ⟨one, hone, hsubOne⟩ := grantOne_reports hstep
    obtain ⟨more, hmore, hsub⟩ := ih hrest
    refine ⟨one ++ more, by rw [hmore, hone, List.append_assoc], ?_⟩
    exact hsubOne.append hsub

private theorem commitAt_report {box : BallotBox} {indexes : List Int} {peer : PeerId} {r : Outcome}
    (h : box.commitAt indexes peer = some r) {c : Committed} (hc : r.onCommitted = some c) :
    box.pendingIndex ≠ 0 ∧ ∃ pass,
      runEvents (grantOne box.pendingIndex peer)
        ⟨box.pendingMetaQueue, box.committedIndexQueue, .new, []⟩
        (indexes.dropWhile (· < box.pendingIndex)) = some pass ∧
      c.ooCommittedEntries = pass.ooCommittedEntries := by
  unfold commitAt at h
  split at h
  · cases h
    cases hc
  · rename_i hopen
    refine ⟨hopen, ?_⟩
    split at h
    · cases h
      cases hc
    · split_ifs at h
      · cases h
        cases hc
      · cases h
        cases hc
      · unfold grantAndPop at h
        obtain ⟨pass, hpass, h⟩ := Option.bind_eq_some_iff.mp h
        dsimp only at h
        split_ifs at h
        · cases h
          cases hc
        · obtain ⟨popped, -, h⟩ := Option.bind_eq_some_iff.mp h
          cases h
          cases hc
          exact ⟨pass, hpass, rfl⟩
        · cases h
          cases hc
          exact ⟨pass, hpass, rfl⟩

theorem commitAt_sublist {box : BallotBox} {indexes : List Int} {peer : PeerId} {r : Outcome}
    (h : box.commitAt indexes peer = some r) :
    ∀ c ∈ r.onCommitted, c.ooCommittedEntries.Sublist indexes := by
  intro c hc
  obtain ⟨-, pass, hpass, hreport⟩ := commitAt_report h hc
  obtain ⟨more, hmore, hsub⟩ := grantLoop_reports hpass
  rw [hreport, hmore, List.nil_append]
  exact hsub.trans (List.dropWhile_sublist _)

private theorem grantOne_bounds {p : Int} {peer : PeerId} {pass pass' : Pass} {i : Int}
    (h : grantOne p peer pass i = some pass') : p ≤ i := by
  obtain ⟨bl, hitem, -⟩ := Option.bind_eq_some_iff.mp h
  have hbounds := item_eq_some_bounds hitem
  omega

private theorem grantLoop_bounds {p : Int} {peer : PeerId} {indexes : List Int} {pass pass' : Pass}
    (h : runEvents (grantOne p peer) pass indexes = some pass') : ∀ i ∈ indexes, p ≤ i := by
  induction indexes generalizing pass with
  | nil => simp
  | cons i indexes ih =>
    obtain ⟨mid, hstep, hrest⟩ := runEvents_cons_eq_some.mp h
    intro j hj
    rcases List.mem_cons.mp hj with rfl | hj
    · exact grantOne_bounds hstep
    · exact ih hrest j hj

theorem commitAt_pending {box : BallotBox} {indexes : List Int} {peer : PeerId} {r : Outcome}
    (h : box.commitAt indexes peer = some r) {c : Committed} (hc : r.onCommitted = some c) :
    box.pendingIndex ≠ 0 ∧ ∀ i ∈ c.ooCommittedEntries, box.pendingIndex ≤ i := by
  obtain ⟨hopen, pass, hpass, hreport⟩ := commitAt_report h hc
  obtain ⟨more, hmore, hsub⟩ := grantLoop_reports hpass
  rw [hreport, hmore, List.nil_append]
  exact ⟨hopen, fun i hi => grantLoop_bounds hpass i (hsub.subset hi)⟩

end HitConsistency.Commit.PendingQueues
