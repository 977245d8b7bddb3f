/- GID: HitConsistency/Node/WireCommits
   digest: The out-of-order commits of a request, from the replicator to the state machine caller. -/

import HitConsistency.Commit.ApplyPipeline
import HitConsistency.Node.AppendHandler
import HitConsistency.Replication.AdvertisedCommit

set_option autoImplicit false
set_option relaxedAutoImplicit false

/-!
The leader fills `committed_oo_index` one index after the other, and the closure of
the follower copies the field by position. Elements are at the positions from zero
on; a read at the size of the field or beyond is undefined.
-/

namespace HitConsistency.Node.WireCommits

open HitConsistency.Base.GuardedRuns
open HitConsistency.Base.IndexedDeque
open HitConsistency.Group.Peers
open HitConsistency.Commit.PendingQueues
open HitConsistency.Log.Entry
open HitConsistency.Log.MemoryLog
open HitConsistency.Node.AppendHandler
open HitConsistency.Replication.AdvertisedCommit
open HitConsistency.Replication.PeerSender
open HitConsistency.Replication.PeerSender.Replicator (indexRange)

/-- One round of the copy loop of `FollowerStableClosure::run`. -/
def copyOne (committedOoIndex ooEntries : List Int) (i : Int) : Option (List Int) :=
  (item committedOoIndex i).map fun index => ooEntries ++ [index]

def copyOoEntries (committedOoIndex : List Int) : Option (List Int) :=
  runEvents (copyOne committedOoIndex) [] (indexRange 1 committedOoIndex.length)

/-- The arguments of a `set_last_committed_index` call with what the call leaves. -/
structure Handed where
  arguments : Committed
  outcome : Outcome

/-- The last part of `FollowerStableClosure::run`. A closure with an error or of an
earlier term does not get there. -/
def handCommits (closure : FollowerStableClosure) (currentTerm : Int) (status : Status)
    (box : BallotBox) : Option (Option Handed) :=
  if status ≠ .ok ∨ closure.term ≠ currentTerm then some none
  else do
    let request := closure.rpc.request
    let ooEntries ← copyOoEntries request.committedOoIndex
    some (some ⟨⟨request.committedIndex, ooEntries⟩,
      box.setLastCommittedIndex request.committedIndex ooEntries⟩)

/-- Every index of the list that the box has not committed is an argument of the
`on_committed` call. -/
def Forwarded (box : BallotBox) (ooCommittedEntries : List Int) (outcome : Outcome) : Prop :=
  ∀ i ∈ ooCommittedEntries, box.lastCommittedIndex < i →
    ∃ call ∈ outcome.onCommitted, i ∈ call.ooCommittedEntries

/-- The closure of a stored request hands the list of the request over as it is, and
the box passes it on. -/
def ListArrives (closure : FollowerStableClosure) (box : BallotBox) : Prop :=
  ∃ handed, handCommits closure closure.term .ok box = some (some handed) ∧
    handed.arguments.ooCommittedEntries = closure.rpc.request.committedOoIndex ∧
    Forwarded box closure.rpc.request.committedOoIndex handed.outcome

theorem copyOoEntries_none {committedOoIndex : List Int} (h : committedOoIndex ≠ []) :
    copyOoEntries committedOoIndex = none := by
  have hpos : 0 < committedOoIndex.length := List.length_pos_iff.mpr h
  have hlast : (committedOoIndex.length : Int) ∈ indexRange 1 committedOoIndex.length :=
    mem_indexRange.mpr ⟨by omega, le_refl _⟩
  cases hcopy : copyOoEntries committedOoIndex with
  | none => rfl
  | some ooEntries =>
    obtain ⟨before, after, hround⟩ := step_defined_of_mem hcopy hlast
    rw [copyOne, item_none_of_le (le_refl _)] at hround
    cases hround

private theorem forwarded_iff {box : BallotBox} (hfollower : box.pendingIndex = 0)
    (hqueue : box.pendingMetaQueue = []) (committedIndex : Int) (ooCommittedEntries : List Int) :
    Forwarded box ooCommittedEntries (box.setLastCommittedIndex committedIndex ooCommittedEntries) ↔
      box.lastCommittedIndex < committedIndex ∨
        ∀ i ∈ ooCommittedEntries, i ≤ box.lastCommittedIndex := by
  have hidle : ¬ (box.pendingIndex ≠ 0 ∨ box.pendingMetaQueue ≠ []) := by
    simp [hfollower, hqueue]
  rw [BallotBox.setLastCommittedIndex, if_neg hidle, Forwarded]
  by_cases hadvanced : box.lastCommittedIndex < committedIndex
  · rw [if_neg (by omega), if_pos hadvanced]
    exact iff_of_true (fun i hi _ => ⟨_, rfl, hi⟩) (.inl hadvanced)
  · rw [if_neg hadvanced]
    have hnocall : ∀ outcome : Outcome, outcome.onCommitted = none →
        ((∀ i ∈ ooCommittedEntries, box.lastCommittedIndex < i →
          ∃ call ∈ outcome.onCommitted, i ∈ call.ooCommittedEntries) ↔
        box.lastCommittedIndex < committedIndex ∨
          ∀ i ∈ ooCommittedEntries, i ≤ box.lastCommittedIndex) := by
      intro outcome hnone
      simp [hnone, hadvanced]
    split
    · exact hnocall _ rfl
    · exact hnocall _ rfl

/-- A list arrives exactly when it is empty. -/
theorem listArrives_iff (closure : FollowerStableClosure) (box : BallotBox) :
    ListArrives closure box ↔ closure.rpc.request.committedOoIndex = [] := by
  constructor
  · rintro ⟨handed, hhanded, -⟩
    by_contra hnonempty
    simp [handCommits, copyOoEntries_none hnonempty] at hhanded
  · intro hempty
    refine ⟨⟨⟨closure.rpc.request.committedIndex, []⟩,
      box.setLastCommittedIndex closure.rpc.request.committedIndex []⟩, ?_, hempty.symm, ?_⟩
    · simp [handCommits, hempty, copyOoEntries, indexRange]
    · rw [hempty]
      simp [Forwarded]

section OutOfOrderAnswer

private def leadingPeer : PeerId := ⟨1, 8000, 0⟩

private def followingPeer : PeerId := ⟨2, 8000, 0⟩

private def bothPeers : Group.Peers.Configuration := .ofPeers [leadingPeer, followingPeer]

private def noOpAt (i : Int) : LogEntry := ⟨.noOp, ⟨i, 2⟩, 0, none, none, []⟩

private def threeEntries : LogView :=
  ⟨fun i => if 1 ≤ i ∧ i ≤ 3 then 2 else 0,
    fun i => if 1 ≤ i ∧ i ≤ 3 then some (noOpAt i) else none, 1, 3⟩

private def beforeThem : LogView := ⟨fun _ => 0, fun _ => none, 1, 0⟩

private def sendFlags : Replication.PeerSender.Flags := ⟨1024, 1024, 524288⟩

private def requestAt (prevLogIndex prevLogTerm : Int) (oo : List Int) : AppendEntriesRequest where
  serverId := leadingPeer
  peerId := followingPeer
  term := 2
  prevLogTerm := prevLogTerm
  prevLogIndex := prevLogIndex
  entries := [(noOpAt (prevLogIndex + 1)).toMeta]
  committedIndex := 1
  committedOoIndex := oo
  dependency := 0

/-- Three entries stand at the leader, two are sent, and the answer to the second comes first. -/
private def secondAnswered : List Event :=
  [.start leadingPeer followingPeer 2 beforeThem, .operate (.resetPendingIndex 1),
    .operate (.appendPendingTask bothPeers none), .operate (.appendPendingTask bothPeers none),
    .operate (.appendPendingTask bothPeers none), .operate (.commitAt [1, 2, 3] leadingPeer),
    .send followingPeer threeEntries 1 .entries, .send followingPeer threeEntries 2 .entries,
    .rpcReturned followingPeer 2 false (requestAt 1 2 []) ⟨2, true, 0⟩]

private def thirdSent : FollowerStableClosure := ⟨⟨3, requestAt 2 2 [2]⟩, 2⟩

/-- The third entry carries the second index as committed, and the read is out of range. -/
theorem secondAnswered_lost :
    (do
      let s ← runEvents (Leader.step sendFlags) .new secondAnswered
      let sent ← s.filled sendFlags (.send followingPeer threeEntries 3 .entries)
      some sent.2) = some thirdSent.rpc.request ∧
    thirdSent.rpc.request.entries ≠ [] ∧ ¬ ListArrives thirdSent (.idle 0) := by
  refine ⟨by decide, by decide, ?_⟩
  rintro ⟨handed, hhanded, -⟩
  have hundefined : handCommits thirdSent thirdSent.term .ok (.idle 0) = none := by decide
  rw [hundefined] at hhanded
  cases hhanded

end OutOfOrderAnswer

end HitConsistency.Node.WireCommits
