/- GID: HitConsistency/Replication/PeerSender
   digest: The replicator of one peer: sends, the out-of-order window and the response handler. -/

import HitConsistency.Commit.PendingQueues
import HitConsistency.Log.Entry
import Mathlib.Algebra.GroupWithZero.Nat

set_option autoImplicit false
set_option relaxedAutoImplicit false

/-!
One replicator runs under the lock of its `bthread_id`. A function that returns
without unlocking leaves the replicator locked for good; `idLocked` records that.
The two deques of flying calls are one list here, since every line of the source
pushes, erases and clears both together. Leadership transfer and catch-up waits
are never started by the node and are left out.
-/

namespace HitConsistency.Replication.PeerSender

open HitConsistency.Base.GuardedRuns
open HitConsistency.Base.IndexedDeque
open HitConsistency.Group.Peers
open HitConsistency.Commit.PendingQueues
open HitConsistency.Log.Entry

structure Flags where
  raftMaxEntriesSize : Nat
  raftMaxParallelAppendEntriesRpcNum : Nat
  raftMaxBodySize : Nat
  deriving DecidableEq

/-- What a replicator reads of the leader's log manager. -/
structure LogView where
  getTerm : Int → Int
  getEntry : Int → Option LogEntry
  firstLogIndex : Int
  lastLogIndex : Int

/-- A call in fly, with its flag in `_status_append_entries_in_fly`. -/
structure FlyingAppendEntriesRpc where
  logIndex : Int
  entriesSize : Nat
  callId : Nat
  unanswered : Bool
  deriving DecidableEq

inductive St
  | idle | blocking | appendingEntries
  deriving DecidableEq

structure Replicator where
  serverId : PeerId
  peerId : PeerId
  term : Int
  nextIndex : Int
  ooStartIndex : Int
  ooCommittedEntries : List Bool
  flyingAppendEntriesSize : Int
  appendEntriesInFly : List FlyingAppendEntriesRpc
  st : St
  hasSucceeded : Bool
  waiting : Bool
  isWaiterCanceled : Bool
  idLocked : Bool
  deriving DecidableEq

namespace Replicator

/-- The replicator that `start` creates, before its first empty request. -/
def start (serverId peerId : PeerId) (term : Int) (log : LogView) : Replicator where
  serverId := serverId
  peerId := peerId
  term := term
  nextIndex := log.lastLogIndex + 1
  ooStartIndex := 1
  ooCommittedEntries := []
  flyingAppendEntriesSize := 0
  appendEntriesInFly := []
  st := .idle
  hasSucceeded := false
  waiting := false
  isWaiterCanceled := false
  idLocked := false

/-- The committed index of a request, clamped by the peer's own window. -/
def advertisedIndex (r : Replicator) (box : BallotBox) : Int :=
  if r.ooStartIndex < box.ooCommitedIndexes.1 then r.ooStartIndex - 1 else box.ooCommitedIndexes.1

/-- The committed out-of-order indexes that the peer itself has acknowledged. A
subscript below the window is compared as an unsigned number and fails the test. -/
def advertisedOoIndexes (r : Replicator) (box : BallotBox) : List Int :=
  box.ooCommitedIndexes.2.filter fun i =>
    item r.ooCommittedEntries (i - r.ooStartIndex) == some true

def fillCommonFields (r : Replicator) (box : BallotBox) (log : LogView) (prevLogIndex : Int)
    (isHeartbeat : Bool) : Option AppendEntriesRequest :=
  let prevLogTerm := log.getTerm prevLogIndex
  let compacted : Bool := prevLogTerm = 0 && prevLogIndex ≠ 0
  if compacted && !isHeartbeat then none
  else some
    { serverId := r.serverId
      peerId := r.peerId
      term := r.term
      prevLogTerm := prevLogTerm
      prevLogIndex := if compacted then 0 else prevLogIndex
      entries := []
      committedIndex := r.advertisedIndex box
      committedOoIndex := r.advertisedOoIndexes box
      dependency := 0 }

def sendEmptyEntries (r : Replicator) (box : BallotBox) (log : LogView) (callId : Nat)
    (isHeartbeat : Bool) : Replicator × Option AppendEntriesRequest :=
  match r.fillCommonFields box log (r.nextIndex - 1) isHeartbeat with
  | none => ({ r with idLocked := true }, none)
  | some request =>
      if isHeartbeat then (r, some request)
      else
        ({ r with
            st := .appendingEntries
            appendEntriesInFly := r.appendEntriesInFly ++ [⟨r.nextIndex, 0, callId, true⟩] },
          some request)

/-- Give up everything in fly and fall back to the oldest unanswered call. -/
def resetNextIndex (r : Replicator) : Replicator :=
  let unanswered := r.appendEntriesInFly.dropWhile fun rpc => !rpc.unanswered
  { r with
    nextIndex := (unanswered.head?.map FlyingAppendEntriesRpc.logIndex).getD r.nextIndex
    flyingAppendEntriesSize := 0
    appendEntriesInFly := []
    isWaiterCanceled := true
    waiting := false }

/-- Register for new entries. When the log has already grown, the log manager calls
back at once and no waiter stays registered. -/
def waitMoreEntries (flags : Flags) (r : Replicator) (log : LogView) : Replicator :=
  let r : Replicator :=
    if !r.waiting && r.flyingAppendEntriesSize < flags.raftMaxEntriesSize &&
        r.appendEntriesInFly.length < flags.raftMaxParallelAppendEntriesRpcNum then
      { r with waiting := log.lastLogIndex = r.nextIndex - 1, isWaiterCanceled := false }
    else r
  if r.flyingAppendEntriesSize = 0 then { r with st := .idle } else r

/-- `_prepare_entry` at offset 0, the only offset of a single-entry request. -/
def prepareEntry (flags : Flags) (r : Replicator) (log : LogView) : Option EntryMeta :=
  if flags.raftMaxBodySize = 0 then none else (log.getEntry r.nextIndex).map LogEntry.toMeta

def coverNextIndex (r : Replicator) : Replicator :=
  { r with
    ooCommittedEntries := r.ooCommittedEntries ++
      List.replicate (r.nextIndex - (r.ooStartIndex + r.ooCommittedEntries.length)).toNat false }

def sendEntries (flags : Flags) (r : Replicator) (box : BallotBox) (log : LogView)
    (callId : Nat) : Replicator × Option AppendEntriesRequest :=
  if flags.raftMaxEntriesSize ≤ r.flyingAppendEntriesSize ∨
      flags.raftMaxEntriesSize ≤ r.appendEntriesInFly.length ∨
      flags.raftMaxParallelAppendEntriesRpcNum ≤ r.appendEntriesInFly.length ∨
      r.st = .blocking then (r, none)
  else match r.fillCommonFields box log (r.nextIndex - 1) false with
  | none => ({ r.resetNextIndex with idLocked := true }, none)
  | some request =>
    match r.prepareEntry flags log with
    | none =>
        if r.nextIndex < log.firstLogIndex then ({ r.resetNextIndex with idLocked := true }, none)
        else (r.waitMoreEntries flags log, none)
    | some em =>
        let sent : Replicator :=
          { r with
            appendEntriesInFly := r.appendEntriesInFly ++ [⟨r.nextIndex, 1, callId, true⟩]
            nextIndex := r.nextIndex + 1
            flyingAppendEntriesSize := r.flyingAppendEntriesSize + 1
            st := .appendingEntries }
        (sent.coverNextIndex.waitMoreEntries flags log,
          some { request with entries := [em], dependency := em.dependency })

/-- Callback of a block timer (`timedOut`) or of the log manager's waiter. -/
def continueSending (flags : Flags) (r : Replicator) (box : BallotBox) (log : LogView)
    (callId : Nat) (timedOut : Bool) : Replicator × Option AppendEntriesRequest :=
  if timedOut then
    if r.waiting then ({ r with idLocked := true }, none)
    else r.sendEmptyEntries box log callId false
  else if r.isWaiterCanceled then (r, none)
  else { r with waiting := false }.sendEntries flags box log callId

/-- The position of an unanswered call; the scan stops behind the answered range. -/
def findFlying (rpcFirstIndex : Int) (callId : Nat) : List FlyingAppendEntriesRpc → Option Nat
  | [] => none
  | rpc :: rest =>
      if rpcFirstIndex < rpc.logIndex then none
      else if rpc.callId = callId ∧ rpc.unanswered then some 0
      else (findFlying rpcFirstIndex callId rest).map (· + 1)

/-- The window of acknowledged indexes and the list collected for `commit_at`. -/
structure Window where
  ooStartIndex : Int
  ooCommittedEntries : List Bool
  commitIndexes : List Int
  deriving DecidableEq

/-- Shift the window up to the follower's last index, collecting what was not yet
acknowledged. The front of an empty deque is undefined. -/
def takeBelow (lastLogIndex : Int) : Int → List Bool → List Int → Option Window
  | start, [], acc => if start < lastLogIndex then none else some ⟨start, [], acc⟩
  | start, b :: window, acc =>
      if start < lastLogIndex then
        takeBelow lastLogIndex (start + 1) window (if b then acc else acc ++ [start])
      else some ⟨start, b :: window, acc⟩

def markIndex (w : Window) (i : Int) : Option Window := do
  let b ← item w.ooCommittedEntries (i - w.ooStartIndex)
  if b then some w
  else
    let window ← store w.ooCommittedEntries (i - w.ooStartIndex) true
    some ⟨w.ooStartIndex, window, w.commitIndexes ++ [i]⟩

def popAcknowledged : Int → List Bool → Int × List Bool
  | start, true :: window => popAcknowledged (start + 1) window
  | start, window => (start, window)

/-- The indexes `first, ..., last`. -/
def indexRange (first last : Int) : List Int :=
  (List.range (last + 1 - first).toNat).map fun k : Nat => first + k

/-- The commit section of `_on_rpc_returned`: the window and the list for `commit_at`. -/
def acknowledge (r : Replicator) (request : AppendEntriesRequest)
    (response : AppendEntriesResponse) : Option Window := do
  let w ← takeBelow response.lastLogIndex r.ooStartIndex r.ooCommittedEntries []
  let last := request.prevLogIndex + request.entries.length
  let first := max w.ooStartIndex (request.prevLogIndex + 1)
  if last < w.ooStartIndex then some w else runEvents markIndex w (indexRange first last)

/-- Drop answered calls and calls below the window from the front. -/
def popFlying (ooStartIndex : Int) : List FlyingAppendEntriesRpc → List FlyingAppendEntriesRpc
  | [] => []
  | rpc :: rest =>
      if !rpc.unanswered || rpc.logIndex + rpc.entriesSize ≤ ooStartIndex then
        popFlying ooStartIndex rest
      else rpc :: rest

/-- What the response handler leaves to do behind its own lines. -/
inductive Follow
  | nothing | sendEmptyEntries | sendEntries
  deriving DecidableEq

/-- The effect of one response: the replicator unless it was destroyed, the list
given to `commit_at`, the term the node is told, and the send that follows. -/
structure Handled where
  replicator : Option Replicator
  commitIndexes : Option (List Int)
  increaseTermTo : Option Int
  follow : Follow
  deriving DecidableEq

/-- The window behind a successful response, and the list for `commit_at` if the
request had entries. -/
def nextWindow (r : Replicator) (request : AppendEntriesRequest)
    (response : AppendEntriesResponse) : Option ((Int × List Bool) × Option (List Int)) :=
  if request.entries.isEmpty then some ((r.ooStartIndex, r.ooCommittedEntries), none)
  else (r.acknowledge request response).map fun w =>
    (popAcknowledged w.ooStartIndex w.ooCommittedEntries, some w.commitIndexes)

/-- Erase the answered call and drop what the window has passed. -/
def settle (r : Replicator) (k : Nat) (request : AppendEntriesRequest)
    (window : Int × List Bool) : Replicator :=
  let erased := r.appendEntriesInFly.eraseIdx k
  let kept := popFlying window.1 erased
  let popped := (erased.take (erased.length - kept.length)).map FlyingAppendEntriesRpc.entriesSize
  { r with
    ooStartIndex := window.1
    ooCommittedEntries := window.2
    flyingAppendEntriesSize := r.flyingAppendEntriesSize - request.entries.length - popped.sum
    appendEntriesInFly := kept
    hasSucceeded := true }

/-- `_on_rpc_returned` up to its final send; `failed` is `cntl->Failed()`. -/
def onRpcReturned (r : Replicator) (callId : Nat) (failed : Bool)
    (request : AppendEntriesRequest) (response : AppendEntriesResponse) : Option Handled :=
  match findFlying (request.prevLogIndex + 1) callId r.appendEntriesInFly with
  | none => some ⟨some r, none, none, .nothing⟩
  | some k =>
    let marked : Replicator :=
      { r with appendEntriesInFly := r.appendEntriesInFly.modify k fun rpc =>
          { rpc with unanswered := false } }
    if failed then some ⟨some { marked.resetNextIndex with st := .blocking }, none, none, .nothing⟩
    else if !response.success then
      if r.term < response.term then some ⟨none, none, some response.term, .nothing⟩
      else
        let reset := marked.resetNextIndex
        let nextIndex :=
          if response.lastLogIndex + 1 < reset.nextIndex then response.lastLogIndex + 1
          else if 1 < reset.nextIndex then reset.nextIndex - 1
          else reset.nextIndex
        some ⟨some { reset with nextIndex := nextIndex }, none, none, .sendEmptyEntries⟩
    else if response.term ≠ r.term then some ⟨some marked.resetNextIndex, none, none, .nothing⟩
    else (r.nextWindow request response).map fun next =>
      { replicator := some (marked.settle k request next.1)
        commitIndexes := next.2
        increaseTermTo := none
        follow := .sendEntries }

end Replicator

open Replicator

/-- Every set flag of the window stands for an index that satisfies `P`. -/
def Marks (start : Int) (window : List Bool) (P : Int → Prop) : Prop :=
  ∀ i, item window (i - start) = some true → P i

section Marks

variable {start : Int} {window : List Bool} {P : Int → Prop}

theorem marks_nil : Marks start [] P := by
  intro i hi
  simp [item] at hi

theorem Marks.imp {Q : Int → Prop} (h : Marks start window P) (hPQ : ∀ i, P i → Q i) :
    Marks start window Q :=
  fun i hi => hPQ i (h i hi)

theorem Marks.tail {b : Bool} (h : Marks start (b :: window) P) : Marks (start + 1) window P := by
  intro i hi
  have hb := item_eq_some_bounds hi
  apply h i
  rw [item_cons_pos b window (by omega), ← hi]
  congr 1
  omega

theorem Marks.push (h : Marks start window P) : Marks start (window ++ [false]) P := by
  intro i hi
  rw [item_push] at hi
  split at hi
  · cases hi
  · exact h i hi

theorem Marks.pad (h : Marks start window P) (n : Nat) :
    Marks start (window ++ List.replicate n false) P := by
  induction n with
  | zero => simpa using h
  | succ n ih =>
    rw [List.replicate_succ', ← List.append_assoc]
    exact ih.push

private theorem marks_takeBelow {lastLogIndex : Int} {acc : List Int} {w : Window}
    (h : Marks start window P) (hw : takeBelow lastLogIndex start window acc = some w) :
    Marks w.ooStartIndex w.ooCommittedEntries P := by
  induction window generalizing start acc with
  | nil =>
    unfold takeBelow at hw
    split at hw
    · cases hw
    · cases hw
      exact h
  | cons b window ih =>
    unfold takeBelow at hw
    split at hw
    · exact ih h.tail hw
    · cases hw
      exact h

private theorem marks_popAcknowledged (h : Marks start window P) :
    Marks (popAcknowledged start window).1 (popAcknowledged start window).2 P := by
  induction window generalizing start with
  | nil => exact h
  | cons b window ih =>
    cases b with
    | false => exact h
    | true => exact ih h.tail

end Marks

private theorem marks_markIndex {P : Int → Prop} {w w' : Window} {i : Int}
    (h : Marks w.ooStartIndex w.ooCommittedEntries P) (hi : P i) (hw : markIndex w i = some w') :
    Marks w'.ooStartIndex w'.ooCommittedEntries P := by
  obtain ⟨b, -, hw⟩ := Option.bind_eq_some_iff.mp hw
  split at hw
  · cases hw
    exact h
  · obtain ⟨window, hstore, hw⟩ := Option.bind_eq_some_iff.mp hw
    cases hw
    intro j hj
    rw [item_store hstore] at hj
    split at hj
    · rename_i hji
      have : j = i := by
        dsimp only at hji
        omega
      exact this ▸ hi
    · exact h j hj

private theorem marks_markIndexes {P : Int → Prop} {w w' : Window} {indexes : List Int}
    (h : Marks w.ooStartIndex w.ooCommittedEntries P) (hP : ∀ i ∈ indexes, P i)
    (hw : runEvents markIndex w indexes = some w') :
    Marks w'.ooStartIndex w'.ooCommittedEntries P := by
  induction indexes generalizing w with
  | nil =>
    cases hw
    exact h
  | cons i indexes ih =>
    obtain ⟨m, hm, hw⟩ := runEvents_cons_eq_some.mp hw
    exact ih (marks_markIndex h (hP i (by simp)) hm) (fun j hj => hP j (by simp [hj])) hw

theorem mem_indexRange {first last i : Int} : i ∈ indexRange first last ↔ first ≤ i ∧ i ≤ last := by
  simp only [indexRange, List.mem_map, List.mem_range]
  constructor
  · rintro ⟨k, hk, rfl⟩
    omega
  · rintro ⟨h1, h2⟩
    exact ⟨(i - first).toNat, by omega, by omega⟩

theorem indexRange_ascending (first last : Int) :
    (indexRange first last).Pairwise (· < ·) := by
  refine List.pairwise_map.mpr (List.pairwise_lt_range.imp ?_)
  intro a b hab
  omega

section Ascending

private theorem takeBelow_ascending {lastLogIndex start : Int} {window : List Bool}
    {acc : List Int} {w : Window} (hacc : acc.Pairwise (· < ·)) (hlt : ∀ i ∈ acc, i < start)
    (hw : takeBelow lastLogIndex start window acc = some w) :
    w.commitIndexes.Pairwise (· < ·) ∧ ∀ i ∈ w.commitIndexes, i < w.ooStartIndex := by
  induction window generalizing start acc with
  | nil =>
    unfold takeBelow at hw
    split at hw
    · cases hw
    · cases hw
      exact ⟨hacc, hlt⟩
  | cons b window ih =>
    unfold takeBelow at hw
    split at hw
    · refine ih ?_ ?_ hw
      · split
        · exact hacc
        · refine List.pairwise_append.mpr ⟨hacc, List.pairwise_singleton _ _, ?_⟩
          intro i hi j hj
          cases List.mem_singleton.mp hj
          exact hlt i hi
      · intro i hi
        split at hi
        · exact (hlt i hi).trans (by omega)
        · rcases List.mem_append.mp hi with hi | hi
          · exact (hlt i hi).trans (by omega)
          · cases List.mem_singleton.mp hi
            omega
    · cases hw
      exact ⟨hacc, hlt⟩

private theorem markIndexes_ascending {w w' : Window} {indexes : List Int}
    (hacc : w.commitIndexes.Pairwise (· < ·)) (hasc : indexes.Pairwise (· < ·))
    (hlt : ∀ i ∈ w.commitIndexes, ∀ j ∈ indexes, i < j)
    (hw : runEvents markIndex w indexes = some w') : w'.commitIndexes.Pairwise (· < ·) := by
  induction indexes generalizing w with
  | nil =>
    cases hw
    exact hacc
  | cons x indexes ih =>
    obtain ⟨mid, hmid, hw⟩ := runEvents_cons_eq_some.mp hw
    obtain ⟨hx, hasc⟩ := List.pairwise_cons.mp hasc
    obtain ⟨b, -, hmid⟩ := Option.bind_eq_some_iff.mp hmid
    split at hmid
    · cases hmid
      exact ih hacc hasc (fun i hi j hj => hlt i hi j (by simp [hj])) hw
    · obtain ⟨window, -, hmid⟩ := Option.bind_eq_some_iff.mp hmid
      cases hmid
      refine ih ?_ hasc ?_ hw
      · refine List.pairwise_append.mpr ⟨hacc, List.pairwise_singleton _ _, ?_⟩
        intro i hi j hj
        cases List.mem_singleton.mp hj
        exact hlt i hi x (by simp)
      · intro i hi j hj
        rcases List.mem_append.mp hi with hi | hi
        · exact hlt i hi j (by simp [hj])
        · cases List.mem_singleton.mp hi
          exact hx j hj

theorem nextWindow_ascending {r : Replicator} {request : AppendEntriesRequest}
    {response : AppendEntriesResponse} {next : (Int × List Bool) × Option (List Int)}
    (hnext : r.nextWindow request response = some next) :
    ∀ indexes ∈ next.2, indexes.Pairwise (· < ·) := by
  intro indexes hindexes
  unfold nextWindow at hnext
  split at hnext
  · cases hnext
    cases hindexes
  · obtain ⟨w, hw, rfl⟩ := Option.map_eq_some_iff.mp hnext
    cases hindexes
    obtain ⟨below, hbelow, hw⟩ := Option.bind_eq_some_iff.mp hw
    obtain ⟨hacc, hlt⟩ := takeBelow_ascending List.Pairwise.nil (by simp) hbelow
    dsimp only at hw
    split at hw
    · cases hw
      exact hacc
    · refine markIndexes_ascending hacc (indexRange_ascending _ _) ?_ hw
      intro i hi j hj
      have := hlt i hi
      have := (mem_indexRange.mp hj).1
      omega

end Ascending

def Carries (request : AppendEntriesRequest) (i : Int) : Prop :=
  request.prevLogIndex < i ∧ i ≤ request.prevLogIndex + request.entries.length

section Passed

private theorem takeBelow_passed {lastLogIndex start : Int} {window : List Bool}
    {acc : List Int} {w : Window} (hw : takeBelow lastLogIndex start window acc = some w) :
    start ≤ w.ooStartIndex ∧
      ∀ i ∈ w.commitIndexes, i ∈ acc ∨ start ≤ i ∧ i < lastLogIndex := by
  induction window generalizing start acc with
  | nil =>
    unfold takeBelow at hw
    split at hw
    · cases hw
    · cases hw
      exact ⟨le_rfl, fun i hi => .inl hi⟩
  | cons b window ih =>
    unfold takeBelow at hw
    split at hw
    · obtain ⟨hle, hpassed⟩ := ih hw
      refine ⟨by omega, fun i hi => ?_⟩
      rcases hpassed i hi with hacc | hrange
      · split at hacc
        · exact .inl hacc
        · rcases List.mem_append.mp hacc with hacc | hnew
          · exact .inl hacc
          · cases List.mem_singleton.mp hnew
            exact .inr ⟨le_rfl, by omega⟩
      · exact .inr ⟨by omega, hrange.2⟩
    · cases hw
      exact ⟨le_rfl, fun i hi => .inl hi⟩

private theorem markIndexes_passed {w w' : Window} {indexes : List Int}
    (hw : runEvents markIndex w indexes = some w') :
    w'.ooStartIndex = w.ooStartIndex ∧
      ∀ i ∈ w'.commitIndexes, i ∈ w.commitIndexes ∨ i ∈ indexes := by
  induction indexes generalizing w with
  | nil =>
    cases hw
    exact ⟨rfl, fun i hi => .inl hi⟩
  | cons x indexes ih =>
    obtain ⟨mid, hmid, hw⟩ := runEvents_cons_eq_some.mp hw
    obtain ⟨hstart, hpassed⟩ := ih hw
    obtain ⟨b, -, hmid⟩ := Option.bind_eq_some_iff.mp hmid
    split at hmid
    · cases hmid
      refine ⟨hstart, fun i hi => ?_⟩
      rcases hpassed i hi with hold | hnew
      · exact .inl hold
      · exact .inr (by simp [hnew])
    · obtain ⟨window, -, hmid⟩ := Option.bind_eq_some_iff.mp hmid
      cases hmid
      refine ⟨hstart, fun i hi => ?_⟩
      rcases hpassed i hi with hold | hnew
      · rcases List.mem_append.mp hold with hold | hone
        · exact .inl hold
        · exact .inr (by simp [List.mem_singleton.mp hone])
      · exact .inr (by simp [hnew])

private theorem popAcknowledged_le (start : Int) (window : List Bool) :
    start ≤ (popAcknowledged start window).1 := by
  induction window generalizing start with
  | nil => exact le_rfl
  | cons b window ih =>
    cases b with
    | false => exact le_rfl
    | true =>
      have := ih (start + 1)
      rw [popAcknowledged]
      omega

/-- A response passes on indexes of its own request, and indexes from the window's start
up to the one below the reported last index. The window never moves back. -/
theorem onRpcReturned_passed {r : Replicator} {callId : Nat} {failed : Bool}
    {request : AppendEntriesRequest} {response : AppendEntriesResponse} {handled : Handled}
    (hrun : r.onRpcReturned callId failed request response = some handled) :
    (∀ r' ∈ handled.replicator, r.ooStartIndex ≤ r'.ooStartIndex) ∧
    ∀ indexes ∈ handled.commitIndexes, failed = false ∧ response.success = true ∧
      request.entries ≠ [] ∧ ∀ i ∈ indexes,
        r.ooStartIndex ≤ i ∧ i < response.lastLogIndex ∨ Carries request i := by
  unfold onRpcReturned at hrun
  split at hrun
  · cases hrun
    refine ⟨fun r' hr' => ?_, fun indexes hindexes => by cases hindexes⟩
    cases Option.mem_some_iff.mp hr'
    exact le_rfl
  · split_ifs at hrun with hfailed hsuccess hterm hterm
    · cases hrun
      refine ⟨fun r' hr' => ?_, fun indexes hindexes => by cases hindexes⟩
      cases Option.mem_some_iff.mp hr'
      exact le_rfl
    · cases hrun
      exact ⟨fun r' hr' => (by cases hr'), fun indexes hindexes => by cases hindexes⟩
    · cases hrun
      refine ⟨fun r' hr' => ?_, fun indexes hindexes => by cases hindexes⟩
      cases Option.mem_some_iff.mp hr'
      exact le_rfl
    · cases hrun
      refine ⟨fun r' hr' => ?_, fun indexes hindexes => by cases hindexes⟩
      cases Option.mem_some_iff.mp hr'
      exact le_rfl
    · obtain ⟨next, hnext, rfl⟩ := Option.map_eq_some_iff.mp hrun
      unfold nextWindow at hnext
      split at hnext
      · cases hnext
        refine ⟨fun r' hr' => ?_, fun indexes hindexes => by cases hindexes⟩
        cases Option.mem_some_iff.mp hr'
        exact le_rfl
      · rename_i hentries
        obtain ⟨w, hw, rfl⟩ := Option.map_eq_some_iff.mp hnext
        obtain ⟨below, hbelow, hw⟩ := Option.bind_eq_some_iff.mp hw
        obtain ⟨hle, hpassed⟩ := takeBelow_passed hbelow
        have hall : below.ooStartIndex = w.ooStartIndex ∧ ∀ i ∈ w.commitIndexes,
            r.ooStartIndex ≤ i ∧ i < response.lastLogIndex ∨ Carries request i := by
          have hfirst : ∀ i ∈ below.commitIndexes,
              r.ooStartIndex ≤ i ∧ i < response.lastLogIndex ∨ Carries request i := by
            intro i hi
            rcases hpassed i hi with hnil | hrange
            · cases hnil
            · exact .inl hrange
          dsimp only at hw
          split at hw
          · cases hw
            exact ⟨rfl, hfirst⟩
          · obtain ⟨hstart, hmarked⟩ := markIndexes_passed hw
            refine ⟨hstart.symm, fun i hi => ?_⟩
            rcases hmarked i hi with hold | hnew
            · exact hfirst i hold
            · have := mem_indexRange.mp hnew
              exact .inr ⟨by omega, this.2⟩
        refine ⟨fun r' hr' => ?_, fun indexes hindexes => ?_⟩
        · cases Option.mem_some_iff.mp hr'
          have := popAcknowledged_le w.ooStartIndex w.ooCommittedEntries
          show r.ooStartIndex ≤ (popAcknowledged w.ooStartIndex w.ooCommittedEntries).1
          omega
        · cases Option.mem_some_iff.mp hindexes
          exact ⟨by simpa using hfailed, by simpa using hsuccess, by simpa using hentries, hall.2⟩

end Passed

private theorem marks_acknowledge {P : Int → Prop} {r : Replicator} {request : AppendEntriesRequest}
    {response : AppendEntriesResponse} {w : Window}
    (h : Marks r.ooStartIndex r.ooCommittedEntries P) (hP : ∀ i, Carries request i → P i)
    (hw : r.acknowledge request response = some w) :
    Marks w.ooStartIndex w.ooCommittedEntries P := by
  obtain ⟨below, hbelow, hw⟩ := Option.bind_eq_some_iff.mp hw
  have hmarks := marks_takeBelow h hbelow
  dsimp only at hw
  split at hw
  · cases hw
    exact hmarks
  · refine marks_markIndexes hmarks (fun i hi => hP i ?_) hw
    have := mem_indexRange.mp hi
    exact ⟨by omega, this.2⟩

private theorem marks_nextWindow {P : Int → Prop} {r : Replicator} {request : AppendEntriesRequest}
    {response : AppendEntriesResponse} {next : (Int × List Bool) × Option (List Int)}
    (hnext : r.nextWindow request response = some next)
    (h : Marks r.ooStartIndex r.ooCommittedEntries P)
    (hP : next.2.isSome → ∀ i, Carries request i → P i) : Marks next.1.1 next.1.2 P := by
  unfold nextWindow at hnext
  split at hnext
  · cases hnext
    exact h
  · obtain ⟨w, hw, rfl⟩ := Option.map_eq_some_iff.mp hnext
    exact marks_popAcknowledged (marks_acknowledge h (hP rfl) hw)

/-- A response sets flags of the window only for indexes of its own request, and only
when it hands a list to `commit_at`. -/
theorem marks_onRpcReturned {P : Int → Prop} {r : Replicator} {callId : Nat} {failed : Bool}
    {request : AppendEntriesRequest} {response : AppendEntriesResponse} {handled : Handled}
    (hrun : r.onRpcReturned callId failed request response = some handled)
    (h : Marks r.ooStartIndex r.ooCommittedEntries P)
    (hP : handled.commitIndexes.isSome → ∀ i, Carries request i → P i) {r' : Replicator}
    (hr' : handled.replicator = some r') :
    r'.peerId = r.peerId ∧ Marks r'.ooStartIndex r'.ooCommittedEntries P := by
  unfold onRpcReturned at hrun
  split at hrun
  · cases hrun
    cases hr'
    exact ⟨rfl, h⟩
  · split_ifs at hrun
    · cases hrun
      cases hr'
      exact ⟨rfl, h⟩
    · cases hrun
      cases hr'
    · cases hrun
      cases hr'
      exact ⟨rfl, h⟩
    · cases hrun
      cases hr'
      exact ⟨rfl, h⟩
    · obtain ⟨next, hnext, rfl⟩ := Option.map_eq_some_iff.mp hrun
      cases hr'
      refine ⟨rfl, marks_nextWindow hnext h hP⟩

section Sends

variable {flags : Flags} {r : Replicator} {box : BallotBox} {log : LogView} {callId : Nat}
  {request : AppendEntriesRequest}

structure Advertises (r : Replicator) (box : BallotBox) (request : AppendEntriesRequest) :
    Prop where
  peerId : request.peerId = r.peerId
  committedIndex : request.committedIndex = r.advertisedIndex box
  committedOoIndex : request.committedOoIndex = r.advertisedOoIndexes box

private theorem advertises_fill {prevLogIndex : Int} {isHeartbeat : Bool}
    (h : r.fillCommonFields box log prevLogIndex isHeartbeat = some request) :
    Advertises r box request := by
  unfold fillCommonFields at h
  dsimp only at h
  split at h
  · cases h
  · cases h
    exact ⟨rfl, rfl, rfl⟩

theorem advertises_sendEmptyEntries {isHeartbeat : Bool}
    (h : (r.sendEmptyEntries box log callId isHeartbeat).2 = some request) :
    Advertises r box request := by
  unfold sendEmptyEntries at h
  split at h
  · cases h
  · rename_i hfill
    split at h
    · cases h
      exact advertises_fill hfill
    · cases h
      exact advertises_fill hfill

theorem advertises_sendEntries (h : (r.sendEntries flags box log callId).2 = some request) :
    Advertises r box request := by
  unfold sendEntries at h
  split at h
  · cases h
  · split at h
    · cases h
    · rename_i hfill
      obtain ⟨hp, hc, ho⟩ := advertises_fill hfill
      split at h
      · split at h <;> cases h
      · cases h
        exact ⟨hp, hc, ho⟩

theorem advertises_continueSending {timedOut : Bool}
    (h : (r.continueSending flags box log callId timedOut).2 = some request) :
    Advertises r box request := by
  unfold continueSending at h
  split at h
  · split at h
    · cases h
    · exact advertises_sendEmptyEntries h
  · split at h
    · cases h
    · obtain ⟨hp, hc, ho⟩ := advertises_sendEntries h
      exact ⟨hp, hc, ho⟩

variable {P : Int → Prop} (h : Marks r.ooStartIndex r.ooCommittedEntries P)
include h

private theorem marks_waitMoreEntries :
    (r.waitMoreEntries flags log).peerId = r.peerId ∧
      Marks (r.waitMoreEntries flags log).ooStartIndex
        (r.waitMoreEntries flags log).ooCommittedEntries P := by
  unfold waitMoreEntries
  dsimp only
  split_ifs <;> exact ⟨rfl, h⟩

theorem marks_sendEmptyEntries (isHeartbeat : Bool) :
    (r.sendEmptyEntries box log callId isHeartbeat).1.peerId = r.peerId ∧
      Marks (r.sendEmptyEntries box log callId isHeartbeat).1.ooStartIndex
        (r.sendEmptyEntries box log callId isHeartbeat).1.ooCommittedEntries P := by
  unfold sendEmptyEntries
  split
  · exact ⟨rfl, h⟩
  · split <;> exact ⟨rfl, h⟩

theorem marks_sendEntries :
    (r.sendEntries flags box log callId).1.peerId = r.peerId ∧
      Marks (r.sendEntries flags box log callId).1.ooStartIndex
        (r.sendEntries flags box log callId).1.ooCommittedEntries P := by
  unfold sendEntries
  split
  · exact ⟨rfl, h⟩
  · split
    · exact ⟨rfl, h⟩
    · split
      · split
        · exact ⟨rfl, h⟩
        · exact marks_waitMoreEntries h
      · exact marks_waitMoreEntries (r := coverNextIndex _) (h.pad _)

theorem marks_continueSending (timedOut : Bool) :
    (r.continueSending flags box log callId timedOut).1.peerId = r.peerId ∧
      Marks (r.continueSending flags box log callId timedOut).1.ooStartIndex
        (r.continueSending flags box log callId timedOut).1.ooCommittedEntries P := by
  unfold continueSending
  split
  · split
    · exact ⟨rfl, h⟩
    · exact marks_sendEmptyEntries h false
  · split
    · exact ⟨rfl, h⟩
    · exact marks_sendEntries h

end Sends

end HitConsistency.Replication.PeerSender
