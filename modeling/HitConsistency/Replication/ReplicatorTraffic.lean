/- GID: HitConsistency/Replication/ReplicatorTraffic
   digest: The requests of one replicator in any order of sends, resets and callbacks. -/

import HitConsistency.Replication.AckWindow
import HitConsistency.Replication.ReplicatorCalls
import Mathlib.Algebra.BigOperators.Group.List.Basic
import Mathlib.Algebra.Ring.Int.Defs
import Mathlib.Data.List.Perm.Basic

set_option autoImplicit false
set_option relaxedAutoImplicit false

/-!
The calls come in any order: a tail call of the source is one of them. A call takes the
lock, unless the replicator is destroyed. A request is named by the number of requests
before it, which is its call id; its callback may come at any time, and more than once.
-/

namespace HitConsistency.Replication.ReplicatorTraffic

open HitConsistency.Base.GuardedRuns
open HitConsistency.Base.IndexedDeque
open HitConsistency.Commit.PendingQueues
open HitConsistency.Group.Peers
open HitConsistency.Log.Entry
open HitConsistency.Replication.AckWindow
open HitConsistency.Replication.PeerSender (Flags LogView Carries)
open HitConsistency.Replication.ReplicatorCalls

/-- A replicator, the requests it has sent, the lists it has given to `commit_at`, and the
requests whose success has been found in flight and accepted. -/
structure Traffic where
  replicator : Replicator
  sent : List AppendEntriesRequest
  passed : List (List Int)
  answered : List AppendEntriesRequest
  deriving DecidableEq

inductive Event
  | run (env : Env) (call : Call)
  | resetNextIndex
  | rpcReturned (env : Env) (callId : Nat) (failed : Bool) (response : AppendEntriesResponse)
  | waitForCaughtUp (env : Env) (maxMargin : Int) (hasDueTime : Bool)
  | catchUpTimedout (env : Env)
  | transferLeadership (env : Env) (logIndex : Int)
  | stopTransferLeadership

namespace Traffic

def start (replicator : Replicator) : Traffic := ⟨replicator, [], [], []⟩

def receive (s : Traffic) (returned : Returned) : Traffic :=
  { s with
    replicator := returned.replicator
    sent := s.sent ++ returned.request.toList
    passed := s.passed ++ returned.commitIndexes.toList }

/-- The response is a success that is found in flight, in the replicator's own term. -/
def Accepts (s : Traffic) (callId : Nat) (request : AppendEntriesRequest) (failed : Bool)
    (response : AppendEntriesResponse) : Prop :=
  (s.replicator.findRpc callId request).isSome ∧ failed = false ∧ response.success = true ∧
    response.term = s.replicator.term

instance acceptsDecidable (s : Traffic) (callId : Nat) (request : AppendEntriesRequest)
    (failed : Bool) (response : AppendEntriesResponse) :
    Decidable (s.Accepts callId request failed response) :=
  inferInstanceAs (Decidable (_ ∧ _))

def rpcReturned (s : Traffic) (env : Env) (callId : Nat) (request : AppendEntriesRequest)
    (failed : Bool) (response : AppendEntriesResponse) : Option Traffic :=
  (s.replicator.lock.onRpcReturned env callId failed request response).map fun returned =>
    { s.receive returned with
      answered :=
        if s.Accepts callId request failed response then s.answered ++ [request]
        else s.answered }

def step (flags : Flags) (s : Traffic) (event : Event) : Option Traffic :=
  if s.replicator.id = .destroyed then some s
  else
    let r := s.replicator.lock
    match event with
    | .run env call => some (s.receive (r.run flags { env with callId := s.sent.length } call))
    | .resetNextIndex => some { s with replicator := r.resetNextIndex }
    | .rpcReturned env callId failed response =>
        match s.sent[callId]? with
        | none => some s
        | some request => s.rpcReturned env callId request failed response
    | .waitForCaughtUp env maxMargin hasDueTime =>
        some (s.receive (r.waitForCaughtUp env maxMargin hasDueTime))
    | .catchUpTimedout env => some (s.receive (r.onCatchUpTimedout env))
    | .transferLeadership env logIndex => some (s.receive (r.transferLeadership env logIndex))
    | .stopTransferLeadership => some (s.receive r.stopTransferLeadership)

end Traffic

/-- What the calls in flight and their window consist of. -/
structure Queues where
  nextIndex : Int
  ooStartIndex : Int
  ooCommittedEntries : List Bool
  flyingAppendEntriesSize : Int
  appendEntriesInFly : List FlyingAppendEntriesRpc
  statusAppendEntriesInFly : List Bool

def queues (r : Replicator) : Queues where
  nextIndex := r.nextIndex
  ooStartIndex := r.ooStartIndex
  ooCommittedEntries := r.ooCommittedEntries
  flyingAppendEntriesSize := r.flyingAppendEntriesSize
  appendEntriesInFly := r.appendEntriesInFly
  statusAppendEntriesInFly := r.statusAppendEntriesInFly

def entriesInFly (rpcs : List FlyingAppendEntriesRpc) : Int :=
  (rpcs.map fun rpc => (rpc.entriesSize : Int)).sum

namespace Queues

def Known (q : Queues) (i : Int) : Prop := Acknowledged q.ooStartIndex q.ooCommittedEntries i

def windowEnd (q : Queues) : Int := q.ooStartIndex + q.ooCommittedEntries.length

def resetTo (q : Queues) (nextIndex : Int) : Queues :=
  { q with
    nextIndex := nextIndex
    flyingAppendEntriesSize := 0
    appendEntriesInFly := []
    statusAppendEntriesInFly := [] }

/-- A call with `size` entries goes out, and the window gets `pad` flags. -/
def push (q : Queues) (callId size pad : Nat) : Queues :=
  { q with
    nextIndex := q.nextIndex + size
    ooCommittedEntries := q.ooCommittedEntries ++ List.replicate pad false
    flyingAppendEntriesSize := q.flyingAppendEntriesSize + size
    appendEntriesInFly := q.appendEntriesInFly ++ [⟨q.nextIndex, size, callId⟩]
    statusAppendEntriesInFly := q.statusAppendEntriesInFly ++ [true] }

/-- The call at position `k` is answered, and the window moves. -/
def settle (q : Queues) (k size : Nat) (window : Int × List Bool) : Queues :=
  let kept := popFlying window.1 (q.appendEntriesInFly.eraseIdx k)
    (q.statusAppendEntriesInFly.eraseIdx k) (q.flyingAppendEntriesSize - size)
  { q with
    ooStartIndex := window.1
    ooCommittedEntries := window.2
    flyingAppendEntriesSize := kept.2.2
    appendEntriesInFly := kept.1
    statusAppendEntriesInFly := kept.2.1 }

end Queues

/-- What a call can do to the queues, with the request it sends. -/
inductive Sends (q : Queues) (callId : Nat) : Queues → Option AppendEntriesRequest → Prop
  | same : Sends q callId q none
  | reset (i : Int) (from_old : i = q.nextIndex ∨ ∃ rpc ∈ q.appendEntriesInFly, i = rpc.logIndex) :
      Sends q callId (q.resetTo i) none
  | push (request : AppendEntriesRequest) (pad : Nat)
      (prev : request.prevLogIndex = q.nextIndex - 1)
      (covered : request.entries ≠ [] →
        q.nextIndex + request.entries.length ≤ q.windowEnd + pad) :
      Sends q callId (q.push callId request.entries.length pad) (some request)

section Frames

variable {flags : Flags} {r : Replicator} {env : Env}

@[simp] theorem queues_lock : queues r.lock = queues r := rfl

@[simp] theorem queues_unlock : queues r.unlock = queues r := rfl

@[simp] theorem queues_destroy : queues r.destroy = queues r := rfl

@[simp] theorem queues_readFront : queues r.readFront = queues r := rfl

@[simp] theorem queues_isCatchup (maxMargin : Int) :
    queues (r.isCatchup env maxMargin).1 = queues r := by
  obtain ⟨read, h⟩ := isCatchup_eq r env maxMargin
  rw [h]
  rfl

@[simp] theorem queues_notifyOnCaughtUp (errorCode : ErrorCode) (beforeDestroy : Bool) :
    queues (r.notifyOnCaughtUp env errorCode beforeDestroy) = queues r := by
  obtain ⟨closure, read, h⟩ := notifyOnCaughtUp_eq r env errorCode beforeDestroy
  rw [h]
  rfl

@[simp] theorem queues_sendTimeoutNow (unlockId stopAfterFinish : Bool) :
    queues (r.sendTimeoutNow unlockId stopAfterFinish) = queues r := by
  unfold Replicator.sendTimeoutNow
  dsimp only
  split_ifs <;> rfl

@[simp] theorem queues_afterSuccess : queues (r.afterSuccess env) = queues r := by
  obtain ⟨index, closure, read, h⟩ := afterSuccess_eq r env
  rw [h]
  rfl

@[simp] theorem queues_ends : queues r.ends.replicator = queues r := rfl

@[simp] theorem queues_callsOn (call : Call) : queues (r.callsOn call).replicator = queues r := rfl

/-- The call sends nothing, passes nothing on and leaves the queues alone. -/
structure Quiet (r : Replicator) (returned : Returned) : Prop where
  request : returned.request = none
  commitIndexes : returned.commitIndexes = none
  same : queues returned.replicator = queues r

private theorem quiet_ends {r' : Replicator} (h : queues r' = queues r) : Quiet r r'.ends :=
  ⟨rfl, rfl, h⟩

private theorem quiet_waitForCaughtUp (maxMargin : Int) (hasDueTime : Bool) :
    Quiet r (r.waitForCaughtUp env maxMargin hasDueTime) := by
  unfold Replicator.waitForCaughtUp
  split
  · exact quiet_ends rfl
  · have hsame : queues (if r.hasSucceeded then r.isCatchup env maxMargin else (r, false)).1 =
        queues r := by
      split
      · exact queues_isCatchup maxMargin
      · rfl
    generalize (if r.hasSucceeded then r.isCatchup env maxMargin else (r, false)) = result at *
    dsimp only
    split
    · exact quiet_ends hsame
    · exact quiet_ends hsame

private theorem quiet_onCatchUpTimedout : Quiet r (r.onCatchUpTimedout env) :=
  quiet_ends (queues_notifyOnCaughtUp _ _)

private theorem quiet_transferLeadership (logIndex : Int) :
    Quiet r (r.transferLeadership env logIndex) := by
  have hfront : queues (if r.hasSucceeded then r.readFront else r) = queues r := by
    split <;> rfl
  unfold Replicator.transferLeadership
  dsimp only
  split
  · exact quiet_ends ((queues_sendTimeoutNow _ _).trans hfront)
  · exact quiet_ends hfront

private theorem quiet_stopTransferLeadership : Quiet r r.stopTransferLeadership := quiet_ends rfl

theorem quiet_waitMoreEntries : Quiet r (r.waitMoreEntries flags env) := by
  unfold Replicator.waitMoreEntries
  dsimp only
  split_ifs <;> exact quiet_ends rfl

private theorem quiet_block : Quiet r (r.block env) := by
  unfold Replicator.block
  split_ifs
  · exact quiet_ends rfl
  · exact quiet_ends rfl
  · exact ⟨rfl, rfl, rfl⟩

theorem Quiet.sends {returned : Returned} {callId : Nat} (h : Quiet r returned) :
    Sends (queues r) callId (queues returned.replicator) returned.request := by
  rw [h.request, h.same]
  exact .same

private theorem skipAnswered_subset (rpcs : List FlyingAppendEntriesRpc) (statuses : List Bool) :
    skipAnswered rpcs statuses ⊆ rpcs := by
  induction rpcs generalizing statuses with
  | nil => cases statuses <;> exact List.Subset.refl _
  | cons rpc rest ih =>
    cases statuses with
    | nil => exact List.Subset.refl _
    | cons status statuses =>
      cases status with
      | false => exact List.Subset.trans (ih statuses) (List.subset_cons_self _ _)
      | true => exact List.Subset.refl _

private theorem queues_resetNextIndex :
    ∃ i, (i = r.nextIndex ∨ ∃ rpc ∈ r.appendEntriesInFly, i = rpc.logIndex) ∧
      queues r.resetNextIndex = (queues r).resetTo i := by
  refine ⟨r.resetNextIndex.nextIndex, ?_, rfl⟩
  unfold Replicator.resetNextIndex
  cases hskip : skipAnswered r.appendEntriesInFly r.statusAppendEntriesInFly with
  | nil => exact .inl rfl
  | cons rpc rest =>
    have hmem : rpc ∈ r.appendEntriesInFly := by
      apply skipAnswered_subset r.appendEntriesInFly r.statusAppendEntriesInFly
      rw [hskip]
      exact List.mem_cons_self
    exact .inr ⟨rpc, hmem, rfl⟩

private theorem sends_reset {callId : Nat} : Sends (queues r) callId
    (queues r.resetNextIndex) none := by
  obtain ⟨i, hi, hqueues⟩ := queues_resetNextIndex (r := r)
  rw [hqueues]
  exact .reset i hi

private theorem fillCommonFields_spec {box : BallotBox} {log : LogView} {prevLogIndex : Int}
    {request : AppendEntriesRequest} {v : PeerSender.Replicator}
    (hfill : v.fillCommonFields box log prevLogIndex false = some request) :
    request.prevLogIndex = prevLogIndex ∧ request.entries = [] := by
  unfold PeerSender.Replicator.fillCommonFields at hfill
  dsimp only at hfill
  rw [Bool.not_false, Bool.and_true] at hfill
  split at hfill
  · cases hfill
  · cases hfill
    exact ⟨rfl, rfl⟩

private theorem sends_sendEmptyEntries : Sends (queues r) env.callId
    (queues (r.sendEmptyEntries env false).replicator) (r.sendEmptyEntries env false).request := by
  unfold Replicator.sendEmptyEntries
  split
  · exact .same
  · rename_i request hfill
    obtain ⟨hprev, hentries⟩ := fillCommonFields_spec hfill
    have hpush : (queues r).push env.callId request.entries.length 0 =
        { queues r with
          appendEntriesInFly := r.appendEntriesInFly ++ [⟨r.nextIndex, 0, env.callId⟩]
          statusAppendEntriesInFly := r.statusAppendEntriesInFly ++ [true] } := by
      simp [Queues.push, hentries, queues]
    have hsends : Sends (queues r) env.callId
        ((queues r).push env.callId request.entries.length 0) (some request) :=
      .push request 0 hprev fun hne => absurd hentries hne
    rw [hpush] at hsends
    exact hsends

private theorem sends_sendEntries : Sends (queues r) env.callId
    (queues (r.sendEntries flags env).replicator) (r.sendEntries flags env).request := by
  rcases sendEntries_cases flags r env with h | h | h | ⟨request, em, hfill, h⟩
  · rw [h]
    exact .same
  · rw [h]
    exact sends_reset
  · rw [h]
    exact .same
  · obtain ⟨hprev, -⟩ := fillCommonFields_spec hfill
    let filled : AppendEntriesRequest :=
      { request with entries := [em], dependency := em.dependency }
    rw [h]
    exact Sends.push filled
      (r.nextIndex + 1 - (r.ooStartIndex + r.ooCommittedEntries.length)).toNat hprev
      fun _ => by
        show r.nextIndex + 1 ≤ r.ooStartIndex + r.ooCommittedEntries.length + _
        omega

theorem sends_run (flags : Flags) (r : Replicator) (env : Env) (call : Call) :
    Sends (queues r) env.callId (queues (r.run flags env call).replicator)
      (r.run flags env call).request := by
  cases call with
  | sendEntries => exact sends_sendEntries
  | sendEmptyEntries => exact sends_sendEmptyEntries
  | waitMoreEntries => exact quiet_waitMoreEntries.sends
  | block => exact quiet_block.sends

private theorem commitIndexes_run (call : Call) : (r.run flags env call).commitIndexes = none := by
  cases call with
  | sendEntries =>
    show (r.sendEntries flags env).commitIndexes = none
    rcases sendEntries_cases flags r env with h | h | h | ⟨request, em, -, h⟩
    · rw [h]
      rfl
    · rw [h]
      rfl
    · rw [h]
      rfl
    · rw [h]
      rfl
  | sendEmptyEntries =>
    show (r.sendEmptyEntries env false).commitIndexes = none
    unfold Replicator.sendEmptyEntries
    split <;> rfl
  | waitMoreEntries => exact quiet_waitMoreEntries.commitIndexes
  | block => exact quiet_block.commitIndexes

theorem settle_marked (k size : Nat) (window : Int × List Bool) :
    (queues (marked r k)).settle k size window = (queues r).settle k size window := by
  have hstatuses : (queues (marked r k)).statusAppendEntriesInFly.eraseIdx k =
      (queues r).statusAppendEntriesInFly.eraseIdx k := List.eraseIdx_set_eq
  unfold Queues.settle
  rw [hstatuses]
  rfl

/-- What a callback can do: it is not found, or it gives up everything in flight, or it
is a success that moves the window and takes its call out. -/
theorem onRpcReturned_cases {callId : Nat} {failed : Bool} {request : AppendEntriesRequest}
    {response : AppendEntriesResponse} {returned : Returned}
    (hrun : r.onRpcReturned env callId failed request response = some returned) :
    returned.request = none ∧
    (r.findRpc callId request = none ∧ returned.commitIndexes = none ∧
        queues returned.replicator = queues r ∨
      (∃ k i, r.findRpc callId request = some k ∧ returned.commitIndexes = none ∧
        queues returned.replicator = (queues r).resetTo i ∧
        ¬ (failed = false ∧ response.success = true ∧ response.term = r.term) ∧
        (failed = false → response.success = true →
          i = r.nextIndex ∨ ∃ rpc ∈ r.appendEntriesInFly, i = rpc.logIndex)) ∨
      ∃ k next, r.findRpc callId request = some k ∧ failed = false ∧ response.success = true ∧
        response.term = r.term ∧ r.view.nextWindow request response = some next ∧
        returned.commitIndexes = next.2 ∧
        queues returned.replicator = (queues r).settle k request.entries.length next.1) := by
  cases rpcReturns_of_some hrun with
  | unfound hfind => exact ⟨rfl, .inl ⟨hfind, rfl, rfl⟩⟩
  | failed k hfind hfailed =>
    obtain ⟨i, -, hreset⟩ := queues_resetNextIndex (r := marked r k)
    exact ⟨rfl, .inr (.inl ⟨k, i, hfind, rfl, hreset, fun h => by simp [hfailed] at h,
      fun h => by simp [hfailed] at h⟩)⟩
  | higherTerm k hfind hrefused =>
    obtain ⟨i, -, hreset⟩ := queues_resetNextIndex (r := marked r k)
    refine ⟨rfl, .inr (.inl ⟨k, i, hfind, rfl, ?_, fun h => by simp [hrefused] at h,
      fun _ h => by simp [hrefused] at h⟩)⟩
    rw [queues_ends, queues_destroy, queues_notifyOnCaughtUp]
    exact hreset
  | refused k hfind hrefused =>
    exact ⟨rfl, .inr (.inl ⟨k, ((marked r k).resetNextIndex.lowerNextIndex response).nextIndex,
      hfind, rfl, rfl, fun h => by simp [hrefused] at h, fun _ h => by simp [hrefused] at h⟩)⟩
  | otherTerm k hfind hterm =>
    obtain ⟨i, hi, hreset⟩ := queues_resetNextIndex (r := marked r k)
    exact ⟨rfl, .inr (.inl ⟨k, i, hfind, rfl, hreset, fun h => hterm h.2.2, fun _ _ => hi⟩)⟩
  | success k next hfind hfailed hsuccess hterm hnext =>
    refine ⟨rfl, .inr (.inr ⟨k, next, hfind, hfailed, hsuccess, hterm, hnext, rfl, ?_⟩)⟩
    rw [queues_callsOn, queues_afterSuccess]
    exact settle_marked k request.entries.length next.1

theorem onRpcReturned_isSome {callId : Nat} {failed : Bool} {request : AppendEntriesRequest}
    {response : AppendEntriesResponse} :
    (r.onRpcReturned env callId failed request response).isSome ↔
      ((r.findRpc callId request).isSome → failed = false → response.success = true →
        response.term = r.term → (r.view.nextWindow request response).isSome) := by
  have hfind : r.readFront.findRpc callId request = r.findRpc callId request := rfl
  unfold Replicator.onRpcReturned
  dsimp only
  rw [hfind]
  cases hfound : r.findRpc callId request with
  | none => exact iff_of_true rfl fun h => (by cases h)
  | some k =>
    dsimp only
    split_ifs with hfailed hsuccess hterm hterm
    · exact iff_of_true rfl fun _ h => (by simp [h] at hfailed)
    · exact iff_of_true rfl fun _ _ h => (by simp [h] at hsuccess)
    · exact iff_of_true rfl fun _ _ h => (by simp [h] at hsuccess)
    · exact iff_of_true rfl fun _ _ _ h => absurd h hterm
    · rw [Option.isSome_map]
      refine ⟨fun h _ _ _ _ => h, fun h => h rfl ?_ ?_ ?_⟩
      · simpa using hfailed
      · simpa using hsuccess
      · exact not_not.mp hterm

end Frames

/-- Each call in flight is unanswered and belongs to one request that was sent, the window
covers every entry that was sent, and its front is not acknowledged. -/
structure Sound (q : Queues) (sent : List AppendEntriesRequest) : Prop where
  unanswered : q.statusAppendEntriesInFly = List.replicate q.appendEntriesInFly.length true
  ascending : (q.appendEntriesInFly.map FlyingAppendEntriesRpc.callId).Pairwise (· < ·)
  own : ∀ rpc ∈ q.appendEntriesInFly, ∃ request, sent[rpc.callId]? = some request ∧
    request.prevLogIndex + 1 = rpc.logIndex ∧ request.entries.length = rpc.entriesSize
  covered : ∀ request ∈ sent, request.entries ≠ [] →
    request.prevLogIndex + request.entries.length < q.windowEnd
  front : ¬ q.Known q.ooStartIndex

section Sound

variable {q : Queues} {sent : List AppendEntriesRequest}

theorem findFlying_spec {first : Int} {callId k : Nat} {rpcs : List FlyingAppendEntriesRpc}
    {statuses : List Bool} (hfind : findFlying first callId rpcs statuses = some k) :
    ∃ rpc, rpcs[k]? = some rpc ∧ rpc.callId = callId := by
  induction rpcs generalizing statuses k with
  | nil => cases hfind
  | cons rpc rest ih =>
    cases statuses with
    | nil => cases hfind
    | cons status statuses =>
      rw [findFlying] at hfind
      split_ifs at hfind with hfirst hmatch
      · cases hfind
        exact ⟨rpc, rfl, hmatch.1⟩
      · obtain ⟨j, hj, rfl⟩ := Option.map_eq_some_iff.mp hfind
        exact ih hj

def below (start : Int) (rpc : FlyingAppendEntriesRpc) : Bool :=
  rpc.logIndex + rpc.entriesSize ≤ start

private theorem popFlying_of_unanswered (start : Int) (rpcs : List FlyingAppendEntriesRpc)
    (flying : Int) :
    popFlying start rpcs (List.replicate rpcs.length true) flying =
      (rpcs.dropWhile (below start), List.replicate (rpcs.dropWhile (below start)).length true,
        flying - entriesInFly (rpcs.takeWhile (below start))) := by
  induction rpcs generalizing flying with
  | nil => simp [popFlying, entriesInFly]
  | cons rpc rest ih =>
    rw [List.length_cons, List.replicate_succ, popFlying]
    by_cases hbelow : rpc.logIndex + rpc.entriesSize ≤ start
    · have hpopped : below start rpc = true := decide_eq_true hbelow
      rw [if_pos (by simp [hbelow]), ih, List.dropWhile_cons_of_pos hpopped,
        List.takeWhile_cons_of_pos hpopped, entriesInFly, entriesInFly, List.map_cons,
        List.sum_cons, Int.sub_sub]
    · have hkept : ¬ below start rpc = true := by simpa [below] using hbelow
      rw [if_neg (by simpa using hbelow), List.dropWhile_cons_of_neg hkept,
        List.takeWhile_cons_of_neg hkept, List.length_cons, List.replicate_succ]
      simp [entriesInFly]

theorem Sound.settle_eq (h : Sound q sent) {k : Nat} (hk : k < q.appendEntriesInFly.length)
    (size : Nat) (window : Int × List Bool) :
    q.settle k size window =
      let rest := q.appendEntriesInFly.eraseIdx k
      let kept := rest.dropWhile (below window.1)
      { q with
        ooStartIndex := window.1
        ooCommittedEntries := window.2
        flyingAppendEntriesSize :=
          q.flyingAppendEntriesSize - size - entriesInFly (rest.takeWhile (below window.1))
        appendEntriesInFly := kept
        statusAppendEntriesInFly := List.replicate kept.length true } := by
  have hstatuses : q.statusAppendEntriesInFly.eraseIdx k =
      List.replicate (q.appendEntriesInFly.eraseIdx k).length true := by
    rw [h.unanswered, List.eraseIdx_replicate, if_pos hk, List.length_eraseIdx_of_lt hk]
  unfold Queues.settle
  rw [hstatuses, popFlying_of_unanswered]

theorem Sound.resetTo (h : Sound q sent) (i : Int) : Sound (q.resetTo i) sent :=
  ⟨rfl, .nil, fun _ hrpc => (by cases hrpc), h.covered, h.front⟩

theorem Sound.push (h : Sound q sent) {request : AppendEntriesRequest} {pad : Nat}
    (hprev : request.prevLogIndex = q.nextIndex - 1)
    (hcovered : request.entries ≠ [] →
      q.nextIndex + request.entries.length ≤ q.windowEnd + pad) :
    Sound (q.push sent.length request.entries.length pad) (sent ++ [request]) := by
  have hend : (q.push sent.length request.entries.length pad).windowEnd = q.windowEnd + pad := by
    simp [Queues.push, Queues.windowEnd, Int.add_assoc]
  refine ⟨?_, ?_, ?_, ?_, ?_⟩
  · simp [Queues.push, h.unanswered, List.replicate_succ']
  · show List.Pairwise _ (List.map _ (_ ++ [_]))
    rw [List.map_append, List.pairwise_append]
    refine ⟨h.ascending, List.pairwise_singleton _ _, ?_⟩
    intro a ha b hb
    obtain ⟨rpc, hrpc, rfl⟩ := List.mem_map.mp ha
    obtain ⟨old, hold, -⟩ := h.own rpc hrpc
    rw [List.mem_singleton.mp hb]
    exact (List.getElem?_eq_some_iff.mp hold).1
  · intro rpc hrpc
    rcases List.mem_append.mp hrpc with hold | hnew
    · obtain ⟨old, hget, hmatch⟩ := h.own rpc hold
      refine ⟨old, ?_, hmatch⟩
      rw [List.getElem?_append_left (List.getElem?_eq_some_iff.mp hget).1]
      exact hget
    · rw [List.mem_singleton.mp hnew]
      refine ⟨request, by simp, ?_, rfl⟩
      show request.prevLogIndex + 1 = q.nextIndex
      omega
  · intro other hother hentries
    rw [hend]
    rcases List.mem_append.mp hother with hold | hnew
    · have := h.covered other hold hentries
      omega
    · rw [List.mem_singleton.mp hnew] at hentries ⊢
      have := hcovered hentries
      omega
  · exact fun hknown => h.front ((acknowledged_pad pad).mp hknown)

theorem Sound.settle (h : Sound q sent) {k size : Nat} {window : Int × List Bool}
    (hk : k < q.appendEntriesInFly.length) (hend : window.1 + window.2.length = q.windowEnd)
    (hfront : ¬ Acknowledged window.1 window.2 window.1) :
    Sound (q.settle k size window) sent := by
  have hsub : ((q.appendEntriesInFly.eraseIdx k).dropWhile (below window.1)).Sublist
      q.appendEntriesInFly :=
    (List.dropWhile_sublist _).trans (List.eraseIdx_sublist _ k)
  rw [h.settle_eq hk]
  refine ⟨rfl, h.ascending.sublist (hsub.map _), fun rpc hrpc => h.own rpc (hsub.subset hrpc),
    ?_, hfront⟩
  intro request hrequest hentries
  show _ < window.1 + window.2.length
  rw [hend]
  exact h.covered request hrequest hentries

theorem Sound.sends (h : Sound q sent) {q' : Queues} {request : Option AppendEntriesRequest}
    (hsends : Sends q sent.length q' request) : Sound q' (sent ++ request.toList) := by
  cases hsends with
  | same =>
    rw [Option.toList_none, List.append_nil]
    exact h
  | reset i =>
    rw [Option.toList_none, List.append_nil]
    exact h.resetTo i
  | push request pad hprev hcovered => exact h.push hprev hcovered

theorem window_of_next {r : Replicator} (h : Sound (queues r) sent)
    {request : AppendEntriesRequest} {response : AppendEntriesResponse}
    {next : (Int × List Bool) × Option (List Int)}
    (hnext : r.view.nextWindow request response = some next) :
    next.1.1 + next.1.2.length = (queues r).windowEnd ∧
      ¬ Acknowledged next.1.1 next.1.2 next.1.1 := by
  by_cases hentries : request.entries = []
  · rw [nextWindow_of_empty hentries] at hnext
    cases hnext
    exact ⟨rfl, h.front⟩
  · obtain ⟨hend, hfront, -⟩ := nextWindow_spec hentries hnext
    exact ⟨hend, hfront⟩

end Sound

section Step

variable {flags : Flags} {s t : Traffic} {event : Event}

/-- The step hears no response and sends what `Sends` allows. -/
def Sending (s t : Traffic) : Prop :=
  t.passed = s.passed ∧ t.answered = s.answered ∧ ∃ request,
    t.sent = s.sent ++ request.toList ∧
      Sends (queues s.replicator) s.sent.length (queues t.replicator) request

theorem step_cases (hstep : Traffic.step flags s event = some t) :
    Sending s t ∨
    ∃ env callId failed response request, event = .rpcReturned env callId failed response ∧
      s.sent[callId]? = some request ∧
        s.rpcReturned env callId request failed response = some t := by
  unfold Traffic.step at hstep
  split at hstep
  · cases hstep
    exact .inl ⟨rfl, rfl, none, by simp, .same⟩
  · have hreceives : ∀ returned : Returned, returned.commitIndexes = none →
        Sends (queues s.replicator.lock) s.sent.length (queues returned.replicator)
          returned.request → s.receive returned = t → Sending s t := by
      rintro returned hcommit hsends rfl
      exact ⟨by simp [Traffic.receive, hcommit], rfl, _, rfl, hsends⟩
    have hquiet : ∀ returned : Returned, Quiet s.replicator.lock returned →
        s.receive returned = t → Sending s t :=
      fun returned h => hreceives returned h.commitIndexes h.sends
    cases event with
    | run env call =>
      have hsends := sends_run flags s.replicator.lock { env with callId := s.sent.length } call
      exact .inl (hreceives _ (commitIndexes_run call) hsends (Option.some_inj.mp hstep))
    | resetNextIndex =>
      cases hstep
      have hsends : Sends (queues s.replicator.lock) s.sent.length _ none := sends_reset
      exact .inl ⟨rfl, rfl, none, by simp, hsends⟩
    | rpcReturned env callId failed response =>
      dsimp only at hstep
      split at hstep
      · cases hstep
        exact .inl ⟨rfl, rfl, none, by simp, .same⟩
      · rename_i request hrequest
        exact .inr ⟨env, callId, failed, response, request, rfl, hrequest, hstep⟩
    | waitForCaughtUp env maxMargin hasDueTime =>
      exact .inl (hquiet _ (quiet_waitForCaughtUp _ _) (Option.some_inj.mp hstep))
    | catchUpTimedout env =>
      exact .inl (hquiet _ quiet_onCatchUpTimedout (Option.some_inj.mp hstep))
    | transferLeadership env logIndex =>
      exact .inl (hquiet _ (quiet_transferLeadership _) (Option.some_inj.mp hstep))
    | stopTransferLeadership =>
      exact .inl (hquiet _ quiet_stopTransferLeadership (Option.some_inj.mp hstep))

theorem sound_start (serverId peerId : PeerId) (term : Int) (log : LogView) :
    Sound (queues (.start serverId peerId term log)) [] :=
  ⟨rfl, .nil, fun _ h => (by cases h), fun _ h => (by cases h),
    fun h => (by simp [Queues.Known, Acknowledged, queues, Replicator.start, item] at h)⟩

theorem sound_step (h : Sound (queues s.replicator) s.sent)
    (hstep : Traffic.step flags s event = some t) : Sound (queues t.replicator) t.sent := by
  rcases step_cases hstep with ⟨-, -, request, hsent, hsends⟩ |
    ⟨env, callId, failed, response, request, -, -, hreturned⟩
  · rw [hsent]
    exact h.sends hsends
  · obtain ⟨returned, hrun, rfl⟩ := Option.map_eq_some_iff.mp hreturned
    obtain ⟨hrequest, hcases⟩ := onRpcReturned_cases hrun
    show Sound (queues returned.replicator) (s.sent ++ returned.request.toList)
    rw [hrequest, Option.toList_none, List.append_nil]
    rcases hcases with ⟨-, -, hqueues⟩ | ⟨k, i, -, -, hqueues, -⟩ |
      ⟨k, next, hfind, -, -, -, hnext, -, hqueues⟩
    · rw [hqueues]
      exact h
    · rw [hqueues]
      exact h.resetTo i
    · obtain ⟨rpc, hrpc, -⟩ := findFlying_spec hfind
      obtain ⟨hend, hfront⟩ := window_of_next (r := s.replicator.lock) h hnext
      rw [hqueues]
      exact Sound.settle (q := queues s.replicator) h (List.getElem?_eq_some_iff.mp hrpc).1 hend
        hfront

end Step

end HitConsistency.Replication.ReplicatorTraffic
