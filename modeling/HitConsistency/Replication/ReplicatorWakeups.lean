/- GID: HitConsistency/Replication/ReplicatorWakeups
   digest: A live replicator is never left asleep with entries to send. -/

import HitConsistency.Replication.CommitPasses
import HitConsistency.Replication.LockRelease

set_option autoImplicit false
set_option relaxedAutoImplicit false

/-!
A replicator acts when it is called: by the answer to a request, by its block timer, or by
the log manager it has called `wait` on. So next to the replicator stand the callbacks that
are still to come. `wait` keeps a waiter while the log ends where the caller expects, and
otherwise calls back at once; an append calls back every waiter that is held.
-/

namespace HitConsistency.Replication.ReplicatorWakeups

open HitConsistency.Base.GuardedRuns
open HitConsistency.Group.Peers
open HitConsistency.Log.Entry
open HitConsistency.Replication.CommitPasses
open HitConsistency.Replication.LockRelease (Event Running handle)
open HitConsistency.Replication.PeerSender (Flags LogView)
open HitConsistency.Replication.ReplicatorCalls
open HitConsistency.Replication.ReplicatorTraffic (Queues Sends Sound queues entriesInFly)

structure Waking where
  replicator : Replicator
  call : Option Call
  sent : List AppendEntriesRequest
  /-- The end of the leader's log. -/
  lastLogIndex : Int
  /-- The ids of this replicator's waiters in the wait map. -/
  held : List Nat
  /-- Callbacks of the log manager that are on their way. -/
  started : Nat
  /-- Block timers that have not fired. -/
  timers : Nat

inductive Turn
  | append (lastLogIndex : Int)
  | event (event : Event)
  | run (env : Env)

namespace Waking

def start (serverId peerId : PeerId) (term : Int) (log : LogView) : Waking :=
  ⟨.start serverId peerId term log, some .sendEmptyEntries, [], log.lastLogIndex, [], 0, 0⟩

/-- `_reset_next_index` removes the waiter that is known by then. -/
def receive (s : Waking) (returned : Returned) : Waking :=
  { s with
    replicator := returned.replicator
    call := returned.call
    held :=
      if returned.replicator.isWaiterCanceled then s.held.erase s.replicator.waitId else s.held }

def hear (s : Waking) : Event → Waking
  | .continueSending .timedOut => { s with timers := s.timers - 1 }
  | .continueSending _ => { s with started := s.started - 1 }
  | _ => s

/-- The condition of `_wait_more_entries`. -/
def Asks (flags : Flags) (r : Replicator) : Prop :=
  r.waitId = 0 ∧ r.flyingAppendEntriesSize < flags.raftMaxEntriesSize ∧
    r.appendEntriesInFly.length < flags.raftMaxParallelAppendEntriesRpcNum

instance asksDecidable (flags : Flags) (r : Replicator) : Decidable (Asks flags r) :=
  inferInstanceAs (Decidable (_ ∧ _))

/-- What a tail call asks of the log manager and of the timers. -/
def ask (flags : Flags) (s : Waking) (env : Env) : Call → Waking
  | .waitMoreEntries =>
      if Asks flags s.replicator then
        if env.log.lastLogIndex = s.replicator.nextIndex - 1 then
          { s with held := env.waitId :: s.held }
        else { s with started := s.started + 1 }
      else s
  | .block =>
      if s.replicator.st ≠ .blocking ∧ env.timerAdded then { s with timers := s.timers + 1 }
      else s
  | .sendEntries | .sendEmptyEntries => s

def send (s : Waking) (returned : Returned) : Waking :=
  { s.receive returned with sent := s.sent ++ returned.request.toList }

/-- A tail call is given the number of requests before it as its call id. -/
def runCall (flags : Flags) (s : Waking) (env : Env) (call : Call) : Waking :=
  (s.ask flags env call).send
    (s.replicator.run flags { env with callId := s.sent.length } call)

def step (flags : Flags) (s : Waking) : Turn → Option Waking
  | .append lastLogIndex =>
      some { s with
        lastLogIndex := lastLogIndex
        held := []
        started := s.started + s.held.length }
  | .event event =>
      if s.call = none ∧ s.replicator.id = .free then
        (handle s.replicator.lock event).map fun returned => (s.hear event).receive returned
      else some s
  | .run env => some ((s.call.map fun call => s.runCall flags env call).getD s)

def running (s : Waking) : Running := ⟨s.replicator, s.call⟩

/-- A callback from the log manager will come: it is on its way, or the waiter is held and
there is nothing to send before the next append. -/
def Informed (s : Waking) : Prop :=
  0 < s.started ∨ s.replicator.waitId ≠ 0 ∧ s.replicator.waitId ∈ s.held ∧
    s.replicator.nextIndex = s.lastLogIndex + 1

/-- Something will call the replicator, and it will not ignore the call. -/
def Awake (s : Waking) : Prop :=
  s.replicator.appendEntriesInFly ≠ [] ∨ 0 < s.timers ∨
    s.replicator.isWaiterCanceled = false ∧ s.Informed

/-- Callbacks come as they were asked for, with the request that was sent; a success is
answered in the replicator's own term. The log manager runs, and its log ends where it
says. -/
def Faithful (s : Waking) : Turn → Prop
  | .append _ => True
  | .event (.rpcReturned _ callId failed request response) =>
      s.sent[callId]? = some request ∧
        (failed = false → response.success = true → response.term = s.replicator.term)
  | .event (.continueSending .timedOut) => 0 < s.timers
  | .event (.continueSending errorCode) => errorCode = .ok ∧ 0 < s.started
  | .event _ => True
  | .run env =>
      env.log.lastLogIndex = s.lastLogIndex ∧ env.log.getEntry (s.lastLogIndex + 1) = none ∧
        env.waitId ≠ 0

instance faithfulDecidable (s : Waking) : ∀ turn, Decidable (s.Faithful turn)
  | .append _ => inferInstanceAs (Decidable True)
  | .event (.rpcReturned _ _ _ _ _) => inferInstanceAs (Decidable (_ ∧ _))
  | .event (.continueSending .timedOut) => inferInstanceAs (Decidable (0 < _))
  | .event (.continueSending .ok) | .event (.continueSending .perm)
  | .event (.continueSending .stop) | .event (.continueSending .unknown) =>
      inferInstanceAs (Decidable (_ ∧ _))
  | .event (.heartbeatReturned ..) | .event (.changeReadonlyConfig ..) | .event (.error ..)
  | .event (.sendHeartbeat _) | .event (.waitForCaughtUp ..) | .event (.catchUpTimedout _)
  | .event (.transferLeadership ..) | .event .stopTransferLeadership
  | .event .sendTimeoutNowAndStop | .event (.timeoutNowReturned ..) | .event (.stop _)
  | .event .query => inferInstanceAs (Decidable True)
  | .run _ => inferInstanceAs (Decidable (_ ∧ _ ∧ _))

end Waking

private theorem running_event (flags : Flags) (s : Waking) (event : Event) :
    (s.step flags (.event event)).map Waking.running =
      Running.step flags s.running (.event event) := by
  by_cases hfree : s.call = none ∧ s.replicator.id = .free
  · have hfree' : s.running.call = none ∧ s.running.replicator.id = .free := hfree
    have hafter : (Waking.running ∘ fun returned => (s.hear event).receive returned) =
        Running.after := rfl
    rw [Waking.step, if_pos hfree, Running.step, if_pos hfree', Option.map_map, hafter]
    rfl
  · have hbusy : ¬ (s.running.call = none ∧ s.running.replicator.id = .free) := hfree
    rw [Waking.step, if_neg hfree, Running.step, if_neg hbusy]
    rfl

private theorem running_run (flags : Flags) (s : Waking) (env : Env) :
    (s.step flags (.run env)).map Waking.running =
      Running.step flags s.running (.run { env with callId := s.sent.length }) := by
  obtain ⟨replicator, call, sent, lastLogIndex, held, started, timers⟩ := s
  cases call with
  | none => rfl
  | some call => rfl

section Queues

variable {q q' : Queues} {sent : List AppendEntriesRequest}

/-- The calls in flight stand in the order of their indexes, below the next one. -/
structure InOrder (q : Queues) : Prop where
  ascending : q.appendEntriesInFly.Pairwise fun rpc other => rpc.logIndex ≤ other.logIndex
  below : ∀ rpc ∈ q.appendEntriesInFly, rpc.logIndex ≤ q.nextIndex

structure Kept (q : Queues) (sent : List AppendEntriesRequest) : Prop where
  sound : Sound q sent
  flying : q.flyingAppendEntriesSize = entriesInFly q.appendEntriesInFly
  inOrder : InOrder q

theorem InOrder.sends {callId : Nat} {request : Option AppendEntriesRequest} (h : InOrder q)
    (hsends : Sends q callId q' request) : InOrder q' := by
  cases hsends with
  | same => exact h
  | reset i => exact ⟨.nil, fun _ hrpc => (by cases hrpc)⟩
  | push request pad =>
    refine ⟨?_, ?_⟩
    · show List.Pairwise _ (_ ++ [_])
      rw [List.pairwise_append]
      refine ⟨h.ascending, List.pairwise_singleton _ _, ?_⟩
      intro rpc hrpc other hother
      rw [List.mem_singleton.mp hother]
      exact h.below rpc hrpc
    · intro rpc hrpc
      show rpc.logIndex ≤ q.nextIndex + request.entries.length
      rcases List.mem_append.mp hrpc with hold | hnew
      · have hbelow := h.below rpc hold
        omega
      · rw [List.mem_singleton.mp hnew]
        show q.nextIndex ≤ _
        omega

theorem Kept.sends {request : Option AppendEntriesRequest} (h : Kept q sent)
    (hsends : Sends q sent.length q' request) : Kept q' (sent ++ request.toList) :=
  ⟨h.sound.sends hsends, flying_sends hsends h.flying, h.inOrder.sends hsends⟩

theorem Kept.resetTo (h : Kept q sent) (i : Int) : Kept (q.resetTo i) sent :=
  ⟨h.sound.resetTo i, rfl, .nil, fun _ hrpc => (by cases hrpc)⟩

theorem Kept.settle (h : Kept q sent) {k : Nat} {rpc : FlyingAppendEntriesRpc}
    (hk : q.appendEntriesInFly[k]? = some rpc) {window : Int × List Bool}
    (hend : window.1 + window.2.length = q.windowEnd)
    (hfront : ¬ AckWindow.Acknowledged window.1 window.2 window.1) :
    Kept (q.settle k rpc.entriesSize window) sent := by
  have hlt := (List.getElem?_eq_some_iff.mp hk).1
  refine ⟨h.sound.settle hlt hend hfront, ?_, ?_⟩
  · rw [h.sound.settle_eq hlt]
    dsimp only
    rw [entriesInFly_dropWhile, h.flying, entriesInFly_eraseIdx hk]
    omega
  · rw [h.sound.settle_eq hlt]
    have hsub : ((q.appendEntriesInFly.eraseIdx k).dropWhile
        (ReplicatorTraffic.below window.1)).Sublist q.appendEntriesInFly :=
      (List.dropWhile_sublist _).trans (List.eraseIdx_sublist _ k)
    exact ⟨h.inOrder.ascending.sublist hsub, fun rpc hrpc => h.inOrder.below rpc (hsub.subset hrpc)⟩

private theorem Kept.inFly_of_flying (h : Kept q sent) (hpos : 0 < q.flyingAppendEntriesSize) :
    q.appendEntriesInFly ≠ [] := by
  intro hnil
  rw [h.flying, hnil] at hpos
  exact absurd hpos (lt_irrefl _)

private theorem findFlying_isSome {first : Int} {callId : Nat} {rpcs : List FlyingAppendEntriesRpc}
    (hascending : rpcs.Pairwise fun rpc other => rpc.logIndex ≤ other.logIndex)
    (hmem : ∃ rpc ∈ rpcs, rpc.callId = callId ∧ rpc.logIndex = first) :
    (findFlying first callId rpcs (List.replicate rpcs.length true)).isSome := by
  induction rpcs with
  | nil =>
    obtain ⟨rpc, hrpc, -⟩ := hmem
    cases hrpc
  | cons head rest ih =>
    obtain ⟨hhead, hrest⟩ := List.pairwise_cons.mp hascending
    obtain ⟨rpc, hrpc, hcall, hindex⟩ := hmem
    rw [List.length_cons, List.replicate_succ, findFlying]
    rcases List.mem_cons.mp hrpc with rfl | hrpc
    · rw [if_neg (by omega), if_pos ⟨hcall, rfl⟩]
      rfl
    · have hle := hhead rpc hrpc
      rw [if_neg (by omega)]
      split
      · rfl
      · rw [Option.isSome_map]
        exact ih hrest ⟨rpc, hrpc, hcall, hindex⟩

theorem Kept.found {r : Replicator} (h : Kept (queues r) sent) {rpc : FlyingAppendEntriesRpc}
    (hrpc : rpc ∈ r.appendEntriesInFly) :
    ∃ request, sent[rpc.callId]? = some request ∧ (r.findRpc rpc.callId request).isSome := by
  obtain ⟨request, hrequest, hindex, -⟩ := h.sound.own rpc hrpc
  refine ⟨request, hrequest, ?_⟩
  have hunanswered : r.statusAppendEntriesInFly =
      List.replicate r.appendEntriesInFly.length true := h.sound.unanswered
  rw [Replicator.findRpc, hunanswered]
  exact findFlying_isSome h.inOrder.ascending ⟨rpc, hrpc, rfl, hindex.symm⟩

end Queues

/-- What holds as long as the lock is free or handed down. -/
structure Facts (s : Waking) : Prop where
  lock : s.call ≠ none → s.replicator.id = .held
  blocking : s.replicator.st = .blocking → 0 < s.timers ∨ s.call = some .sendEmptyEntries
  waiting : s.replicator.waitId ≠ 0 → s.replicator.isWaiterCanceled = false ∧ s.Informed
  kept : Kept (queues s.replicator) s.sent
  awake : s.call = none → s.Awake

/-- A replicator that is destroyed, or whose lock was kept, takes no further step. -/
def Live (s : Waking) : Prop := s.call ≠ none ∨ s.replicator.id = .free

def Inv (s : Waking) : Prop := Live s → Facts s

private theorem inv_stuck {s : Waking} (hcall : s.call = none) (hid : s.replicator.id ≠ .free) :
    Inv s := by
  rintro (hlive | hlive)
  · exact absurd hcall hlive
  · exact absurd hlive hid

section Specs

variable (flags : Flags) {r : Replicator} (env : Env)

/-- The fields that decide what the replicator waits for are the same. -/
structure SameWait (r r' : Replicator) : Prop where
  waitId : r'.waitId = r.waitId
  canceled : r'.isWaiterCanceled = r.isWaiterCanceled
  nextIndex : r'.nextIndex = r.nextIndex

private theorem sendEmptyEntries_spec (hheld : r.id = .held) :
    (r.sendEmptyEntries env false).call = none ∧
      ((r.sendEmptyEntries env false).replicator.id = .held ∨
        SameWait r (r.sendEmptyEntries env false).replicator ∧
          (r.sendEmptyEntries env false).replicator.st = .appendingEntries ∧
          (r.sendEmptyEntries env false).replicator.appendEntriesInFly ≠ []) := by
  unfold Replicator.sendEmptyEntries
  split
  · exact ⟨rfl, .inl hheld⟩
  · exact ⟨rfl, .inr ⟨⟨rfl, rfl, rfl⟩, rfl, by simp [Replicator.ends, Replicator.unlock]⟩⟩

private theorem sendEntries_spec (hheld : r.id = .held) :
    (r.Skips flags ∧ r.sendEntries flags env = r.unlock.ends) ∨
      ((r.sendEntries flags env).call = none ∧
        (r.sendEntries flags env).replicator.id = .held) ∨
      r.sendEntries flags env = r.callsOn .waitMoreEntries ∨
      ((r.sendEntries flags env).call = some .waitMoreEntries ∧
        (r.sendEntries flags env).replicator.id = .held ∧
        (env.log.getEntry r.nextIndex).isSome ∧
        (r.sendEntries flags env).replicator.st = .appendingEntries ∧
        (r.sendEntries flags env).replicator.waitId = r.waitId ∧
        (r.sendEntries flags env).replicator.isWaiterCanceled = r.isWaiterCanceled) := by
  unfold Replicator.sendEntries
  split
  · rename_i hskips
    exact .inl ⟨hskips, rfl⟩
  · split
    · exact .inr (.inl ⟨rfl, hheld⟩)
    · split
      · split
        · exact .inr (.inl ⟨rfl, hheld⟩)
        · exact .inr (.inr (.inl rfl))
      · rename_i em hentry
        refine .inr (.inr (.inr ⟨rfl, hheld, ?_, rfl, rfl, rfl⟩))
        unfold PeerSender.Replicator.prepareEntry at hentry
        split at hentry
        · cases hentry
        · obtain ⟨entry, hget, -⟩ := Option.map_eq_some_iff.mp hentry
          exact Option.isSome_iff_exists.mpr ⟨entry, hget⟩

private theorem waitMoreEntries_spec (hheld : r.id = .held) :
    (r.waitMoreEntries flags env).call = none ∧
      (r.waitMoreEntries flags env).replicator.id = .free ∧
      (r.waitMoreEntries flags env).replicator.nextIndex = r.nextIndex ∧
      ((r.waitMoreEntries flags env).replicator.st = .blocking → r.st = .blocking) ∧
      (Waking.Asks flags r →
        (r.waitMoreEntries flags env).replicator.isWaiterCanceled = false ∧
          (r.waitMoreEntries flags env).replicator.waitId =
            if env.log.lastLogIndex = r.nextIndex - 1 then env.waitId else 0) ∧
      (¬ Waking.Asks flags r →
        (r.waitMoreEntries flags env).replicator.isWaiterCanceled = r.isWaiterCanceled ∧
          (r.waitMoreEntries flags env).replicator.waitId = r.waitId) := by
  have hst : ∀ (P : Prop) [Decidable P] (st : PeerSender.St),
      (if P then PeerSender.St.idle else st) = .blocking → st = .blocking := by
    intro P _ st h
    split at h
    · cases h
    · exact h
  unfold Replicator.waitMoreEntries
  dsimp only
  split
  · rename_i hasks
    exact ⟨rfl, id_unlock hheld, rfl, fun h => hst _ _ h, fun _ => ⟨rfl, rfl⟩,
      fun hnot => absurd hasks hnot⟩
  · rename_i hasks
    exact ⟨rfl, id_unlock hheld, rfl, fun h => hst _ _ h, fun h => absurd h hasks,
      fun _ => ⟨rfl, rfl⟩⟩

private theorem block_spec (hheld : r.id = .held) :
    SameWait r (r.block env).replicator ∧
      ((r.st = .blocking ∧ (r.block env).call = none ∧ (r.block env).replicator.id = .free) ∨
        (r.st ≠ .blocking ∧ env.timerAdded = true ∧ (r.block env).call = none ∧
          (r.block env).replicator.id = .free) ∨
        (r.st ≠ .blocking ∧ r.block env = r.callsOn .sendEmptyEntries)) := by
  unfold Replicator.block
  split_ifs with hblocking htimer
  · exact ⟨⟨rfl, rfl, rfl⟩, .inl ⟨hblocking, rfl, id_unlock hheld⟩⟩
  · exact ⟨⟨rfl, rfl, rfl⟩, .inr (.inl ⟨hblocking, htimer, rfl, id_unlock hheld⟩)⟩
  · exact ⟨⟨rfl, rfl, rfl⟩, .inr (.inr ⟨hblocking, rfl⟩)⟩

end Specs

section TailCalls

variable {flags : Flags} {s t : Waking} {env : Env}

@[simp] theorem ask_sent (call : Call) : (s.ask flags env call).sent = s.sent := by
  unfold Waking.ask
  split
  · split_ifs <;> rfl
  · split_ifs <;> rfl
  · rfl
  · rfl

private theorem kept_runCall (h : Kept (queues s.replicator) s.sent) (call : Call) :
    Kept (queues (s.runCall flags env call).replicator) (s.runCall flags env call).sent := by
  have hsends := ReplicatorTraffic.sends_run flags s.replicator
    { env with callId := s.sent.length } call
  have hsent : (s.runCall flags env call).sent = s.sent ++
      (s.replicator.run flags { env with callId := s.sent.length } call).request.toList := by
    show (s.ask flags env call).sent ++ _ = _
    rw [ask_sent]
  rw [hsent]
  exact h.sends hsends

private theorem informed_of_sameWait (hcanceled : s.replicator.isWaiterCanceled = false)
    (hinformed : s.Informed) (hwait : SameWait s.replicator t.replicator)
    (hstarted : s.started = t.started) (hlast : t.lastLogIndex = s.lastLogIndex)
    (hheld : t.held = if t.replicator.isWaiterCanceled then s.held.erase s.replicator.waitId
      else s.held) : t.replicator.isWaiterCanceled = false ∧ t.Informed := by
  have hcanceled' := hwait.canceled.trans hcanceled
  rw [hcanceled', if_neg Bool.false_ne_true] at hheld
  refine ⟨hcanceled', hinformed.imp (fun hpos => hstarted ▸ hpos) ?_⟩
  rintro ⟨hne, hmem, hnext⟩
  rw [hwait.waitId, hwait.nextIndex, hheld, hlast]
  exact ⟨hne, hmem, hnext⟩

private theorem waiting_of_sameWait
    (h : s.replicator.waitId ≠ 0 → s.replicator.isWaiterCanceled = false ∧ s.Informed)
    (hwait : SameWait s.replicator t.replicator) (hstarted : s.started = t.started)
    (hlast : t.lastLogIndex = s.lastLogIndex)
    (hheld : t.held = if t.replicator.isWaiterCanceled then s.held.erase s.replicator.waitId
      else s.held) (hne : t.replicator.waitId ≠ 0) :
    t.replicator.isWaiterCanceled = false ∧ t.Informed := by
  rw [hwait.waitId] at hne
  obtain ⟨hcanceled, hinformed⟩ := h hne
  exact informed_of_sameWait hcanceled hinformed hwait hstarted hlast hheld

private theorem inv_sendEmptyEntries (h : Facts s) (hcall : s.call = some .sendEmptyEntries) :
    Inv (s.runCall flags env .sendEmptyEntries) := by
  have hheld := h.lock (by simp [hcall])
  have hkept : Kept (queues (s.runCall flags env .sendEmptyEntries).replicator)
      (s.runCall flags env .sendEmptyEntries).sent := kept_runCall h.kept .sendEmptyEntries
  obtain ⟨hnone, hstuck | ⟨hwait, hst, hfly⟩⟩ :=
    sendEmptyEntries_spec { env with callId := s.sent.length } hheld
  · exact inv_stuck hnone (fun hfree => by cases hstuck.symm.trans hfree)
  · refine fun _ => ⟨fun hsome => absurd hnone hsome, fun hblocking => ?_, ?_, hkept,
      fun _ => .inl hfly⟩
    · cases hst.symm.trans hblocking
    · exact waiting_of_sameWait h.waiting hwait rfl rfl rfl

private theorem awake_of_skips (hsize : 0 < flags.raftMaxEntriesSize)
    (hparallel : 0 < flags.raftMaxParallelAppendEntriesRpcNum) (h : Facts s)
    (hcall : s.call ≠ some .sendEmptyEntries) (hskips : s.replicator.Skips flags) :
    s.replicator.appendEntriesInFly ≠ [] ∨ 0 < s.timers := by
  rcases hskips with hflying | hstatuses | hrpcs | hblocking
  · exact .inl (h.kept.inFly_of_flying (lt_of_lt_of_le (by exact_mod_cast hsize) hflying))
  · have hlength : s.replicator.statusAppendEntriesInFly.length =
        s.replicator.appendEntriesInFly.length := by
      have hunanswered : s.replicator.statusAppendEntriesInFly =
          List.replicate s.replicator.appendEntriesInFly.length true := h.kept.sound.unanswered
      rw [hunanswered, List.length_replicate]
    refine .inl (List.ne_nil_of_length_pos ?_)
    omega
  · refine .inl (List.ne_nil_of_length_pos ?_)
    omega
  · exact .inr ((h.blocking hblocking).resolve_right hcall)

private theorem inv_sendEntries (hsize : 0 < flags.raftMaxEntriesSize)
    (hparallel : 0 < flags.raftMaxParallelAppendEntriesRpcNum) (h : Facts s)
    (hcall : s.call = some .sendEntries)
    (hentry : env.log.getEntry (s.lastLogIndex + 1) = none) :
    Inv (s.runCall flags env .sendEntries) := by
  have hheld := h.lock (by simp [hcall])
  have hother : s.call ≠ some .sendEmptyEntries := by simp [hcall]
  have hkept : Kept (queues (s.runCall flags env .sendEntries).replicator)
      (s.runCall flags env .sendEntries).sent := kept_runCall h.kept .sendEntries
  have hblock : s.replicator.st = .blocking → 0 < s.timers := fun hblocking =>
    (h.blocking hblocking).resolve_right hother
  have hsame : ∀ {returned : Returned},
      s.replicator.sendEntries flags { env with callId := s.sent.length } = returned →
      (s.runCall flags env .sendEntries).replicator = returned.replicator ∧
        (s.runCall flags env .sendEntries).call = returned.call := by
    rintro returned rfl
    exact ⟨rfl, rfl⟩
  rcases sendEntries_spec flags { env with callId := s.sent.length } hheld with
    ⟨hskips, hreturned⟩ | ⟨hnone, hstuck⟩ | hreturned |
      ⟨hwaits, hlocked, hfound, hst, hwaitId, hcanceled⟩
  · obtain ⟨hr, hc⟩ := hsame hreturned
    have hwait : SameWait s.replicator (s.runCall flags env .sendEntries).replicator := by
      rw [hr]
      exact ⟨rfl, rfl, rfl⟩
    refine fun _ => ⟨fun hsome => absurd hc hsome, fun hblocking => .inl ?_,
      waiting_of_sameWait h.waiting hwait rfl rfl rfl, hkept, fun _ => ?_⟩
    · rw [hr] at hblocking
      exact hblock hblocking
    · refine (awake_of_skips hsize hparallel h hother hskips).imp (fun hfly => ?_) .inl
      rw [hr]
      exact hfly
  · exact inv_stuck hnone (fun hfree => by cases hstuck.symm.trans hfree)
  · obtain ⟨hr, hc⟩ := hsame hreturned
    have hwait : SameWait s.replicator (s.runCall flags env .sendEntries).replicator := by
      rw [hr]
      exact ⟨rfl, rfl, rfl⟩
    refine fun _ => ⟨fun _ => ?_, fun hblocking => .inl ?_,
      waiting_of_sameWait h.waiting hwait rfl rfl rfl, hkept, fun hnone => ?_⟩
    · rw [hr]
      exact hheld
    · rw [hr] at hblocking
      exact hblock hblocking
    · cases hc.symm.trans hnone
  · refine fun _ => ⟨fun _ => hlocked, fun hblocking => ?_, fun hne => ?_, hkept,
      fun hnone => ?_⟩
    · cases hst.symm.trans hblocking
    · obtain ⟨hclear, hinformed⟩ := h.waiting (fun hzero => hne (hwaitId.trans hzero))
      refine ⟨hcanceled.trans hclear, .inl ?_⟩
      rcases hinformed with hstarted | ⟨-, -, hnext⟩
      · exact hstarted
      · -- a waiter is held at the end of the log only, where there is no entry to send
        rw [hnext] at hfound
        change (env.log.getEntry (s.lastLogIndex + 1)).isSome at hfound
        rw [hentry] at hfound
        cases hfound
    · cases hwaits.symm.trans hnone

private theorem inv_waitMoreEntries (hsize : 0 < flags.raftMaxEntriesSize)
    (hparallel : 0 < flags.raftMaxParallelAppendEntriesRpcNum) (h : Facts s)
    (hcall : s.call = some .waitMoreEntries) (hlast : env.log.lastLogIndex = s.lastLogIndex)
    (hid : env.waitId ≠ 0) : Inv (s.runCall flags env .waitMoreEntries) := by
  have hheld := h.lock (by simp [hcall])
  have hkept : Kept (queues (s.runCall flags env .waitMoreEntries).replicator)
      (s.runCall flags env .waitMoreEntries).sent := kept_runCall h.kept .waitMoreEntries
  have hfly : (s.runCall flags env .waitMoreEntries).replicator.appendEntriesInFly =
      s.replicator.appendEntriesInFly := by
    have hquiet : ReplicatorTraffic.Quiet s.replicator
        (s.replicator.waitMoreEntries flags { env with callId := s.sent.length }) :=
      ReplicatorTraffic.quiet_waitMoreEntries
    exact congrArg Queues.appendEntriesInFly hquiet.same
  obtain ⟨hnone, -, hnext, hst, hasked, hunasked⟩ :=
    waitMoreEntries_spec flags { env with callId := s.sent.length } hheld
  have hblocking : (s.runCall flags env .waitMoreEntries).replicator.st = .blocking →
      0 < (s.ask flags env .waitMoreEntries).timers := by
    intro hblocking
    have hsame : (s.ask flags env .waitMoreEntries).timers = s.timers := by
      unfold Waking.ask
      split_ifs <;> rfl
    rw [hsame]
    exact (h.blocking (hst hblocking)).resolve_right (by simp [hcall])
  have hlock : (s.runCall flags env .waitMoreEntries).call ≠ none →
      (s.runCall flags env .waitMoreEntries).replicator.id = .held :=
    fun hsome => absurd hnone hsome
  by_cases hasks : Waking.Asks flags s.replicator
  · obtain ⟨hcanceled, hwaitId⟩ := hasked hasks
    have hinformed : (s.runCall flags env .waitMoreEntries).Informed := by
      by_cases hend : env.log.lastLogIndex = s.replicator.nextIndex - 1
      · have hask : s.ask flags env .waitMoreEntries = { s with held := env.waitId :: s.held } :=
          (if_pos hasks).trans (if_pos hend)
        have hown : (s.runCall flags env .waitMoreEntries).replicator.waitId = env.waitId :=
          hwaitId.trans (if_pos hend)
        have hopen : (s.runCall flags env .waitMoreEntries).replicator.isWaiterCanceled ≠ true :=
          fun hc => Bool.false_ne_true (hcanceled.symm.trans hc)
        refine .inr ⟨fun hzero => hid (hown.symm.trans hzero), ?_, ?_⟩
        · show _ ∈ if (s.runCall flags env .waitMoreEntries).replicator.isWaiterCanceled then _
            else (s.ask flags env .waitMoreEntries).held
          rw [if_neg hopen, hown, hask]
          exact List.mem_cons_self
        · show _ = (s.ask flags env .waitMoreEntries).lastLogIndex + 1
          rw [hask]
          exact hnext.trans (by show _ = s.lastLogIndex + 1; omega)
      · have hask : s.ask flags env .waitMoreEntries = { s with started := s.started + 1 } :=
          (if_pos hasks).trans (if_neg hend)
        left
        show 0 < (s.ask flags env .waitMoreEntries).started
        rw [hask]
        exact Nat.succ_pos _
    exact fun _ => ⟨hlock, fun hb => .inl (hblocking hb), fun _ => ⟨hcanceled, hinformed⟩, hkept,
      fun _ => .inr (.inr ⟨hcanceled, hinformed⟩)⟩
  · obtain ⟨hcanceled, hwaitId⟩ := hunasked hasks
    have hask : s.ask flags env .waitMoreEntries = s := if_neg hasks
    have hwaiting : (s.runCall flags env .waitMoreEntries).replicator.waitId ≠ 0 →
        (s.runCall flags env .waitMoreEntries).replicator.isWaiterCanceled = false ∧
          (s.runCall flags env .waitMoreEntries).Informed := by
      refine waiting_of_sameWait h.waiting ⟨hwaitId, hcanceled, hnext⟩ ?_ ?_ ?_
      · show _ = (s.ask flags env .waitMoreEntries).started
        rw [hask]
      · show (s.ask flags env .waitMoreEntries).lastLogIndex = _
        rw [hask]
      · show (if _ then (s.ask flags env .waitMoreEntries).held.erase _ else
          (s.ask flags env .waitMoreEntries).held) = _
        rw [hask]
        rfl
    refine fun _ => ⟨hlock, fun hb => .inl (hblocking hb), hwaiting, hkept, fun _ => ?_⟩
    unfold Waking.Asks at hasks
    rw [Waking.Awake, hfly]
    by_cases hzero : s.replicator.waitId = 0
    · refine .inl ?_
      by_cases hflying : s.replicator.flyingAppendEntriesSize < flags.raftMaxEntriesSize
      · refine List.ne_nil_of_length_pos ?_
        by_contra hshort
        exact hasks ⟨hzero, hflying, by omega⟩
      · exact h.kept.inFly_of_flying (lt_of_lt_of_le (by exact_mod_cast hsize) (not_lt.mp hflying))
    · exact .inr (.inr (hwaiting (fun h => hzero (hwaitId.symm.trans h))))

private theorem inv_block (h : Facts s) (hcall : s.call = some .block) :
    Inv (s.runCall flags env .block) := by
  have hheld := h.lock (by simp [hcall])
  have hkept : Kept (queues (s.runCall flags env .block).replicator)
      (s.runCall flags env .block).sent := kept_runCall h.kept .block
  obtain ⟨hwait, hways⟩ := block_spec { env with callId := s.sent.length } hheld
  have hask : s.ask flags env .block = { s with
      timers := if s.replicator.st ≠ .blocking ∧ env.timerAdded then s.timers + 1
        else s.timers } := by
    unfold Waking.ask
    split_ifs <;> rfl
  have hwaiting : (s.runCall flags env .block).replicator.waitId ≠ 0 →
      (s.runCall flags env .block).replicator.isWaiterCanceled = false ∧
        (s.runCall flags env .block).Informed := by
    refine waiting_of_sameWait h.waiting hwait ?_ ?_ ?_
    · show _ = (s.ask flags env .block).started
      rw [hask]
    · show (s.ask flags env .block).lastLogIndex = _
      rw [hask]
    · show (if _ then (s.ask flags env .block).held.erase _ else
        (s.ask flags env .block).held) = _
      rw [hask]
      rfl
  have htimers : (s.runCall flags env .block).timers =
      if s.replicator.st ≠ .blocking ∧ env.timerAdded then s.timers + 1 else s.timers := by
    show (s.ask flags env .block).timers = _
    rw [hask]
  rcases hways with ⟨hblocking, hnone, -⟩ | ⟨hopen, hadded, hnone, -⟩ | ⟨hopen, hreturned⟩
  · have hpos : 0 < (s.runCall flags env .block).timers := by
      rw [htimers, if_neg (fun hnot => hnot.1 hblocking)]
      exact (h.blocking hblocking).resolve_right (by simp [hcall])
    exact fun _ => ⟨fun hsome => absurd hnone hsome, fun _ => .inl hpos, hwaiting, hkept,
      fun _ => .inr (.inl hpos)⟩
  · have hpos : 0 < (s.runCall flags env .block).timers := by
      rw [htimers, if_pos ⟨hopen, hadded⟩]
      exact Nat.succ_pos _
    exact fun _ => ⟨fun hsome => absurd hnone hsome, fun _ => .inl hpos, hwaiting, hkept,
      fun _ => .inr (.inl hpos)⟩
  · have hnext : (s.runCall flags env .block).call = some .sendEmptyEntries :=
      congrArg Returned.call hreturned
    have hlocked : (s.runCall flags env .block).replicator.id = .held :=
      (congrArg (fun returned => returned.replicator.id) hreturned).trans hheld
    refine fun _ => ⟨fun _ => hlocked, fun _ => .inr hnext, hwaiting, hkept, fun hnone => ?_⟩
    cases hnext.symm.trans hnone

end TailCalls

section Events

variable {flags : Flags} {r : Replicator} {returned : Returned} {s : Waking}

/-- The call leaves alone what the replicator waits for. -/
structure Calm (r : Replicator) (returned : Returned) : Prop where
  queues : queues returned.replicator = queues r
  st : returned.replicator.st = r.st
  wait : SameWait r returned.replicator
  ends : returned.call = none ∨
    returned.call = some .waitMoreEntries ∧ returned.replicator.id = .held

private theorem Calm.notified (env : Env) (errorCode : ErrorCode) (beforeDestroy : Bool)
    (out : Replicator → Replicator)
    (hout : out = Replicator.unlock ∨ out = Replicator.destroy) :
    Calm r (out (r.notifyOnCaughtUp env errorCode beforeDestroy)).ends := by
  obtain ⟨closure, read, hnotified⟩ := notifyOnCaughtUp_eq r env errorCode beforeDestroy
  rw [hnotified]
  rcases hout with rfl | rfl
  · exact ⟨rfl, rfl, ⟨rfl, rfl, rfl⟩, .inl rfl⟩
  · exact ⟨rfl, rfl, ⟨rfl, rfl, rfl⟩, .inl rfl⟩

private theorem calm_waitForCaughtUp (env : Env) (maxMargin : Int) (hasDueTime : Bool) :
    Calm r (r.waitForCaughtUp env maxMargin hasDueTime) := by
  unfold Replicator.waitForCaughtUp
  split
  · exact ⟨rfl, rfl, ⟨rfl, rfl, rfl⟩, .inl rfl⟩
  · obtain ⟨read, hread⟩ := isCatchup_eq r env maxMargin
    have hsame : ∃ read, (if r.hasSucceeded then r.isCatchup env maxMargin else (r, false)).1 =
        { r with readEmptyFront := read } := by
      split
      · exact ⟨read, hread⟩
      · exact ⟨r.readEmptyFront, rfl⟩
    generalize (if r.hasSucceeded then r.isCatchup env maxMargin else (r, false)) = result at *
    obtain ⟨read', hsame⟩ := hsame
    dsimp only
    rw [hsame]
    split
    · exact ⟨rfl, rfl, ⟨rfl, rfl, rfl⟩, .inl rfl⟩
    · exact ⟨rfl, rfl, ⟨rfl, rfl, rfl⟩, .inl rfl⟩

private theorem calm_transferLeadership (env : Env) (logIndex : Int) :
    Calm r (r.transferLeadership env logIndex) := by
  unfold Replicator.transferLeadership Replicator.sendTimeoutNow
  dsimp only
  split_ifs <;> exact ⟨rfl, rfl, ⟨rfl, rfl, rfl⟩, .inl rfl⟩

private theorem calm_sendHeartbeat (env : Env) : Calm r (r.sendEmptyEntries env true) := by
  unfold Replicator.sendEmptyEntries
  split <;> exact ⟨rfl, rfl, ⟨rfl, rfl, rfl⟩, .inl rfl⟩

/-- Apart from answers and wake-ups, an event leaves alone what the replicator waits for, or
destroys the replicator. -/
private theorem calm_handle (hheld : r.id = .held) {event : Event}
    (hreturned : handle r event = some returned) :
    (∃ env callId failed request response,
        event = .rpcReturned env callId failed request response) ∨
      (∃ errorCode, event = .continueSending errorCode) ∨
      Calm r returned ∨ returned.call = none ∧ returned.replicator.id ≠ .free := by
  have hunlock : Calm r r.unlock.ends := ⟨rfl, rfl, ⟨rfl, rfl, rfl⟩, .inl rfl⟩
  have hcalm : ∀ other, some other = some returned → Calm r other →
      (∃ env callId failed request response,
          event = .rpcReturned env callId failed request response) ∨
        (∃ errorCode, event = .continueSending errorCode) ∨
        Calm r returned ∨ returned.call = none ∧ returned.replicator.id ≠ .free := by
    intro other hother hcalm
    cases hother
    exact .inr (.inr (.inl hcalm))
  cases event with
  | rpcReturned env callId failed request response => exact .inl ⟨_, _, _, _, _, rfl⟩
  | continueSending errorCode => exact .inr (.inl ⟨_, rfl⟩)
  | heartbeatReturned env failed response =>
    refine hcalm _ hreturned ?_
    unfold Replicator.onHeartbeatReturned
    split_ifs
    · exact hunlock
    · obtain ⟨hqueues, hst, hwait, hends⟩ :=
        Calm.notified (r := r) env .perm true .destroy (.inr rfl)
      exact ⟨hqueues, hst, hwait, hends⟩
    · exact hunlock
  | changeReadonlyConfig env readonly =>
    refine hcalm _ hreturned ?_
    unfold Replicator.changeReadonlyConfig
    split_ifs
    · exact hunlock
    · exact ⟨rfl, rfl, ⟨rfl, rfl, rfl⟩, .inl rfl⟩
    · exact ⟨rfl, rfl, ⟨rfl, rfl, rfl⟩, .inr ⟨rfl, hheld⟩⟩
  | error env errorCode =>
    cases hreturned
    unfold Replicator.onError
    split_ifs
    · refine .inr (.inr (.inr ⟨rfl, fun hfree => ?_⟩))
      have hid : (r.cancelAppendEntriesRpcs.notifyOnCaughtUp env .stop true).id = .held :=
        (id_notifyOnCaughtUp _ _).trans hheld
      cases (id_destroy hid).symm.trans hfree
    · exact .inr (.inr (.inl hunlock))
  | sendHeartbeat env => exact hcalm _ hreturned (calm_sendHeartbeat env)
  | waitForCaughtUp env maxMargin hasDueTime =>
    exact hcalm _ hreturned (calm_waitForCaughtUp env maxMargin hasDueTime)
  | catchUpTimedout env =>
    exact hcalm _ hreturned (.notified env .timedOut false .unlock (.inl rfl))
  | transferLeadership env logIndex =>
    exact hcalm _ hreturned (calm_transferLeadership env logIndex)
  | stopTransferLeadership =>
    exact hcalm _ hreturned ⟨rfl, rfl, ⟨rfl, rfl, rfl⟩, .inl rfl⟩
  | sendTimeoutNowAndStop =>
    exact hcalm _ hreturned ⟨rfl, rfl, ⟨rfl, rfl, rfl⟩, .inl rfl⟩
  | timeoutNowReturned env failed responseTerm stopAfterFinish =>
    refine hcalm _ hreturned ?_
    unfold Replicator.onTimeoutNowReturned
    split_ifs
    · obtain ⟨hqueues, hst, hwait, hends⟩ :=
        Calm.notified (r := r) env .perm true .destroy (.inr rfl)
      exact ⟨hqueues, hst, hwait, hends⟩
    · exact .notified env .stop true .destroy (.inr rfl)
    · exact hunlock
  | stop env => exact hcalm _ hreturned (.notified env .perm true .unlock (.inl rfl))
  | query => exact hcalm _ hreturned hunlock

private theorem inv_calm (h : Facts s) (hcall : s.call = none)
    (hcalm : Calm s.replicator returned) :
    Inv (s.receive returned) := by
  refine fun _ => ⟨fun hsome => ?_, fun hblocking => .inl ?_,
    waiting_of_sameWait h.waiting hcalm.wait rfl rfl rfl, ?_, fun _ => ?_⟩
  · rcases hcalm.ends with hnone | ⟨-, hheld⟩
    · exact absurd hnone hsome
    · exact hheld
  · exact (h.blocking (hcalm.st.symm.trans hblocking)).resolve_right (by simp [hcall])
  · show Kept (queues returned.replicator) s.sent
    rw [hcalm.queues]
    exact h.kept
  · have hfly : returned.replicator.appendEntriesInFly = s.replicator.appendEntriesInFly :=
      congrArg Queues.appendEntriesInFly hcalm.queues
    rcases h.awake hcall with hflying | htimer | ⟨hcanceled, hinformed⟩
    · left
      show returned.replicator.appendEntriesInFly ≠ []
      rwa [hfly]
    · exact .inr (.inl htimer)
    · exact .inr (.inr (informed_of_sameWait hcanceled hinformed hcalm.wait rfl rfl rfl))

section Answers

variable {env : Env} {callId : Nat} {failed : Bool} {request : AppendEntriesRequest}
  {response : AppendEntriesResponse}

private theorem sameWait_afterSuccess (r : Replicator) (env : Env) :
    (r.afterSuccess env).st = r.st ∧ SameWait r (r.afterSuccess env) := by
  obtain ⟨index, closure, read, hafter⟩ := afterSuccess_eq r env
  rw [hafter]
  exact ⟨rfl, rfl, rfl, rfl⟩

private theorem rpcReturned_ways (hheld : r.id = .held)
    (hown : failed = false → response.success = true → response.term = r.term)
    (hrun : r.onRpcReturned env callId failed request response = some returned) :
    Calm r returned ∨ returned.call = none ∧ returned.replicator.id ≠ .free ∨
      returned.replicator.id = .held ∧ returned.replicator.st = r.st ∧ returned.call ≠ none ∧
        (returned.replicator.waitId = 0 ∨ SameWait r returned.replicator) := by
  unfold Replicator.onRpcReturned at hrun
  dsimp only at hrun
  split at hrun
  · cases hrun
    exact .inl ⟨rfl, rfl, ⟨rfl, rfl, rfl⟩, .inl rfl⟩
  · rename_i k hfind
    split_ifs at hrun with hfailed hsuccess hterm hterm
    · cases hrun
      exact .inr (.inr ⟨hheld, rfl, nofun, .inl rfl⟩)
    · cases hrun
      refine .inr (.inl ⟨rfl, fun hfree => ?_⟩)
      have hid : ((marked r k).resetNextIndex.notifyOnCaughtUp env .perm true).id = .held :=
        (id_notifyOnCaughtUp _ _).trans hheld
      cases (id_destroy hid).symm.trans hfree
    · cases hrun
      exact .inr (.inr ⟨hheld, rfl, nofun, .inl rfl⟩)
    · exact absurd (hown (by simpa using hfailed) (by simpa using hsuccess)) hterm
    · obtain ⟨next, -, rfl⟩ := Option.map_eq_some_iff.mp hrun
      obtain ⟨hst, hwait⟩ := sameWait_afterSuccess ((marked r k).settle k request next.1) env
      exact .inr (.inr ⟨id_afterSuccess.trans hheld, hst, nofun,
        .inr ⟨hwait.waitId, hwait.canceled, hwait.nextIndex⟩⟩)

private theorem kept_onRpcReturned {sent : List AppendEntriesRequest} (h : Kept (queues r) sent)
    (hrequest : sent[callId]? = some request)
    (hrun : r.onRpcReturned env callId failed request response = some returned) :
    Kept (queues returned.replicator) sent := by
  obtain ⟨-, hcases⟩ := ReplicatorTraffic.onRpcReturned_cases hrun
  rcases hcases with ⟨-, -, hqueues⟩ | ⟨k, i, -, -, hqueues, -⟩ |
    ⟨k, next, hfind, -, -, -, hnext, -, hqueues⟩
  · rw [hqueues]
    exact h
  · rw [hqueues]
    exact h.resetTo i
  · obtain ⟨rpc, hk, hid⟩ := ReplicatorTraffic.findFlying_spec hfind
    obtain ⟨own, hown, -, hsize⟩ := h.sound.own rpc (List.mem_of_getElem? hk)
    rw [hid, hrequest] at hown
    cases hown
    obtain ⟨hend, hfront⟩ := ReplicatorTraffic.window_of_next h.sound hnext
    rw [hqueues, hsize]
    exact h.settle hk hend hfront

private theorem inv_rpcReturned (h : Facts s) (hcall : s.call = none)
    (hrequest : s.sent[callId]? = some request)
    (hown : failed = false → response.success = true → response.term = s.replicator.term)
    (hrun : s.replicator.lock.onRpcReturned env callId failed request response = some returned) :
    Inv (s.receive returned) := by
  have hkept : Kept (queues returned.replicator) s.sent :=
    kept_onRpcReturned (r := s.replicator.lock) h.kept hrequest hrun
  rcases rpcReturned_ways (r := s.replicator.lock) rfl hown hrun with
    ⟨hqueues, hst, hwait, hends⟩ | ⟨hnone, hgone⟩ | ⟨hheld, hst, hsome, hways⟩
  · exact inv_calm h hcall ⟨hqueues, hst, ⟨hwait.waitId, hwait.canceled, hwait.nextIndex⟩, hends⟩
  · exact inv_stuck hnone hgone
  · refine fun _ => ⟨fun _ => hheld, fun hblocking => .inl ?_, fun hne => ?_, hkept,
      fun hnone => absurd hnone hsome⟩
    · exact (h.blocking (hst.symm.trans hblocking)).resolve_right (by simp [hcall])
    · rcases hways with hzero | hwait
      · exact absurd hzero hne
      · have hsame : SameWait s.replicator returned.replicator :=
          ⟨hwait.waitId, hwait.canceled, hwait.nextIndex⟩
        exact waiting_of_sameWait h.waiting hsame rfl rfl rfl hne

end Answers

private theorem inv_timedOut (h : Facts s) :
    Inv ((s.hear (.continueSending .timedOut)).receive
      (s.replicator.lock.continueSending .timedOut)) := by
  by_cases hzero : s.replicator.waitId = 0
  · have hreturned : s.replicator.lock.continueSending .timedOut =
        s.replicator.lock.callsOn .sendEmptyEntries :=
      (if_pos rfl).trans (if_neg (not_not.mpr hzero))
    rw [hreturned]
    exact fun _ => ⟨fun _ => rfl, fun _ => .inr rfl, fun hne => absurd hzero hne, h.kept, nofun⟩
  · have hreturned : s.replicator.lock.continueSending .timedOut = s.replicator.lock.ends :=
      (if_pos rfl).trans (if_pos hzero)
    rw [hreturned]
    exact inv_stuck rfl nofun

/-- A callback of the log manager goes on with `_send_entries`, or comes too late for its
waiter. -/
private theorem inv_woken (h : Facts s) (hcall : s.call = none) :
    Inv ((s.hear (.continueSending .ok)).receive (s.replicator.lock.continueSending .ok)) := by
  have hblock : s.replicator.st = .blocking → 0 < s.timers := fun hblocking =>
    (h.blocking hblocking).resolve_right (by simp [hcall])
  cases hcanceled : s.replicator.isWaiterCanceled with
  | false =>
    have hreturned : s.replicator.lock.continueSending .ok =
        ({ s.replicator.lock with waitId := 0 } : Replicator).callsOn .sendEntries := by
      unfold Replicator.continueSending
      rw [if_neg nofun, if_pos ⟨nofun, hcanceled⟩]
    rw [hreturned]
    exact fun _ => ⟨fun _ => rfl, fun hblocking => .inl (hblock hblocking),
      fun hne => absurd rfl hne, h.kept, nofun⟩
  | true =>
    have hreturned : s.replicator.lock.continueSending .ok = s.replicator.lock.unlock.ends := by
      unfold Replicator.continueSending
      rw [if_neg nofun, if_neg (fun hclear => by simp [Replicator.lock, hcanceled] at hclear)]
    have hzero : s.replicator.waitId = 0 := by
      by_contra hne
      exact Bool.false_ne_true ((h.waiting hne).1.symm.trans hcanceled)
    rw [hreturned]
    refine fun _ => ⟨fun hsome => absurd rfl hsome, fun hblocking => .inl (hblock hblocking),
      fun hne => absurd hzero hne, h.kept, fun _ => ?_⟩
    rcases h.awake hcall with hflying | htimer | ⟨hclear, -⟩
    · exact .inl hflying
    · exact .inr (.inl htimer)
    · exact absurd (hclear.symm.trans hcanceled) Bool.false_ne_true

end Events

section Runs

variable {flags : Flags} {s t : Waking}

private theorem inv_append (h : Inv s) (lastLogIndex : Int) :
    Inv { s with
      lastLogIndex := lastLogIndex
      held := []
      started := s.started + s.held.length } := by
  intro hlive
  have hfacts := h hlive
  have hstarted : s.Informed → 0 < s.started + s.held.length := by
    rintro (hpos | ⟨-, hmem, -⟩)
    · omega
    · have hpos := List.length_pos_of_mem hmem
      omega
  refine ⟨hfacts.lock, hfacts.blocking, fun hne => ?_, hfacts.kept, fun hnone => ?_⟩
  · exact ⟨(hfacts.waiting hne).1, .inl (hstarted (hfacts.waiting hne).2)⟩
  · rcases hfacts.awake hnone with hflying | htimer | ⟨hcanceled, hinformed⟩
    · exact .inl hflying
    · exact .inr (.inl htimer)
    · exact .inr (.inr ⟨hcanceled, .inl (hstarted hinformed)⟩)

private theorem inv_runCall (hsize : 0 < flags.raftMaxEntriesSize)
    (hparallel : 0 < flags.raftMaxParallelAppendEntriesRpcNum) (h : Facts s) {call : Call}
    (hcall : s.call = some call) {env : Env} (hfaithful : s.Faithful (.run env)) :
    Inv (s.runCall flags env call) := by
  obtain ⟨hlast, hentry, hid⟩ := hfaithful
  cases call with
  | sendEntries => exact inv_sendEntries hsize hparallel h hcall hentry
  | sendEmptyEntries => exact inv_sendEmptyEntries h hcall
  | waitMoreEntries => exact inv_waitMoreEntries hsize hparallel h hcall hlast hid
  | block => exact inv_block h hcall

private theorem hear_of_other {event : Event}
    (hother : ∀ errorCode, event ≠ .continueSending errorCode) :
    s.hear event = s := by
  cases event with
  | continueSending errorCode => exact absurd rfl (hother errorCode)
  | _ => rfl

private theorem inv_event (h : Facts s) (hcall : s.call = none) {event : Event}
    (hfaithful : s.Faithful (.event event)) {returned : Returned}
    (hreturned : handle s.replicator.lock event = some returned) :
    Inv ((s.hear event).receive returned) := by
  by_cases hwoken : ∃ errorCode, event = .continueSending errorCode
  · obtain ⟨errorCode, rfl⟩ := hwoken
    cases hreturned
    by_cases htimer : errorCode = .timedOut
    · rw [htimer]
      exact inv_timedOut h
    · have hok : errorCode = .ok := by
        cases errorCode with
        | timedOut => exact absurd rfl htimer
        | ok => rfl
        | perm => exact hfaithful.1
        | stop => exact hfaithful.1
        | unknown => exact hfaithful.1
      rw [hok]
      exact inv_woken h hcall
  · rw [hear_of_other fun errorCode heq => hwoken ⟨errorCode, heq⟩]
    rcases calm_handle (r := s.replicator.lock) rfl hreturned with
      ⟨env, callId, failed, request, response, rfl⟩ | hother | hcalm | ⟨hnone, hgone⟩
    · exact inv_rpcReturned h hcall hfaithful.1 hfaithful.2 hreturned
    · exact absurd hother hwoken
    · have hsame : Calm s.replicator returned := ⟨hcalm.queues, hcalm.st,
        ⟨hcalm.wait.waitId, hcalm.wait.canceled, hcalm.wait.nextIndex⟩, hcalm.ends⟩
      exact inv_calm h hcall hsame
    · exact inv_stuck hnone hgone

theorem inv_step (hsize : 0 < flags.raftMaxEntriesSize)
    (hparallel : 0 < flags.raftMaxParallelAppendEntriesRpcNum) (h : Inv s) {turn : Turn}
    (hfaithful : s.Faithful turn) (hstep : s.step flags turn = some t) : Inv t := by
  cases turn with
  | append lastLogIndex =>
    cases hstep
    exact inv_append h lastLogIndex
  | event event =>
    unfold Waking.step at hstep
    dsimp only at hstep
    split at hstep
    · rename_i hfree
      obtain ⟨returned, hreturned, rfl⟩ := Option.map_eq_some_iff.mp hstep
      exact inv_event (h (.inr hfree.2)) hfree.1 hfaithful hreturned
    · cases hstep
      exact h
  | run env =>
    cases hcall : s.call with
    | none =>
      have hsame : s.step flags (.run env) = some s := by
        unfold Waking.step
        rw [hcall]
        rfl
      cases hsame.symm.trans hstep
      exact h
    | some call =>
      have hruns : s.step flags (.run env) = some (s.runCall flags env call) := by
        unfold Waking.step
        rw [hcall]
        rfl
      cases hruns.symm.trans hstep
      exact inv_runCall hsize hparallel (h (.inl (by simp [hcall]))) hcall hfaithful

theorem inv_start (serverId peerId : PeerId) (term : Int) (log : LogView) :
    Inv (.start serverId peerId term log) := by
  refine fun _ => ⟨fun _ => rfl, nofun, fun hne => absurd rfl hne, ?_, nofun⟩
  exact ⟨ReplicatorTraffic.sound_start serverId peerId term log, rfl, .nil,
    fun _ hrpc => (by cases hrpc)⟩

/-- A replicator that is neither destroyed nor keeps its lock is called again: a request in
flight whose answer it will find, a block timer, or the log manager with the next entry. -/
theorem never_stalls (flags : Flags) (hsize : 0 < flags.raftMaxEntriesSize)
    (hparallel : 0 < flags.raftMaxParallelAppendEntriesRpcNum) (serverId peerId : PeerId)
    (term : Int) (log : LogView) (turns : List Turn)
    (hfaithful : Guarded (Waking.step flags) Waking.Faithful (.start serverId peerId term log)
      turns)
    (hrun : runEvents (Waking.step flags) (.start serverId peerId term log) turns = some s)
    (hcall : s.call = none) (hid : s.replicator.id = .free) :
    s.Awake ∧ ∀ rpc ∈ s.replicator.appendEntriesInFly, ∃ request,
      s.sent[rpc.callId]? = some request ∧ (s.replicator.findRpc rpc.callId request).isSome := by
  have hinv : Inv s := invariant_of_step
    (fun _ _ _ hinv hguard hstep => inv_step hsize hparallel hinv hguard hstep)
    (inv_start serverId peerId term log) hfaithful hrun
  have hfacts := hinv (.inr hid)
  exact ⟨hfacts.awake hcall, fun rpc hrpc => hfacts.kept.found hrpc⟩

/-- The first empty request, as it is answered. -/
private def firstProbe : AppendEntriesRequest :=
  ⟨⟨1, 8000, 0⟩, ⟨2, 8001, 0⟩, 1, 1, 1, [], 0, [], 0⟩

/-- The follower has everything, and the log grows while the replicator waits. -/
private def rousing : List Turn :=
  [.run (steadyEnv 1), .event (.rpcReturned (steadyEnv 1) 0 false firstProbe ⟨1, true, 1⟩),
    .run (steadyEnv 1), .run (steadyEnv 1), .append 2, .event (.continueSending .ok),
    .run (steadyEnv 2), .run (steadyEnv 2)]

theorem never_stalls_rousing :
    ∃ s, runEvents (Waking.step ⟨1024, 256, 1024⟩)
      (.start ⟨1, 8000, 0⟩ ⟨2, 8001, 0⟩ 1 (steadyEnv 1).log) rousing = some s ∧
        s.Awake ∧ ∀ rpc ∈ s.replicator.appendEntriesInFly, ∃ request,
          s.sent[rpc.callId]? = some request ∧
            (s.replicator.findRpc rpc.callId request).isSome := by
  have hended : (runEvents (Waking.step ⟨1024, 256, 1024⟩)
      (.start ⟨1, 8000, 0⟩ ⟨2, 8001, 0⟩ 1 (steadyEnv 1).log) rousing).map
        (fun s => (s.replicator.id, s.call)) = some (.free, none) := by decide
  obtain ⟨s, hrun, hs⟩ := Option.map_eq_some_iff.mp hended
  obtain ⟨hid, hcall⟩ := Prod.mk.inj hs
  exact ⟨s, hrun, never_stalls ⟨1024, 256, 1024⟩ (by decide) (by decide) _ _ _ _ rousing
    (by decide) hrun hcall hid⟩

end Runs

end HitConsistency.Replication.ReplicatorWakeups
