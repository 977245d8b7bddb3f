/- GID: HitConsistency/Replication/EmptyFronts
   digest: When a replicator reads the front of an empty queue in flight. -/

import HitConsistency.Replication.ReplicatorTraffic
import Mathlib.Data.List.TakeWhile

set_option autoImplicit false
set_option relaxedAutoImplicit false

/-!
A callback reads the front of `_append_entries_in_fly` before it looks for its call, and a
success reads it again behind the queues, for a catch-up wait or a transfer of leadership.
Both find the queue empty when the calls have left early. A success also pops the window
up to the reported index, whatever that is.
-/

namespace HitConsistency.Replication.EmptyFronts

open HitConsistency.Base.GuardedRuns
open HitConsistency.Group.Peers
open HitConsistency.Log.Entry
open HitConsistency.Replication.AckWindow
open HitConsistency.Replication.PeerSender (Flags LogView Carries)
open HitConsistency.Replication.ReplicatorCalls
open HitConsistency.Replication.ReplicatorTraffic

/-- Wherever the run has come, no window was read or popped while empty, and no call has
asked an empty `_append_entries_in_fly` for its front. -/
def FrontsFilled (flags : Flags) (serverId peerId : PeerId) (term : Int) (log : LogView)
    (events : List Event) : Prop :=
  ∀ pre post, events = pre ++ post → ∃ s,
    runEvents (Traffic.step flags) (.start (.start serverId peerId term log)) pre = some s ∧
      s.replicator.readEmptyFront = false

/-- Behind a success the front is read: a catch-up wait may be over, or a transfer of
leadership is due. -/
def ReadsAgain (r : Replicator) (env : Env) : Prop :=
  r.catchupClosure.isSome ∧ env.log.firstLogIndex ≤ r.nextIndex ∨ 0 < r.timeoutNowIndex

/-- Another call in flight has an index that is left open: not acknowledged so far, not
carried by the request, and not below the reported one. -/
def LeavesOpen (r : Replicator) (callId : Nat) (request : AppendEntriesRequest)
    (response : AppendEntriesResponse) : Prop :=
  ∃ rpc ∈ r.appendEntriesInFly, rpc.callId ≠ callId ∧
    ∃ i < rpc.logIndex + rpc.entriesSize, ¬ (queues r).Known i ∧
      (request.entries ≠ [] → response.lastLogIndex ≤ i ∧ ¬ Carries request i)

/-- A callback comes while a call is in flight; a success reports at most the index above
all that was sent, and leaves a call in flight if the front is read again. -/
def CallbackSafe (s : Traffic) (env : Env) (callId : Nat) (failed : Bool)
    (response : AppendEntriesResponse) (request : AppendEntriesRequest) : Prop :=
  s.replicator.appendEntriesInFly ≠ [] ∧
    (s.Accepts callId request failed response →
      (request.entries ≠ [] → response.lastLogIndex ≤ (queues s.replicator).windowEnd) ∧
      (ReadsAgain s.replicator env → LeavesOpen s.replicator callId request response))

/-- The condition on an event of a live replicator. -/
def FrontSafe (s : Traffic) (event : Event) : Prop :=
  s.replicator.id ≠ .destroyed →
    match event with
    | .rpcReturned env callId failed response =>
        ∀ request ∈ s.sent[callId]?, CallbackSafe s env callId failed response request
    | .waitForCaughtUp env _ _ =>
        s.replicator.catchupClosure = none → s.replicator.hasSucceeded →
          env.log.firstLogIndex ≤ s.replicator.nextIndex → s.replicator.appendEntriesInFly ≠ []
    | .transferLeadership _ _ =>
        s.replicator.hasSucceeded → s.replicator.appendEntriesInFly ≠ []
    | _ => True

section Reads

variable {flags : Flags} {r : Replicator} {env : Env}

private theorem filled_readFront : r.readFront.readEmptyFront = false ↔
    r.readEmptyFront = false ∧ r.appendEntriesInFly ≠ [] := by
  simp [Replicator.readFront, List.isEmpty_eq_false_iff]

private theorem filled_isCatchup (maxMargin : Int) :
    (r.isCatchup env maxMargin).1.readEmptyFront = false ↔ r.readEmptyFront = false ∧
      (env.log.firstLogIndex ≤ r.nextIndex → r.appendEntriesInFly ≠ []) := by
  unfold Replicator.isCatchup
  split
  · rename_i hcompacted
    exact ⟨fun h => ⟨h, fun hle => absurd hcompacted (not_lt.mpr hle)⟩, And.left⟩
  · rename_i hkept
    rw [filled_readFront]
    exact and_congr_right fun _ => ⟨fun h _ => h, fun h => h (not_lt.mp hkept)⟩

private theorem readEmptyFront_notify_error {errorCode : ErrorCode} (beforeDestroy : Bool)
    (herror : errorCode = .timedOut ∨ errorCode = .perm) :
    (r.notifyOnCaughtUp env errorCode beforeDestroy).readEmptyFront = r.readEmptyFront := by
  unfold Replicator.notifyOnCaughtUp
  split
  · rfl
  · rw [if_neg fun h => herror.elim h.1 h.2]

private theorem filled_notify_ok (beforeDestroy : Bool) :
    (r.notifyOnCaughtUp env .ok beforeDestroy).readEmptyFront = false ↔
      r.readEmptyFront = false ∧ (r.catchupClosure.isSome →
        env.log.firstLogIndex ≤ r.nextIndex → r.appendEntriesInFly ≠ []) := by
  unfold Replicator.notifyOnCaughtUp
  split
  · rename_i hnone
    rw [hnone]
    exact ⟨fun h => ⟨h, fun hsome => by cases hsome⟩, And.left⟩
  · rename_i closure hsome
    have hread : (r.isCatchup env closure.maxMargin).1.readEmptyFront = false ↔
        r.readEmptyFront = false ∧ ((some closure).isSome →
          env.log.firstLogIndex ≤ r.nextIndex → r.appendEntriesInFly ≠ []) :=
      (filled_isCatchup _).trans (and_congr_right fun _ => ⟨fun h _ => h, fun h => h rfl⟩)
    rw [if_pos (by decide), hsome]
    dsimp only
    split_ifs <;> exact hread

private theorem timeoutNowIndex_notify (errorCode : ErrorCode) (beforeDestroy : Bool) :
    (r.notifyOnCaughtUp env errorCode beforeDestroy).timeoutNowIndex = r.timeoutNowIndex := by
  obtain ⟨closure, read, h⟩ := notifyOnCaughtUp_eq r env errorCode beforeDestroy
  rw [h]

private theorem filled_afterSuccess : (r.afterSuccess env).readEmptyFront = false ↔
    r.readEmptyFront = false ∧ (ReadsAgain r env → r.appendEntriesInFly ≠ []) := by
  have hfly : (r.notifyOnCaughtUp env .ok false).appendEntriesInFly = r.appendEntriesInFly :=
    congrArg Queues.appendEntriesInFly (queues_notifyOnCaughtUp _ _)
  have hnotify : (r.notifyOnCaughtUp env .ok false).readEmptyFront = false ↔
      r.readEmptyFront = false ∧ (r.catchupClosure.isSome →
        env.log.firstLogIndex ≤ r.nextIndex → r.appendEntriesInFly ≠ []) := filled_notify_ok false
  unfold Replicator.afterSuccess ReadsAgain
  dsimp only
  rw [timeoutNowIndex_notify]
  by_cases hdue : 0 < r.timeoutNowIndex
  · have hread : (r.notifyOnCaughtUp env .ok false).readFront.readEmptyFront = false ↔
        r.readEmptyFront = false ∧ (r.catchupClosure.isSome ∧
          env.log.firstLogIndex ≤ r.nextIndex ∨ 0 < r.timeoutNowIndex →
            r.appendEntriesInFly ≠ []) := by
      rw [filled_readFront, hnotify, hfly]
      constructor
      · rintro ⟨⟨hfilled, -⟩, hne⟩
        exact ⟨hfilled, fun _ => hne⟩
      · rintro ⟨hfilled, hne⟩
        exact ⟨⟨hfilled, fun _ _ => hne (.inr hdue)⟩, hne (.inr hdue)⟩
    rw [if_pos hdue]
    split
    · exact hread
    · exact hread
  · rw [if_neg hdue, hnotify]
    refine and_congr_right fun _ => ⟨?_, ?_⟩
    · rintro h (⟨hsome, hle⟩ | hdue')
      · exact h hsome hle
      · exact absurd hdue' hdue
    · exact fun h hsome hle => h (.inl ⟨hsome, hle⟩)

private theorem filled_waitForCaughtUp (maxMargin : Int) (hasDueTime : Bool) :
    (r.waitForCaughtUp env maxMargin hasDueTime).replicator.readEmptyFront = false ↔
      r.readEmptyFront = false ∧ (r.catchupClosure = none → r.hasSucceeded →
        env.log.firstLogIndex ≤ r.nextIndex → r.appendEntriesInFly ≠ []) := by
  unfold Replicator.waitForCaughtUp
  split
  · rename_i hsome
    refine ⟨fun h => ⟨h, fun hnone => ?_⟩, And.left⟩
    rw [hnone] at hsome
    cases hsome
  · rename_i hnone
    have hclosure : r.catchupClosure = none := by simpa using hnone
    have hread : (if r.hasSucceeded then r.isCatchup env maxMargin
        else (r, false)).1.readEmptyFront = false ↔ r.readEmptyFront = false ∧
          (r.catchupClosure = none → r.hasSucceeded →
            env.log.firstLogIndex ≤ r.nextIndex → r.appendEntriesInFly ≠ []) := by
      split
      · rename_i hsucceeded
        rw [filled_isCatchup]
        exact and_congr_right fun _ => ⟨fun h _ _ => h, fun h => h hclosure hsucceeded⟩
      · rename_i hnot
        exact ⟨fun h => ⟨h, fun _ hsucceeded => absurd hsucceeded hnot⟩, And.left⟩
    generalize (if r.hasSucceeded then r.isCatchup env maxMargin else (r, false)) = result at *
    dsimp only
    split
    · exact hread
    · exact hread

private theorem filled_transferLeadership (logIndex : Int) :
    (r.transferLeadership env logIndex).replicator.readEmptyFront = false ↔
      r.readEmptyFront = false ∧ (r.hasSucceeded → r.appendEntriesInFly ≠ []) := by
  have hread : (if r.hasSucceeded then r.readFront else r).readEmptyFront = false ↔
      r.readEmptyFront = false ∧ (r.hasSucceeded → r.appendEntriesInFly ≠ []) := by
    split
    · rename_i hsucceeded
      rw [filled_readFront]
      exact and_congr_right fun _ => ⟨fun h _ => h, fun h => h hsucceeded⟩
    · rename_i hnot
      exact ⟨fun h => ⟨h, fun hsucceeded => absurd hsucceeded hnot⟩, And.left⟩
  unfold Replicator.transferLeadership
  dsimp only
  split
  · exact hread
  · exact hread

private theorem readEmptyFront_run (flags : Flags) (r : Replicator) (env : Env) (call : Call) :
    (r.run flags env call).replicator.readEmptyFront = r.readEmptyFront := by
  cases call with
  | sendEntries =>
    have hpushed : (r.pushEntry env).readEmptyFront = r.readEmptyFront := by
      simp [Replicator.pushEntry, Replicator.readFront]
    show (r.sendEntries flags env).replicator.readEmptyFront = _
    rcases sendEntries_cases flags r env with h | h | h | ⟨request, em, -, h⟩
    · rw [h]
      rfl
    · rw [h]
      rfl
    · rw [h]
      rfl
    · rw [h]
      exact hpushed
  | sendEmptyEntries =>
    show (r.sendEmptyEntries env false).replicator.readEmptyFront = _
    unfold Replicator.sendEmptyEntries
    split <;> rfl
  | waitMoreEntries =>
    show (r.waitMoreEntries flags env).replicator.readEmptyFront = _
    unfold Replicator.waitMoreEntries
    dsimp only
    split_ifs <;> rfl
  | block =>
    show (r.block env).replicator.readEmptyFront = _
    unfold Replicator.block
    split_ifs <;> rfl

private theorem filled_onRpcReturned {callId : Nat} {failed : Bool} {request : AppendEntriesRequest}
    {response : AppendEntriesResponse} {returned : Returned}
    (hrun : r.onRpcReturned env callId failed request response = some returned) :
    returned.replicator.readEmptyFront = false ↔
      (r.readEmptyFront = false ∧ r.appendEntriesInFly ≠ []) ∧
        ∀ k next, r.findRpc callId request = some k → failed = false →
          response.success = true → response.term = r.term →
          r.view.nextWindow request response = some next → ReadsAgain r env →
            ((queues r).settle k request.entries.length next.1).appendEntriesInFly ≠ [] := by
  rw [← filled_readFront]
  cases rpcReturns_of_some hrun with
  | unfound hfind =>
    refine ⟨fun h => ⟨h, fun k next hfind' => ?_⟩, And.left⟩
    cases hfind.symm.trans hfind'
  | failed k _ hfailed =>
    exact ⟨fun h => ⟨h, fun _ _ _ hf => by simp [hfailed] at hf⟩, And.left⟩
  | higherTerm k _ hrefused =>
    have hsame : ((marked r k).resetNextIndex.notifyOnCaughtUp env .perm true).readEmptyFront =
        r.readFront.readEmptyFront := readEmptyFront_notify_error true (.inr rfl)
    show ((marked r k).resetNextIndex.notifyOnCaughtUp env .perm true).readEmptyFront = false ↔ _
    rw [hsame]
    exact ⟨fun h => ⟨h, fun _ _ _ _ hs => by simp [hrefused] at hs⟩, And.left⟩
  | refused k _ hrefused =>
    exact ⟨fun h => ⟨h, fun _ _ _ _ hs => by simp [hrefused] at hs⟩, And.left⟩
  | otherTerm k _ hterm =>
    exact ⟨fun h => ⟨h, fun _ _ _ _ _ ht => absurd ht hterm⟩, And.left⟩
  | success k next hfind hfailed hsuccess hterm hnext =>
    have hafter : (((marked r k).settle k request next.1).afterSuccess env).readEmptyFront =
        false ↔ r.readFront.readEmptyFront = false ∧ (ReadsAgain r env →
          ((queues (marked r k)).settle k request.entries.length next.1).appendEntriesInFly ≠ []) :=
      filled_afterSuccess
    rw [settle_marked] at hafter
    refine hafter.trans (and_congr_right fun _ => ⟨?_, ?_⟩)
    · intro h k' next' hfind' _ _ _ hnext' hagain
      cases hfind.symm.trans hfind'
      cases hnext.symm.trans hnext'
      exact h hagain
    · intro h
      exact h k next hfind hfailed hsuccess hterm hnext

end Reads

section Open

variable {r : Replicator} {sent : List AppendEntriesRequest}

private theorem mem_eraseIdx_iff (h : Sound (queues r) sent) {k : Nat}
    {answered rpc : FlyingAppendEntriesRpc} (hk : r.appendEntriesInFly[k]? = some answered) :
    rpc ∈ r.appendEntriesInFly.eraseIdx k ↔
      rpc ∈ r.appendEntriesInFly ∧ rpc.callId ≠ answered.callId := by
  obtain ⟨hlt, rfl⟩ := List.getElem?_eq_some_iff.mp hk
  have hperm := List.getElem_cons_eraseIdx_perm hlt
  have hids : (r.appendEntriesInFly.map FlyingAppendEntriesRpc.callId).Nodup :=
    h.ascending.imp ne_of_lt
  have hfresh := (hperm.map FlyingAppendEntriesRpc.callId).nodup_iff.mpr hids
  rw [List.map_cons, List.nodup_cons] at hfresh
  rw [← hperm.mem_iff, List.mem_cons]
  constructor
  · intro hmem
    refine ⟨.inr hmem, fun heq => hfresh.1 ?_⟩
    rw [← heq]
    exact List.mem_map_of_mem hmem
  · rintro ⟨rfl | hmem, hne⟩
    · exact absurd rfl hne
    · exact hmem

private theorem settle_ne_nil (h : Sound (queues r) sent) {k size : Nat}
    {answered : FlyingAppendEntriesRpc} (hk : r.appendEntriesInFly[k]? = some answered)
    (window : Int × List Bool) :
    ((queues r).settle k size window).appendEntriesInFly ≠ [] ↔
      ∃ rpc ∈ r.appendEntriesInFly, rpc.callId ≠ answered.callId ∧
        window.1 < rpc.logIndex + rpc.entriesSize := by
  rw [h.settle_eq (List.getElem?_eq_some_iff.mp hk).1]
  show (r.appendEntriesInFly.eraseIdx k).dropWhile (below window.1) ≠ [] ↔ _
  rw [ne_eq, List.dropWhile_eq_nil_iff, not_forall]
  simp only [Classical.not_imp, mem_eraseIdx_iff h hk, below, decide_eq_true_eq, not_le, and_assoc]

private theorem start_lt_iff (h : Sound (queues r) sent) {request : AppendEntriesRequest}
    {response : AppendEntriesResponse} {next : (Int × List Bool) × Option (List Int)}
    (hnext : r.view.nextWindow request response = some next) (last : Int) :
    next.1.1 < last ↔ ∃ i < last, ¬ (queues r).Known i ∧
      (request.entries ≠ [] → response.lastLogIndex ≤ i ∧ ¬ Carries request i) := by
  have hopen : ∀ i, ¬ Acknowledged next.1.1 next.1.2 i ↔ ¬ (queues r).Known i ∧
      (request.entries ≠ [] → response.lastLogIndex ≤ i ∧ ¬ Carries request i) := by
    intro i
    by_cases hentries : request.entries = []
    · rw [nextWindow_of_empty hentries] at hnext
      cases hnext
      exact ⟨fun hi => ⟨hi, fun hne => absurd hentries hne⟩, And.left⟩
    · obtain ⟨-, -, hknown, -⟩ := nextWindow_spec hentries hnext
      rw [hknown, not_or, not_or, not_lt]
      exact and_congr_right fun _ => ⟨fun hi _ => hi, fun hi => hi hentries⟩
  constructor
  · intro hlt
    exact ⟨next.1.1, hlt, (hopen _).mp (window_of_next h hnext).2⟩
  · rintro ⟨i, hlt, hi⟩
    have hle : next.1.1 ≤ i := not_lt.mp fun hlow => (hopen i).mpr hi (.inl hlow)
    exact lt_of_le_of_lt hle hlt

private theorem leavesOpen_iff (h : Sound (queues r) sent) {k callId : Nat}
    {request : AppendEntriesRequest} {response : AppendEntriesResponse}
    {next : (Int × List Bool) × Option (List Int)} (hfind : r.findRpc callId request = some k)
    (hnext : r.view.nextWindow request response = some next) :
    ((queues r).settle k request.entries.length next.1).appendEntriesInFly ≠ [] ↔
      LeavesOpen r callId request response := by
  obtain ⟨answered, hk, rfl⟩ := findFlying_spec hfind
  rw [settle_ne_nil h hk]
  simp only [start_lt_iff h hnext, LeavesOpen]

end Open

variable {flags : Flags} {s : Traffic} {event : Event}

private theorem callbackSafe_iff (h : Sound (queues s.replicator) s.sent)
    (hfilled : s.replicator.readEmptyFront = false) {env : Env} {callId : Nat} {failed : Bool}
    {request : AppendEntriesRequest} {response : AppendEntriesResponse}
    (hsent : request ∈ s.sent) :
    CallbackSafe s env callId failed response request ↔
      ∃ t, s.rpcReturned env callId request failed response = some t ∧
        t.replicator.readEmptyFront = false := by
  have hwindow : (s.Accepts callId request failed response → request.entries ≠ [] →
      response.lastLogIndex ≤ (queues s.replicator).windowEnd) ↔
        (s.replicator.lock.onRpcReturned env callId failed request response).isSome := by
    rw [onRpcReturned_isSome]
    constructor
    · intro hle hfound hfailed hsuccess hterm
      by_cases hentries : request.entries = []
      · rw [nextWindow_of_empty hentries]
        rfl
      · exact (nextWindow_isSome (r := s.replicator.lock.view) hentries
          (h.covered request hsent hentries)).mpr (hle ⟨hfound, hfailed, hsuccess, hterm⟩ hentries)
    · rintro hdefined ⟨hfound, hfailed, hsuccess, hterm⟩ hentries
      exact (nextWindow_isSome (r := s.replicator.lock.view) hentries
        (h.covered request hsent hentries)).mp (hdefined hfound hfailed hsuccess hterm)
  constructor
  · rintro ⟨hne, haccepts⟩
    obtain ⟨returned, hrun⟩ :=
      Option.isSome_iff_exists.mp (hwindow.mp fun hacc => (haccepts hacc).1)
    refine ⟨_, Option.map_eq_some_iff.mpr ⟨returned, hrun, rfl⟩, ?_⟩
    refine (filled_onRpcReturned hrun).mpr ⟨⟨hfilled, hne⟩, ?_⟩
    intro k next hfind hfailed hsuccess hterm hnext hagain
    have haccepted : s.Accepts callId request failed response :=
      ⟨Option.isSome_iff_exists.mpr ⟨k, hfind⟩, hfailed, hsuccess, hterm⟩
    exact (leavesOpen_iff h hfind hnext).mpr ((haccepts haccepted).2 hagain)
  · rintro ⟨t, hreturned, hflag⟩
    obtain ⟨returned, hrun, rfl⟩ := Option.map_eq_some_iff.mp hreturned
    have hdefined := Option.isSome_iff_exists.mpr ⟨returned, hrun⟩
    obtain ⟨⟨-, hne⟩, hkept⟩ := (filled_onRpcReturned hrun).mp hflag
    refine ⟨hne, fun haccepted => ⟨hwindow.mpr hdefined haccepted, fun hagain => ?_⟩⟩
    obtain ⟨hfound, hfailed, hsuccess, hterm⟩ := haccepted
    obtain ⟨next, hnext⟩ := Option.isSome_iff_exists.mp
      (onRpcReturned_isSome.mp hdefined hfound hfailed hsuccess hterm)
    obtain ⟨k, hfind⟩ := Option.isSome_iff_exists.mp hfound
    exact (leavesOpen_iff h hfind hnext).mp
      (hkept k next hfind hfailed hsuccess hterm hnext hagain)

private theorem filled_receive {returned : Returned} {P : Prop}
    (hfilled : s.replicator.readEmptyFront = false)
    (hread : returned.replicator.readEmptyFront = false ↔
      s.replicator.readEmptyFront = false ∧ P) :
    P ↔ ∃ t, some (s.receive returned) = some t ∧ t.replicator.readEmptyFront = false := by
  constructor
  · intro hP
    exact ⟨_, rfl, hread.mpr ⟨hfilled, hP⟩⟩
  · rintro ⟨t, ht, hflag⟩
    cases ht
    exact (hread.mp hflag).2

private theorem frontSafe_iff (h : Sound (queues s.replicator) s.sent)
    (hfilled : s.replicator.readEmptyFront = false) :
    FrontSafe s event ↔ ∃ t, Traffic.step flags s event = some t ∧
      t.replicator.readEmptyFront = false := by
  unfold FrontSafe Traffic.step
  by_cases hid : s.replicator.id = .destroyed
  · rw [if_pos hid]
    exact iff_of_true (fun hlive => absurd hid hlive) ⟨s, rfl, hfilled⟩
  · rw [if_neg hid]
    have hlive (P : Prop) : (s.replicator.id ≠ .destroyed → P) ↔ P :=
      ⟨fun hP => hP hid, fun hP _ => hP⟩
    rw [hlive]
    cases event with
    | run env call =>
      have hsame := readEmptyFront_run flags s.replicator.lock
        { env with callId := s.sent.length } call
      exact iff_of_true trivial ⟨_, rfl, hsame.trans hfilled⟩
    | resetNextIndex => exact iff_of_true trivial ⟨_, rfl, hfilled⟩
    | rpcReturned env callId failed response =>
      dsimp only
      cases hrequest : s.sent[callId]? with
      | none => exact iff_of_true (fun _ hmem => by cases hmem) ⟨s, rfl, hfilled⟩
      | some request =>
        have hsent := List.mem_of_getElem? hrequest
        refine Iff.trans ?_ (callbackSafe_iff h hfilled hsent)
        exact ⟨fun hall => hall request rfl, fun hsafe other hother => by cases hother; exact hsafe⟩
    | waitForCaughtUp env maxMargin hasDueTime =>
      exact filled_receive hfilled (filled_waitForCaughtUp maxMargin hasDueTime)
    | catchUpTimedout env =>
      have hsame : (s.replicator.lock.notifyOnCaughtUp env .timedOut false).readEmptyFront =
          s.replicator.readEmptyFront := readEmptyFront_notify_error false (.inl rfl)
      exact iff_of_true trivial ⟨_, rfl, hsame.trans hfilled⟩
    | transferLeadership env logIndex =>
      exact filled_receive hfilled (filled_transferLeadership logIndex)
    | stopTransferLeadership => exact iff_of_true trivial ⟨_, rfl, hfilled⟩

theorem frontsFilled_iff (flags : Flags) (serverId peerId : PeerId) (term : Int) (log : LogView)
    (events : List Event) :
    FrontsFilled flags serverId peerId term log events ↔
      Guarded (Traffic.step flags) FrontSafe (.start (.start serverId peerId term log)) events :=
  (guarded_iff_reaches_good (fun _ _ _ h hstep => sound_step h hstep)
    (fun _ _ h hfilled => frontSafe_iff h hfilled) (sound_start serverId peerId term log) rfl).symm

/-- Two requests go out behind the first probe, and the second is answered before the first. -/
private def overtaken : List Event :=
  [.run (steadyEnv 1) .sendEmptyEntries, .rpcReturned (steadyEnv 3) 0 false ⟨1, true, 1⟩,
    .run (steadyEnv 3) .sendEntries, .run (steadyEnv 3) .sendEntries,
    .rpcReturned (steadyEnv 3) 2 false ⟨1, true, 3⟩, .rpcReturned (steadyEnv 3) 1 false ⟨1, true, 3⟩]

/-- The success of the second request takes both calls out of flight, so the callback of the
first finds the queue empty. -/
theorem not_frontsFilled_overtaken :
    ¬ FrontsFilled ⟨1024, 256, 1024⟩ ⟨1, 8000, 0⟩ ⟨2, 8001, 0⟩ 1 (steadyEnv 1).log overtaken := by
  intro h
  obtain ⟨s, hrun, hfilled⟩ := h overtaken [] rfl
  have hread : (runEvents (Traffic.step ⟨1024, 256, 1024⟩)
      (.start (.start ⟨1, 8000, 0⟩ ⟨2, 8001, 0⟩ 1 (steadyEnv 1).log)) overtaken).map
        (fun s => s.replicator.readEmptyFront) = some true := by decide
  rw [hrun, Option.map_some, hfilled] at hread
  cases hread

end HitConsistency.Replication.EmptyFronts
