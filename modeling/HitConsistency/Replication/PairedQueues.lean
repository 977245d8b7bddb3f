/- GID: HitConsistency/Replication/PairedQueues
   digest: The calls over two queues in flight are the calls over one queue of flagged calls. -/

import HitConsistency.Replication.ReplicatorTraffic

set_option autoImplicit false
set_option relaxedAutoImplicit false

/-!
As long as both queues have one length, a call over the two does what the same call does
over their pairs. The lock is held when a call begins and is left held where the sender
with one queue says so.
-/

namespace HitConsistency.Replication.PairedQueues

open HitConsistency.Base.GuardedRuns
open HitConsistency.Group.Peers
open HitConsistency.Log.Entry
open HitConsistency.Replication.PeerSender (Flags LogView)
open HitConsistency.Replication.PeerSender.Replicator (Handled Follow)
open HitConsistency.Replication.ReplicatorCalls
open HitConsistency.Replication.ReplicatorTraffic

def Paired (r : Replicator) : Prop :=
  r.appendEntriesInFly.length = r.statusAppendEntriesInFly.length

/-- The sender with one queue as a call meets it, under the lock that it has taken. -/
def entered (r : Replicator) : PeerSender.Replicator := { r.view with idLocked := false }

/-- The tail call behind a call, in the same environment. -/
def finish (flags : Flags) (env : Env) (returned : Returned) : Returned :=
  match returned.call with
  | none => returned
  | some call =>
      { returned.replicator.run flags env call with
        request := returned.request.or (returned.replicator.run flags env call).request }

def follow : Option Call → Follow
  | some .sendEntries => .sendEntries
  | some .sendEmptyEntries => .sendEmptyEntries
  | _ => .nothing

/-- The outcome of a callback: it has blocked where it was to block. -/
def handled (flags : Flags) (env : Env) (returned : Returned) : Handled where
  replicator :=
    if returned.replicator.id = .destroyed then none
    else if returned.call = some .block then
      some (entered (returned.replicator.run flags env .block).replicator)
    else some (entered returned.replicator)
  commitIndexes := returned.commitIndexes
  increaseTermTo := returned.increaseTermTo
  follow := follow returned.call

section Lists

variable {rpcs : List FlyingAppendEntriesRpc} {statuses : List Bool}

private theorem findFlying_paired (first : Int) (callId : Nat) (rpcs : List FlyingAppendEntriesRpc)
    (statuses : List Bool) :
    PeerSender.Replicator.findFlying first callId (List.zipWith withStatus rpcs statuses) =
      findFlying first callId rpcs statuses := by
  induction rpcs generalizing statuses with
  | nil => cases statuses <;> rfl
  | cons rpc rest ih =>
    cases statuses with
    | nil => rfl
    | cons status statuses =>
      rw [List.zipWith_cons_cons, PeerSender.Replicator.findFlying, findFlying, ih]
      rfl

private theorem skipAnswered_paired (h : rpcs.length = statuses.length) :
    ((List.zipWith withStatus rpcs statuses).dropWhile fun rpc => !rpc.unanswered).head?.map
        PeerSender.FlyingAppendEntriesRpc.logIndex =
      (skipAnswered rpcs statuses).head?.map FlyingAppendEntriesRpc.logIndex := by
  induction rpcs generalizing statuses with
  | nil =>
    cases List.length_eq_zero_iff.mp h.symm
    rfl
  | cons rpc rest ih =>
    cases statuses with
    | nil => cases h
    | cons status statuses =>
      cases status with
      | false => exact ih (Nat.succ_inj.mp h)
      | true => rfl

private theorem popFlying_paired (start flying : Int) (h : rpcs.length = statuses.length) :
    let kept := popFlying start rpcs statuses flying
    let erased := List.zipWith withStatus rpcs statuses
    PeerSender.Replicator.popFlying start erased = List.zipWith withStatus kept.1 kept.2.1 ∧
      kept.1.length = kept.2.1.length ∧ kept.1.length ≤ rpcs.length ∧
      kept.2.2 = flying - ((erased.take (rpcs.length - kept.1.length)).map
        PeerSender.FlyingAppendEntriesRpc.entriesSize).sum := by
  induction rpcs generalizing statuses flying with
  | nil =>
    cases List.length_eq_zero_iff.mp h.symm
    simp [popFlying, PeerSender.Replicator.popFlying]
  | cons rpc rest ih =>
    cases statuses with
    | nil => cases h
    | cons status statuses =>
      dsimp only
      rw [List.zipWith_cons_cons, PeerSender.Replicator.popFlying, popFlying]
      by_cases hpop : (!status || decide (rpc.logIndex + rpc.entriesSize ≤ start)) = true
      · obtain ⟨hkept, hlength, hle, hflying⟩ := ih (flying - rpc.entriesSize) (Nat.succ_inj.mp h)
        rw [if_pos hpop]
        refine ⟨(if_pos hpop).trans hkept, hlength, hle.trans (Nat.le_succ _), ?_⟩
        rw [hflying, List.length_cons, Nat.succ_sub hle, List.take_succ_cons, List.map_cons,
          List.sum_cons]
        show _ = flying - ((rpc.entriesSize + _ : Nat) : Int)
        rw [Int.natCast_add]
        omega
      · rw [if_neg hpop]
        exact ⟨if_neg hpop, h, le_rfl, by simp⟩

private theorem zipWith_eraseIdx (k : Nat) (rpcs : List FlyingAppendEntriesRpc)
    (statuses : List Bool) :
    (List.zipWith withStatus rpcs statuses).eraseIdx k =
      List.zipWith withStatus (rpcs.eraseIdx k) (statuses.eraseIdx k) := by
  induction k generalizing rpcs statuses with
  | zero =>
    cases rpcs with
    | nil => rfl
    | cons rpc rest =>
      cases statuses with
      | nil => simp
      | cons status statuses => rfl
  | succ k ih =>
    cases rpcs with
    | nil => rfl
    | cons rpc rest =>
      cases statuses with
      | nil => rfl
      | cons status statuses => exact congrArg (withStatus rpc status :: ·) (ih rest statuses)

private theorem zipWith_set_answered (k : Nat) (rpcs : List FlyingAppendEntriesRpc)
    (statuses : List Bool) :
    (List.zipWith withStatus rpcs statuses).modify k
        (fun rpc => { rpc with unanswered := false }) =
      List.zipWith withStatus rpcs (statuses.set k false) := by
  induction k generalizing rpcs statuses with
  | zero => cases rpcs <;> cases statuses <;> rfl
  | succ k ih =>
    cases rpcs with
    | nil => rfl
    | cons rpc rest =>
      cases statuses with
      | nil => rfl
      | cons status statuses => exact congrArg (withStatus rpc status :: ·) (ih rest statuses)

end Lists

section Calls

variable {flags : Flags} {r : Replicator} {env : Env}

private theorem view_afterSuccess : (r.afterSuccess env).view = r.view := by
  obtain ⟨index, closure, read, h⟩ := afterSuccess_eq r env
  rw [h]
  rfl

private theorem view_of_held (h : r.id = .held) : r.view = { entered r with idLocked := true } := by
  unfold entered Replicator.view
  rw [h]
  rfl

private theorem view_unlock (h : r.id = .held) : r.unlock.view = entered r := by
  unfold entered Replicator.view
  rw [id_unlock h]
  rfl

private theorem resetNextIndex_paired (h : Paired r) :
    (entered r).resetNextIndex = entered r.resetNextIndex := by
  unfold entered PeerSender.Replicator.resetNextIndex Replicator.resetNextIndex
  dsimp only [Replicator.view]
  rw [skipAnswered_paired h]
  rfl

private theorem zipWith_push (h : Paired r) (rpc : FlyingAppendEntriesRpc) :
    List.zipWith withStatus (r.appendEntriesInFly ++ [rpc]) (r.statusAppendEntriesInFly ++ [true]) =
      (entered r).appendEntriesInFly ++ [withStatus rpc true] :=
  List.zipWith_append h

private theorem sendEmptyEntries_paired (h : Paired r) (hheld : r.id = .held) (isHeartbeat : Bool) :
    (entered r).sendEmptyEntries env.box env.log env.callId isHeartbeat =
      ((r.sendEmptyEntries env isHeartbeat).replicator.view,
        (r.sendEmptyEntries env isHeartbeat).request) := by
  have hfill : (entered r).fillCommonFields env.box env.log ((entered r).nextIndex - 1)
      isHeartbeat = r.view.fillCommonFields env.box env.log (r.nextIndex - 1) isHeartbeat := rfl
  unfold PeerSender.Replicator.sendEmptyEntries Replicator.sendEmptyEntries
  rw [hfill]
  cases r.view.fillCommonFields env.box env.log (r.nextIndex - 1) isHeartbeat with
  | none => exact Prod.ext (view_of_held hheld).symm rfl
  | some request =>
    cases isHeartbeat with
    | true => exact Prod.ext (view_unlock hheld).symm rfl
    | false =>
      refine Prod.ext ?_ rfl
      let sent : Replicator :=
        { r with
          st := .appendingEntries
          appendEntriesInFly := r.appendEntriesInFly ++ [⟨r.nextIndex, 0, env.callId⟩]
          statusAppendEntriesInFly := r.statusAppendEntriesInFly ++ [true] }
      show _ = sent.unlock.view
      rw [view_unlock (r := sent) hheld]
      unfold entered Replicator.view
      dsimp only [sent]
      rw [zipWith_push h]
      rfl

private theorem entered_idle (r : Replicator) :
    entered { r with st := if r.flyingAppendEntriesSize = 0 then .idle else r.st } =
      if (entered r).flyingAppendEntriesSize = 0 then { entered r with st := .idle }
      else entered r := by
  have hflying : (entered r).flyingAppendEntriesSize = r.flyingAppendEntriesSize := rfl
  rw [hflying]
  split
  · rfl
  · rfl

private theorem waitMoreEntries_paired (h : Paired r) (hheld : r.id = .held)
    (hwait : env.waitId ≠ 0) :
    (entered r).waitMoreEntries flags env.log = (r.waitMoreEntries flags env).replicator.view := by
  have hlength : (entered r).appendEntriesInFly.length = r.appendEntriesInFly.length := by
    show (List.zipWith _ _ _).length = _
    rw [List.length_zipWith, ← h, Nat.min_self]
  have hregisters : (!(entered r).waiting &&
      decide ((entered r).flyingAppendEntriesSize < flags.raftMaxEntriesSize) &&
        decide ((entered r).appendEntriesInFly.length < flags.raftMaxParallelAppendEntriesRpcNum))
          = true ↔ r.waitId = 0 ∧ r.flyingAppendEntriesSize < flags.raftMaxEntriesSize ∧
            r.appendEntriesInFly.length < flags.raftMaxParallelAppendEntriesRpcNum := by
    rw [hlength]
    show (!decide (r.waitId ≠ 0) && decide (r.flyingAppendEntriesSize < _) && _) = true ↔ _
    simp [and_assoc]
  unfold PeerSender.Replicator.waitMoreEntries Replicator.waitMoreEntries
  dsimp only
  by_cases hreg : r.waitId = 0 ∧ r.flyingAppendEntriesSize < flags.raftMaxEntriesSize ∧
      r.appendEntriesInFly.length < flags.raftMaxParallelAppendEntriesRpcNum
  · rw [if_pos (hregisters.mpr hreg), if_pos hreg]
    let registered : Replicator :=
      { r with
        waitId := if env.log.lastLogIndex = r.nextIndex - 1 then env.waitId else 0
        isWaiterCanceled := false }
    have hentered : entered registered = { entered r with
        waiting := env.log.lastLogIndex = r.nextIndex - 1, isWaiterCanceled := false } := by
      have hwaiting : decide ((if env.log.lastLogIndex = r.nextIndex - 1 then env.waitId else 0) ≠
          0) = decide (env.log.lastLogIndex = r.nextIndex - 1) := by
        split
        · rename_i heq
          simp [heq, hwait]
        · rename_i hne
          simp [hne]
      unfold entered Replicator.view
      dsimp only [registered]
      rw [hwaiting]
    refine Eq.trans ?_ (view_unlock (r := { registered with
      st := if registered.flyingAppendEntriesSize = 0 then .idle else registered.st }) hheld).symm
    rw [entered_idle, hentered]
    rfl
  · rw [if_neg (mt hregisters.mp hreg), if_neg hreg]
    refine Eq.trans ?_ (view_unlock (r := { r with
      st := if r.flyingAppendEntriesSize = 0 then .idle else r.st }) hheld).symm
    rw [entered_idle]

private theorem skips_paired (h : Paired r) : r.Skips flags ↔
    (flags.raftMaxEntriesSize ≤ (entered r).flyingAppendEntriesSize ∨
      flags.raftMaxEntriesSize ≤ (entered r).appendEntriesInFly.length ∨
      flags.raftMaxParallelAppendEntriesRpcNum ≤ (entered r).appendEntriesInFly.length ∨
      (entered r).st = .blocking) := by
  have hlength : (entered r).appendEntriesInFly.length = r.appendEntriesInFly.length := by
    show (List.zipWith _ _ _).length = _
    rw [List.length_zipWith, ← h, Nat.min_self]
  rw [hlength]
  unfold Replicator.Skips
  rw [← h]
  rfl

private theorem pushEntry_paired (h : Paired r) :
    entered (r.pushEntry env) = PeerSender.Replicator.coverNextIndex { entered r with
      appendEntriesInFly :=
        (entered r).appendEntriesInFly ++ [⟨(entered r).nextIndex, 1, env.callId, true⟩]
      nextIndex := (entered r).nextIndex + 1
      flyingAppendEntriesSize := (entered r).flyingAppendEntriesSize + 1
      st := .appendingEntries } := by
  unfold entered Replicator.pushEntry Replicator.readFront Replicator.view
  dsimp only
  rw [zipWith_push h]
  rfl

private theorem sendEntries_paired (h : Paired r) (hheld : r.id = .held) (hwait : env.waitId ≠ 0) :
    (entered r).sendEntries flags env.box env.log env.callId =
      ((finish flags env (r.sendEntries flags env)).replicator.view,
        (finish flags env (r.sendEntries flags env)).request) := by
  have hfill : (entered r).fillCommonFields env.box env.log ((entered r).nextIndex - 1) false =
      r.view.fillCommonFields env.box env.log (r.nextIndex - 1) false := rfl
  have hprepare : (entered r).prepareEntry flags env.log = r.view.prepareEntry flags env.log := rfl
  have hreset : r.resetNextIndex.view = { (entered r).resetNextIndex with idLocked := true } := by
    rw [view_of_held (r := r.resetNextIndex) hheld, resetNextIndex_paired h]
  unfold PeerSender.Replicator.sendEntries Replicator.sendEntries
  by_cases hskips : r.Skips flags
  · rw [if_pos ((skips_paired h).mp hskips), if_pos hskips]
    exact Prod.ext (view_unlock hheld).symm rfl
  · rw [if_neg (mt (skips_paired h).mpr hskips), if_neg hskips, hfill, hprepare]
    cases r.view.fillCommonFields env.box env.log (r.nextIndex - 1) false with
    | none => exact Prod.ext hreset.symm rfl
    | some request =>
      cases r.view.prepareEntry flags env.log with
      | none =>
        dsimp only
        by_cases hbehind : r.nextIndex < env.log.firstLogIndex
        · rw [if_pos hbehind, if_pos (show (entered r).nextIndex < _ from hbehind)]
          exact Prod.ext hreset.symm rfl
        · rw [if_neg hbehind, if_neg (show ¬ (entered r).nextIndex < _ from hbehind)]
          exact Prod.ext (waitMoreEntries_paired h hheld hwait) rfl
      | some em =>
        have hpaired : Paired (r.pushEntry env) := by
          show (_ ++ [_]).length = (_ ++ [_]).length
          rw [List.length_append, List.length_append, h]
          rfl
        have hwaits : (entered (r.pushEntry env)).waitMoreEntries flags env.log = _ :=
          waitMoreEntries_paired hpaired hheld hwait
        rw [pushEntry_paired h] at hwaits
        exact Prod.ext hwaits rfl

private theorem settle_paired (h : Paired r) (k : Nat) (request : AppendEntriesRequest)
    (window : Int × List Bool) :
    (entered r).settle k request window = entered (r.settle k request window) := by
  have hlength : (r.appendEntriesInFly.eraseIdx k).length =
      (r.statusAppendEntriesInFly.eraseIdx k).length := by
    rw [List.length_eraseIdx, List.length_eraseIdx, h]
  obtain ⟨hkept, hsame, hle, hflying⟩ := popFlying_paired window.1
    (r.flyingAppendEntriesSize - request.entries.length) hlength
  have herased : (entered r).appendEntriesInFly.eraseIdx k = List.zipWith withStatus
      (r.appendEntriesInFly.eraseIdx k) (r.statusAppendEntriesInFly.eraseIdx k) :=
    zipWith_eraseIdx k _ _
  unfold PeerSender.Replicator.settle Replicator.settle
  dsimp only
  rw [herased, hkept, List.length_zipWith, List.length_zipWith, ← hlength, ← hsame, Nat.min_self,
    Nat.min_self]
  unfold entered Replicator.view
  dsimp only
  rw [hflying]

private theorem handled_of_live {returned : Returned} (hlive : returned.replicator.id ≠ .destroyed)
    (hcall : returned.call ≠ some .block) :
    handled flags env returned = ⟨some (entered returned.replicator), returned.commitIndexes,
      returned.increaseTermTo, follow returned.call⟩ := by
  unfold handled
  rw [if_neg hlive, if_neg hcall]

private theorem handled_unlock (hheld : r.id = .held) :
    handled flags env r.unlock.ends = ⟨some (entered r), none, none, .nothing⟩ := by
  have hlive : r.unlock.ends.replicator.id ≠ .destroyed := by
    show r.unlock.id ≠ _
    rw [id_unlock hheld]
    decide
  exact handled_of_live hlive nofun

private theorem handled_destroy (hheld : r.id = .held) (term : Int) :
    handled flags env { r.destroy.ends with increaseTermTo := some term } =
      ⟨none, none, some term, .nothing⟩ := by
  have hdestroyed : r.destroy.ends.replicator.id = .destroyed := id_destroy hheld
  unfold handled
  rw [if_pos hdestroyed]
  rfl

private theorem handled_callsOn (hheld : r.id = .held) {call : Call} (hcall : call ≠ .block) :
    handled flags env (r.callsOn call) = ⟨some (entered r), none, none, follow (some call)⟩ := by
  have hlive : (r.callsOn call).replicator.id ≠ .destroyed := by
    show r.id ≠ _
    rw [hheld]
    decide
  exact handled_of_live hlive fun h => hcall (Option.some_inj.mp h)

private theorem handled_block (hheld : r.id = .held) (htimer : env.timerAdded = true) :
    handled flags env (r.callsOn .block) =
      ⟨some { entered r with st := .blocking }, none, none, .nothing⟩ := by
  have hblocked : entered (r.run flags env .block).replicator =
      { entered r with st := .blocking } := by
    show entered (r.block env).replicator = _
    unfold Replicator.block
    by_cases hblocking : r.st = .blocking
    · rw [if_pos hblocking, ← hblocking]
      rfl
    · rw [if_neg hblocking, if_pos htimer]
      rfl
  have hlive : (r.callsOn .block).replicator.id ≠ .destroyed := by
    show r.id ≠ _
    rw [hheld]
    decide
  unfold handled
  rw [if_neg hlive, if_pos (show (r.callsOn .block).call = some .block from rfl), ← hblocked]
  rfl

private theorem onRpcReturned_paired (h : Paired r) (hheld : r.id = .held)
    (htimer : env.timerAdded = true)
    (callId : Nat) (failed : Bool) (request : AppendEntriesRequest)
    (response : AppendEntriesResponse) :
    (entered r).onRpcReturned callId failed request response =
      (r.onRpcReturned env callId failed request response).map (handled flags env) := by
  have hfind : PeerSender.Replicator.findFlying (request.prevLogIndex + 1) callId
      (entered r).appendEntriesInFly = r.readFront.findRpc callId request :=
    findFlying_paired _ _ _ _
  unfold PeerSender.Replicator.onRpcReturned Replicator.onRpcReturned
  rw [hfind]
  dsimp only
  cases r.readFront.findRpc callId request with
  | none => exact congrArg some (handled_unlock (r := r.readFront) hheld).symm
  | some k =>
    have hmarked : entered (marked r k) = { entered r with
        appendEntriesInFly := (entered r).appendEntriesInFly.modify k fun rpc =>
          { rpc with unanswered := false } } := by
      unfold entered Replicator.view
      dsimp only [marked]
      rw [zipWith_set_answered]
      rfl
    have hpaired : Paired (marked r k) := by
      show r.appendEntriesInFly.length = (r.statusAppendEntriesInFly.set k false).length
      rw [List.length_set]
      exact h
    have hreset := resetNextIndex_paired hpaired
    rw [hmarked] at hreset
    have hid : (marked r k).resetNextIndex.id = .held := hheld
    dsimp only
    rw [hreset]
    by_cases hfailed : failed = true
    · rw [if_pos hfailed, if_pos hfailed]
      exact congrArg some (handled_block hid htimer).symm
    · rw [if_neg hfailed, if_neg hfailed]
      by_cases hsuccess : (!response.success) = true
      · rw [if_pos hsuccess, if_pos hsuccess]
        by_cases hterm : r.term < response.term
        · rw [if_pos (show (entered r).term < _ from hterm),
            if_pos (show r.readFront.term < _ from hterm)]
          exact congrArg some
            (handled_destroy ((id_notifyOnCaughtUp _ _).trans hid) _).symm
        · rw [if_neg (show ¬ (entered r).term < _ from hterm),
            if_neg (show ¬ r.readFront.term < _ from hterm)]
          have hlowered : ((marked r k).resetNextIndex.lowerNextIndex response).id = .held := hid
          have hcalled : handled flags env
              (((marked r k).resetNextIndex.lowerNextIndex response).callsOn .sendEmptyEntries) = _ :=
            handled_callsOn hlowered nofun
          exact congrArg some hcalled.symm
      · rw [if_neg hsuccess, if_neg hsuccess]
        by_cases hterm : response.term ≠ r.term
        · rw [if_pos (show response.term ≠ (entered r).term from hterm),
            if_pos (show response.term ≠ r.readFront.term from hterm)]
          exact congrArg some (handled_unlock hid).symm
        · rw [if_neg (show ¬ response.term ≠ (entered r).term from hterm),
            if_neg (show ¬ response.term ≠ r.readFront.term from hterm)]
          have hsettled (next : (Int × List Bool) × Option (List Int)) :
              handled flags env { (((marked r k).settle k request next.1).afterSuccess env).callsOn
                .sendEntries with commitIndexes := next.2 } =
              ⟨some ((entered (marked r k)).settle k request next.1), next.2, none, .sendEntries⟩ := by
            have hlive : (((marked r k).settle k request next.1).afterSuccess env).id ≠ .destroyed := by
              rw [id_afterSuccess, show ((marked r k).settle k request next.1).id = .held from hheld]
              decide
            have hview : (((marked r k).settle k request next.1).afterSuccess env).view =
                ((marked r k).settle k request next.1).view := view_afterSuccess
            rw [settle_paired hpaired, entered, ← hview]
            exact handled_of_live hlive nofun
          rw [Option.map_map]
          rw [← hmarked]
          exact congrArg (Option.map · _) (funext fun next => (hsettled next).symm)

end Calls

private theorem paired_run {flags : Flags} {serverId peerId : PeerId} {term : Int} {log : LogView}
    {events : List Event} {s : Traffic}
    (hrun : runEvents (Traffic.step flags) (.start (.start serverId peerId term log)) events =
      some s) : Paired s.replicator := by
  have hsound : Sound (queues s.replicator) s.sent :=
    invariant_of_every_step (fun _ _ _ h hstep => sound_step h hstep)
      (sound_start serverId peerId term log) hrun
  have hlength := congrArg List.length hsound.unanswered
  rw [List.length_replicate] at hlength
  exact hlength.symm

end HitConsistency.Replication.PairedQueues
