/- GID: HitConsistency/Application/ReplicaFiles
   digest: A follower that parses the log ends with the file of the leader. -/

import HitConsistency.Application.OutOfOrderServer
import HitConsistency.Commit.FollowerApply

set_option autoImplicit false
set_option relaxedAutoImplicit false

namespace HitConsistency.Application.ReplicaFiles

open HitConsistency.Application.BlockFile
open HitConsistency.Application.FileTransfers
open HitConsistency.Application.OutOfOrderServer
open HitConsistency.Base.CommutingRuns
open HitConsistency.Base.GuardedRuns
open HitConsistency.Base.SuppliedOrder
open HitConsistency.Commit.ApplyPipeline hiding Event
open HitConsistency.Commit.FollowerApply
open HitConsistency.Commit.LeaderApply (CaughtUp)
open HitConsistency.Commit.PendingQueues
open HitConsistency.Commit.StateMachineCaller
open HitConsistency.Log.Entry
open HitConsistency.Replication.DependencyMask
open HitConsistency.Replication.PeerSender (mem_indexRange indexRange_ascending)
open HitConsistency.Replication.PeerSender.Replicator (indexRange)

/-- A follower between the execution queue and the file. -/
structure Replica where
  caller : FsmCaller
  file : List UInt8

namespace Replica

/-- One call of `do_committed`. A follower has no closures, so every request comes out of
the log. A rollback has no result here. -/
def step (codec : RequestCodec) (disk : Int → List Call) (getEntry : Int → Option LogEntry)
    (r : Replica) (task : Committed) : Option Replica := do
  let caller ← r.caller.doCommitted getEntry task
  let given := (caller.handed.map Prod.fst).drop r.caller.handed.length
  let (file, all) ← onApply codec r.file (given.map fun index =>
    (⟨((getEntry index).map LogEntry.data).getD [], none⟩, disk index))
  if all then some ⟨caller, file⟩ else none

end Replica

section Replay

variable {codec : RequestCodec} {disk : Int → List Call} {getEntry : Int → Option LogEntry}

private theorem calls_head {last : Int} {call : Committed} {calls : List Committed}
    (h : Calls getEntry last (call :: calls)) : Calls getEntry last [call] := by
  have hin : ∀ {c}, c ∈ [call] → c ∈ call :: calls := fun hc =>
    List.mem_singleton.mp hc ▸ List.mem_cons_self
  exact ⟨fun c hc => h.from_bootstrap c (hin hc), List.pairwise_singleton _ _,
    fun c hc => h.above c (hin hc), fun c hc => h.sequential c (hin hc),
    fun c hc => h.listed c (hin hc)⟩

/-- The log has the write at the index, and the disk takes it. -/
structure Holds (codec : RequestCodec) (disk : Int → List Call)
    (getEntry : Int → Option LogEntry) (index : Int) (write : Write) : Prop where
  parsed : ∃ entry, getEntry index = some entry ∧ parseLog codec entry.data = some write
  offset : 0 ≤ write.offset
  moves : write.data.length ≤ moved (disk index)

private theorem run_file {r : Replica} {calls : List Committed} {writeOf : Int → Write}
    (hidle : Idle r.caller) (hcalls : Calls getEntry r.caller.lastAppliedIndex calls)
    (hholds : ∀ i ∈ given r.caller.lastAppliedIndex calls,
      Holds codec disk getEntry i (writeOf i)) :
    ∃ t, runEvents (Replica.step codec disk getEntry) r calls = some t ∧
      t.file = (given r.caller.lastAppliedIndex calls).foldl
        (fun file i => (writeOf i).run file) r.file := by
  induction calls generalizing r with
  | nil => exact ⟨r, rfl, rfl⟩
  | cons call calls ih =>
    obtain ⟨mid, hstep, hmidIdle, hlast, hmid⟩ := doCommitted_idle hidle (calls_head hcalls)
    have hsplit : given r.caller.lastAppliedIndex (call :: calls) =
        given r.caller.lastAppliedIndex [call] ++ given call.committedIndex calls := by
      simp [given]
    have hdrop : (mid.handed.map Prod.fst).drop r.caller.handed.length =
        given r.caller.lastAppliedIndex [call] := by
      rw [hmid, List.drop_left' (List.length_map _)]
    have htakes : onApply codec r.file ((given r.caller.lastAppliedIndex [call]).map fun index =>
        (⟨((getEntry index).map LogEntry.data).getD [], none⟩, disk index)) =
          some (((given r.caller.lastAppliedIndex [call]).map writeOf).foldl Write.run r.file,
            true) := by
      refine onApply_takes ?_
      rw [List.forall₂_map_left_iff, List.forall₂_map_right_iff, List.forall₂_same]
      intro i hi
      obtain ⟨⟨entry, hentry, hparsed⟩, hoffset, hmoves⟩ :=
        hholds i (hsplit ▸ List.mem_append_left _ hi)
      exact ⟨by simpa [Entry.asWrite, hentry] using hparsed, hoffset, hmoves⟩
    obtain ⟨t, hrun, ht⟩ := @ih ⟨mid, ((given r.caller.lastAppliedIndex [call]).map
        writeOf).foldl Write.run r.file⟩ hmidIdle (hlast ▸ hcalls.tail) (by
      intro i hi
      refine hholds i (hsplit ▸ List.mem_append_right _ ?_)
      exact hlast ▸ hi)
    refine ⟨t, runEvents_cons_eq_some.mpr ⟨_, ?_, hrun⟩, ?_⟩
    · rw [Replica.step, hstep]
      simp only [Option.bind_eq_bind, Option.bind_some, hdrop, htakes, if_true]
    · rw [ht, hsplit, List.foldl_append, List.foldl_map, hlast]

end Replay

private theorem given_sequential {getEntry : Int → Option LogEntry} {last : Int}
    {calls : List Committed}
    (h : Calls getEntry last calls) (hnil : ∀ call ∈ calls, call.ooCommittedEntries = []) :
    (given last calls).Pairwise (· < ·) ∧ ∀ i ∈ given last calls, last < i := by
  induction calls generalizing last with
  | nil => simp [given]
  | cons call calls ih =>
    have hle := h.from_bootstrap call List.mem_cons_self
    obtain ⟨hascending, hlow⟩ := ih h.tail fun c hc => hnil c (List.mem_cons_of_mem call hc)
    rw [given, hnil call List.mem_cons_self, List.nil_append]
    refine ⟨List.pairwise_append.mpr ⟨indexRange_ascending _ _, hascending, ?_⟩, ?_⟩
    · intro i hi j hj
      have := (mem_indexRange.mp hi).2
      have := hlow j hj
      omega
    · intro i hi
      rcases List.mem_append.mp hi with hrange | hlater
      · have := (mem_indexRange.mp hrange).1
        omega
      · have := hlow i hlater
        omega

section Agreement

variable {setting : Setting} {ids : List Int} {earlier : List UInt8} {s : Server}
  {disk : Int → List Call} {getEntry : Int → Option LogEntry}

private theorem holds_of_leader (h : OutOfOrderServer.Inv setting ids earlier s) {i : Int}
    (hi : i ∈ s.proposer.delivered) (hlog : getEntry i = s.proposer.leader.getEntry i)
    (hdisk : moved (setting.disk i) ≤ moved (disk i)) :
    ∃ closure, s.request i = some closure ∧
      Holds setting.codec disk getEntry i closure.asWrite := by
  obtain ⟨index, hin, rfl⟩ := List.mem_map.mp hi
  obtain ⟨k, closure, rfl, hclosure⟩ := h.given hin
  obtain ⟨entry, hentry, hdata⟩ := h.logged k closure hclosure
  obtain ⟨hoffset, hmoves⟩ := h.writable k closure hclosure
  exact ⟨closure, request_of_closure hclosure, ⟨entry, hlog.trans hentry, parseLog_logData hdata⟩,
    hoffset, hmoves.trans hdisk⟩

private theorem supplied_sequential (h : OutOfOrderServer.Inv setting ids earlier s) {last : Int}
    {calls : List Committed} (hcalls : Calls getEntry last calls)
    (hnil : ∀ call ∈ calls, call.ooCommittedEntries = [])
    (hsame : ∀ i, i ∈ given last calls ↔ i ∈ s.proposer.delivered) :
    Supplied (Depends s.proposer.entries) (· ∈ s.proposer.before) (given last calls) :=
  (h.supplied_ascending (given_sequential hcalls hnil).1 hsame).congr
    fun _ _ _ hij => .single hij

end Agreement

/-- A follower that was given what the leader has given out, each entry once and behind
the entries that its mask points at, has the file of the leader. -/
theorem replicas_agree (setting : Setting) (hlook : setting.lookBack ≤ 63)
    (earlier : List LogEntry) (ids : List Int) (lastCommittedIndex lastAppliedIndex : Int)
    (ooApplyQueue : List Bool) (file : List UInt8) (events : List Event)
    (hstart : CaughtUp earlier lastCommittedIndex lastAppliedIndex ooApplyQueue)
    (hguard : Guarded (Server.step setting) (Server.Orderly setting)
      (.start earlier (lastIds setting.lookBack ids) lastCommittedIndex lastAppliedIndex
        ooApplyQueue file) events)
    {s : Server} (hrun : runEvents (Server.step setting) (.start earlier
      (lastIds setting.lookBack ids) lastCommittedIndex lastAppliedIndex ooApplyQueue file)
        events = some s)
    (getEntry : Int → Option LogEntry) (disk : Int → List Call) (calls : List Committed)
    (firstIndex : Int) (hasCommittedQueue : List Bool)
    (hcalls : Calls getEntry earlier.length calls) (honce : NeverAgain calls)
    (hsame : ∀ i, i ∈ given earlier.length calls ↔ i ∈ s.proposer.delivered)
    (horder : Supplied (Depends s.proposer.entries) (· ∈ s.proposer.before)
      (given earlier.length calls))
    (hlog : ∀ i ∈ s.proposer.delivered, getEntry i = s.proposer.leader.getEntry i)
    (hdisk : ∀ i ∈ s.proposer.delivered, moved (setting.disk i) ≤ moved (disk i)) :
    ∃ r, runEvents (Replica.step setting.codec disk getEntry)
        ⟨follower earlier.length firstIndex hasCommittedQueue, file⟩ calls = some r ∧
      r.file = s.file := by
  obtain ⟨s', hrun', hinv⟩ := inv_of_run hlook hstart hguard
  cases hrun.symm.trans hrun'
  let writeOf : Int → Write := fun i =>
    ((s.request i).map StateMachineClosure.asWrite).getD ⟨0, []⟩
  have hwrites : ∀ i ∈ given earlier.length calls, ∃ closure, s.request i = some closure ∧
      Holds setting.codec disk getEntry i closure.asWrite := by
    intro i hi
    have hin := (hsame i).mp hi
    exact holds_of_leader hinv hin (hlog i hin) (hdisk i hin)
  have hholds : ∀ i ∈ given earlier.length calls,
      Holds setting.codec disk getEntry i (writeOf i) := by
    intro i hi
    obtain ⟨closure, hrequest, hclosure⟩ := hwrites i hi
    simpa [writeOf, hrequest] using hclosure
  have hidle : Idle (follower earlier.length firstIndex hasCommittedQueue) :=
    ⟨rfl, rfl, by simp [Quiet, follower]⟩
  obtain ⟨r, hreplica, hfile⟩ := @run_file _ _ _
    ⟨follower earlier.length firstIndex hasCommittedQueue, file⟩ calls writeOf hidle hcalls hholds
  refine ⟨r, hreplica, ?_⟩
  have hperm : s.proposer.delivered.Perm (given earlier.length calls) :=
    (List.perm_ext_iff_of_nodup hinv.proposer.leader.given.once
      ((nodup_given_iff hcalls).mpr honce)).mpr fun i => (hsame i).symm
  rw [hfile, hinv.file_eq (hinv.chains horder) hperm]
  refine List.foldl_ext _ _ _ fun after i hi => ?_
  obtain ⟨closure, hrequest, -⟩ := hwrites i hi
  simp [writeOf, runIndex, hrequest]

theorem replicas_agree_sample : ∃ s r, runEvents (Server.step blockSetting)
      (.start [] (lastIds 63 []) 0 0 [] []) overtakingWrite = some s ∧
    s.proposer.delivered = [2, 1, 3] ∧
    runEvents (Replica.step wireCodec (fun _ => [.moves 11]) s.proposer.leader.getEntry)
      ⟨follower 0 0 [], []⟩ [⟨1, []⟩, ⟨3, []⟩] = some r ∧ r.file = s.file := by
  have hstart : CaughtUp [] 0 0 [] := ⟨rfl, rfl, by simp [Quiet]⟩
  have hguard : Guarded (Server.step blockSetting) (Server.Orderly blockSetting)
      (.start [] (lastIds 63 []) 0 0 [] []) overtakingWrite := by
    decide +kernel
  obtain ⟨s, hrun, hinv⟩ := inv_of_run (by decide) hstart hguard
  have hvalue : (runEvents (Server.step blockSetting) (.start [] (lastIds 63 []) 0 0 [] [])
      overtakingWrite).map (fun s => (s.proposer.delivered,
        decide (∀ i ∈ ([1, 2, 3] : List Int), (s.proposer.leader.getEntry i).isSome = true))) =
        some ([2, 1, 3], true) := by
    decide +kernel
  have hrun' : runEvents (Server.step blockSetting) (.start [] (lastIds 63 []) 0 0 [] [])
      overtakingWrite = some s := hrun
  rw [hrun'] at hvalue
  obtain ⟨hdelivered, hentries⟩ := Prod.mk.inj (Option.some.inj hvalue)
  have hentries := of_decide_eq_true hentries
  have hcalls : Calls s.proposer.leader.getEntry 0 [⟨1, []⟩, ⟨3, []⟩] := by
    refine ⟨by decide, by decide, by decide, ?_, by simp⟩
    intro call hcall i hlo hhi
    have hle : call.committedIndex ≤ 3 := by
      rcases List.mem_cons.mp hcall with rfl | hcall
      · decide
      · cases List.mem_singleton.mp hcall
        decide
    refine hentries i ?_
    have : i = 1 ∨ i = 2 ∨ i = 3 := by omega
    simpa using this
  have hgiven : given 0 [⟨1, []⟩, ⟨3, []⟩] = [1, 2, 3] := by decide
  have hsame : ∀ i, i ∈ given 0 [⟨1, []⟩, ⟨3, []⟩] ↔ i ∈ s.proposer.delivered := by
    intro i
    rw [hgiven, hdelivered]
    simp only [List.mem_cons, List.not_mem_nil, or_false]
    omega
  obtain ⟨r, hreplica, hfile⟩ := replicas_agree blockSetting (by decide) [] [] 0 0 [] []
    overtakingWrite hstart hguard hrun s.proposer.leader.getEntry (fun _ => [.moves 11])
    [⟨1, []⟩, ⟨3, []⟩] 0 [] hcalls (by decide) hsame
    (supplied_sequential hinv hcalls (by decide) hsame) (fun _ _ => rfl)
    (fun _ _ => Nat.le_refl 11)
  exact ⟨s, r, hrun, hdelivered, hreplica, hfile⟩

end HitConsistency.Application.ReplicaFiles
