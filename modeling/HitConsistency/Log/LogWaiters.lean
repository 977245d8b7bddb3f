/- GID: HitConsistency/Log/LogWaiters
   digest: The waiters of the log manager: when none of them is lost and no two share an id. -/

import HitConsistency.Log.MemoryLog
import Mathlib.Data.List.AList

set_option autoImplicit false
set_option relaxedAutoImplicit false

/-!
A waiter is kept in a map from ids to waiters until the log has grown, its id is
removed, or the log manager shuts down. The ids come from a counter of 64 bits whose
lower 32 bits are handed out. A callback runs in a thread of its own, or in place when
no thread can be started: it is started either way.
-/

namespace HitConsistency.Log.LogWaiters

open HitConsistency.Base.GuardedRuns
open HitConsistency.Log.Entry
open HitConsistency.Log.MemoryLog

/-- What a callback is started with: 0 or `ESTOP`. -/
inductive ErrorCode
  | ok | stop
  deriving DecidableEq

/-- The log manager with its waiters. A waiter is named by the number of calls of `wait`
before its own; `ids` are the results of these calls, `started` and `removed` the waiters
that have left, or were never kept. -/
structure WaitingLog extends LogManager Unit where
  waitMap : AList fun _ : Int64 => Nat
  nextWaitId : Int64
  stopped : Bool
  ids : List Int64
  started : List (Nat × ErrorCode)
  removed : List Nat

inductive Event
  | wait (expectedLastLogIndex : Int)
  | removeWaiter (id : Int64)
  | appendEntries (entries : List LogEntry) (ooRep : Bool)
  | shutdown

namespace WaitingLog

def new (lookBack : Int) : WaitingLog where
  toLogManager := .fresh lookBack
  waitMap := ∅
  nextWaitId := 0
  stopped := false
  ids := []
  started := []
  removed := []

def errorCode (s : WaitingLog) : ErrorCode := if s.stopped then .stop else .ok

/-- The counter once it has skipped 0. -/
def counter (s : WaitingLog) : Int64 :=
  if s.nextWaitId = 0 then s.nextWaitId + 1 else s.nextWaitId

/-- `const int wait_id`: the counter without its upper half. -/
def waitId (s : WaitingLog) : Int64 := s.counter.toInt32.toInt64

/-- The waiter would not be called at once. -/
def Waits (s : WaitingLog) (expectedLastLogIndex : Int) : Prop :=
  expectedLastLogIndex = s.lastLogIndex ∧ s.stopped = false

instance waitsDecidable (s : WaitingLog) (expectedLastLogIndex : Int) :
    Decidable (s.Waits expectedLastLogIndex) :=
  inferInstanceAs (Decidable (_ ∧ _))

/-- `wait`, with its result at the end of `ids`. -/
def notifyOnNewLog (s : WaitingLog) (expectedLastLogIndex : Int) : WaitingLog :=
  if ¬ s.Waits expectedLastLogIndex then
    { s with started := s.started ++ [(s.ids.length, s.errorCode)], ids := s.ids ++ [0] }
  else
    { s with
      nextWaitId := s.counter + 1
      waitMap := s.waitMap.insert s.waitId s.ids.length
      ids := s.ids ++ [s.waitId] }

def removeWaiter (s : WaitingLog) (id : Int64) : WaitingLog × Int :=
  match s.waitMap.lookup id with
  | some waiter =>
      ({ s with waitMap := s.waitMap.erase id, removed := s.removed ++ [waiter] }, 0)
  | none => (s, -1)

def held (s : WaitingLog) : List Nat := s.waitMap.entries.map Sigma.snd

def wakeupAllWaiter (s : WaitingLog) : WaitingLog :=
  { s with
    waitMap := ∅
    started := s.started ++ s.held.map fun waiter => (waiter, s.errorCode) }

def appendEntries (s : WaitingLog) (entries : List LogEntry) (ooRep : Bool) : Option WaitingLog :=
  (s.toLogManager.appendEntries entries () ooRep).map fun (manager, status) =>
    match status with
    | some _ => { s with toLogManager := manager }
    | none => { s with toLogManager := manager }.wakeupAllWaiter

def shutdown (s : WaitingLog) : WaitingLog := { s with stopped := true }.wakeupAllWaiter

def step (s : WaitingLog) : Event → Option WaitingLog
  | .wait expectedLastLogIndex => some (s.notifyOnNewLog expectedLastLogIndex)
  | .removeWaiter id => some (s.removeWaiter id).1
  | .appendEntries entries ooRep => s.appendEntries entries ooRep
  | .shutdown => some s.shutdown

end WaitingLog

open WaitingLog

/-- Each waiter is held, was started or was removed, once; no waiter is held behind a
shutdown. The waiters that are held have the keys of the map as their ids, all of them
different and none of them 0. -/
structure Accounted (s : WaitingLog) : Prop where
  once : (s.started.map Prod.fst ++ s.removed ++ s.held).Perm (List.range s.ids.length)
  own : ∀ id waiter, s.waitMap.lookup id = some waiter → s.ids[waiter]? = some id
  distinct : (s.held.map fun waiter => s.ids[waiter]?).Nodup
  nonzero : (0 : Int64) ∉ s.waitMap
  stopped : s.stopped = true → s.held = []

/-- The waiter of the last call of `wait` has got 0 exactly if it is not held. -/
def LastAnswered (s : WaitingLog) : Prop :=
  s.ids.getLast? = some 0 ↔ s.ids.length - 1 ∉ s.held

/-- Wherever the run has come, every waiter is accounted for, and a call of `wait` has
just answered truly. -/
def WaitersKept (lookBack : Int) (events : List Event) : Prop :=
  ∀ pre post s, events = pre ++ post → runEvents WaitingLog.step (.new lookBack) pre = some s →
    Accounted s ∧ ∀ expected, pre.getLast? = some (.wait expected) → LastAnswered s

/-- A waiter that is to be kept gets an id other than 0 that no held waiter has. -/
def GetsFreshId (s : WaitingLog) : Event → Prop
  | .wait expectedLastLogIndex =>
      s.Waits expectedLastLogIndex → s.waitId ≠ 0 ∧ s.waitId ∉ s.waitMap
  | _ => True


namespace WaitingLog

private theorem notifyOnNewLog_of_waits {s : WaitingLog} {expected : Int}
    (hwaits : s.Waits expected) :
    s.notifyOnNewLog expected = { s with
      nextWaitId := s.counter + 1
      waitMap := s.waitMap.insert s.waitId s.ids.length
      ids := s.ids ++ [s.waitId] } :=
  if_neg (not_not.mpr hwaits)

private theorem notifyOnNewLog_of_not_waits {s : WaitingLog} {expected : Int}
    (hwaits : ¬ s.Waits expected) :
    s.notifyOnNewLog expected = { s with
      started := s.started ++ [(s.ids.length, s.errorCode)], ids := s.ids ++ [0] } :=
  if_pos hwaits

private theorem held_insert {s : WaitingLog} (hfresh : s.waitId ∉ s.waitMap) (waiter : Nat) :
    (s.waitMap.insert s.waitId waiter).entries.map Sigma.snd = waiter :: s.held := by
  rw [AList.entries_insert_of_notMem hfresh, List.map_cons, held]

private theorem length_insert_of_mem {id : Int64} {waitMap : AList fun _ : Int64 => Nat}
    (hmem : id ∈ waitMap) (waiter : Nat) :
    (waitMap.insert id waiter).entries.length = waitMap.entries.length := by
  obtain ⟨old, front, back, -, hentries, hkerase⟩ := List.exists_of_kerase hmem
  rw [AList.entries_insert, List.length_cons, hkerase, hentries]
  simp only [List.length_append, List.length_cons, Nat.add_assoc]

private theorem held_perm_erase {s : WaitingLog} {id : Int64} {waiter : Nat}
    (hlookup : s.waitMap.lookup id = some waiter) :
    s.held.Perm (waiter :: (s.waitMap.erase id).entries.map Sigma.snd) := by
  have hmem : id ∈ s.waitMap := AList.lookup_isSome.mp (by simp [hlookup])
  obtain ⟨old, front, back, hfront, hentries, hkerase⟩ := List.exists_of_kerase hmem
  have hold : old = waiter := by
    have : (⟨id, waiter⟩ : Sigma fun _ : Int64 => Nat) ∈ s.waitMap.entries :=
      AList.mem_lookup_iff.mp hlookup
    have hthere : (⟨id, old⟩ : Sigma fun _ : Int64 => Nat) ∈ s.waitMap.entries := by
      simp [hentries]
    have hother := AList.mem_lookup_iff.mpr hthere
    exact Option.some_inj.mp (hother.symm.trans hlookup)
  have herase : (s.waitMap.erase id).entries = front ++ back := hkerase
  rw [held, herase, hentries, hold, List.map_append, List.map_append, List.map_cons]
  exact List.perm_middle

private theorem appendEntries_eq_some {s t : WaitingLog} {entries : List LogEntry} {ooRep : Bool}
    (happend : s.appendEntries entries ooRep = some t) :
    ∃ manager, t = { s with toLogManager := manager } ∨
      t = { s with toLogManager := manager }.wakeupAllWaiter := by
  obtain ⟨⟨manager, status⟩, -, rfl⟩ := Option.map_eq_some_iff.mp happend
  cases status with
  | some status => exact ⟨manager, .inl rfl⟩
  | none => exact ⟨manager, .inr rfl⟩

end WaitingLog

namespace Accounted

theorem start (lookBack : Int) : Accounted (.new lookBack) where
  once := .refl _
  own _ _ hlookup := by simp [WaitingLog.new] at hlookup
  distinct := .nil
  nonzero hmem := by simp [WaitingLog.new] at hmem
  stopped _ := rfl

private theorem distinct_of_own {s : WaitingLog}
    (hown : ∀ id waiter, s.waitMap.lookup id = some waiter → s.ids[waiter]? = some id) :
    (s.held.map fun waiter => s.ids[waiter]?).Nodup := by
  have hkeys : s.held.map (fun waiter => s.ids[waiter]?) = s.waitMap.keys.map some := by
    rw [held, List.map_map, AList.keys, List.keys, List.map_map]
    apply List.map_congr_left
    rintro ⟨id, waiter⟩ hentry
    exact hown id waiter (AList.mem_lookup_iff.mpr hentry)
  rw [hkeys]
  exact s.waitMap.keys_nodup.map (Option.some_injective _)

private theorem held_lt {s : WaitingLog} (hs : Accounted s) {waiter : Nat}
    (hheld : waiter ∈ s.held) :
    waiter < s.ids.length :=
  List.mem_range.mp (hs.once.mem_iff.mp (List.mem_append_right _ hheld))

private theorem withManager {s : WaitingLog} (hs : Accounted s) (manager : LogManager Unit) :
    Accounted { s with toLogManager := manager } :=
  ⟨hs.once, hs.own, hs.distinct, hs.nonzero, hs.stopped⟩

private theorem wakeupAllWaiter {s : WaitingLog}
    (hs : (s.started.map Prod.fst ++ s.removed ++ s.held).Perm
    (List.range s.ids.length)) : Accounted s.wakeupAllWaiter where
  once := by
    have hnow : (s.started.map Prod.fst ++ s.held ++ s.removed).Perm
        (List.range s.ids.length) := by
      refine .trans ?_ hs
      rw [List.append_assoc, List.append_assoc]
      exact List.perm_append_comm.append_left _
    simpa [WaitingLog.wakeupAllWaiter, held, Function.comp_def] using hnow
  own _ _ hlookup := by simp [WaitingLog.wakeupAllWaiter] at hlookup
  distinct := .nil
  nonzero hmem := by simp [WaitingLog.wakeupAllWaiter] at hmem
  stopped _ := rfl

private theorem startedAtOnce {s : WaitingLog} (hs : Accounted s) {expected : Int}
    (hwaits : ¬ s.Waits expected) : Accounted (s.notifyOnNewLog expected) := by
  have hown : ∀ id waiter, s.waitMap.lookup id = some waiter →
      (s.ids ++ [0])[waiter]? = some id := by
    intro id waiter hlookup
    have hid := hs.own id waiter hlookup
    rw [List.getElem?_append_left (List.getElem?_eq_some_iff.mp hid).1]
    exact hid
  rw [notifyOnNewLog_of_not_waits hwaits]
  refine ⟨?_, hown, distinct_of_own hown, hs.nonzero, hs.stopped⟩
  have honce := (hs.once.append_right [s.ids.length])
  rw [← List.range_succ] at honce
  have hmove : (s.started.map Prod.fst ++ [s.ids.length] ++ s.removed ++ s.held).Perm
      (s.started.map Prod.fst ++ s.removed ++ s.held ++ [s.ids.length]) := by
    simp only [List.append_assoc]
    refine .append_left _ ?_
    rw [← List.append_assoc s.removed]
    exact List.perm_append_comm
  simpa [held] using hmove.trans honce

theorem registered {s : WaitingLog} (hs : Accounted s) {expected : Int}
    (hwaits : s.Waits expected) (hzero : s.waitId ≠ 0) (hfresh : s.waitId ∉ s.waitMap) :
    Accounted (s.notifyOnNewLog expected) := by
  have hown : ∀ id waiter, (s.waitMap.insert s.waitId s.ids.length).lookup id = some waiter →
      (s.ids ++ [s.waitId])[waiter]? = some id := by
    intro id waiter hlookup
    rcases eq_or_ne id s.waitId with rfl | hne
    · rw [AList.lookup_insert] at hlookup
      cases hlookup
      simp
    · rw [AList.lookup_insert_ne hne] at hlookup
      have hid := hs.own id waiter hlookup
      rw [List.getElem?_append_left (List.getElem?_eq_some_iff.mp hid).1]
      exact hid
  rw [notifyOnNewLog_of_waits hwaits]
  refine ⟨?_, hown, distinct_of_own hown, ?_, ?_⟩
  · have honce := hs.once.append_right [s.ids.length]
    rw [← List.range_succ] at honce
    have hmove : (s.started.map Prod.fst ++ s.removed ++ (s.ids.length :: s.held)).Perm
        (s.started.map Prod.fst ++ s.removed ++ s.held ++ [s.ids.length]) := by
      rw [List.append_assoc _ s.held]
      exact .append_left _ (List.perm_append_singleton _ _).symm
    rw [held, held_insert hfresh]
    simpa using hmove.trans honce
  · intro hmem
    rcases (AList.mem_insert _).mp hmem with heq | hmem
    · exact hzero heq.symm
    · exact hs.nonzero hmem
  · intro hstopped
    exact absurd hwaits.2 (by simp [show s.stopped = true from hstopped])

private theorem removeWaiter {s : WaitingLog} (hs : Accounted s) (id : Int64) :
    Accounted (s.removeWaiter id).1 := by
  rw [WaitingLog.removeWaiter]
  split
  case h_2 => exact hs
  case h_1 waiter hlookup =>
    have hown : ∀ other waiter', (s.waitMap.erase id).lookup other = some waiter' →
        s.ids[waiter']? = some other := by
      intro other waiter' hother
      rcases eq_or_ne other id with rfl | hne
      · simp [AList.lookup_erase] at hother
      · rw [AList.lookup_erase_ne hne] at hother
        exact hs.own other waiter' hother
    refine ⟨?_, hown, distinct_of_own hown, fun hmem => hs.nonzero (AList.mem_erase.mp hmem).2, ?_⟩
    · refine .trans ?_ hs.once
      simp only [List.append_assoc, List.cons_append, List.nil_append]
      refine .append_left _ (.append_left _ ?_)
      exact (held_perm_erase hlookup).symm
    · intro hstopped
      have hnone := hs.stopped hstopped
      have hlength := (held_perm_erase hlookup).length_eq
      rw [hnone] at hlength
      cases hlength

theorem step {s t : WaitingLog} {event : Event} (hs : Accounted s) (hguard : GetsFreshId s event)
    (hstep : s.step event = some t) : Accounted t := by
  cases event with
  | wait expected =>
    cases hstep
    by_cases hwaits : s.Waits expected
    · obtain ⟨hzero, hfresh⟩ := hguard hwaits
      exact hs.registered hwaits hzero hfresh
    · exact hs.startedAtOnce hwaits
  | removeWaiter id =>
    cases hstep
    exact hs.removeWaiter id
  | appendEntries entries ooRep =>
    obtain ⟨manager, rfl | rfl⟩ := appendEntries_eq_some hstep
    · exact hs.withManager manager
    · exact wakeupAllWaiter (hs.withManager manager).once
  | shutdown =>
    cases hstep
    exact wakeupAllWaiter hs.once

end Accounted

private theorem lastAnswered_notifyOnNewLog {s : WaitingLog} {expected : Int} (hs : Accounted s)
    (hguard : GetsFreshId s (.wait expected)) : LastAnswered (s.notifyOnNewLog expected) := by
  by_cases hwaits : s.Waits expected
  · obtain ⟨hzero, hfresh⟩ := hguard hwaits
    rw [notifyOnNewLog_of_waits hwaits, LastAnswered, held, held_insert hfresh]
    simp [hzero]
  · have hnot : s.ids.length ∉ s.held := fun hheld => lt_irrefl _ (hs.held_lt hheld)
    rw [notifyOnNewLog_of_not_waits hwaits]
    simpa [LastAnswered, held] using hnot

private theorem getsFreshId_of_accounted {s : WaitingLog} {expected : Int} (hs : Accounted s)
    (hnext : Accounted (s.notifyOnNewLog expected)) : GetsFreshId s (.wait expected) := by
  intro hwaits
  rw [notifyOnNewLog_of_waits hwaits] at hnext
  constructor
  · intro hzero
    exact hnext.nonzero ((AList.mem_insert _).mpr (.inl hzero.symm))
  · intro hmem
    have hbefore := hs.once.length_eq
    have hafter := hnext.once.length_eq
    have hsame := length_insert_of_mem hmem s.ids.length
    simp only [held, List.length_append, List.length_map, List.length_range,
      List.length_singleton] at hbefore hafter
    omega

private theorem waitersKept_of_guarded {lookBack : Int} {events : List Event}
    (hguard : Guarded WaitingLog.step GetsFreshId (.new lookBack) events) :
    WaitersKept lookBack events := by
  have haccounted : ∀ pre post s, events = pre ++ post →
      runEvents WaitingLog.step (.new lookBack) pre = some s → Accounted s := by
    rintro pre post s rfl hrun
    exact invariant_of_step (fun s event t hs hguard hstep => hs.step hguard hstep)
      (.start lookBack) (guarded_append_left hguard) hrun
  intro pre post s hsplit hrun
  refine ⟨haccounted pre post s hsplit hrun, fun expected hlast => ?_⟩
  obtain ⟨before, rfl⟩ := List.getLast?_eq_some_iff.mp hlast
  obtain ⟨t, ht, hts⟩ := runEvents_append_eq_some.mp hrun
  obtain ⟨u, hu, hus⟩ := runEvents_cons_eq_some.mp hts
  cases hu
  cases hus
  refine lastAnswered_notifyOnNewLog (haccounted before ([.wait expected] ++ post) t ?_ ht) ?_
  · rw [hsplit, List.append_assoc]
  · exact guarded_iff.mp hguard before (.wait expected) post t (by simp [hsplit]) ht

private theorem guarded_of_waitersKept {lookBack : Int} {events : List Event}
    (hkept : WaitersKept lookBack events) :
    Guarded WaitingLog.step GetsFreshId (.new lookBack) events := by
  rw [guarded_iff]
  rintro pre event post s hsplit hrun
  cases event with
  | wait expected =>
    have hs := (hkept pre (.wait expected :: post) s hsplit hrun).1
    refine getsFreshId_of_accounted hs
      (hkept (pre ++ [.wait expected]) post _ (by simp [hsplit]) ?_).1
    exact runEvents_append_eq_some.mpr ⟨s, hrun, rfl⟩
  | removeWaiter id => trivial
  | appendEntries entries ooRep => trivial
  | shutdown => trivial

/-- Waiters are neither lost nor doubled exactly in the runs in which every waiter that is to
be kept gets an id other than 0 that no held waiter has. -/
theorem waitersKept_iff (lookBack : Int) (events : List Event) :
    WaitersKept lookBack events ↔
      Guarded WaitingLog.step GetsFreshId (.new lookBack) events :=
  ⟨guarded_of_waitersKept, waitersKept_of_guarded⟩

/-- `n` waiters, each one removed before the next. -/
def rounds (n : Nat) : List Event :=
  (List.range n).flatMap fun k => [.wait 0, .removeWaiter (Int64.ofNat (k + 1)).toInt32.toInt64]

private theorem removeWaiter_notifyOnNewLog {s : WaitingLog} (hwaits : s.Waits 0)
    (hempty : s.waitMap = ∅) :
    ((s.notifyOnNewLog 0).removeWaiter s.waitId).1 = { s with
      nextWaitId := s.counter + 1
      ids := s.ids ++ [s.waitId]
      removed := s.removed ++ [s.ids.length] } := by
  have herase : (s.waitMap.insert s.waitId s.ids.length).erase s.waitId = s.waitMap := by
    rw [hempty]
    apply AList.ext
    exact List.kerase_cons_eq rfl
  rw [notifyOnNewLog_of_waits hwaits, WaitingLog.removeWaiter]
  simp only [AList.lookup_insert, herase]

private theorem runEvents_rounds {n : Nat} (hn : n < 2 ^ 32) :
    ∃ s, runEvents WaitingLog.step (.new 64) (rounds n) = some s ∧ s.Waits 0 ∧ s.waitMap = ∅ ∧
      s.counter = Int64.ofNat (n + 1) := by
  induction n with
  | zero => exact ⟨.new 64, rfl, ⟨rfl, rfl⟩, rfl, rfl⟩
  | succ n ih =>
    obtain ⟨s, hs, hwaits, hempty, hcounter⟩ := ih (by omega)
    have hid : s.waitId = (Int64.ofNat (n + 1)).toInt32.toInt64 := by rw [waitId, hcounter]
    have hnext := removeWaiter_notifyOnNewLog hwaits hempty
    have hnonzero : Int64.ofNat (n + 1 + 1) ≠ 0 := by
      intro hzero
      have hvalue := congrArg Int64.toInt hzero
      rw [Int64.toInt_ofNat_of_lt (by omega), Int64.toInt_zero] at hvalue
      omega
    refine ⟨((s.notifyOnNewLog 0).removeWaiter s.waitId).1, ?_, ?_⟩
    · rw [rounds, List.range_succ, List.flatMap_append]
      refine runEvents_append_eq_some.mpr ⟨s, hs, ?_⟩
      simp only [List.flatMap_cons, List.flatMap_nil, List.append_nil, runEvents,
        WaitingLog.step, ← hid, Option.bind_some]
    · rw [removeWaiter_notifyOnNewLog hwaits hempty]
      refine ⟨hwaits, hempty, ?_⟩
      have hnext : s.counter + 1 = Int64.ofNat (n + 1 + 1) := by
        rw [hcounter, Int64.ofNat_add (n + 1) 1]
        rfl
      exact (if_neg (hnext ▸ hnonzero)).trans hnext

/-- Behind `2 ^ 32 - 1` rounds the next waiter is kept, and its call of `wait` returns 0. -/
theorem not_waitersKept_rounds :
    ¬ WaitersKept 64 (rounds (2 ^ 32 - 1) ++ [.wait 0]) := by
  obtain ⟨n, hn⟩ : ∃ n : Nat, n = 2 ^ 32 - 1 := ⟨_, rfl⟩
  rw [← hn]
  intro hkept
  obtain ⟨s, hs, hwaits, -, hcounter⟩ := runEvents_rounds (n := n) (by omega)
  have hguard := guarded_append_right (guarded_of_waitersKept hkept) hs
  have hcount : n + 1 = 2 ^ 32 := by omega
  have hzero : s.waitId = 0 := by
    rw [waitId, hcounter, hcount]
    decide
  exact (hguard.1 hwaits).1 hzero

end HitConsistency.Log.LogWaiters
