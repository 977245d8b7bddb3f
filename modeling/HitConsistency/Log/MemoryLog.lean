/- GID: HitConsistency/Log/MemoryLog
   digest: The log manager: memory slots, presence bitmap, conflict resolution and disk queue. -/

import HitConsistency.Base.GuardedRuns
import HitConsistency.Base.IndexedDeque
import HitConsistency.Base.SlidingBitmap
import HitConsistency.Log.Entry
import Mathlib.Data.List.DropRight

set_option autoImplicit false
set_option relaxedAutoImplicit false

/-!
The log manager keeps the latest entries in memory, with `NULL` for an index that
has not arrived, and hands every accepted batch to one FIFO disk thread. A `NULL`
dereference, a subscript out of range and a `bitset::set` outside the width have no
result. A failing `CHECK` and `LOG(FATAL)` only log. The wait map of the replicators
is left out, and so are the prefix truncation and the reset, which no caller uses.

The closures run by the disk thread are of an arbitrary type `γ`.
-/

namespace HitConsistency.Log.MemoryLog

open HitConsistency.Base.GuardedRuns
open HitConsistency.Base.IndexedDeque
open HitConsistency.Base.SlidingBitmap
open HitConsistency.Group.Peers
open HitConsistency.Log.Entry

structure ConfigurationEntry where
  id : LogId
  conf : Configuration
  oldConf : Configuration

/-- The constructor from an entry with peers. The request handler checks that an entry of type
`CONFIGURATION` has them, a loaded one is read with them, and a leader's own entries are data. -/
def ConfigurationEntry.ofEntry (entry : LogEntry) : ConfigurationEntry :=
  ⟨entry.id, .ofPeers (entry.peers.getD []), .ofPeers (entry.oldPeers.getD [])⟩

structure ConfigurationManager where
  configurations : List ConfigurationEntry
  snapshot : ConfigurationEntry

namespace ConfigurationManager

def new : ConfigurationManager := ⟨[], ⟨.zero, .none, .none⟩⟩

/-- An entry that does not lie behind the last one is refused. -/
def add (cm : ConfigurationManager) (entry : ConfigurationEntry) : ConfigurationManager :=
  match cm.configurations.getLast? with
  | some last =>
      if entry.id.index ≤ last.id.index then cm
      else { cm with configurations := cm.configurations ++ [entry] }
  | none => { cm with configurations := [entry] }

def truncateSuffix (cm : ConfigurationManager) (lastIndexKept : Int) : ConfigurationManager :=
  { cm with configurations :=
      cm.configurations.rdropWhile fun entry => lastIndexKept < entry.id.index }

def lastConfiguration (cm : ConfigurationManager) : ConfigurationEntry :=
  cm.configurations.getLast?.getD cm.snapshot

end ConfigurationManager

/-- What the log storage holds; an index that is not stored has term 0. -/
structure LogStorage where
  getEntry : Int → Option LogEntry

namespace LogStorage

def new : LogStorage := ⟨fun _ => none⟩

def appendEntry (storage : LogStorage) (entry : LogEntry) : LogStorage :=
  ⟨Function.update storage.getEntry entry.id.index (some entry)⟩

theorem getEntry_appendEntry (storage : LogStorage) (entry : LogEntry) (i : Int) :
    (storage.appendEntry entry).getEntry i =
      if i = entry.id.index then some entry else storage.getEntry i :=
  Function.update_apply storage.getEntry entry.id.index (some entry) i

def appendEntries (storage : LogStorage) (entries : List LogEntry) : LogStorage :=
  entries.foldl appendEntry storage

def getTerm (storage : LogStorage) (index : Int) : Int :=
  ((storage.getEntry index).map fun entry => entry.id.term).getD 0

def truncateSuffix (storage : LogStorage) (lastIndexKept : Int) : LogStorage :=
  ⟨fun i => if i ≤ lastIndexKept then storage.getEntry i else none⟩

/-- The largest stored index up to a bound, as the segments are loaded. -/
def lastLogIndex (storage : LogStorage) : Nat → Nat
  | 0 => 0
  | bound + 1 =>
      if (storage.getEntry (bound + 1)).isSome then bound + 1 else storage.lastLogIndex bound

end LogStorage

/-- A batch on its way to the disk, with the closure to run behind it. -/
structure StableClosure (γ : Type) where
  firstLogIndex : Int
  entries : List LogEntry
  done : γ

inductive DiskTask (γ : Type)
  | append (closure : StableClosure γ)
  | lastLogId (waiter : γ)
  | truncateSuffix (lastIndexKept lastTermKept : Int)

/-- The status a closure is run with; the gap reads "There's gap between first_index=...
and last_log_index=...", the other error "Corrupted LogStorage". -/
inductive Status
  | ok
  | gap (firstIndex lastLogIndex : Int)
  | corruptedLogStorage
  deriving DecidableEq

/-- The memory slots up to the largest index seen, and the presence bits below it. -/
structure Memory where
  maxLogIndex : Int
  dependencyBitmap : BitVec 1024
  logsInMemory : List (Option LogEntry)
  deriving DecidableEq

namespace Memory

def firstInMemory (mem : Memory) : Int := mem.maxLogIndex - mem.logsInMemory.length + 1

/-- Raise the largest index by one, with the slot and the bit of the new index. -/
def pushSlot (mem : Memory) (slot : Option LogEntry) : Memory where
  maxLogIndex := mem.maxLogIndex + 1
  dependencyBitmap := shiftIn mem.dependencyBitmap slot.isSome
  logsInMemory := mem.logsInMemory ++ [slot]

/-- The loop of the gap: push the batch where its index has come, `NULL` before. An
iterator at the end must not be read. -/
def extend : Nat → Memory → List LogEntry → Option Memory
  | 0, mem, _ => some mem
  | _ + 1, _, [] => none
  | n + 1, mem, entry :: rest =>
      if entry.id.index = mem.maxLogIndex + 1 then extend n (mem.pushSlot (some entry)) rest
      else extend n (mem.pushSlot none) (entry :: rest)

def fillTo (mem : Memory) (index : Int) : Memory :=
  (fun mem => mem.pushSlot none)^[(index - mem.maxLogIndex).toNat] mem

def writeSlot (mem : Memory) (entry : LogEntry) : Option Memory := do
  let logs ← store mem.logsInMemory (entry.id.index - mem.firstInMemory) (some entry)
  let bitmap ← mark mem.dependencyBitmap (mem.maxLogIndex - entry.id.index)
  some ⟨mem.maxLogIndex, bitmap, logs⟩

/-- Move the last index over the slots that are present behind it. -/
def advanceLast (mem : Memory) : Nat → Int → Option Int
  | 0, lastLogIndex => some lastLogIndex
  | n + 1, lastLogIndex => do
      let slot ← item mem.logsInMemory (lastLogIndex - mem.firstInMemory + 1)
      if slot.isSome then mem.advanceLast n (lastLogIndex + 1) else some lastLogIndex

/-- The outer `none` is the dereference of a `NULL` at the back. -/
def getEntryFromMemory (mem : Memory) (index : Int) : Option (Option LogEntry) :=
  match mem.logsInMemory.getLast? with
  | none => some none
  | some none => none
  | some (some back) =>
      let firstIndex := back.id.index - mem.logsInMemory.length + 1
      if firstIndex ≤ index ∧ index ≤ back.id.index then item mem.logsInMemory (index - firstIndex)
      else some none

end Memory

structure LogManager (γ : Type) extends Memory where
  storage : LogStorage
  configManager : ConfigurationManager
  hasError : Bool
  firstLogIndex : Int
  lastLogIndex : Int
  dependencyLookBack : Int
  diskId : LogId
  appliedId : LogId
  diskQueue : List (DiskTask γ)
  lastId : LogId

namespace LogManager

variable {γ : Type}

/-- `init` on a fresh storage, whose log starts at 1 and is empty. -/
def fresh (dependencyLookBack : Int) : LogManager γ where
  maxLogIndex := 0
  dependencyBitmap := 0
  logsInMemory := []
  storage := .new
  configManager := .new
  hasError := false
  firstLogIndex := 1
  lastLogIndex := 0
  dependencyLookBack := dependencyLookBack
  diskId := .zero
  appliedId := .zero
  diskQueue := []
  lastId := .zero

def unsafeGetTerm (m : LogManager γ) (index : Int) : Option Int :=
  if index = 0 then some 0
  else if m.maxLogIndex < index ∨ index < m.firstLogIndex then some 0
  else (m.getEntryFromMemory index).map fun entry =>
    match entry with
    | some entry => entry.id.term
    | none => m.storage.getTerm index

def getEntry (m : LogManager γ) (index : Int) : Option (Option LogEntry) :=
  if m.maxLogIndex < index ∨ index < m.firstLogIndex then some none
  else (m.getEntryFromMemory index).map fun entry => entry <|> m.storage.getEntry index

/-- `last_log_id` without a flush; there is no snapshot. -/
def lastLogId (m : LogManager γ) : Option LogId :=
  if m.firstLogIndex ≤ m.lastLogIndex then
    (m.unsafeGetTerm m.lastLogIndex).map fun term => ⟨m.lastLogIndex, term⟩
  else some .zero

/-- Drop the entries above the kept index, last slot first. -/
def dropAbove (lastIndexKept : Int) : List (Option LogEntry) → Option (List (Option LogEntry))
  | [] => some []
  | none :: _ => none
  | some entry :: rest =>
      if lastIndexKept < entry.id.index then dropAbove lastIndexKept rest
      else some (some entry :: rest)

/-- Neither the largest index nor the bitmap is brought back. -/
def unsafeTruncateSuffix (m : LogManager γ) (lastIndexKept : Int) : Option (LogManager γ) :=
  if lastIndexKept < m.appliedId.index then some m
  else do
    let logs ← dropAbove lastIndexKept m.logsInMemory.reverse
    let m := { m with logsInMemory := logs.reverse, lastLogIndex := lastIndexKept }
    let lastTermKept ← m.unsafeGetTerm lastIndexKept
    some { m with
      configManager := m.configManager.truncateSuffix lastIndexKept
      diskQueue := m.diskQueue ++ [.truncateSuffix lastIndexKept lastTermKept] }

/-- The position of the first entry whose local term differs. Under out-of-order
replication an absent index does not count. -/
def findConflict (m : LogManager γ) (ooRep : Bool) : List LogEntry → Option Nat
  | [] => some 0
  | entry :: rest => do
      let targetTerm ← m.unsafeGetTerm entry.id.index
      if targetTerm ≠ entry.id.term ∧ (!ooRep ∨ targetTerm ≠ 0) then some 0
      else (m.findConflict ooRep rest).map (· + 1)

def assignIndexes (lastLogIndex : Int) : List LogEntry → List LogEntry
  | [] => []
  | entry :: rest =>
      { entry with id := ⟨lastLogIndex + 1, entry.id.term⟩ } ::
        assignIndexes (lastLogIndex + 1) rest

/-- What remains of a batch: go on with these entries, or run the closure at once. -/
inductive Resolution (γ : Type)
  | proceed (manager : LogManager γ) (entries : List LogEntry)
  | stop (status : Status)

/-- The branch for a batch that overlaps the local log and does not pass its end. -/
def resolveOverlap (m : LogManager γ) (entries : List LogEntry) (ooRep : Bool) :
    Option (Resolution γ) := do
  let conflictingIndex ← m.findConflict ooRep entries
  let m ← match entries[conflictingIndex]? with
    | some entry =>
        if entry.id.index ≤ m.lastLogIndex then m.unsafeTruncateSuffix (entry.id.index - 1)
        else some m
    | none => some m
  let entries :=
    if !ooRep ∨ conflictingIndex ≠ entries.length then entries.drop conflictingIndex else entries
  let maxLogIndex := match entries.getLast? with
    | some back => max m.maxLogIndex back.id.index
    | none => m.maxLogIndex
  some (.proceed { m with maxLogIndex := maxLogIndex } entries)

def checkAndResolveConflict (m : LogManager γ) (front back : LogEntry) (entries : List LogEntry)
    (ooRep : Bool) : Option (Resolution γ) :=
  if front.id.index = 0 then
    some (.proceed { m with lastLogIndex := m.lastLogIndex + entries.length }
      (assignIndexes m.lastLogIndex entries))
  else if !ooRep ∧ m.lastLogIndex + 1 < front.id.index then
    some (.stop (.gap front.id.index m.lastLogIndex))
  else if back.id.index ≤ m.appliedId.index then some (.stop .ok)
  else if front.id.index = m.maxLogIndex + 1 then
    let mem := entries.foldl (fun mem entry => mem.pushSlot (some entry)) m.toMemory
    some (.proceed { m with
      toMemory := { mem with maxLogIndex := max mem.maxLogIndex back.id.index } } entries)
  else if m.maxLogIndex < back.id.index then
    (Memory.extend (back.id.index - m.maxLogIndex).toNat m.toMemory entries).map fun mem =>
      .proceed { m with toMemory := mem } entries
  else m.resolveOverlap entries ooRep

def addConfigurations (m : LogManager γ) (entries : List LogEntry) : LogManager γ :=
  let configurations := entries.filter fun entry => entry.type = .configuration
  { m with configManager :=
      configurations.foldl (fun cm entry => cm.add (.ofEntry entry)) m.configManager }

def enqueue (m : LogManager γ) (task : DiskTask γ) : LogManager γ :=
  { m with diskQueue := m.diskQueue ++ [task] }

/-- The part of `append_entries` behind the conflict check. -/
def storeEntries (m : LogManager γ) (entries : List LogEntry) (done : γ) :
    Option (LogManager γ) :=
  let m := m.addConfigurations entries
  match entries.head?, entries.getLast? with
  | some front, some back => do
      let mem ← runEvents Memory.writeSlot (m.fillTo back.id.index) entries
      let lastLogIndex ←
        mem.advanceLast (mem.maxLogIndex - m.lastLogIndex).toNat m.lastLogIndex
      let m := { m with toMemory := mem, lastLogIndex := lastLogIndex }
      some (m.enqueue (.append ⟨front.id.index, entries, done⟩))
  | _, _ => some (m.enqueue (.append ⟨0, [], done⟩))

/-- `append_entries`: the manager behind the call, and the status with which the
closure is run at once, if it is not left to the disk thread. -/
def appendEntries (m : LogManager γ) (entries : List LogEntry) (done : γ) (ooRep : Bool) :
    Option (LogManager γ × Option Status) :=
  if m.hasError then some (m, some .corruptedLogStorage)
  else match entries.head?, entries.getLast? with
  | some front, some back => do
      match ← m.checkAndResolveConflict front back entries ooRep with
      | .stop status => some (m, some status)
      | .proceed m entries => (m.storeEntries entries done).map (·, none)
  | _, _ => (m.storeEntries [] done).map (·, none)

/-- Whether every entry that the mask of an index points at has arrived. -/
def checkDependency (m : LogManager γ) (thisLogIndex : Int) (dependency : BitVec 64) : Bool :=
  let bitmapDependency : BitVec 1024 := dependency.setWidth 1024
  if dependency = 0 then true
  else if m.maxLogIndex < thisLogIndex then
    (m.dependencyBitmap <<< (thisLogIndex - m.maxLogIndex).toNat) &&& bitmapDependency =
      bitmapDependency
  else
    let gap := m.maxLogIndex - thisLogIndex
    if 1024 ≤ gap + m.dependencyLookBack then true
    else (m.dependencyBitmap >>> gap.toNat) &&& bitmapDependency = bitmapDependency

/-- Drop the applied and written head of the memory; the first `NULL` stops it. -/
def clearMemoryLogs (m : LogManager γ) (id : LogId) : LogManager γ :=
  { m with logsInMemory := m.logsInMemory.dropWhile fun slot =>
      match slot with
      | none => false
      | some entry => ¬ id.Before entry.id }

/-- `std::min` of two identities. -/
def minId (a b : LogId) : LogId := if b.Before a then b else a

def setDiskId (m : LogManager γ) (diskId : LogId) : LogManager γ :=
  if diskId.Before m.diskId then m
  else { m with diskId := diskId }.clearMemoryLogs (minId diskId m.appliedId)

def setAppliedId (m : LogManager γ) (appliedId : LogId) : LogManager γ :=
  if appliedId.Before m.appliedId then m
  else { m with appliedId := appliedId }.clearMemoryLogs (minId m.diskId appliedId)

/-- The disk thread takes the next task off its queue and carries it out. The task
is returned, with the status its closure is to be run with. -/
def diskWrite (m : LogManager γ) : Option (LogManager γ × DiskTask γ × Status) :=
  match m.diskQueue with
  | [] => none
  | .append closure :: rest =>
      let m := { m with diskQueue := rest }
      if m.hasError then some (m, .append closure, .corruptedLogStorage)
      else
        some ({ m with
          storage := m.storage.appendEntries closure.entries
          lastId := (closure.entries.getLast?.map LogEntry.id).getD m.lastId },
          .append closure, .ok)
  | .lastLogId waiter :: rest => some ({ m with diskQueue := rest }, .lastLogId waiter, .ok)
  | .truncateSuffix lastIndexKept lastTermKept :: rest =>
      some ({ m with
        diskQueue := rest
        storage := m.storage.truncateSuffix lastIndexKept
        lastId := ⟨lastIndexKept, lastTermKept⟩ }, .truncateSuffix lastIndexKept lastTermKept, .ok)

/-- The disk thread ends one batch and begins the next. -/
def diskBatchEnd (m : LogManager γ) : LogManager γ :=
  let m := m.setDiskId m.lastId
  { m with lastId := m.diskId }

/-- `init` on the storage that a stopped process leaves behind; no entry is a configuration. -/
def restart (m : LogManager γ) : LogManager γ :=
  let last : Int := m.storage.lastLogIndex m.maxLogIndex.toNat
  let diskId : LogId := ⟨last, m.storage.getTerm last⟩
  { (fresh m.dependencyLookBack : LogManager γ) with
    maxLogIndex := last
    storage := m.storage
    lastLogIndex := last
    diskId := diskId
    lastId := diskId }

/-- All that the second half of an append does: without entries it queues the closure;
with entries it fills the memory up to the last of them and writes them into their slots. -/
theorem storeEntries_cases {m m' : LogManager γ} {entries : List LogEntry} {done : γ}
    (h : m.storeEntries entries done = some m') :
    (entries = [] ∧ m' = m.enqueue (.append ⟨0, [], done⟩)) ∨
      ∃ front back mem last, entries.head? = some front ∧ entries.getLast? = some back ∧
        runEvents Memory.writeSlot (m.toMemory.fillTo back.id.index) entries = some mem ∧
        mem.advanceLast (mem.maxLogIndex - m.lastLogIndex).toNat m.lastLogIndex = some last ∧
        m' = { m.addConfigurations entries with
          toMemory := mem
          lastLogIndex := last
          diskQueue := m.diskQueue ++ [.append ⟨front.id.index, entries, done⟩] } := by
  cases entries with
  | nil =>
    cases h
    exact .inl ⟨rfl, rfl⟩
  | cons front rest =>
    obtain ⟨back, hback⟩ : ∃ back, (front :: rest).getLast? = some back :=
      ⟨_, List.getLast?_eq_getLast_of_ne_nil (by simp)⟩
    unfold storeEntries at h
    rw [hback] at h
    obtain ⟨mem, hwrite, h⟩ := Option.bind_eq_some_iff.mp h
    obtain ⟨last, hadvance, h⟩ := Option.bind_eq_some_iff.mp h
    cases h
    exact .inr ⟨front, back, mem, last, rfl, hback, hwrite, hadvance, rfl⟩

private theorem unsafeTruncateSuffix_frame {m m' : LogManager γ} {lastIndexKept : Int}
    (h : m.unsafeTruncateSuffix lastIndexKept = some m') :
    m'.hasError = m.hasError ∧ m'.appliedId = m.appliedId := by
  unfold unsafeTruncateSuffix at h
  split at h
  · cases h
    exact ⟨rfl, rfl⟩
  · obtain ⟨logs, -, h⟩ := Option.bind_eq_some_iff.mp h
    obtain ⟨term, -, h⟩ := Option.bind_eq_some_iff.mp h
    cases h
    exact ⟨rfl, rfl⟩

theorem appendEntries_frame {m m' : LogManager γ} {entries : List LogEntry} {done : γ}
    {ooRep : Bool} {status : Option Status}
    (h : m.appendEntries entries done ooRep = some (m', status)) :
    m'.hasError = m.hasError ∧ m'.appliedId = m.appliedId := by
  have hstore : ∀ (m : LogManager γ) entries, (m.storeEntries entries done).map (·, none) =
      some (m', status) → m'.hasError = m.hasError ∧ m'.appliedId = m.appliedId := by
    intro m entries h
    obtain ⟨m'', hm, heq⟩ := Option.map_eq_some_iff.mp h
    cases heq
    rcases storeEntries_cases hm with ⟨-, rfl⟩ | ⟨front, back, mem, last, -, -, -, -, rfl⟩
    · exact ⟨rfl, rfl⟩
    · exact ⟨rfl, rfl⟩
  unfold appendEntries at h
  split at h
  · cases h
    exact ⟨rfl, rfl⟩
  · split at h
    · obtain ⟨resolution, hresolve, h⟩ := Option.bind_eq_some_iff.mp h
      cases resolution with
      | stop status =>
        cases h
        exact ⟨rfl, rfl⟩
      | proceed m1 entries =>
        have hsame : m1.hasError = m.hasError ∧ m1.appliedId = m.appliedId := by
          unfold checkAndResolveConflict at hresolve
          split_ifs at hresolve
          · cases hresolve
            exact ⟨rfl, rfl⟩
          · cases hresolve
          · cases hresolve
          · cases hresolve
            exact ⟨rfl, rfl⟩
          · obtain ⟨mem, -, heq⟩ := Option.map_eq_some_iff.mp hresolve
            cases heq
            exact ⟨rfl, rfl⟩
          · obtain ⟨conflict, -, hresolve⟩ := Option.bind_eq_some_iff.mp hresolve
            dsimp only at hresolve
            split at hresolve
            · split at hresolve
              · obtain ⟨m2, hm2, hresolve⟩ := Option.bind_eq_some_iff.mp hresolve
                cases hresolve
                have hframe := unsafeTruncateSuffix_frame hm2
                exact hframe
              · cases hresolve
                exact ⟨rfl, rfl⟩
            · cases hresolve
              exact ⟨rfl, rfl⟩
        obtain ⟨herror, happlied⟩ := hstore m1 entries h
        exact ⟨herror.trans hsame.1, happlied.trans hsame.2⟩
    · exact hstore m [] h

end LogManager

end HitConsistency.Log.MemoryLog
