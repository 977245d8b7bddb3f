/- GID: HitConsistency/Log/DiskThread
   digest: The disk thread of the log manager: batches, flushes, a storage that may fail. -/

import HitConsistency.Log.MemoryLog

set_option autoImplicit false
set_option relaxedAutoImplicit false

/-!
`disk_thread` goes through the queue task by task and collects closures with entries
in an `AppendBatcher`; the entries of a batch are written by one call of the storage,
and then the closures of the batch are run. How many of the entries the storage takes
is decided from outside at each flush. Once it has taken less than all of them, the
process is gone before a closure of the batch is run.

A round of the thread may end behind any task, so a batch may be of any size up to
the capacity.
-/

namespace HitConsistency.Log.DiskThread

open HitConsistency.Base.GuardedRuns
open HitConsistency.Log.Entry
open HitConsistency.Log.MemoryLog

/-- A call of `append_entries`: its entries under their indexes, and the applied index
it met. -/
structure Call where
  passed : List LogEntry
  appliedIndex : Int

/-- A closure that was run, and the storage it was run on. -/
structure Run where
  call : Call
  status : Status
  storage : LogStorage

structure AppendBatcher where
  storage : List (StableClosure Call)
  toAppend : List LogEntry
  bufferSize : Nat

def AppendBatcher.new : AppendBatcher := ⟨[], [], 0⟩

/-- `ARRAY_SIZE(storage)`. -/
def cap : Nat := 256

/-- `report_error`. `init` does not store the state machine caller that it is given, so the
error is reported through a pointer that was never set. -/
def reportError {α : Type} : Option α := none

/-- `append_to_storage`, by a storage that takes `nappent` entries at most: the entries that
the storage has taken, and the last id. -/
def appendToStorage (hasError : Bool) (lastId : LogId) (toAppend : List LogEntry)
    (nappent : Int) : Option (List LogEntry × LogId) :=
  if hasError then some ([], lastId)
  else if nappent < toAppend.length then reportError
  else some (toAppend, (toAppend.getLast?.map LogEntry.id).getD lastId)

structure System where
  manager : LogManager Call
  batcher : AppendBatcher
  runs : List Run

namespace System

def fresh (dependencyLookBack : Int) : System := ⟨.fresh dependencyLookBack, .new, []⟩

/-- Write the batch and run its closures; with the error flag set, each gets an error. -/
def flush (sys : System) (nappent : Nat) : Option System :=
  if sys.batcher.storage = [] then
    some { sys with batcher := { sys.batcher with bufferSize := 0 } }
  else
    let m := sys.manager
    (appendToStorage m.hasError m.lastId sys.batcher.toAppend nappent).map
      fun (taken, lastId) =>
        let m := { m with storage := m.storage.appendEntries taken, lastId := lastId }
        let status : Status := if m.hasError then .corruptedLogStorage else .ok
        ⟨m, .new, sys.runs ++ sys.batcher.storage.map fun closure =>
          ⟨closure.done, status, m.storage⟩⟩

/-- `AppendBatcher::append`: a full batch is flushed first. -/
def append (maxAppendBufferSize : Nat) (sys : System) (nappent : Nat)
    (closure : StableClosure Call) : Option System :=
  (if sys.batcher.storage.length = cap ∨ maxAppendBufferSize ≤ sys.batcher.bufferSize then
    sys.flush nappent else some sys).map fun sys =>
      { sys with batcher :=
        ⟨sys.batcher.storage ++ [closure], sys.batcher.toAppend ++ closure.entries,
          sys.batcher.bufferSize + (closure.entries.map fun entry => entry.data.length).sum⟩ }

/-- One round of the loop of `disk_thread`. A closure without entries is run with the
status it has, behind a flush. -/
def take (maxAppendBufferSize : Nat) (sys : System) (nappent : Nat) (truncates : Bool) :
    Option System :=
  match sys.manager.diskQueue with
  | [] => none
  | task :: rest =>
      let sys := { sys with manager := { sys.manager with diskQueue := rest } }
      match task with
      | .append closure =>
          if closure.entries ≠ [] then sys.append maxAppendBufferSize nappent closure
          else (sys.flush nappent).map fun sys =>
            { sys with runs := sys.runs ++ [⟨closure.done, .ok, sys.manager.storage⟩] }
      | .lastLogId _ => sys.flush nappent
      | .truncateSuffix lastIndexKept lastTermKept =>
          (sys.flush nappent).bind fun sys =>
            if truncates then
              some { sys with manager := { sys.manager with
                storage := sys.manager.storage.truncateSuffix lastIndexKept
                lastId := ⟨lastIndexKept, lastTermKept⟩ } }
            else reportError

/-- The end of a round: flush and set the disk id. -/
def finish (sys : System) (nappent : Nat) : Option System :=
  (sys.flush nappent).map fun sys => { sys with manager := sys.manager.diskBatchEnd }

/-- The entries of a call under the indexes it gives them: a leader's entries come
without. -/
def passedTo (m : LogManager Call) (entries : List LogEntry) : List LogEntry :=
  match entries.head? with
  | some front =>
      if front.id.index = 0 then LogManager.assignIndexes m.lastLogIndex entries else entries
  | none => []

/-- `append_entries`; a closure that is not left to the disk thread is run at once. -/
def call (sys : System) (entries : List LogEntry) (ooRep : Bool) : Option System :=
  let call : Call := ⟨passedTo sys.manager entries, sys.manager.appliedId.index⟩
  (sys.manager.appendEntries entries call ooRep).map fun (manager, status) =>
    { sys with
      manager := manager
      runs := sys.runs ++ (status.map fun status => ⟨call, status, manager.storage⟩).toList }

end System

inductive Event
  | call (entries : List LogEntry) (ooRep : Bool)
  | take (nappent : Nat) (truncates : Bool)
  | finish (nappent : Nat)
  | setAppliedId (id : LogId)

def step (maxAppendBufferSize : Nat) (sys : System) : Event → Option System
  | .call entries ooRep => sys.call entries ooRep
  | .take nappent truncates => sys.take maxAppendBufferSize nappent truncates
  | .finish nappent => sys.finish nappent
  | .setAppliedId id => some { sys with manager := sys.manager.setAppliedId id }

section QueuePrefix

variable {γ : Type} (pre : List (DiskTask γ))

/-- The manager with more tasks in front of its queue. -/
def behind (m : LogManager γ) : LogManager γ := { m with diskQueue := pre ++ m.diskQueue }

private theorem unsafeTruncateSuffix_behind (m : LogManager γ) (k : Int) :
    (behind pre m).unsafeTruncateSuffix k = (m.unsafeTruncateSuffix k).map (behind pre) := by
  unfold LogManager.unsafeTruncateSuffix
  by_cases hk : k < m.appliedId.index
  · have hk' : k < (behind pre m).appliedId.index := hk
    rw [if_pos hk, if_pos hk']
    rfl
  · have hk' : ¬ k < (behind pre m).appliedId.index := hk
    rw [if_neg hk, if_neg hk']
    change (LogManager.dropAbove k m.logsInMemory.reverse).bind _ = _
    cases LogManager.dropAbove k m.logsInMemory.reverse with
    | none => rfl
    | some logs =>
      simp only [Option.bind_some, Option.bind_eq_bind]
      change (LogManager.unsafeGetTerm
        { m with logsInMemory := logs.reverse, lastLogIndex := k } k).bind _ = _
      cases LogManager.unsafeGetTerm
          { m with logsInMemory := logs.reverse, lastLogIndex := k } k with
      | none => rfl
      | some term => simp [behind, List.append_assoc]

private theorem findConflict_behind (m : LogManager γ) (ooRep : Bool) (entries : List LogEntry) :
    (behind pre m).findConflict ooRep entries = m.findConflict ooRep entries := by
  induction entries with
  | nil => rfl
  | cons entry rest ih =>
    simp only [LogManager.findConflict, ih]
    rfl

def behindResolution : LogManager.Resolution γ → LogManager.Resolution γ
  | .proceed m entries => .proceed (behind pre m) entries
  | .stop status => .stop status

private theorem resolveOverlap_behind (m : LogManager γ) (entries : List LogEntry) (ooRep : Bool) :
    (behind pre m).resolveOverlap entries ooRep =
      (m.resolveOverlap entries ooRep).map (behindResolution pre) := by
  unfold LogManager.resolveOverlap
  rw [findConflict_behind]
  cases m.findConflict ooRep entries with
  | none => rfl
  | some n =>
    simp only [Option.bind_some, Option.bind_eq_bind]
    cases entries[n]? with
    | none => rfl
    | some entry =>
      dsimp only
      by_cases hle : entry.id.index ≤ m.lastLogIndex
      · have hle' : entry.id.index ≤ (behind pre m).lastLogIndex := hle
        rw [if_pos hle, if_pos hle', unsafeTruncateSuffix_behind]
        cases m.unsafeTruncateSuffix (entry.id.index - 1) with
        | none => rfl
        | some m' => rfl
      · have hle' : ¬ entry.id.index ≤ (behind pre m).lastLogIndex := hle
        rw [if_neg hle, if_neg hle']
        rfl

private theorem checkAndResolveConflict_behind (m : LogManager γ) (front back : LogEntry)
    (entries : List LogEntry) (ooRep : Bool) :
    (behind pre m).checkAndResolveConflict front back entries ooRep =
      (m.checkAndResolveConflict front back entries ooRep).map (behindResolution pre) := by
  unfold LogManager.checkAndResolveConflict
  rw [resolveOverlap_behind]
  change (if front.id.index = 0 then _ else if !ooRep ∧ m.lastLogIndex + 1 < front.id.index then _
    else if back.id.index ≤ m.appliedId.index then _
    else if front.id.index = m.maxLogIndex + 1 then _
    else if m.maxLogIndex < back.id.index then _ else _) = _
  split_ifs
  · rfl
  · rfl
  · rfl
  · rfl
  · change (Memory.extend (back.id.index - m.maxLogIndex).toNat m.toMemory entries).map _ = _
    cases Memory.extend (back.id.index - m.maxLogIndex).toNat m.toMemory entries with
    | none => rfl
    | some mem => rfl
  · rfl

private theorem storeEntries_behind (m : LogManager γ) (entries : List LogEntry) (done : γ) :
    (behind pre m).storeEntries entries done = (m.storeEntries entries done).map (behind pre) := by
  unfold LogManager.storeEntries
  cases entries.head? with
  | none => simp [behind, LogManager.enqueue, LogManager.addConfigurations]
  | some front =>
    cases entries.getLast? with
    | none => simp [behind, LogManager.enqueue, LogManager.addConfigurations]
    | some back =>
      dsimp only
      change (runEvents Memory.writeSlot (m.toMemory.fillTo back.id.index) entries).bind _ =
        ((runEvents Memory.writeSlot (m.toMemory.fillTo back.id.index) entries).bind _).map _
      cases runEvents Memory.writeSlot (m.toMemory.fillTo back.id.index) entries with
      | none => rfl
      | some mem =>
        simp only [Option.bind_some]
        change (mem.advanceLast (mem.maxLogIndex - m.lastLogIndex).toNat m.lastLogIndex).bind _ =
          ((mem.advanceLast (mem.maxLogIndex - m.lastLogIndex).toNat m.lastLogIndex).bind _).map _
        cases mem.advanceLast (mem.maxLogIndex - m.lastLogIndex).toNat m.lastLogIndex with
        | none => rfl
        | some last => simp [behind, LogManager.enqueue, LogManager.addConfigurations]

theorem appendEntries_behind (m : LogManager γ) (entries : List LogEntry) (done : γ)
    (ooRep : Bool) :
    (behind pre m).appendEntries entries done ooRep =
      (m.appendEntries entries done ooRep).map fun (m, status) => (behind pre m, status) := by
  have hstore : ∀ (m : LogManager γ) entries,
      ((behind pre m).storeEntries entries done).map (·, (none : Option Status)) =
        ((m.storeEntries entries done).map (·, none)).map fun (m, status) =>
          (behind pre m, status) := by
    intro m entries
    rw [storeEntries_behind]
    cases m.storeEntries entries done with
    | none => rfl
    | some m' => rfl
  unfold LogManager.appendEntries
  change (if m.hasError then _ else _) = _
  split_ifs
  · rfl
  · cases entries.head? with
    | none => exact hstore m []
    | some front =>
      cases entries.getLast? with
      | none => exact hstore m []
      | some back =>
        dsimp only
        rw [checkAndResolveConflict_behind]
        cases m.checkAndResolveConflict front back entries ooRep with
        | none => rfl
        | some resolution =>
          cases resolution with
          | stop status => rfl
          | proceed m' rest => exact hstore m' rest

end QueuePrefix

end HitConsistency.Log.DiskThread
