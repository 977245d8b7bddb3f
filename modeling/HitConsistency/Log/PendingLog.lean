/- GID: HitConsistency/Log/PendingLog
   digest: Runs of the log manager, and the log as it will be once the disk has caught up. -/

import HitConsistency.Log.StoredBatches

set_option autoImplicit false
set_option relaxedAutoImplicit false

/-!
Every batch that the manager accepts goes to the disk queue at once. The storage with
the queue written to it is therefore the log that the manager has promised to keep,
whatever the memory still holds of it.
-/

namespace HitConsistency.Log.PendingLog

open HitConsistency.Base.GuardedRuns
open HitConsistency.Base.IndexedDeque
open HitConsistency.Log.Entry
open HitConsistency.Log.KeptEntries
open HitConsistency.Log.MemoryLog
open HitConsistency.Log.OutOfOrderAppend
open HitConsistency.Log.StoredBatches

inductive Event
  | append (entries : List LogEntry) (ooRep : Bool)
  | diskWrite
  | diskBatchEnd
  | setAppliedId (id : LogId)
  | restart

/-- The disk thread waits while its queue is empty. -/
def step (m : LogManager Unit) : Event → Option (LogManager Unit)
  | .append entries ooRep => (m.appendEntries entries () ooRep).map Prod.fst
  | .diskWrite => some ((m.diskWrite.map Prod.fst).getD m)
  | .diskBatchEnd => some m.diskBatchEnd
  | .setAppliedId id => some (m.setAppliedId id)
  | .restart => some m.restart

section Storage

variable {storage : LogStorage} {entries more : List LogEntry} {i : Int}

private theorem appendEntries_append : storage.appendEntries (entries ++ more) =
    (storage.appendEntries entries).appendEntries more :=
  List.foldl_append

theorem getEntry_appendEntries_of_not_has (h : ¬ Has entries i) :
    (storage.appendEntries entries).getEntry i = storage.getEntry i := by
  induction entries generalizing storage with
  | nil => rfl
  | cons entry rest ih =>
    have hhead : i ≠ entry.id.index := fun heq => h ⟨entry, by simp, heq.symm⟩
    have hrest : ¬ Has rest i := by
      rintro ⟨e, he, hindex⟩
      exact h ⟨e, by simp [he], hindex⟩
    show ((storage.appendEntry entry).appendEntries rest).getEntry i = _
    rw [ih hrest, LogStorage.getEntry_appendEntry, if_neg hhead]

theorem getEntry_appendEntries {entry : LogEntry}
    (h : (storage.appendEntries entries).getEntry i = some entry) :
    (entry ∈ entries ∧ entry.id.index = i) ∨ ¬ Has entries i ∧ storage.getEntry i = some entry := by
  induction entries generalizing storage with
  | nil => exact .inr ⟨by simp [Has], h⟩
  | cons head rest ih =>
    rcases ih h with ⟨hmem, hindex⟩ | ⟨hnot, hget⟩
    · exact .inl ⟨by simp [hmem], hindex⟩
    · rw [LogStorage.getEntry_appendEntry] at hget
      split at hget
      · rename_i hi
        cases hget
        exact .inl ⟨by simp, hi.symm⟩
      · rename_i hi
        refine .inr ⟨?_, hget⟩
        rintro ⟨e, he, hindex⟩
        rcases List.mem_cons.mp he with rfl | he
        · exact hi hindex.symm
        · exact hnot ⟨e, he, hindex⟩

theorem isSome_appendEntries :
    ((storage.appendEntries entries).getEntry i).isSome ↔
      Has entries i ∨ (storage.getEntry i).isSome := by
  induction entries generalizing storage with
  | nil => simp [LogStorage.appendEntries, Has]
  | cons entry rest ih =>
    show (((storage.appendEntry entry).appendEntries rest).getEntry i).isSome ↔ _
    have hhas : Has (entry :: rest) i ↔ entry.id.index = i ∨ Has rest i := by simp [Has]
    rw [ih, LogStorage.getEntry_appendEntry, hhas]
    by_cases hi : i = entry.id.index
    · simp [hi]
    · have hne : ¬ entry.id.index = i := fun heq => hi heq.symm
      simp [hi, hne]

theorem getEntry_appendEntries_consecutive {first : Int} {entry : LogEntry}
    (h : Consecutive first entries) (hmem : entry ∈ entries) :
    (storage.appendEntries entries).getEntry entry.id.index = some entry := by
  induction entries generalizing storage first with
  | nil => simp at hmem
  | cons head rest ih =>
    show ((storage.appendEntry head).appendEntries rest).getEntry _ = _
    rcases List.mem_cons.mp hmem with rfl | hmem
    · have hnot : ¬ Has rest entry.id.index := by
        rw [h.2.has_iff, h.1]
        omega
      rw [getEntry_appendEntries_of_not_has hnot, LogStorage.getEntry_appendEntry, if_pos rfl]
    · exact ih h.2 hmem

end Storage

section Pending

variable {γ : Type}

/-- The entries that wait for the disk thread, in order. -/
def waiting (tasks : List (DiskTask γ)) : List LogEntry :=
  tasks.flatMap fun task =>
    match task with
    | .append closure => closure.entries
    | _ => []

def pending (m : LogManager γ) : LogStorage := m.storage.appendEntries (waiting m.diskQueue)

/-- What holds of the manager as long as nothing is truncated. -/
structure Sound (m : LogManager γ) : Prop where
  noError : m.hasError = false
  first : m.firstLogIndex = 1
  last : 0 ≤ m.lastLogIndex
  queue : ∀ task ∈ m.diskQueue, ∃ closure, task = .append closure
  stored : ∀ i entry, m.storage.getEntry i = some entry →
    entry.id.index = i ∧ 1 ≤ i ∧ i ≤ m.maxLogIndex
  waits : ∀ entry ∈ waiting m.diskQueue, 1 ≤ entry.id.index ∧ entry.id.index ≤ m.maxLogIndex
  slots : ∀ i entry, slot m.toMemory i = some (some entry) →
    (pending m).getEntry i = some entry

theorem slot_range {mem : Memory} {i : Int} {v : Option LogEntry} (h : slot mem i = some v) :
    mem.firstInMemory ≤ i ∧ i ≤ mem.maxLogIndex := by
  have hbounds := item_eq_some_bounds h
  unfold Memory.firstInMemory at *
  omega

variable {m m' : LogManager γ}

theorem Sound.range (h : Sound m) {i : Int} {entry : LogEntry}
    (hget : (pending m).getEntry i = some entry) :
    entry.id.index = i ∧ 1 ≤ i ∧ i ≤ m.maxLogIndex := by
  rcases getEntry_appendEntries hget with ⟨hmem, rfl⟩ | ⟨-, hget⟩
  · exact ⟨rfl, h.waits entry hmem⟩
  · exact h.stored i entry hget

theorem waiting_appended {stored : List LogEntry} {done : γ} (h : Appended m stored done m') :
    waiting m'.diskQueue = waiting m.diskQueue ++ stored := by
  obtain ⟨first, hqueue⟩ := h.queue
  rw [hqueue]
  simp [waiting]

theorem pending_appended {stored : List LogEntry} {done : γ} (h : Appended m stored done m') :
    pending m' = (pending m).appendEntries stored := by
  have hstorage : m'.storage = m.storage := by rw [h.rest]
  unfold pending
  rw [waiting_appended h, hstorage, appendEntries_append]

theorem Sound.appended {stored : List LogEntry} {done : γ} (h : Sound m)
    (ha : Appended m stored done m') : Sound m' := by
  obtain ⟨first, hstored⟩ := ha.indexes
  have hpending := pending_appended ha
  have htook := ha.took
  have hgrows := htook.grows
  have htop : ∀ entry ∈ stored, entry.id.index ≤ m'.maxLogIndex := fun entry hentry =>
    (slot_range (htook.taken entry hentry)).2
  refine ⟨by rw [ha.rest]; exact h.noError, by rw [ha.rest]; exact h.first,
    le_trans h.last ha.last, ?_, ?_, ?_, ?_⟩
  · obtain ⟨front, hqueue⟩ := ha.queue
    intro task htask
    rw [hqueue] at htask
    rcases List.mem_append.mp htask with htask | htask
    · exact h.queue task htask
    · exact ⟨_, List.mem_singleton.mp htask⟩
  · intro i entry hget
    rw [ha.rest] at hget
    obtain ⟨hindex, hlo, hhi⟩ := h.stored i entry hget
    exact ⟨hindex, hlo, by omega⟩
  · intro entry hentry
    rw [waiting_appended ha] at hentry
    rcases List.mem_append.mp hentry with hold | hnew
    · obtain ⟨hlo, hhi⟩ := h.waits entry hold
      exact ⟨hlo, by omega⟩
    · exact ⟨ha.positive entry hnew, htop entry hnew⟩
  · intro i entry hslot
    rw [hpending]
    by_cases hhas : Has stored i
    · obtain ⟨e, he, rfl⟩ := hhas
      cases (htook.taken e he).symm.trans hslot
      exact getEntry_appendEntries_consecutive hstored he
    · rw [getEntry_appendEntries_of_not_has hhas]
      apply h.slots
      by_cases hi : i ≤ m.maxLogIndex
      · exact (htook.below i hi hhas).symm.trans hslot
      · have hnone := htook.above i (by omega) (slot_range hslot).2 hhas
        cases hnone.symm.trans hslot

theorem diskWrite_spec (h : Sound m) {task : DiskTask γ} {status : Status}
    (hw : m.diskWrite = some (m', task, status)) :
    ∃ closure, m.diskQueue = .append closure :: m'.diskQueue ∧
      m'.storage = m.storage.appendEntries closure.entries ∧
      m' = { m with
        storage := m'.storage
        diskQueue := m'.diskQueue
        lastId := m'.lastId } := by
  cases hq : m.diskQueue with
  | nil => simp [LogManager.diskWrite, hq] at hw
  | cons front rest =>
    obtain ⟨closure, rfl⟩ := h.queue front (by simp [hq])
    simp only [LogManager.diskWrite, hq, h.noError, Bool.false_eq_true, if_false,
      Option.some.injEq, Prod.mk.injEq] at hw
    obtain ⟨rfl, -, -⟩ := hw
    refine ⟨closure, rfl, rfl, ?_⟩
    rw [h.noError]

theorem pending_diskWrite (h : Sound m) {task : DiskTask γ} {status : Status}
    (hw : m.diskWrite = some (m', task, status)) : pending m' = pending m := by
  obtain ⟨closure, hqueue, hstorage, -⟩ := diskWrite_spec h hw
  unfold pending
  rw [hqueue, hstorage, ← appendEntries_append]
  rfl

theorem Sound.diskWrite (h : Sound m) {task : DiskTask γ} {status : Status}
    (hw : m.diskWrite = some (m', task, status)) : Sound m' := by
  obtain ⟨closure, hqueue, hstorage, hrest⟩ := diskWrite_spec h hw
  have hpending := pending_diskWrite h hw
  have hmemory : m'.toMemory = m.toMemory := by rw [hrest]
  have hwaits : waiting m.diskQueue = closure.entries ++ waiting m'.diskQueue := by
    rw [hqueue]
    rfl
  refine ⟨by rw [hrest]; exact h.noError, by rw [hrest]; exact h.first,
    by rw [hrest]; exact h.last, ?_, ?_, ?_, ?_⟩
  · intro task htask
    exact h.queue task (by simp [hqueue, htask])
  · rw [hstorage, hmemory]
    intro i entry hget
    rcases getEntry_appendEntries hget with ⟨hmem, rfl⟩ | ⟨-, hget⟩
    · exact ⟨rfl, h.waits entry (by simp [hwaits, hmem])⟩
    · exact h.stored i entry hget
  · rw [hmemory]
    intro entry hentry
    exact h.waits entry (by simp [hwaits, hentry])
  · rw [hpending, hmemory]
    exact h.slots

/-- The slots that are given up when the memory is cleared: the head of it, as far as it
is filled and not behind the identity. -/
def released (logs : List (Option LogEntry)) (id : LogId) : List (Option LogEntry) :=
  logs.takeWhile fun slot =>
    match slot with
    | none => false
    | some entry => ¬ id.Before entry.id

theorem released_append (m : LogManager γ) (id : LogId) :
    released m.logsInMemory id ++ (m.clearMemoryLogs id).logsInMemory = m.logsInMemory :=
  List.takeWhile_append_dropWhile

theorem firstInMemory_clear (m : LogManager γ) (id : LogId) :
    (m.clearMemoryLogs id).firstInMemory =
      m.firstInMemory + (released m.logsInMemory id).length := by
  have hlength := congrArg List.length (released_append m id)
  rw [List.length_append] at hlength
  show m.maxLogIndex - (m.clearMemoryLogs id).logsInMemory.length + 1 = _
  unfold Memory.firstInMemory
  omega

theorem slot_clear (m : LogManager γ) (id : LogId) {i : Int}
    (hi : (m.clearMemoryLogs id).firstInMemory ≤ i) :
    slot (m.clearMemoryLogs id).toMemory i = slot m.toMemory i := by
  have hfirst := firstInMemory_clear m id
  have hdrop : (m.clearMemoryLogs id).logsInMemory =
      m.logsInMemory.drop (released m.logsInMemory id).length := by
    calc (m.clearMemoryLogs id).logsInMemory
        = (released m.logsInMemory id ++ (m.clearMemoryLogs id).logsInMemory).drop
            (released m.logsInMemory id).length := by rw [List.drop_left]
      _ = m.logsInMemory.drop (released m.logsInMemory id).length := by rw [released_append]
  unfold slot
  rw [hdrop, item_drop _ _ (by omega)]
  congr 1
  omega

theorem Sound.clear (h : Sound m) (id : LogId) : Sound (m.clearMemoryLogs id) := by
  refine ⟨h.noError, h.first, h.last, h.queue, h.stored, h.waits, ?_⟩
  intro i entry hslot
  rw [slot_clear m id (slot_range hslot).1] at hslot
  exact h.slots i entry hslot

theorem Sound.setDiskId (h : Sound m) (id : LogId) : Sound (m.setDiskId id) := by
  unfold LogManager.setDiskId
  split
  · exact h
  · have hset : Sound { m with diskId := id } :=
      ⟨h.noError, h.first, h.last, h.queue, h.stored, h.waits, h.slots⟩
    exact hset.clear _

theorem Sound.setAppliedId (h : Sound m) (id : LogId) : Sound (m.setAppliedId id) := by
  unfold LogManager.setAppliedId
  split
  · exact h
  · have hset : Sound { m with appliedId := id } :=
      ⟨h.noError, h.first, h.last, h.queue, h.stored, h.waits, h.slots⟩
    exact hset.clear _

theorem Sound.diskBatchEnd (h : Sound m) : Sound m.diskBatchEnd := by
  have hset := h.setDiskId m.lastId
  exact ⟨hset.noError, hset.first, hset.last, hset.queue, hset.stored, hset.waits, hset.slots⟩

theorem le_lastLogIndex {storage : LogStorage} {bound : Nat} {i : Int} (hlo : 1 ≤ i)
    (hhi : i ≤ bound) (h : (storage.getEntry i).isSome) : i ≤ storage.lastLogIndex bound := by
  induction bound with
  | zero => omega
  | succ bound ih =>
    unfold LogStorage.lastLogIndex
    split
    · omega
    · rename_i habsent
      have hne : i ≠ bound + 1 := by
        rintro rfl
        exact habsent h
      exact ih (by omega)

theorem Sound.fresh (lookBack : Int) : Sound (LogManager.fresh lookBack : LogManager γ) where
  noError := rfl
  first := rfl
  last := le_refl _
  queue := by simp [LogManager.fresh]
  stored := fun i entry h => by cases h
  waits := by simp [LogManager.fresh, waiting]
  slots := fun i entry h => by simp [slot, item, LogManager.fresh] at h

theorem Sound.restart (h : Sound m) : Sound m.restart where
  noError := rfl
  first := rfl
  last := Int.natCast_nonneg _
  queue := by simp [LogManager.restart, LogManager.fresh]
  stored := fun i entry hget => by
    obtain ⟨hindex, hlo, hhi⟩ := h.stored i entry hget
    have hsome : (m.storage.getEntry i).isSome := Option.isSome_of_eq_some hget
    exact ⟨hindex, hlo, le_lastLogIndex hlo (by omega) hsome⟩
  waits := by simp [LogManager.restart, LogManager.fresh, waiting]
  slots := fun i entry hslot => by simp [slot, item, LogManager.restart, LogManager.fresh] at hslot

end Pending

end HitConsistency.Log.PendingLog
