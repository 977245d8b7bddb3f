/- GID: HitConsistency/Log/ReadableEntries
   digest: An entry stays readable unless the memory gives it up before the disk has it. -/

import HitConsistency.Log.PendingLog

set_option autoImplicit false
set_option relaxedAutoImplicit false

/-!
The memory is cleared up to the smaller of the applied identity and the disk identity.
The latter is the last one that was written, so an entry below it may still wait for
the disk when entries were written out of order.
-/

namespace HitConsistency.Log.ReadableEntries

open HitConsistency.Base.GuardedRuns
open HitConsistency.Base.IndexedDeque
open HitConsistency.Log.Entry
open HitConsistency.Log.KeptEntries (Has)
open HitConsistency.Log.MemoryLog
open HitConsistency.Log.PendingLog
open HitConsistency.Log.StoredBatches

section Readable

variable {γ : Type}

/-- `get_entry` finds no entry within the bounds of the log, and puts the manager into
the error state. -/
def ReportsCorruption (m : LogManager γ) (i : Int) : Prop :=
  m.firstLogIndex ≤ i ∧ i ≤ m.maxLogIndex ∧ m.getEntry i = some none

/-- Every entry that was accepted is what `get_entry` returns. -/
def AllReadable (m : LogManager γ) : Prop :=
  ∀ i entry, (pending m).getEntry i = some entry →
    m.getEntry i = some (some entry) ∧ ¬ ReportsCorruption m i

/-- The entries in the memory reach from its first slot to the largest index, and what
lies in front of it does not wait for the disk any more. -/
structure Covered (m : LogManager γ) : Prop extends Sound m where
  back : m.logsInMemory ≠ [] → ∃ entry, slot m.toMemory m.maxLogIndex = some (some entry)
  held : ∀ i entry, m.firstInMemory ≤ i → (pending m).getEntry i = some entry →
    slot m.toMemory i = some (some entry)
  written : ∀ entry ∈ waiting m.diskQueue, m.firstInMemory ≤ entry.id.index

variable {m m' : LogManager γ}

theorem Covered.getEntryFromMemory (h : Covered m) {i : Int} (hhi : i ≤ m.maxLogIndex) :
    m.getEntryFromMemory i = if m.firstInMemory ≤ i then slot m.toMemory i else some none := by
  apply getEntryFromMemory_eq _ hhi
  intro hne
  obtain ⟨back, hback⟩ := h.back hne
  exact ⟨back, hback, (h.range (h.slots _ back hback)).1⟩

private theorem Covered.allReadable (h : Covered m) : AllReadable m := by
  intro i entry hget
  obtain ⟨-, hlo, hhi⟩ := h.range hget
  have hread : m.getEntry i = some (some entry) := by
    unfold LogManager.getEntry
    rw [if_neg (by rw [h.first]; omega), h.getEntryFromMemory hhi]
    by_cases hmem : m.firstInMemory ≤ i
    · rw [if_pos hmem, h.held i entry hmem hget]
      rfl
    · have hnot : ¬ Has (waiting m.diskQueue) i := by
        rintro ⟨e, he, rfl⟩
        exact hmem (h.written e he)
      have hstored : m.storage.getEntry i = some entry :=
        (getEntry_appendEntries_of_not_has hnot).symm.trans hget
      rw [if_neg hmem, Option.map_some, hstored]
      rfl
  refine ⟨hread, ?_⟩
  rintro ⟨-, -, hnone⟩
  rw [hread] at hnone
  cases hnone

theorem Covered.appended {stored : List LogEntry} {done : γ} (h : Covered m)
    (ha : Appended m stored done m') : Covered m' := by
  obtain ⟨first, hstored⟩ := ha.indexes
  have htook := ha.took
  refine ⟨h.toSound.appended ha, ?_, ?_, ?_⟩
  · intro hne
    rcases htook.top with htop | ⟨e, he, hindex⟩
    · by_cases hhas : Has stored m'.maxLogIndex
      · obtain ⟨e, he, hindex⟩ := hhas
        exact ⟨e, hindex ▸ htook.taken e he⟩
      · have hold : m.logsInMemory ≠ [] := by
          have hfirst := htook.first
          have hpos := List.length_pos_iff.mpr hne
          intro hnil
          unfold Memory.firstInMemory at hfirst
          rw [hnil] at hfirst
          simp only [List.length_nil] at hfirst
          omega
        obtain ⟨back, hback⟩ := h.back hold
        refine ⟨back, ?_⟩
        rw [htook.below _ (le_of_eq htop) hhas, htop]
        exact hback
    · exact ⟨e, hindex ▸ htook.taken e he⟩
  · intro i entry hlo hget
    rw [pending_appended ha] at hget
    by_cases hhas : Has stored i
    · obtain ⟨e, he, rfl⟩ := hhas
      cases (getEntry_appendEntries_consecutive hstored he).symm.trans hget
      exact htook.taken entry he
    · rw [getEntry_appendEntries_of_not_has hhas] at hget
      rw [htook.below i (h.range hget).2.2 hhas]
      exact h.held i entry (htook.first ▸ hlo) hget
  · intro entry hentry
    rw [waiting_appended ha] at hentry
    rcases List.mem_append.mp hentry with hold | hnew
    · rw [htook.first]
      exact h.written entry hold
    · exact (slot_range (htook.taken entry hnew)).1

theorem Covered.diskWrite (h : Covered m) {task : DiskTask γ} {status : Status}
    (hw : m.diskWrite = some (m', task, status)) : Covered m' := by
  obtain ⟨closure, hqueue, -, hrest⟩ := diskWrite_spec h.toSound hw
  have hmemory : m'.toMemory = m.toMemory := by rw [hrest]
  refine ⟨h.toSound.diskWrite hw, ?_, ?_, ?_⟩
  · rw [hmemory]
    exact h.back
  · rw [pending_diskWrite h.toSound hw, hmemory]
    exact h.held
  · rw [hmemory]
    intro entry hentry
    apply h.written
    rw [hqueue]
    exact List.mem_append_right closure.entries hentry

/-- None of the entries that the memory gives up waits for the disk. -/
def Saved (m : LogManager γ) (id : LogId) : Prop :=
  ∀ entry, some entry ∈ released m.logsInMemory id → ¬ Has (waiting m.diskQueue) entry.id.index

instance savedDecidable (m : LogManager γ) (id : LogId) : Decidable (Saved m id) :=
  decidable_of_iff (∀ slot ∈ released m.logsInMemory id, ∀ entry ∈ slot,
      ∀ e ∈ waiting m.diskQueue, e.id.index ≠ entry.id.index) (by
    constructor
    · rintro h entry hentry ⟨e, he, hindex⟩
      exact h _ hentry entry rfl e he hindex
    · rintro h _ hslot entry ⟨⟩ e he hindex
      exact h entry hslot ⟨e, he, hindex⟩)

private theorem Covered.released_slot (h : Covered m) (id : LogId) {i : Int}
    (hlo : m.firstInMemory ≤ i)
    (hhi : i < (m.clearMemoryLogs id).firstInMemory) :
    ∃ entry, some entry ∈ released m.logsInMemory id ∧ entry.id.index = i := by
  have hfirst := firstInMemory_clear m id
  have hlt : (i - m.firstInMemory).toNat < (released m.logsInMemory id).length := by omega
  obtain ⟨slot, hslot⟩ : ∃ slot, (released m.logsInMemory id)[(i - m.firstInMemory).toNat]? =
    some slot := ⟨_, List.getElem?_eq_getElem hlt⟩
  have hmem := List.mem_of_getElem? hslot
  have hfilled := List.mem_takeWhile_imp hmem
  cases slot with
  | none => cases hfilled
  | some entry =>
    refine ⟨entry, hmem, ?_⟩
    have hitem : StoredBatches.slot m.toMemory i = some (some entry) := by
      unfold StoredBatches.slot item
      rw [if_pos (by omega), ← released_append m id, List.getElem?_append_left hlt]
      exact hslot
    exact (h.range (h.slots i entry hitem)).1

theorem Covered.clear (h : Covered m) {id : LogId} (hsaved : Saved m id) :
    Covered (m.clearMemoryLogs id) := by
  have hfirst := firstInMemory_clear m id
  refine ⟨h.toSound.clear id, ?_, ?_, ?_⟩
  · intro hne
    have hold : m.logsInMemory ≠ [] := by
      rw [← released_append m id]
      intro hnil
      exact hne (List.append_eq_nil_iff.mp hnil).2
    obtain ⟨back, hback⟩ := h.back hold
    have hpos := List.length_pos_iff.mpr hne
    have hlo : (m.clearMemoryLogs id).firstInMemory ≤ m.maxLogIndex := by
      show m.maxLogIndex - (m.clearMemoryLogs id).logsInMemory.length + 1 ≤ m.maxLogIndex
      omega
    exact ⟨back, (slot_clear m id hlo).trans hback⟩
  · intro i entry hlo hget
    rw [slot_clear m id hlo]
    exact h.held i entry (by omega) hget
  · intro entry hentry
    have hold := h.written entry hentry
    by_contra hlt
    obtain ⟨e, he, hindex⟩ := h.released_slot id hold (not_le.mp hlt)
    exact hsaved e he ⟨entry, hentry, hindex.symm⟩

theorem Covered.setDiskId (h : Covered m) {id : LogId}
    (hsaved : id.Before m.diskId ∨ Saved m (LogManager.minId id m.appliedId)) :
    Covered (m.setDiskId id) := by
  have hsound := h.toSound.setDiskId id
  unfold LogManager.setDiskId at hsound ⊢
  split
  · exact h
  · rename_i hnot
    have hclear := h.clear (hsaved.resolve_left hnot)
    rw [if_neg hnot] at hsound
    exact ⟨hsound, hclear.back, hclear.held, hclear.written⟩

theorem Covered.setAppliedId (h : Covered m) {id : LogId}
    (hsaved : id.Before m.appliedId ∨ Saved m (LogManager.minId m.diskId id)) :
    Covered (m.setAppliedId id) := by
  have hsound := h.toSound.setAppliedId id
  unfold LogManager.setAppliedId at hsound ⊢
  split
  · exact h
  · rename_i hnot
    have hclear := h.clear (hsaved.resolve_left hnot)
    rw [if_neg hnot] at hsound
    exact ⟨hsound, hclear.back, hclear.held, hclear.written⟩

theorem Covered.fresh (lookBack : Int) : Covered (LogManager.fresh lookBack : LogManager γ) where
  toSound := .fresh lookBack
  back := fun hne => absurd rfl hne
  held := fun i entry _ hget => by cases hget
  written := by simp [LogManager.fresh, waiting]

end Readable

/-- An append takes the batches that callers make and does not truncate the log; when the
memory is cleared, none of the entries it gives up waits for the disk. -/
def ClearsSaved (m : LogManager Unit) : Event → Prop
  | .append entries ooRep => Promised entries ∧ truncates m entries ooRep = false
  | .diskBatchEnd =>
      m.lastId.Before m.diskId ∨ Saved m (LogManager.minId m.lastId m.appliedId)
  | .setAppliedId id => id.Before m.appliedId ∨ Saved m (LogManager.minId m.diskId id)
  | .diskWrite => True
  | .restart => False

instance clearsSavedDecidable (m : LogManager Unit) : ∀ event, Decidable (ClearsSaved m event)
  | .append _ _ => inferInstanceAs (Decidable (_ ∧ _))
  | .diskBatchEnd | .setAppliedId _ => inferInstanceAs (Decidable (_ ∨ _))
  | .diskWrite => inferInstanceAs (Decidable True)
  | .restart => inferInstanceAs (Decidable False)

theorem Covered.step {m m' : LogManager Unit} (h : Covered m) {event : Event}
    (hclears : ClearsSaved m event) (hstep : PendingLog.step m event = some m') :
    Covered m' ∧ ∀ i, ((pending m).getEntry i).isSome → ((pending m').getEntry i).isSome := by
  cases event with
  | append entries ooRep =>
    obtain ⟨⟨m'', status⟩, hrun, heq⟩ := Option.map_eq_some_iff.mp hstep
    cases heq
    rcases appendEntries_cases hclears.2 hclears.1 h.last hrun with ⟨rfl, -⟩ | ⟨-, stored, ha⟩
    · exact ⟨h, fun _ hi => hi⟩
    · refine ⟨h.appended ha, fun i hi => ?_⟩
      rw [pending_appended ha, isSome_appendEntries]
      exact .inr hi
  | diskWrite =>
    cases hstep
    cases hw : m.diskWrite with
    | none => exact ⟨h, fun _ hi => hi⟩
    | some result =>
      refine ⟨h.diskWrite hw, fun i hi => ?_⟩
      rw [← pending_diskWrite h.toSound hw] at hi
      exact hi
  | diskBatchEnd =>
    cases hstep
    have hset := h.setDiskId hclears
    refine ⟨⟨h.toSound.diskBatchEnd, hset.back, hset.held, hset.written⟩, fun i hi => ?_⟩
    have hsame : pending m.diskBatchEnd = pending m := by
      unfold LogManager.diskBatchEnd LogManager.setDiskId
      split <;> rfl
    rwa [hsame]
  | setAppliedId id =>
    cases hstep
    refine ⟨h.setAppliedId hclears, fun i hi => ?_⟩
    have hsame : pending (m.setAppliedId id) = pending m := by
      unfold LogManager.setAppliedId
      split <;> rfl
    rwa [hsame]
  | restart => exact hclears.elim

/-- Whatever was appended before is readable now, in every run that clears the memory of
written entries only. -/
theorem appended_stays_readable (lookBack : Int) (before after : List Event)
    (hclears : Guarded PendingLog.step ClearsSaved (LogManager.fresh lookBack) (before ++ after))
    (m m' : LogManager Unit)
    (hbefore : runEvents PendingLog.step (LogManager.fresh lookBack) before = some m)
    (hafter : runEvents PendingLog.step m after = some m') :
    AllReadable m' ∧ ∀ i, ((pending m).getEntry i).isSome →
      ∃ entry, (pending m').getEntry i = some entry ∧ m'.getEntry i = some (some entry) := by
  have hcovered : Covered m := invariant_of_step
    (fun _ _ _ h hguard hstep => (Covered.step h hguard hstep).1) (.fresh lookBack)
    (guarded_append_left hclears) hbefore
  let Kept : LogManager Unit → Prop := fun s => Covered s ∧
    ∀ i, ((pending m).getEntry i).isSome → ((pending s).getEntry i).isSome
  have hstep : ∀ s event t, Kept s → ClearsSaved s event → PendingLog.step s event = some t →
      Kept t := by
    rintro s event t ⟨hs, hkeeps⟩ hguard hstep
    obtain ⟨ht, hgrows⟩ := hs.step hguard hstep
    exact ⟨ht, fun i hi => hgrows i (hkeeps i hi)⟩
  have hkept : Kept m' := invariant_of_step hstep ⟨hcovered, fun _ hi => hi⟩
    (guarded_append_right hclears hbefore) hafter
  refine ⟨hkept.1.allReadable, fun i hi => ?_⟩
  obtain ⟨entry, hentry⟩ := Option.isSome_iff_exists.mp (hkept.2 i hi)
  exact ⟨entry, hentry, (hkept.1.allReadable i entry hentry).1⟩

/-- Entry 5 is written before entries 1 to 4 arrive. -/
private def fifthFirst : List Event :=
  [.append [sampleEntry 5 1] true, .diskWrite, .diskBatchEnd,
    .append [sampleEntry 1 1, sampleEntry 2 1, sampleEntry 3 1, sampleEntry 4 1] true]

theorem appended_stays_readable_written : ∃ m m',
    runEvents PendingLog.step (LogManager.fresh 63) fifthFirst = some m ∧
    runEvents PendingLog.step m [.diskWrite, .setAppliedId ⟨4, 1⟩] = some m' ∧
    m'.logsInMemory = [some (sampleEntry 5 1)] ∧
    (AllReadable m' ∧ ∀ i, ((pending m).getEntry i).isSome →
      ∃ entry, (pending m').getEntry i = some entry ∧ m'.getEntry i = some (some entry)) :=
  ⟨_, _, rfl, rfl, by decide +kernel, appended_stays_readable 63 fifthFirst
    [.diskWrite, .setAppliedId ⟨4, 1⟩] (by decide +kernel) _ _ rfl rfl⟩

/-- Entries 1 to 4 have been applied and still wait for the disk: the memory gives them up,
and entry 1 cannot be read. -/
theorem applied_entry_unreadable : ∃ m,
    runEvents PendingLog.step (LogManager.fresh 63) (fifthFirst ++ [.setAppliedId ⟨4, 1⟩]) =
      some m ∧
    m.lastLogIndex = 5 ∧ (pending m).getEntry 1 = some (sampleEntry 1 1) ∧
    m.getEntry 1 = some none ∧ ReportsCorruption m 1 :=
  ⟨_, rfl, by decide +kernel, by decide +kernel, by decide +kernel,
    by decide +kernel, by decide +kernel, by decide +kernel⟩

end HitConsistency.Log.ReadableEntries
