/- GID: HitConsistency/Log/BitmapMirror
   digest: Which runs keep the presence bitmap equal to the log. -/

import HitConsistency.Log.PendingLog

set_option autoImplicit false
set_option relaxedAutoImplicit false

namespace HitConsistency.Log.BitmapMirror

open HitConsistency.Base.GuardedRuns
open HitConsistency.Base.SlidingBitmap
open HitConsistency.Log.Entry
open HitConsistency.Log.KeptEntries (Has)
open HitConsistency.Log.MemoryLog
open HitConsistency.Log.PendingLog
open HitConsistency.Log.StoredBatches

section Mirror

variable {γ : Type}

/-- The log has an entry of the index: in its slot, on disk, or on its way there. -/
def Contains (m : LogManager γ) (i : Int) : Prop :=
  (∃ entry, slot m.toMemory i = some (some entry) ∧ entry.id.index = i) ∨
    (m.storage.getEntry i).isSome ∨ Has (waiting m.diskQueue) i

/-- Each of the 1024 bits tells whether the log has the entry. -/
def BitmapMirrors (m : LogManager γ) : Prop :=
  ∀ j : Nat, j < 1024 → m.firstLogIndex ≤ m.maxLogIndex - j →
    (m.dependencyBitmap.getLsbD j = true ↔ Contains m (m.maxLogIndex - j))

structure Mirrored (m : LogManager γ) : Prop extends Sound m where
  bits : ∀ i, m.maxLogIndex - i < 1024 →
    (bit m.toMemory i = true ↔ ((pending m).getEntry i).isSome)

variable {m m' : LogManager γ}

private theorem contains_iff (h : Sound m) (i : Int) :
    Contains m i ↔ ((pending m).getEntry i).isSome := by
  unfold Contains pending
  rw [isSome_appendEntries]
  constructor
  · rintro (⟨entry, hslot, -⟩ | hstored | hwaits)
    · rw [← isSome_appendEntries]
      exact Option.isSome_of_eq_some (h.slots i entry hslot)
    · exact .inr hstored
    · exact .inl hwaits
  · rintro (hwaits | hstored)
    · exact .inr (.inr hwaits)
    · exact .inr (.inl hstored)

private theorem Mirrored.bitmapMirrors (h : Mirrored m) : BitmapMirrors m := by
  rintro j hj -
  have hbits := h.bits (m.maxLogIndex - j) (by omega)
  have hbit : bit m.toMemory (m.maxLogIndex - j) = m.dependencyBitmap.getLsbD j := by
    unfold bit present
    rw [show (m.maxLogIndex - (m.maxLogIndex - (j : Int))).toNat = j by omega,
      decide_eq_true (by omega), Bool.true_and]
  rw [contains_iff h.toSound, ← hbits, hbit]

theorem Mirrored.appended {stored : List LogEntry} {done : γ} (h : Mirrored m)
    (ha : Appended m stored done m') : Mirrored m' := by
  refine ⟨h.toSound.appended ha, ?_⟩
  intro i hi
  have hgrows := ha.took.grows
  rw [ha.took.bits i hi, pending_appended ha, isSome_appendEntries, h.bits i (by omega)]

theorem Mirrored.diskWrite (h : Mirrored m) {task : DiskTask γ} {status : Status}
    (hw : m.diskWrite = some (m', task, status)) : Mirrored m' := by
  refine ⟨h.toSound.diskWrite hw, ?_⟩
  obtain ⟨closure, -, -, hrest⟩ := diskWrite_spec h.toSound hw
  have hmemory : m'.toMemory = m.toMemory := by rw [hrest]
  rw [pending_diskWrite h.toSound hw, hmemory]
  exact h.bits

theorem Mirrored.setDiskId (h : Mirrored m) (id : LogId) : Mirrored (m.setDiskId id) := by
  refine ⟨h.toSound.setDiskId id, ?_⟩
  unfold LogManager.setDiskId
  split <;> exact h.bits

theorem Mirrored.setAppliedId (h : Mirrored m) (id : LogId) : Mirrored (m.setAppliedId id) := by
  refine ⟨h.toSound.setAppliedId id, ?_⟩
  unfold LogManager.setAppliedId
  split <;> exact h.bits

theorem Mirrored.restart (h : Mirrored m)
    (hempty : m.storage.lastLogIndex m.maxLogIndex.toNat = 0) : Mirrored m.restart := by
  have hnone : ∀ i, m.storage.getEntry i = none := by
    intro i
    cases hget : m.storage.getEntry i with
    | none => rfl
    | some entry =>
      obtain ⟨-, hlo, hhi⟩ := h.stored i entry hget
      have hle := le_lastLogIndex hlo (show i ≤ m.maxLogIndex.toNat by omega)
        (Option.isSome_of_eq_some hget)
      omega
  refine ⟨h.toSound.restart, ?_⟩
  intro i hi
  have hbit : bit m.restart.toMemory i = false := by
    simp [bit, present, LogManager.restart, LogManager.fresh]
  have hpending : (pending m.restart).getEntry i = none := hnone i
  simp [hbit, hpending]

theorem Mirrored.fresh (lookBack : Int) :
    Mirrored (LogManager.fresh lookBack : LogManager γ) where
  toSound := .fresh lookBack
  bits := fun i _ => by
    have hpending : (pending (LogManager.fresh lookBack : LogManager γ)).getEntry i = none := rfl
    have hbit : bit (LogManager.fresh lookBack : LogManager γ).toMemory i = false := by
      simp [bit, present, LogManager.fresh]
    simp [hpending, hbit]

end Mirror

/-- An append takes the batches that callers make and does not truncate the log; a restart
finds an empty storage. -/
def Quiet (m : LogManager Unit) : Event → Prop
  | .append entries ooRep => Promised entries ∧ truncates m entries ooRep = false
  | .restart => m.storage.lastLogIndex m.maxLogIndex.toNat = 0
  | .diskWrite | .diskBatchEnd | .setAppliedId _ => True

instance quietDecidable (m : LogManager Unit) : ∀ event, Decidable (Quiet m event)
  | .append _ _ => inferInstanceAs (Decidable (_ ∧ _))
  | .restart => inferInstanceAs (Decidable (_ = _))
  | .diskWrite | .diskBatchEnd | .setAppliedId _ => inferInstanceAs (Decidable True)

theorem Mirrored.step {m m' : LogManager Unit} (h : Mirrored m) {event : Event}
    (hquiet : Quiet m event) (hstep : PendingLog.step m event = some m') : Mirrored m' := by
  cases event with
  | append entries ooRep =>
    obtain ⟨⟨m'', status⟩, hrun, heq⟩ := Option.map_eq_some_iff.mp hstep
    cases heq
    rcases appendEntries_cases hquiet.2 hquiet.1 h.last hrun with ⟨rfl, -⟩ | ⟨-, stored, ha⟩
    · exact h
    · exact h.appended ha
  | diskWrite =>
    cases hstep
    cases hw : m.diskWrite with
    | none => exact h
    | some result => exact h.diskWrite hw
  | diskBatchEnd =>
    cases hstep
    have hset := h.setDiskId m.lastId
    exact ⟨h.toSound.diskBatchEnd, hset.bits⟩
  | setAppliedId id =>
    cases hstep
    exact h.setAppliedId id
  | restart =>
    cases hstep
    exact h.restart hquiet

/-- The bitmap mirrors the log in every state that is reached without a truncation and
without a restart on a log that is not empty. -/
theorem bitmap_mirrors_log (lookBack : Int) (events : List Event)
    (hquiet : Guarded PendingLog.step Quiet (LogManager.fresh lookBack) events)
    (m : LogManager Unit)
    (hrun : runEvents PendingLog.step (LogManager.fresh lookBack) events = some m) :
    BitmapMirrors m := by
  have hmirrored : Mirrored m := invariant_of_step
    (fun _ _ _ h hguard hstep => Mirrored.step h hguard hstep) (.fresh lookBack) hquiet hrun
  exact hmirrored.bitmapMirrors

/-- Entry 2 arrives behind entry 3; entry 1 is given up by the memory. -/
private def sampleEvents : List Event :=
  [.append [sampleEntry 1 1] true, .diskWrite, .diskBatchEnd, .setAppliedId ⟨1, 1⟩,
    .append [sampleEntry 3 1] true, .append [sampleEntry 2 1] true]

theorem bitmap_mirrors_log_sample : ∃ m,
    runEvents PendingLog.step (LogManager.fresh 63) sampleEvents = some m ∧
    m.maxLogIndex = 3 ∧ m.logsInMemory.length = 2 ∧ BitmapMirrors m :=
  ⟨_, rfl, by decide +kernel, by decide +kernel,
    bitmap_mirrors_log 63 sampleEvents (by decide +kernel) _ rfl⟩

private def restartEvents : List Event := [.append [sampleEntry 1 1] false, .diskWrite, .restart]

private def restarted : LogManager Unit :=
  { (LogManager.fresh 63 : LogManager Unit) with
    maxLogIndex := 1
    storage := LogStorage.new.appendEntries [sampleEntry 1 1]
    lastLogIndex := 1
    diskId := ⟨1, 1⟩
    lastId := ⟨1, 1⟩ }

/-- Behind a restart the log has entry 1 and the bit of entry 1 is not set. -/
theorem restart_forgets_bits :
    runEvents PendingLog.step (LogManager.fresh 63) restartEvents = some restarted ∧
    Contains restarted 1 ∧ restarted.dependencyBitmap.getLsbD 0 = false ∧
    ¬ BitmapMirrors restarted := by
  have hcontains : Contains restarted 1 := .inr (.inl (by decide))
  have hbit : restarted.dependencyBitmap.getLsbD 0 = false := by decide +kernel
  refine ⟨rfl, hcontains, hbit, fun hmirrors => ?_⟩
  have hset := (hmirrors 0 (by decide) (by decide)).mpr hcontains
  rw [hbit] at hset
  cases hset

end HitConsistency.Log.BitmapMirror
