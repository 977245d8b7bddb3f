/- GID: HitConsistency/Log/GapFreeRestart
   digest: When the last index of a log manager that is initialised again has no gap below it. -/

import HitConsistency.Log.StorageRestart
import Mathlib.Order.Bounds.Basic

set_option autoImplicit false
set_option relaxedAutoImplicit false

/-!
A log manager over its segmented storage. While it runs, the last index is the end of
the prefix without a gap; the storage knows only the largest index it was given, and
that is what `init` reads.
-/

namespace HitConsistency.Log.GapFreeRestart

open HitConsistency.Base.GuardedRuns
open HitConsistency.Base.IntervalTiling
open HitConsistency.Log.Entry
open HitConsistency.Log.MemoryLog
open HitConsistency.Log.SegmentFile
open HitConsistency.Log.SegmentContents
open HitConsistency.Log.SegmentReload
open HitConsistency.Log.SegmentStorage
open HitConsistency.Log.StorageContents
open HitConsistency.Log.StorageRefinement (Operation execute)
open HitConsistency.Log.StorageRestart (Inv Tidy)

def storageOf (codec : ConfigurationCodec) (disk : SegmentLogStorage) : LogStorage :=
  ⟨fun i => (disk.getEntry codec i).join⟩

structure System where
  manager : LogManager Unit
  disk : SegmentLogStorage

def System.fresh (dependencyLookBack : Int) : System := ⟨.fresh dependencyLookBack, .fresh⟩

/-- `init` of a new log manager on a directory; `max_log_index` of the storage is its
last index. -/
def init (codec : ConfigurationCodec) (dependencyLookBack : Int) (directory : Directory)
    (cm : ConfigurationManager) : Option System := do
  let (disk, cm) ← SegmentLogStorage.init codec directory cm
  let term ← disk.getTerm disk.lastLogIndex
  let diskId : LogId := ⟨disk.lastLogIndex, term⟩
  some ⟨{ (LogManager.fresh dependencyLookBack : LogManager Unit) with
    maxLogIndex := disk.lastLogIndex
    storage := storageOf codec disk
    configManager := cm
    firstLogIndex := disk.firstLogIndex
    lastLogIndex := disk.lastLogIndex
    diskId := diskId
    lastId := diskId }, disk⟩

/-- The disk thread carries out one task on the segments. -/
def perform (flags : Flags) (codec : ConfigurationCodec) (disk : SegmentLogStorage) :
    DiskTask Unit → Option SegmentLogStorage
  | .append closure => execute flags codec disk (.append closure.entries)
  | .lastLogId _ => some disk
  | .truncateSuffix lastIndexKept _ => execute flags codec disk (.truncateSuffix lastIndexKept)

inductive Event
  | append (entries : List LogEntry) (ooRep : Bool)
  | diskWrite (flags : Flags)
  | diskBatchEnd
  | setAppliedId (id : LogId)
  | restart (cm : ConfigurationManager)

def step (codec : ConfigurationCodec) (sys : System) : Event → Option System
  | .append entries ooRep =>
      (sys.manager.appendEntries entries () ooRep).map fun (manager, _) =>
        { sys with manager := manager }
  | .diskWrite flags => do
      let (manager, task, _) ← sys.manager.diskWrite
      let disk ← perform flags codec sys.disk task
      some ⟨{ manager with storage := storageOf codec disk }, disk⟩
  | .diskBatchEnd => some { sys with manager := sys.manager.diskBatchEnd }
  | .setAppliedId id => some { sys with manager := sys.manager.setAppliedId id }
  | .restart cm => init codec sys.manager.dependencyLookBack sys.disk.directory cm

/-- A truncation that comes next is within the bounds of the storage. -/
def NextInLog (disk : SegmentLogStorage) : List (DiskTask Unit) → Prop
  | .truncateSuffix lastIndexKept _ :: _ =>
      disk.firstLogIndex - 1 ≤ lastIndexKept ∧ lastIndexKept ≤ disk.lastLogIndex
  | _ => True

def InLog (sys : System) : Event → Prop
  | .diskWrite _ => NextInLog sys.disk sys.manager.diskQueue
  | _ => True

instance nextInLogDecidable (disk : SegmentLogStorage) : ∀ queue, Decidable (NextInLog disk queue)
  | .truncateSuffix _ _ :: _ => inferInstanceAs (Decidable (_ ∧ _))
  | [] | .append _ :: _ | .lastLogId _ :: _ => inferInstanceAs (Decidable True)

instance inLogDecidable (sys : System) : ∀ event, Decidable (InLog sys event)
  | .diskWrite _ => inferInstanceAs (Decidable (NextInLog sys.disk sys.manager.diskQueue))
  | .append _ _ | .diskBatchEnd | .setAppliedId _ | .restart _ => inferInstanceAs (Decidable True)

/-- The last index is the end of the prefix of stored entries. -/
def GapFreeLast (manager : LogManager Unit) : Prop :=
  IsGreatest {n | manager.firstLogIndex - 1 ≤ n ∧
    ∀ i, manager.firstLogIndex ≤ i → i ≤ n → (manager.storage.getEntry i).isSome}
    manager.lastLogIndex

/-- Below a stored entry, down to the first index, every entry is stored. -/
def NoHole (codec : ConfigurationCodec) (disk : SegmentLogStorage) : Prop :=
  ∀ i j, disk.firstLogIndex ≤ i → i ≤ j → ((storageOf codec disk).getEntry j).isSome →
    ((storageOf codec disk).getEntry i).isSome

private theorem isGreatest_prefix_iff {held : Int → Prop} {first last : Int}
    (hle : first - 1 ≤ last)
    (hlast : last = first - 1 ∨ held last) (habove : ∀ j, held j → j ≤ last) :
    IsGreatest {n | first - 1 ≤ n ∧ ∀ i, first ≤ i → i ≤ n → held i} last ↔
      ∀ i j, first ≤ i → i ≤ j → held j → held i := by
  constructor
  · rintro ⟨⟨-, hall⟩, -⟩ i j hi hij hj
    have hjl := habove j hj
    exact hall i hi (by omega)
  · intro hdown
    refine ⟨⟨hle, ?_⟩, ?_⟩
    · intro i hi hil
      rcases hlast with hempty | hheld
      · omega
      · exact hdown i last hi hil hheld
    · rintro n ⟨hn, hall⟩
      by_contra hlt
      have htop := habove n (hall n (by omega) le_rfl)
      omega

section Storage

variable {codec : ConfigurationCodec} {s : SegmentLogStorage}

private theorem storageOf_getEntry (hwf : WellFormed codec s) (i : Int) :
    (storageOf codec s).getEntry i =
      if s.firstLogIndex ≤ i ∧ i ≤ s.lastLogIndex then contents codec s.live i else none := by
  change (s.getEntry codec i).join = _
  rw [hwf.getEntry_eq]
  rfl

private theorem stored_le_last (hwf : WellFormed codec s) {j : Int}
    (hj : ((storageOf codec s).getEntry j).isSome) : j ≤ s.lastLogIndex := by
  rw [storageOf_getEntry hwf] at hj
  split at hj
  · rename_i hrange
    exact hrange.2
  · cases hj

private theorem stored_last (h : Inv codec s) (htidy : Tidy s)
    (hne : s.firstLogIndex ≤ s.lastLogIndex) :
    ((storageOf codec s).getEntry s.lastLogIndex).isSome := by
  have hwf := h.wellFormed
  obtain ⟨a, ha, hcovers⟩ := hwf.covers
  obtain ⟨before, seg, behind, hlive, hlow, hhigh⟩ :=
    Tiles.split hcovers (by omega : a ≤ s.lastLogIndex) (by omega)
  have hmem : seg ∈ s.live := by rw [hlive]; simp
  have hsound := hwf.sound
  have hend := hcovers.bounds hmem
  have hlast : seg.lastIndex = s.lastLogIndex := by omega
  rw [hlive] at hcovers hsound
  rw [storageOf_getEntry hwf, if_pos ⟨hne, le_rfl⟩, hlive, contents_around hcovers hsound hlow hhigh]
  have hterm := getTerm_last (hwf.sound seg hmem) (h.filed seg hmem) (htidy.intact seg hmem)
    (by omega)
  rw [hlast] at hterm
  rcases (hwf.sound seg hmem).get_cases s.lastLogIndex with ⟨hnone, -⟩ | ⟨entry, -, hsome, -⟩
  · exact absurd hnone hterm
  · rw [hsome]
    rfl

end Storage

section Runs

variable {codec : ConfigurationCodec} {sys sys' : System}

private theorem init_view {lookBack : Int} {s : SegmentLogStorage} {cm : ConfigurationManager}
    (h : Inv codec s) (hinit : init codec lookBack s.directory cm = some sys) :
    Tidy s ∧ Inv codec sys.disk ∧ StorageRestart.SameView codec s sys.disk ∧
      sys.manager.firstLogIndex = sys.disk.firstLogIndex ∧
      sys.manager.lastLogIndex = sys.disk.lastLogIndex ∧
      sys.manager.storage = storageOf codec sys.disk := by
  simp only [init, Option.bind_eq_bind, Option.bind_eq_some_iff] at hinit
  obtain ⟨⟨disk, cm1⟩, hdisk, term, -, hsys⟩ := hinit
  cases hsys
  by_cases htidy : Tidy s
  · obtain ⟨s', cm2, hload, hinv, hview⟩ := StorageRestart.init_tidy h htidy cm
    cases hload.symm.trans hdisk
    exact ⟨htidy, hinv, hview, rfl, rfl, rfl⟩
  · rw [StorageRestart.init_untidy h htidy cm] at hdisk
    cases hdisk

theorem inv_step (sys : System) (event : Event) (sys' : System) (h : Inv codec sys.disk)
    (hinLog : InLog sys event) (hstep : step codec sys event = some sys') :
    Inv codec sys'.disk := by
  cases event with
  | append entries ooRep =>
    obtain ⟨⟨manager, status⟩, -, rfl⟩ := Option.map_eq_some_iff.mp hstep
    exact h
  | diskWrite flags =>
    simp only [step, Option.bind_eq_bind, Option.bind_eq_some_iff] at hstep
    obtain ⟨⟨manager, task, status⟩, hwrite, disk, hperform, hsys⟩ := hstep
    cases hsys
    cases hqueue : sys.manager.diskQueue with
    | nil => simp [LogManager.diskWrite, hqueue] at hwrite
    | cons head rest =>
      have htask : task = head := by
        cases head with
        | append closure =>
          simp only [LogManager.diskWrite, hqueue] at hwrite
          split at hwrite
          · cases hwrite
            rfl
          · cases hwrite
            rfl
        | lastLogId waiter =>
          simp only [LogManager.diskWrite, hqueue] at hwrite
          cases hwrite
          rfl
        | truncateSuffix k t =>
          simp only [LogManager.diskWrite, hqueue] at hwrite
          cases hwrite
          rfl
      subst htask
      simp only [InLog, hqueue] at hinLog
      cases task with
      | append closure =>
        have hop : StorageRestart.InLog sys.disk (.perform flags (.append closure.entries)) :=
          trivial
        exact h.execute hop hperform
      | lastLogId waiter =>
        cases hperform
        exact h
      | truncateSuffix k t =>
        have hop : StorageRestart.InLog sys.disk (.perform flags (.truncateSuffix k)) := hinLog
        exact h.execute hop hperform
  | diskBatchEnd =>
    cases hstep
    exact h
  | setAppliedId id =>
    cases hstep
    exact h
  | restart cm => exact (init_view h hstep).2.1

private theorem init_of_tidy {lookBack : Int} {s : SegmentLogStorage} (h : Inv codec s)
    (htidy : Tidy s)
    (cm : ConfigurationManager) : ∃ sys, init codec lookBack s.directory cm = some sys := by
  obtain ⟨disk, cm', hload, hinv, -⟩ := StorageRestart.init_tidy h htidy cm
  obtain ⟨term, hterm⟩ : ∃ term, disk.getTerm disk.lastLogIndex = some term :=
    ⟨_, by rw [hinv.wellFormed.getTerm_eq, hinv.wellFormed.getEntry_eq]; rfl⟩
  apply Option.isSome_iff_exists.mp
  rw [init, hload]
  dsimp only [Option.bind_eq_bind, Option.bind_some]
  rw [hterm]
  rfl

/-- The last index that `init` reads ends a prefix without a gap exactly if the storage has
no hole. -/
private theorem gapFreeLast_iff {lookBack : Int} {s : SegmentLogStorage} {cm : ConfigurationManager}
    (h : Inv codec s) (hinit : init codec lookBack s.directory cm = some sys) :
    GapFreeLast sys.manager ↔ NoHole codec s := by
  obtain ⟨htidy, -, hview, hfirst, hlast, hstorage⟩ := init_view h hinit
  have hsame : storageOf codec sys.disk = storageOf codec s := by
    simp only [storageOf, hview.getEntry]
  rw [GapFreeLast, hfirst, hlast, hstorage, hview.first, hview.last, hsame]
  have hle := h.wellFormed.first_le
  apply isGreatest_prefix_iff (by omega)
  · by_cases hne : s.firstLogIndex ≤ s.lastLogIndex
    · exact .inr (stored_last h htidy hne)
    · exact .inl (by omega)
  · intro j hj
    exact stored_le_last h.wellFormed hj

/-- A later `init` comes back with a last index that ends a prefix without a gap, exactly if
the files are tidy and no entry is missing in them. -/
theorem init_gapFree_iff (codec : ConfigurationCodec) (lookBack : Int) (cm : ConfigurationManager)
    (events : List Event) (sys : System)
    (hinLog : Guarded (step codec) InLog (.fresh lookBack) events)
    (hrun : runEvents (step codec) (.fresh lookBack) events = some sys) :
    (∃ sys', init codec lookBack sys.disk.directory cm = some sys' ∧
      GapFreeLast sys'.manager) ↔ Tidy sys.disk ∧ NoHole codec sys.disk := by
  have hinv : Inv codec sys.disk := @invariant_of_step _ _ (step codec) InLog
    (fun sys => Inv codec sys.disk) inv_step _ _ _ StorageRestart.inv_fresh hinLog hrun
  constructor
  · rintro ⟨sys', hinit, hgapFree⟩
    exact ⟨(init_view hinv hinit).1, (gapFreeLast_iff hinv hinit).mp hgapFree⟩
  · rintro ⟨htidy, hwhole⟩
    obtain ⟨sys', hinit⟩ := init_of_tidy hinv htidy cm
    exact ⟨sys', hinit, (gapFreeLast_iff hinv hinit).mpr hwhole⟩

end Runs

private def roomy : Flags := ⟨1000, 100⟩

/-- Each index arrives in a batch of its own and is written at once. -/
private def writeOut (entries : List Int) : List Event :=
  entries.flatMap fun index =>
    [.append [sampleEntry index 1] true, .diskWrite roomy]

/-- The gap was filled before the restart. -/
theorem init_behind_filled_gap :
    ∃ sys sys', runEvents (step .unary) (.fresh 8) (writeOut [1, 3, 2]) = some sys ∧
      init .unary 8 sys.disk.directory .new = some sys' ∧ sys'.manager.lastLogIndex = 3 ∧
      Tidy sys.disk ∧ NoHole .unary sys.disk := by
  have hrun : ((runEvents (step .unary) (.fresh 8) (writeOut [1, 3, 2])).bind fun sys =>
      (init .unary 8 sys.disk.directory .new).map fun sys' =>
        (sys'.manager.firstLogIndex, sys'.manager.lastLogIndex,
          [1, 2, 3, 4].map fun i => (sys'.manager.storage.getEntry i).isSome)) =
        some (1, 3, [true, true, true, false]) := by
    decide +kernel
  obtain ⟨sys, hsys, hinit⟩ := Option.bind_eq_some_iff.mp hrun
  obtain ⟨sys', hsys', heq⟩ := Option.map_eq_some_iff.mp hinit
  simp only [Prod.mk.injEq, List.map_cons, List.map_nil, List.cons.injEq, and_true] at heq
  obtain ⟨hfirst, hlast, hone, htwo, hthree, hfour⟩ := heq
  have hgapFree : GapFreeLast sys'.manager := by
    rw [GapFreeLast, hfirst, hlast]
    refine ⟨⟨by decide, fun i hlow hhigh => ?_⟩, fun n hn => ?_⟩
    · obtain rfl | rfl | rfl : i = 1 ∨ i = 2 ∨ i = 3 := by omega
      · exact hone
      · exact htwo
      · exact hthree
    · by_contra hlt
      have hstored := hn.2 4 (by decide) (by omega)
      rw [hfour] at hstored
      cases hstored
  exact ⟨sys, sys', hsys, hsys', hlast,
    (init_gapFree_iff .unary 8 .new _ sys (by decide +kernel) hsys).mp ⟨sys', hsys', hgapFree⟩⟩

/-- Entries 1 and 3 are stored, and the last index is 3. -/
theorem init_reports_index_above_gap :
    ∃ sys sys', runEvents (step .unary) (.fresh 8) (writeOut [1, 3]) = some sys ∧
      init .unary 8 sys.disk.directory .new = some sys' ∧ sys.manager.lastLogIndex = 1 ∧
      sys'.manager.lastLogIndex = 3 ∧ ¬ GapFreeLast sys'.manager := by
  have hrun : ((runEvents (step .unary) (.fresh 8) (writeOut [1, 3])).bind fun sys =>
      (init .unary 8 sys.disk.directory .new).map fun sys' =>
        (sys.manager.lastLogIndex, sys'.manager.firstLogIndex, sys'.manager.lastLogIndex,
          (sys'.manager.storage.getEntry 2).isSome)) = some (1, 1, 3, false) := by
    decide +kernel
  obtain ⟨sys, hsys, hinit⟩ := Option.bind_eq_some_iff.mp hrun
  obtain ⟨sys', hsys', heq⟩ := Option.map_eq_some_iff.mp hinit
  simp only [Prod.mk.injEq] at heq
  obtain ⟨hbefore, hfirst, hlast, hmissing⟩ := heq
  refine ⟨sys, sys', hsys, hsys', hbefore, hlast, ?_⟩
  rintro ⟨⟨-, hall⟩, -⟩
  have hstored := hall 2 (by omega) (by omega)
  rw [hmissing] at hstored
  cases hstored

end HitConsistency.Log.GapFreeRestart
