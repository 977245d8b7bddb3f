/- GID: HitConsistency/Log/DiskRefinement
   digest: A segment on its bytes does what the segment on its records does. -/

import HitConsistency.Log.SegmentImage

set_option autoImplicit false
set_option relaxedAutoImplicit false

namespace HitConsistency.Log.DiskRefinement

open HitConsistency.Base.ByteFields
open HitConsistency.Base.RecordFile
open HitConsistency.Log.Entry
open HitConsistency.Log.MemoryLog
open HitConsistency.Log.SegmentBytes
open HitConsistency.Log.SegmentContents
open HitConsistency.Log.SegmentFile
open HitConsistency.Log.SegmentImage
open HitConsistency.Log.SegmentReload

variable {lib : ByteLibrary} {codec : ConfigurationCodec} {seg seg' : Segment}
  {disk : DiskSegment} {checksumType : CheckSumType}

structure Refines (lib : ByteLibrary) (seg : Segment) (disk : DiskSegment) : Prop where
  first : disk.firstIndex = seg.firstIndex
  last : disk.lastIndex = seg.lastIndex
  isOpen : disk.isOpen = seg.isOpen
  pending : disk.pendingForClosing = seg.pendingForClosing
  counter : disk.vaildEntriesCounter = seg.vaildEntriesCounter
  bytes : disk.bytes = seg.bytes
  array : disk.offsetAndTermArray = seg.offsetAndTermArray
  ends : disk.endOffsetAndTermArray = seg.endOffsetAndTermArray
  stored : Stored lib disk.checksumType seg.file disk.disk

theorem refines_create (lib : ByteLibrary) (checksumType : CheckSumType) (first : Int) :
    Refines lib (.new first) (.create checksumType first) :=
  ⟨rfl, rfl, rfl, rfl, rfl, rfl, rfl, rfl, .nil⟩

/-- The record that `append` writes of an entry. -/
def entryRecord (codec : ConfigurationCodec) (entry : LogEntry) : EntryRecord :=
  ⟨entry.id.term, entry.id.index, entry.dependency, entry.type, (dataOf codec entry).join.getD []⟩

section Append

theorem Refines.isFullfilled (h : Refines lib seg disk) :
    disk.isFullfilled = seg.isFullfilled := by
  rw [DiskSegment.isFullfilled, Segment.isFullfilled, h.last, h.first, h.counter]

theorem Refines.close (h : Refines lib seg disk) : Refines lib seg.close disk.close :=
  ⟨h.first, h.last, rfl, rfl, h.counter, h.bytes, h.array, h.ends, h.stored⟩

theorem Refines.write {r : EntryRecord} (h : Refines lib seg disk) (hpack : Packable r) :
    Refines lib (seg.write r) (disk.write lib r) := by
  have hlen := length_packEntry lib disk.checksumType r
  constructor
  · exact h.first
  · simp only [DiskSegment.write, Segment.write, h.last]
  · exact h.isOpen
  · exact h.pending
  · simp only [DiskSegment.write, Segment.write, h.counter]
  · simp only [DiskSegment.write, Segment.write, h.bytes, hlen]
  · simp only [DiskSegment.write, Segment.write, h.first, h.bytes, h.array]
  · simp only [DiskSegment.write, Segment.write, h.first, h.bytes, h.ends, hlen]
  · exact h.stored.push (holds_packEntry hpack)

theorem refines_append {entry : LogEntry} {written : Bool} (h : Refines lib seg disk)
    (hpack : seg.isOpen = true → (dataOf codec entry).join.isSome →
      Packable (entryRecord codec entry))
    (happend : seg.append codec entry = some (seg', written)) :
    ∃ disk', disk.append lib codec entry = some (disk', written) ∧ Refines lib seg' disk' ∧
      disk'.checksumType = disk.checksumType := by
  rw [DiskSegment.append, h.isOpen, h.first]
  rw [Segment.append] at happend
  cases hopen : seg.isOpen with
  | false =>
    rw [hopen] at happend
    cases happend
    exact ⟨disk, rfl, h, rfl⟩
  | true =>
    rw [hopen] at happend
    cases hdata : dataOf codec entry with
    | none =>
      rw [hdata] at happend
      cases happend
    | some written =>
      rw [hdata] at happend
      cases written with
      | none =>
        cases happend
        exact ⟨disk, rfl, h, rfl⟩
      | some data =>
        have hwrite := h.write (hpack hopen (by rw [hdata]; rfl))
        rw [entryRecord, hdata, Option.join_some, Option.getD_some] at hwrite
        simp only [Bool.not_true, Bool.false_eq_true, if_false] at happend ⊢
        split at happend
        · rename_i hfits
          rw [if_pos hfits]
          cases happend
          rw [hwrite.isFullfilled, hwrite.pending]
          refine ⟨_, rfl, ?_⟩
          split
          · exact ⟨hwrite.close, rfl⟩
          · exact ⟨hwrite, rfl⟩
        · cases happend

theorem append_defined {entry : LogEntry} {result : DiskSegment × Bool}
    (h : Refines lib seg disk) (happend : disk.append lib codec entry = some result) :
    ∃ seg' written, seg.append codec entry = some (seg', written) := by
  rw [DiskSegment.append, h.isOpen, h.first] at happend
  rw [Segment.append]
  split at happend
  · rename_i hclosed
    rw [if_pos hclosed]
    exact ⟨seg, false, rfl⟩
  · rename_i hopen
    rw [if_neg hopen]
    cases hdata : dataOf codec entry with
    | none =>
      rw [hdata] at happend
      cases happend
    | some written =>
      rw [hdata] at happend
      cases written with
      | none => exact ⟨seg, false, rfl⟩
      | some data =>
        dsimp only at happend ⊢
        split at happend
        · rename_i hfits
          rw [if_pos hfits]
          exact ⟨_, true, rfl⟩
        · cases happend

/-- Without a truncation a scan of the file finds the end offsets as well. -/
def EndsFiled (seg : Segment) : Prop :=
  Intact seg.file →
    seg.endOffsetAndTermArray = (scanned seg.firstIndex seg.file).endOffsetAndTermArray

theorem endsFiled_append {entry : LogEntry} (hfiled : Filed codec seg) (hends : EndsFiled seg)
    (happend : seg.append codec entry = some (seg', true)) : EndsFiled seg' := by
  obtain ⟨-, data, -, -, -, hcases⟩ := append_cases happend
  have hwrite (r : EntryRecord) : EndsFiled (seg.write r) := by
    intro hintact
    have hold : Intact seg.file := fun r' hr' => hintact r' (List.mem_append_left _ hr')
    simp only [Segment.write, scanned_push, Loading.enter, hends hold, hfiled.entryOff hold]
  rcases hcases with rfl | ⟨-, -, rfl⟩
  · exact hwrite _
  · exact hwrite _

end Append

section Truncate

private theorem refines_dropEntry (h : Refines lib seg disk) (hsound : Sound codec seg)
    (index : Int) :
    Refines lib (seg.dropEntry index) (disk.dropEntry lib index) := by
  rw [Segment.dropEntry, DiskSegment.dropEntry, h.first, h.array]
  by_cases hterm : (seg.offsetAndTermArray (index - seg.firstIndex)).2 = 0
  · rw [if_neg (not_not.mpr hterm), if_neg (not_not.mpr hterm)]
    exact h
  · obtain ⟨r, hr, -⟩ := hsound.points _ hterm
    rw [if_pos hterm, if_pos hterm]
    exact ⟨rfl, h.last, h.isOpen, h.pending, congrArg (· - 1) h.counter, h.bytes, rfl, h.ends,
      h.stored.invalidateAt hr⟩

private theorem refines_dropEntries (n : Nat) (index : Int) (h : Refines lib seg disk)
    (hsound : Sound codec seg) :
    Refines lib (seg.dropEntries n index) (disk.dropEntries lib n index) := by
  induction n generalizing index seg disk with
  | zero => exact h
  | succ n ih =>
    exact ih (index + 1) (refines_dropEntry h hsound index) (sound_dropEntry hsound index).1

private theorem checksumType_dropEntries (n : Nat) (index : Int) (disk : DiskSegment) :
    (disk.dropEntries lib n index).checksumType = disk.checksumType := by
  induction n generalizing index disk with
  | zero => rfl
  | succ n ih =>
    rw [DiskSegment.dropEntries, ih, DiskSegment.dropEntry]
    split
    · rfl
    · rfl

theorem refines_truncate {kept : Int} (h : Refines lib seg disk) (hsound : Sound codec seg)
    (htruncate : seg.truncate kept = some seg') :
    ∃ disk', disk.truncate lib kept = some disk' ∧ Refines lib seg' disk' ∧
      disk'.checksumType = disk.checksumType := by
  rw [DiskSegment.truncate, h.last, h.first]
  rw [Segment.truncate] at htruncate
  split at htruncate
  · rename_i hkept
    cases htruncate
    rw [if_pos hkept]
    exact ⟨disk, rfl, h, rfl⟩
  · rename_i hkept
    split at htruncate
    · cases htruncate
    · rename_i hfirst
      cases htruncate
      rw [if_neg hkept, if_neg hfirst]
      have hdrop := refines_dropEntries (seg.lastIndex - kept).toNat (kept + 1) h hsound
      refine ⟨_, rfl, ?_, checksumType_dropEntries _ _ _⟩
      exact ⟨hdrop.first, rfl, rfl, hdrop.pending, hdrop.counter, hdrop.bytes, hdrop.array,
        hdrop.ends, hdrop.stored⟩

theorem truncate_defined {kept : Int} {result : DiskSegment} (h : Refines lib seg disk)
    (htruncate : disk.truncate lib kept = some result) : ∃ seg', seg.truncate kept = some seg' := by
  rw [DiskSegment.truncate, h.last, h.first] at htruncate
  rw [Segment.truncate]
  split at htruncate
  · rename_i hkept
    exact ⟨seg, if_pos hkept⟩
  · rename_i hkept
    rw [if_neg hkept]
    split at htruncate
    · cases htruncate
    · rename_i hfirst
      rw [if_neg hfirst]
      exact ⟨_, rfl⟩

end Truncate

section Load

variable {cm cm' : ConfigurationManager}

private theorem records_entryOff {first i : Int} {l l' : Loading} {rs : List EntryRecord}
    (h : Loading.records codec first i l rs = some l') :
    l'.entryOff = l.entryOff + fileSize EntryRecord.size rs := by
  induction rs generalizing i l with
  | nil =>
    cases h
    rfl
  | cons r rest ih =>
    rw [Loading.records] at h
    split at h
    · cases h
    · split at h
      · obtain ⟨next, hconf, hrest⟩ := Option.bind_eq_some_iff.mp h
        rw [ih hrest, fileSize_cons, ← Nat.add_assoc, ← addConfiguration_entryOff hconf]
        rfl
      · cases h

/-- A fresh segment, whatever its file and its checksum type. -/
structure Fresh (seg : Segment) (disk : DiskSegment) : Prop where
  first : disk.firstIndex = seg.firstIndex
  last : disk.lastIndex = seg.lastIndex
  isOpen : disk.isOpen = seg.isOpen
  array : disk.offsetAndTermArray = fun _ => (-1, 0)
  ends : disk.endOffsetAndTermArray = fun _ => (-1, 0)

theorem Refines.fresh (h : Refines lib seg disk) : Fresh (refile seg) disk.refile := by
  rw [SegmentReload.refile, DiskSegment.refile, h.isOpen, h.first, h.last]
  split
  · exact ⟨rfl, rfl, rfl, rfl, rfl⟩
  · exact ⟨rfl, rfl, rfl, rfl, rfl⟩

/-- A load of a fresh segment on a file that a cut may have torn: the torn entry is cut
off, the rest is entered as the records are. -/
theorem load_stored {torn bytes : List UInt8} (h : Fresh seg disk)
    (hdisk : disk.disk = bytes ++ torn) (hstored : Stored lib checksumType seg.file bytes)
    (htorn : Torn lib checksumType torn) (hload : seg.load codec cm = some (seg', cm'))
    {fuel : Nat} (hfuel : seg.file.length < fuel) :
    ∃ disk', disk.load lib codec fuel cm = some (0, disk', cm') ∧ disk'.disk = bytes ∧
      disk'.firstIndex = seg'.firstIndex ∧ disk'.lastIndex = seg'.lastIndex ∧
      disk'.bytes = bytes.length ∧ disk'.offsetAndTermArray = seg'.offsetAndTermArray ∧
      disk'.endOffsetAndTermArray = seg'.endOffsetAndTermArray := by
  obtain ⟨l, hrecords, hrest⟩ := Option.bind_eq_some_iff.mp hload
  have hend : l.entryOff = bytes.length := by
    rw [records_entryOff hrecords, hstored.length]
    exact Nat.zero_add _
  have hloop : loadLoop lib codec seg.firstIndex ([] ++ (bytes ++ torn)) fuel seg.firstIndex
      (.start seg.firstIndex cm) = some (0, l) :=
    loadLoop_stored hstored htorn hfuel rfl hrecords
  have hstart : (⟨disk.offsetAndTermArray, disk.endOffsetAndTermArray, disk.firstIndex - 1, 0,
      cm⟩ : Loading) = .start seg.firstIndex cm := by
    rw [h.array, h.ends, h.first]
    rfl
  have hcut : (if (0 : Int) = 0 ∧ l.entryOff ≠ (bytes ++ torn).length then
      (bytes ++ torn).take l.entryOff else bytes ++ torn) = bytes := by
    rw [hend]
    split
    · exact List.take_left' rfl
    · rename_i hsame
      have hnil : torn = [] := by
        rw [← List.length_eq_zero_iff]
        simp only [ne_eq, List.length_append, true_and, not_not] at hsame
        omega
      rw [hnil, List.append_nil]
  split at hrest
  · cases hrest
  · rename_i hlast
    cases hrest
    have hret : ¬ ((0 : Int) = 0 ∧ (!disk.isOpen) = true ∧ l.actualLastIndex < disk.lastIndex) := by
      rw [h.isOpen, h.last]
      exact fun hsame => hlast hsame.2
    rw [List.nil_append] at hloop
    rw [DiskSegment.load, hstart, h.first, hdisk, hloop, Option.map_some]
    dsimp only
    rw [if_neg hret, hcut]
    refine ⟨_, rfl, rfl, rfl, ?_, hend, rfl, rfl⟩
    dsimp only
    rw [h.isOpen, h.last]

private theorem refile_disk (disk : DiskSegment) : disk.refile.disk = disk.disk := by
  rw [DiskSegment.refile]
  split
  · rfl
  · rfl

theorem load_refines (h : Refines lib seg disk)
    (hload : (refile seg).load codec cm = some (seg', cm')) {fuel : Nat} (hfuel : seg.file.length < fuel) :
    ∃ disk', disk.refile.load lib codec fuel cm = some (0, disk', cm') ∧
      disk'.disk = disk.disk ∧ disk'.firstIndex = seg'.firstIndex ∧
      disk'.lastIndex = seg'.lastIndex ∧ disk'.bytes = disk.disk.length ∧
      disk'.offsetAndTermArray = seg'.offsetAndTermArray ∧
      disk'.endOffsetAndTermArray = seg'.endOffsetAndTermArray := by
  have hdisk : disk.refile.disk = disk.disk ++ [] := by rw [refile_disk, List.append_nil]
  have hstored : Stored lib disk.checksumType (refile seg).file disk.disk := by
    rw [refile_file]
    exact h.stored
  exact load_stored h.fresh hdisk hstored (.inl rfl) hload (by rwa [refile_file])

theorem load_diverges (h : Refines lib seg disk) (hfiled : Filed codec seg)
    (hbroken : ¬ Intact seg.file) (fuel : Nat) (cm : ConfigurationManager) :
    disk.refile.load lib codec fuel cm = none := by
  have hloop (first i : Int) (l : Loading) (hoff : l.entryOff = 0) :
      loadLoop lib codec first ([] ++ disk.disk) fuel i l = none :=
    loadLoop_truncated h.stored hfiled.parses hbroken hoff fuel
  rw [DiskSegment.load, refile_disk]
  exact Option.map_eq_none_iff.mpr (hloop _ _ _ rfl)

end Load

end HitConsistency.Log.DiskRefinement
