/- GID: HitConsistency/Log/TruncatedFile
   digest: A segment loads back exactly if none of its entries was truncated. -/

import HitConsistency.Base.GuardedRuns
import HitConsistency.Log.DiskRefinement

set_option autoImplicit false
set_option relaxedAutoImplicit false

namespace HitConsistency.Log.TruncatedFile

open HitConsistency.Base.GuardedRuns
open HitConsistency.Log.DiskRefinement
open HitConsistency.Log.Entry
open HitConsistency.Log.MemoryLog
open HitConsistency.Log.SegmentBytes
open HitConsistency.Log.SegmentContents
open HitConsistency.Log.SegmentFile
open HitConsistency.Log.SegmentImage
open HitConsistency.Log.SegmentReload

inductive Event
  | append (entry : LogEntry)
  | truncate (lastIndexKept : Int)
  | prepareToClose
  | close

/-- A refused append leaves the segment as it is; only an open segment is closed. -/
def step (lib : ByteLibrary) (codec : ConfigurationCodec) (seg : DiskSegment) :
    Event → Option DiskSegment
  | .append entry => (seg.append lib codec entry).map Prod.fst
  | .truncate lastIndexKept => seg.truncate lib lastIndexKept
  | .prepareToClose => some seg.prepareToClose
  | .close => if seg.isOpen then some seg.close else none

/-- A fresh segment on the file is loaded, and reads as the segment does. -/
def Restores (lib : ByteLibrary) (codec : ConfigurationCodec) (seg : DiskSegment) : Prop :=
  ∀ cm, ∃ fuel loaded cm', seg.refile.load lib codec fuel cm = some (0, loaded, cm') ∧
    (∀ i, loaded.get lib codec i = seg.get lib codec i ∧ loaded.getTerm i = seg.getTerm i) ∧
    (seg.isOpen = true → loaded.lastIndex = seg.lastIndex)

/-- Every segment that a run reaches is restored from its file. -/
def LoadsBack (lib : ByteLibrary) (codec : ConfigurationCodec) (checksumType : CheckSumType)
    (first : Int) (events : List Event) : Prop :=
  ∀ pre post seg, events = pre ++ post →
    runEvents (step lib codec) (.create checksumType first) pre = some seg →
      Restores lib codec seg

/-- What is written fits the fields of its header. -/
def Fits (codec : ConfigurationCodec) (seg : DiskSegment) : Event → Prop
  | .append entry =>
      seg.isOpen = true → (dataOf codec entry).join.isSome = true → Packable (entryRecord codec entry)
  | .truncate _ | .prepareToClose | .close => True

/-- What is written has a term, and a truncation drops nothing. -/
def LosesNothing (codec : ConfigurationCodec) (seg : DiskSegment) : Event → Prop
  | .append entry =>
      seg.isOpen = true → (dataOf codec entry).join.isSome = true → entry.id.term ≠ 0
  | .truncate lastIndexKept => seg.lastIndex ≤ lastIndexKept
  | .prepareToClose | .close => True

instance fitsDecidable (codec : ConfigurationCodec) (seg : DiskSegment) :
    ∀ event, Decidable (Fits codec seg event)
  | .append _ => inferInstanceAs (Decidable (_ → _ → _))
  | .truncate _ => inferInstanceAs (Decidable True)
  | .prepareToClose => inferInstanceAs (Decidable True)
  | .close => inferInstanceAs (Decidable True)

instance losesNothingDecidable (codec : ConfigurationCodec) (seg : DiskSegment) :
    ∀ event, Decidable (LosesNothing codec seg event)
  | .append _ => inferInstanceAs (Decidable (_ → _ → _))
  | .truncate _ => inferInstanceAs (Decidable (_ ≤ _))
  | .prepareToClose => inferInstanceAs (Decidable True)
  | .close => inferInstanceAs (Decidable True)

variable {lib : ByteLibrary} {codec : ConfigurationCodec} {seg seg' : Segment}
  {disk disk' : DiskSegment} {checksumType : CheckSumType} {first : Int} {event : Event}
  {events : List Event}

/-- A segment on its bytes beside the segment on its records. -/
structure Mirrored (lib : ByteLibrary) (codec : ConfigurationCodec) (seg : Segment)
    (disk : DiskSegment) : Prop where
  refines : Refines lib seg disk
  sound : Sound codec seg
  filed : Filed codec seg
  ends : EndsFiled seg

private theorem mirrored_create (lib : ByteLibrary) (codec : ConfigurationCodec)
    (checksumType : CheckSumType) (first : Int) :
    Mirrored lib codec (.new first) (.create checksumType first) :=
  ⟨refines_create lib checksumType first, sound_new codec first, filed_new codec first,
    fun _ => rfl⟩

private theorem intact_push {file : List EntryRecord} {r : EntryRecord} :
    Intact (file ++ [r]) ↔ Intact file ∧ r.term ≠ 0 := by
  simp [Intact, or_imp, forall_and]

theorem Mirrored.append {entry : LogEntry} {written : Bool} (h : Mirrored lib codec seg disk)
    (hfits : Fits codec disk (.append entry))
    (happend : disk.append lib codec entry = some (disk', written)) :
    ∃ seg', Mirrored lib codec seg' disk' ∧
      (Intact seg'.file ↔ Intact seg.file ∧ LosesNothing codec disk (.append entry)) := by
  obtain ⟨seg', written', hseg⟩ := append_defined h.refines happend
  have hopen := h.refines.isOpen
  obtain ⟨disk'', hdisk, hrefines, -⟩ := refines_append h.refines (hopen ▸ hfits) hseg
  rw [happend] at hdisk
  cases hdisk
  cases written with
  | false =>
    obtain ⟨rfl, hnone⟩ := append_refused hseg
    refine ⟨seg', ⟨hrefines, h.sound, h.filed, h.ends⟩, iff_self_and.mpr fun _ hopen' hdata => ?_⟩
    rw [hnone (hopen ▸ hopen')] at hdata
    cases hdata
  | true =>
    refine ⟨seg', ⟨hrefines, (sound_append h.sound hseg).1, filed_append h.filed hseg,
      endsFiled_append h.filed h.ends hseg⟩, ?_⟩
    obtain ⟨htaken, data, hdata, -, -, hcases⟩ := append_cases hseg
    have hfile : seg'.file =
        seg.file ++ [⟨entry.id.term, entry.id.index, entry.dependency, entry.type, data⟩] := by
      rcases hcases with rfl | ⟨-, -, rfl⟩
      · rfl
      · rfl
    rw [hfile, intact_push]
    refine and_congr_right fun _ => ⟨fun hterm _ _ => hterm, fun hloses => ?_⟩
    exact hloses (hopen.trans htaken) (by rw [hdata]; rfl)

theorem Mirrored.truncate {kept : Int} (h : Mirrored lib codec seg disk)
    (htruncate : disk.truncate lib kept = some disk') :
    ∃ seg', Mirrored lib codec seg' disk' ∧
      (Intact seg'.file ↔ Intact seg.file ∧ LosesNothing codec disk (.truncate kept)) := by
  obtain ⟨seg', hseg⟩ := truncate_defined h.refines htruncate
  obtain ⟨disk'', hdisk, hrefines, -⟩ := refines_truncate h.refines h.sound hseg
  rw [htruncate] at hdisk
  cases hdisk
  have hlast := h.refines.last
  by_cases hkept : seg.lastIndex ≤ kept
  · rw [Segment.truncate, if_pos hkept] at hseg
    cases hseg
    refine ⟨seg, ⟨hrefines, h.sound, h.filed, h.ends⟩, iff_self_and.mpr fun _ => ?_⟩
    simp only [LosesNothing]
    omega
  · obtain ⟨hfiled, hbroken⟩ := filed_truncate h.sound h.filed (by omega) hseg
    have hfirst : seg.firstIndex ≤ kept + 1 := by
      by_contra hlt
      rw [Segment.truncate, if_neg hkept, if_pos (by omega)] at hseg
      cases hseg
    obtain ⟨seg'', hseg'', hsound, -⟩ := sound_truncate h.sound hfirst (by omega)
    rw [hseg] at hseg''
    cases hseg''
    refine ⟨seg', ⟨hrefines, hsound, hfiled, fun hintact => absurd hintact hbroken⟩,
      iff_of_false hbroken ?_⟩
    simp only [LosesNothing]
    omega

private theorem SameContents.mirrored (h : Mirrored lib codec seg disk)
    (hsame : SameContents seg seg')
    (hends : seg'.endOffsetAndTermArray = seg.endOffsetAndTermArray)
    (hrefines : Refines lib seg' disk') : Mirrored lib codec seg' disk' := by
  refine ⟨hrefines, hsame.sound h.sound, SegmentReload.SameContents.filed hsame h.filed, ?_⟩
  rw [EndsFiled, hsame.file, hsame.first, hends]
  exact h.ends

theorem Mirrored.step (h : Mirrored lib codec seg disk) (hfits : Fits codec disk event)
    (hstep : step lib codec disk event = some disk') :
    ∃ seg', Mirrored lib codec seg' disk' ∧
      (Intact seg'.file ↔ Intact seg.file ∧ LosesNothing codec disk event) := by
  cases event with
  | append entry =>
    obtain ⟨⟨next, written⟩, happend, rfl⟩ := Option.map_eq_some_iff.mp hstep
    exact h.append hfits happend
  | truncate kept => exact h.truncate hstep
  | prepareToClose =>
    cases hstep
    have hrefines := h.refines
    exact ⟨seg.prepareToClose, SameContents.mirrored h (sameContents_prepareToClose seg) rfl
      ⟨hrefines.first, hrefines.last, hrefines.isOpen, rfl, hrefines.counter, hrefines.bytes,
        hrefines.array, hrefines.ends, hrefines.stored⟩, iff_self_and.mpr fun _ => trivial⟩
  | close =>
    simp only [TruncatedFile.step] at hstep
    split at hstep
    · cases hstep
      exact ⟨seg.close, SameContents.mirrored h (sameContents_close seg) rfl h.refines.close,
        iff_self_and.mpr fun _ => trivial⟩
    · cases hstep

theorem Mirrored.run (h : Mirrored lib codec seg disk)
    (hfits : Guarded (TruncatedFile.step lib codec) (Fits codec) disk events)
    (hrun : runEvents (TruncatedFile.step lib codec) disk events = some disk') :
    ∃ seg', Mirrored lib codec seg' disk' ∧ (Intact seg'.file ↔ Intact seg.file ∧
      Guarded (TruncatedFile.step lib codec) (LosesNothing codec) disk events) := by
  induction events generalizing seg disk with
  | nil =>
    cases hrun
    exact ⟨seg, h, iff_self_and.mpr fun _ => trivial⟩
  | cons event events ih =>
    obtain ⟨next, hstep, hrest⟩ := runEvents_cons_eq_some.mp hrun
    obtain ⟨seg', hnext, hintact⟩ := h.step hfits.1 hstep
    obtain ⟨seg'', hend, hintact'⟩ := ih hnext (hfits.2 next hstep) hrest
    refine ⟨seg'', hend, ?_⟩
    rw [hintact', hintact, and_assoc]
    refine and_congr_right fun _ => and_congr_right fun _ => ?_
    simp [hstep]

private theorem get_congr {loaded : DiskSegment} (hfirst : loaded.firstIndex = disk.firstIndex)
    (hlast : loaded.lastIndex = disk.lastIndex)
    (harray : loaded.offsetAndTermArray = disk.offsetAndTermArray)
    (hends : loaded.endOffsetAndTermArray = disk.endOffsetAndTermArray)
    (hdisk : loaded.disk = disk.disk) (i : Int) :
    loaded.get lib codec i = disk.get lib codec i ∧ loaded.getTerm i = disk.getTerm i := by
  have hmeta : loaded.getMeta i = disk.getMeta i := by
    rw [DiskSegment.getMeta, DiskSegment.getMeta, hfirst, hlast, harray, hends]
  refine ⟨?_, ?_⟩
  · rw [DiskSegment.get, DiskSegment.get, hmeta, hdisk]
  · rw [DiskSegment.getTerm, DiskSegment.getTerm, hmeta]

theorem Mirrored.restores (h : Mirrored lib codec seg disk) (hintact : Intact seg.file) :
    Restores lib codec disk := by
  intro cm
  have hrefines := h.refines
  obtain ⟨cm', hload⟩ := load_intact h.filed hintact cm
  obtain ⟨loaded, hloaded, hdisk, hfirst, hlast, -, harray, hends⟩ :=
    load_refines hrefines hload (Nat.lt_succ_self _)
  have hlast' : loaded.lastIndex = disk.lastIndex := hlast.trans hrefines.last.symm
  refine ⟨_, loaded, cm', hloaded, fun i => ?_, fun _ => hlast'⟩
  apply get_congr _ hlast' _ _ hdisk
  · exact hfirst.trans ((refile_first seg).trans hrefines.first.symm)
  · exact harray.trans ((h.filed.array hintact).symm.trans hrefines.array.symm)
  · exact hends.trans ((h.ends hintact).symm.trans hrefines.ends.symm)

private theorem Mirrored.restores_iff (h : Mirrored lib codec seg disk) :
    Restores lib codec disk ↔ Intact seg.file := by
  refine ⟨fun hrestores => ?_, h.restores⟩
  by_contra hbroken
  obtain ⟨fuel, loaded, cm', hload, -⟩ := hrestores .new
  rw [load_diverges h.refines h.filed hbroken] at hload
  cases hload

/-- A run of entries that fit ends in a segment that is restored exactly if it lost
nothing on its way. -/
private theorem restores_iff_losesNothing (lib : ByteLibrary) (codec : ConfigurationCodec)
    (checksumType : CheckSumType) (first : Int) {events : List Event} {disk : DiskSegment}
    (hfits : Guarded (step lib codec) (Fits codec) (.create checksumType first) events)
    (hrun : runEvents (step lib codec) (.create checksumType first) events = some disk) :
    Restores lib codec disk ↔
      Guarded (step lib codec) (LosesNothing codec) (.create checksumType first) events := by
  obtain ⟨seg, hend, hintact⟩ := (mirrored_create lib codec checksumType first).run hfits hrun
  rw [hend.restores_iff, hintact, and_iff_right]
  intro r hr
  cases hr

theorem loads_back (lib : ByteLibrary) (codec : ConfigurationCodec) (checksumType : CheckSumType)
    (first : Int) (events : List Event)
    (hguard : Guarded (step lib codec)
      (fun seg event => Fits codec seg event ∧ LosesNothing codec seg event)
      (.create checksumType first) events) :
    LoadsBack lib codec checksumType first events := by
  intro pre post seg hsplit hrun
  subst hsplit
  have hpre := guarded_iff.mp (guarded_append_left hguard)
  have hfits : Guarded (step lib codec) (Fits codec) (.create checksumType first) pre :=
    guarded_iff.mpr fun front event back s hsplit hfront =>
      (hpre front event back s hsplit hfront).1
  refine (restores_iff_losesNothing lib codec checksumType first hfits hrun).mpr ?_
  exact guarded_iff.mpr fun front event back s hsplit hfront =>
    (hpre front event back s hsplit hfront).2

section Samples

private def dataEntry (index : Int) : LogEntry := ⟨.data, ⟨index, 1⟩, 0, none, none, [5]⟩

/-- Index 1 comes late and twice, and a truncation keeps all of it. -/
theorem lateEntry_loads_back : LoadsBack .networkOrder .unary .crc32 1
    [.append (dataEntry 2), .append (dataEntry 1), .truncate 2, .append (dataEntry 1)] :=
  loads_back .networkOrder .unary .crc32 1 _ (by decide)

/-- One truncated entry, and the load never returns. -/
theorem truncated_never_loads : ¬ LoadsBack .networkOrder .unary .crc32 1
    [.append (dataEntry 1), .append (dataEntry 2), .truncate 1] := by
  intro h
  have hrun : ∃ disk, runEvents (step .networkOrder .unary) (.create .crc32 1)
      [.append (dataEntry 1), .append (dataEntry 2), .truncate 1] = some disk := ⟨_, rfl⟩
  obtain ⟨disk, hrun⟩ := hrun
  have hrestores := h _ [] disk (List.append_nil _).symm hrun
  rw [restores_iff_losesNothing .networkOrder .unary .crc32 1 (by decide) hrun] at hrestores
  exact absurd hrestores (by decide)

end Samples

end HitConsistency.Log.TruncatedFile
