/- GID: HitConsistency/Log/TornWrites
   digest: A segment cut at any byte is loaded as the entries that were completely written. -/

import HitConsistency.Log.DiskRefinement

set_option autoImplicit false
set_option relaxedAutoImplicit false

namespace HitConsistency.Log.TornWrites

open HitConsistency.Log.DiskRefinement
open HitConsistency.Log.Entry
open HitConsistency.Log.MemoryLog
open HitConsistency.Log.SegmentBytes
open HitConsistency.Log.SegmentContents
open HitConsistency.Log.SegmentFile
open HitConsistency.Log.SegmentImage
open HitConsistency.Log.SegmentReload

/-- `append` of one entry after the other, each of them written. -/
def appendAll (lib : ByteLibrary) (codec : ConfigurationCodec) :
    DiskSegment → List LogEntry → Option DiskSegment
  | disk, [] => some disk
  | disk, entry :: rest => do
      let (disk, written) ← disk.append lib codec entry
      if written then appendAll lib codec disk rest else none

/-- A DATA or NO_OP entry of a valid term, within the arrays of a segment. -/
def Writable (first : Int) (entry : LogEntry) : Prop :=
  (entry.type = .data ∨ entry.type = .noOp) ∧ (1 ≤ entry.id.term ∧ entry.id.term < 2 ^ 63) ∧
    (-2 ^ 63 ≤ entry.id.index ∧ entry.id.index < 2 ^ 63) ∧ entry.data.length < 2 ^ 32 ∧
    0 ≤ entry.id.index - first ∧ entry.id.index - first < arraySize

instance writableDecidable (first : Int) (entry : LogEntry) : Decidable (Writable first entry) :=
  inferInstanceAs (Decidable ((_ ∨ _) ∧ (_ ∧ _) ∧ (_ ∧ _) ∧ _ ∧ _ ∧ _))

/-- The entries of which the first `n` bytes of the file hold the last byte. -/
def completelyWritten (codec : ConfigurationCodec) : Nat → List LogEntry → List LogEntry
  | _, [] => []
  | n, entry :: rest =>
      let size := (entryRecord codec entry).size
      if size ≤ n then entry :: completelyWritten codec (n - size) rest else []

variable {lib : ByteLibrary} {codec : ConfigurationCodec} {checksumType : CheckSumType}
  {first : Int} {entry : LogEntry} {entries : List LogEntry} {seg : Segment} {disk : DiskSegment}

private theorem Writable.hasData (h : Writable first entry) (codec : ConfigurationCodec) :
    ∃ data, dataOf codec entry = some (some data) ∧ data.length < 2 ^ 32 := by
  obtain ⟨htype, -, -, hdata, -⟩ := h
  rcases htype with htype | htype
  · exact ⟨entry.data, by rw [dataOf, htype], hdata⟩
  · exact ⟨[], by rw [dataOf, htype], by decide⟩

theorem Writable.packable (h : Writable first entry) (codec : ConfigurationCodec) :
    Packable (entryRecord codec entry) ∧ (entryRecord codec entry).term ≠ 0 := by
  obtain ⟨data, hdata, hlen⟩ := h.hasData codec
  obtain ⟨-, ⟨hlow, hhigh⟩, hindex, -⟩ := h
  refine ⟨⟨⟨?_, hhigh⟩, hindex, ?_⟩, ?_⟩
  · simp only [entryRecord]
    omega
  · rw [entryRecord, hdata]
    exact hlen
  · simp only [entryRecord]
    omega

private theorem completelyWritten_initial (codec : ConfigurationCodec) (n : Nat)
    (entries : List LogEntry) : completelyWritten codec n entries <+: entries := by
  induction entries generalizing n with
  | nil => exact List.prefix_rfl
  | cons entry rest ih =>
    rw [completelyWritten]
    split
    · exact (List.prefix_cons_inj entry).mpr (ih _)
    · exact List.nil_prefix

private theorem take_image (lib : ByteLibrary) (codec : ConfigurationCodec)
    (checksumType : CheckSumType)
    (hall : ∀ entry ∈ entries, Writable first entry) (n : Nat) :
    ∃ torn, Torn lib checksumType torn ∧
      (image lib checksumType (entries.map (entryRecord codec))).take n =
        image lib checksumType ((completelyWritten codec n entries).map (entryRecord codec)) ++
          torn := by
  induction entries generalizing n with
  | nil => exact ⟨[], .inl rfl, by simp [image, completelyWritten]⟩
  | cons entry rest ih =>
    have hlen := length_packEntry lib checksumType (entryRecord codec entry)
    rw [completelyWritten, List.map_cons, image, List.flatMap_cons, List.take_append, hlen]
    by_cases hwhole : (entryRecord codec entry).size ≤ n
    · obtain ⟨torn, htorn, hrest⟩ := ih (fun e he => hall e (by simp [he]))
        (n - (entryRecord codec entry).size)
      refine ⟨torn, htorn, ?_⟩
      rw [List.take_of_length_le (by rw [hlen]; exact hwhole)]
      simp only [if_pos hwhole, List.map_cons]
      rw [image, List.flatMap_cons, List.append_assoc]
      exact congrArg _ hrest
    · obtain ⟨hpack, hterm⟩ := (hall entry (by simp)).packable codec
      refine ⟨_, .inr ⟨_, n, hpack, hterm, by omega, rfl⟩, ?_⟩
      rw [Nat.sub_eq_zero_of_le (by omega)]
      simp [hwhole, image]

/-- An open segment that has been written the given entries. -/
structure Wrote (lib : ByteLibrary) (codec : ConfigurationCodec) (checksumType : CheckSumType)
    (first : Int) (entries : List LogEntry) (seg : Segment) (disk : DiskSegment) : Prop where
  refines : Refines lib seg disk
  filed : Filed codec seg
  ends : EndsFiled seg
  first : seg.firstIndex = first
  isOpen : seg.isOpen = true
  pending : seg.pendingForClosing = false
  file : seg.file = entries.map (entryRecord codec)
  checksumType : disk.checksumType = checksumType

private theorem wrote_create (lib : ByteLibrary) (codec : ConfigurationCodec)
    (checksumType : CheckSumType)
    (first : Int) :
    Wrote lib codec checksumType first [] (.new first) (.create checksumType first) :=
  ⟨refines_create lib checksumType first, filed_new codec first, fun _ => rfl, rfl, rfl, rfl, rfl,
    rfl⟩

theorem Wrote.append (h : Wrote lib codec checksumType first entries seg disk)
    (hentry : Writable first entry) :
    ∃ seg' disk', disk.append lib codec entry = some (disk', true) ∧
      Wrote lib codec checksumType first (entries ++ [entry]) seg' disk' := by
  obtain ⟨data, hdata, -⟩ := hentry.hasData codec
  have hfits := hentry.2.2.2.2
  rw [← h.first] at hfits
  obtain ⟨seg', happend⟩ := append_succeeds h.isOpen hdata hfits.1 hfits.2
  obtain ⟨disk', hdisk, hrefines, htype⟩ :=
    refines_append h.refines (fun _ _ => (hentry.packable codec).1) happend
  have hrecord : entryRecord codec entry =
      ⟨entry.id.term, entry.id.index, entry.dependency, entry.type, data⟩ := by
    rw [entryRecord, hdata]
    rfl
  have hwrite : seg' = seg.write (entryRecord codec entry) := by
    obtain ⟨-, data', hdata', -, -, hcases⟩ := append_cases happend
    rw [hdata] at hdata'
    cases hdata'
    rw [hrecord]
    rcases hcases with rfl | ⟨hpending, -⟩
    · rfl
    · rw [h.pending] at hpending
      cases hpending
  refine ⟨seg', disk', hdisk, hrefines, filed_append h.filed happend,
    endsFiled_append h.filed h.ends happend, ?_, ?_, ?_, ?_, htype.trans h.checksumType⟩
  · rw [hwrite]
    exact h.first
  · rw [hwrite]
    exact h.isOpen
  · rw [hwrite]
    exact h.pending
  · rw [hwrite, List.map_append, List.map_singleton, ← h.file]
    rfl

private theorem Wrote.appendAll {more : List LogEntry}
    (h : Wrote lib codec checksumType first entries seg disk)
    (hall : ∀ entry ∈ more, Writable first entry) :
    ∃ seg' disk', TornWrites.appendAll lib codec disk more = some disk' ∧
      Wrote lib codec checksumType first (entries ++ more) seg' disk' := by
  induction more generalizing entries seg disk with
  | nil => exact ⟨seg, disk, rfl, by rwa [List.append_nil]⟩
  | cons entry more ih =>
    obtain ⟨seg', disk', happend, hwrote⟩ := h.append (hall entry (by simp))
    obtain ⟨seg'', disk'', hrest, hwrote'⟩ := ih hwrote fun e he => hall e (by simp [he])
    refine ⟨seg'', disk'', ?_, ?_⟩
    · rw [TornWrites.appendAll, happend]
      exact hrest
    · rwa [List.append_assoc] at hwrote'

theorem Wrote.intact (h : Wrote lib codec checksumType first entries seg disk)
    (hall : ∀ entry ∈ entries, Writable first entry) : Intact seg.file := by
  rw [h.file]
  intro r hr
  obtain ⟨entry, hentry, rfl⟩ := List.mem_map.mp hr
  exact ((hall entry hentry).packable codec).2

private theorem Wrote.disk_eq (h : Wrote lib codec checksumType first entries seg disk)
    (hall : ∀ entry ∈ entries, Writable first entry) :
    disk.disk = image lib checksumType (entries.map (entryRecord codec)) := by
  have hstored := h.refines.stored
  rw [h.checksumType] at hstored
  rw [hstored.eq_image (h.intact hall), h.file]

/-- What a load must find behind a cut: the segment as it is behind the given one. -/
def LoadsAs (lib : ByteLibrary) (codec : ConfigurationCodec) (fuel : Nat)
    (fresh : DiskSegment) (cm : ConfigurationManager) (whole : DiskSegment) : Prop :=
  ∃ loaded cm', fresh.load lib codec fuel cm = some (0, loaded, cm') ∧
    loaded.disk = whole.disk ∧ loaded.bytes = whole.disk.length ∧
    loaded.offsetAndTermArray = whole.offsetAndTermArray ∧
    loaded.endOffsetAndTermArray = whole.endOffsetAndTermArray ∧
    loaded.lastIndex = whole.lastIndex

/-- A fresh segment on a file of written entries, cut at any byte, loads as the segment
that was written the entries in front of the cut, and its file is cut behind them. -/
theorem cut_loads (lib : ByteLibrary) (codec : ConfigurationCodec)
    (checksumType freshType : CheckSumType) (first : Int) (entries : List LogEntry)
    (hall : ∀ entry ∈ entries, Writable first entry) :
    ∃ disk, appendAll lib codec (.create checksumType first) entries = some disk ∧
      ∀ n, ∃ whole, whole.disk <+: disk.disk.take n ∧
        appendAll lib codec (.create checksumType first) (completelyWritten codec n entries) =
          some whole ∧
        ∀ fuel cm, entries.length < fuel →
          LoadsAs lib codec fuel (.openFile freshType first (disk.disk.take n)) cm whole := by
  obtain ⟨seg, disk, happend, hwrote⟩ := (wrote_create lib codec checksumType first).appendAll hall
  rw [List.nil_append] at hwrote
  refine ⟨disk, happend, fun n => ?_⟩
  have hinitial := completelyWritten_initial codec n entries
  have hall' : ∀ entry ∈ completelyWritten codec n entries, Writable first entry :=
    fun entry hentry => hall entry (hinitial.subset hentry)
  obtain ⟨seg', whole, happend', hwrote'⟩ :=
    (wrote_create lib codec checksumType first).appendAll hall'
  rw [List.nil_append] at hwrote'
  obtain ⟨torn, htorn, htake⟩ := take_image lib codec checksumType hall n
  have hcut : disk.disk.take n = whole.disk ++ torn := by
    rw [hwrote.disk_eq hall, htake, hwrote'.disk_eq hall']
  refine ⟨whole, ⟨torn, hcut.symm⟩, happend', fun fuel cm hfuel => ?_⟩
  have hrefines := hwrote'.refines
  have hintact := hwrote'.intact hall'
  obtain ⟨cm', hload⟩ := load_intact hwrote'.filed hintact cm
  have hrefile : refile seg' = openFile first seg'.file := by
    rw [refile, hwrote'.isOpen, if_pos rfl, hwrote'.first]
  have hfresh : Fresh (refile seg') (.openFile freshType first (disk.disk.take n)) := by
    rw [hrefile]
    exact ⟨rfl, rfl, rfl, rfl, rfl⟩
  have hstored : Stored lib checksumType (refile seg').file whole.disk := by
    have h := hrefines.stored
    rwa [hwrote'.checksumType, ← refile_file] at h
  have hshort : (refile seg').file.length < fuel := by
    rw [refile_file, hwrote'.file, List.length_map]
    exact lt_of_le_of_lt hinitial.length_le hfuel
  obtain ⟨loaded, hloaded, hbytes, -, hlast, hend, harray, hends⟩ :=
    load_stored hfresh hcut hstored htorn hload hshort
  refine ⟨loaded, cm', hloaded, hbytes, hend, ?_, ?_, ?_⟩
  · rw [harray, hrefines.array, hwrote'.filed.array hintact]
    rfl
  · rw [hends, hrefines.ends, hwrote'.ends hintact]
    rfl
  · rw [hlast, hrefines.last]
    rfl

private def entryOf (type : EntryType) (index : Int) (data : List UInt8) : LogEntry :=
  ⟨type, ⟨index, 3⟩, 0, none, none, data⟩

/-- Index 2 is written again behind index 1. -/
theorem writtenTwice_cut_loads :
    ∃ disk, appendAll .networkOrder .unary (.create .crc32 1)
        [entryOf .data 2 [7, 7], entryOf .noOp 1 [], entryOf .data 2 [9]] = some disk ∧
      ∀ n, ∃ whole, whole.disk <+: disk.disk.take n ∧
        appendAll .networkOrder .unary (.create .crc32 1)
          (completelyWritten .unary n
            [entryOf .data 2 [7, 7], entryOf .noOp 1 [], entryOf .data 2 [9]]) = some whole ∧
        ∀ fuel cm, 3 < fuel →
          LoadsAs .networkOrder .unary fuel (.openFile .murmurhash32 1 (disk.disk.take n)) cm
            whole :=
  cut_loads .networkOrder .unary .crc32 .murmurhash32 1 _ (by decide)

end HitConsistency.Log.TornWrites
