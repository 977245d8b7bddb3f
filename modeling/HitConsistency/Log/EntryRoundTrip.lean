/- GID: HitConsistency/Log/EntryRoundTrip
   digest: An entry that a segment takes is read back from its bytes, wherever they lie. -/

import HitConsistency.Base.GuardedRuns
import HitConsistency.Log.SegmentImage

set_option autoImplicit false
set_option relaxedAutoImplicit false

/-!
A segment writes behind its file and notes the place by `_bytes`, so the two must agree.
They do behind every call; what the file holds and what the arrays say of it is open. From
then on the bytes of an entry stay where they are.
-/

namespace HitConsistency.Log.EntryRoundTrip

open HitConsistency.Base.ByteFields
open HitConsistency.Base.GuardedRuns
open HitConsistency.Log.Entry
open HitConsistency.Log.MemoryLog
open HitConsistency.Log.SegmentBytes
open HitConsistency.Log.SegmentFile
open HitConsistency.Log.SegmentImage

/-- A segment behind `create`, or behind a `load` of any file that succeeded, and any calls. -/
inductive Reached (lib : ByteLibrary) (codec : ConfigurationCodec) : DiskSegment → Prop
  | create (checksumType : CheckSumType) (firstIndex : Int) :
      Reached lib codec (.create checksumType firstIndex)
  | load {fuel : Nat} {file seg : DiskSegment} {cm cm' : ConfigurationManager} :
      file.refile.load lib codec fuel cm = some (0, seg, cm') → Reached lib codec seg
  | append {seg seg' : DiskSegment} {entry : LogEntry} {written : Bool} :
      Reached lib codec seg → seg.append lib codec entry = some (seg', written) →
        Reached lib codec seg'
  | truncate {seg seg' : DiskSegment} {lastIndexKept : Int} :
      Reached lib codec seg → seg.truncate lib lastIndexKept = some seg' → Reached lib codec seg'
  | prepareToClose {seg : DiskSegment} :
      Reached lib codec seg → Reached lib codec seg.prepareToClose
  | close {seg : DiskSegment} : Reached lib codec seg → Reached lib codec seg.close

/-- An entry of a type that is written, each of its fields within the header's. -/
structure Admissible (codec : ConfigurationCodec) (entry : LogEntry) : Prop where
  type : entry.type = .data ∨ entry.type = .noOp ∨ entry.type = .configuration
  term : entry.id.term ≠ 0 ∧ -2 ^ 63 ≤ entry.id.term ∧ entry.id.term < 2 ^ 63
  index : -2 ^ 63 ≤ entry.id.index ∧ entry.id.index < 2 ^ 63
  payload : ∀ data ∈ (dataOf codec entry).join, data.length < 2 ^ 32
  oldPeers : entry.type = .configuration → entry.oldPeers ≠ some []

/-- What an entry of its type carries: a payload, or peers, or neither. -/
def carried (entry : LogEntry) : LogEntry :=
  match entry.type with
  | .data => { entry with peers := none, oldPeers := none }
  | .configuration => { entry with data := [] }
  | .noOp | .unknown | .o3 => { entry with peers := none, oldPeers := none, data := [] }

variable {lib : ByteLibrary} {codec : ConfigurationCodec} {seg seg' : DiskSegment}
  {entry : LogEntry} {r : EntryRecord}

section Settled

/-- `_bytes` is the end of the file, and an entry of the arrays has its term in the file. -/
structure Settled (seg : DiskSegment) : Prop where
  bytes : seg.bytes = seg.disk.length
  within : ∀ k, (seg.offsetAndTermArray k).2 ≠ 0 →
    (seg.offsetAndTermArray k).1.toNat + 8 ≤ seg.disk.length

private theorem settled_create (checksumType : CheckSumType) (firstIndex : Int) :
    Settled (.create checksumType firstIndex) := ⟨rfl, fun _ hterm => absurd rfl hterm⟩

theorem Settled.write (h : Settled seg) (r : EntryRecord) : Settled (seg.write lib r) := by
  have hsize : 8 ≤ (packEntry lib seg.checksumType r).length := by
    rw [length_packEntry]
    exact Nat.le_add_right_of_le (by decide)
  constructor
  · simp only [DiskSegment.write, List.length_append, h.bytes]
  · intro k hterm
    simp only [DiskSegment.write, List.length_append] at hterm ⊢
    by_cases hk : k = r.index - seg.firstIndex
    · rw [hk, Function.update_self, Int.toNat_natCast, h.bytes]
      omega
    · rw [Function.update_of_ne hk] at hterm ⊢
      have hold := h.within k hterm
      omega

/-- What an append leaves: the segment as it was, or with the entry behind its file, which
may have closed it. -/
theorem append_cases {written : Bool} (h : seg.append lib codec entry = some (seg', written)) :
    seg' = seg ∧ written = false ∨ ∃ data, dataOf codec entry = some (some data) ∧ written = true ∧
      0 ≤ entry.id.index - seg.firstIndex ∧
      (seg' = seg.write lib ⟨entry.id.term, entry.id.index, entry.dependency, entry.type, data⟩ ∨
        seg' = (seg.write lib
          ⟨entry.id.term, entry.id.index, entry.dependency, entry.type, data⟩).close) := by
  unfold DiskSegment.append at h
  split at h
  · cases h
    exact .inl ⟨rfl, rfl⟩
  · split at h
    · cases h
    · cases h
      exact .inl ⟨rfl, rfl⟩
    · rename_i data hdata
      split at h
      · rename_i hfits
        cases h
        refine .inr ⟨data, hdata, rfl, hfits.1, ?_⟩
        split
        · exact .inr rfl
        · exact .inl rfl
      · cases h

theorem Settled.append {written : Bool} (h : Settled seg)
    (happend : seg.append lib codec entry = some (seg', written)) : Settled seg' := by
  rcases append_cases happend with ⟨rfl, -⟩ | ⟨data, -, -, -, rfl | rfl⟩
  · exact h
  · exact h.write _
  · exact ⟨(h.write _).bytes, (h.write _).within⟩

theorem Settled.dropEntry (h : Settled seg) (index : Int) : Settled (seg.dropEntry lib index) := by
  unfold DiskSegment.dropEntry
  dsimp only
  split
  · rename_i hterm
    have hfits := h.within _ hterm
    have hlength : (overwrite seg.disk (seg.offsetAndTermArray (index - seg.firstIndex)).1.toNat
        (lib.pack64 0)).length = seg.disk.length := by
      simp only [overwrite, List.length_append, List.length_take, List.length_drop,
        lib.length_pack64]
      omega
    constructor
    · exact h.bytes.trans hlength.symm
    · intro k hk
      rw [hlength]
      by_cases heq : k = index - seg.firstIndex
      · subst heq
        simp only [Function.update_self] at hk
        exact absurd rfl hk
      · simp only [Function.update_of_ne heq] at hk ⊢
        exact h.within k hk
  · exact h

theorem Settled.dropEntries (n : Nat) (index : Int) (h : Settled seg) :
    Settled (seg.dropEntries lib n index) := by
  induction n generalizing index seg with
  | zero => exact h
  | succ n ih => exact ih (index + 1) (h.dropEntry index)

theorem Settled.truncate {lastIndexKept : Int} (h : Settled seg)
    (htruncate : seg.truncate lib lastIndexKept = some seg') : Settled seg' := by
  unfold DiskSegment.truncate at htruncate
  split at htruncate
  · cases htruncate
    exact h
  · split at htruncate
    · cases htruncate
    · cases htruncate
      have hdropped : Settled (seg.dropEntries lib (seg.lastIndex - lastIndexKept).toNat
        (lastIndexKept + 1)) := h.dropEntries _ _
      exact ⟨hdropped.bytes, hdropped.within⟩

end Settled

section Load

/-- The loop stays in front of the end of the file, and enters what lies behind it. -/
structure Entered (size : Nat) (l : Loading) : Prop where
  entryOff : l.entryOff ≤ size
  within : ∀ k, (l.offsetAndTermArray k).2 ≠ 0 →
    (l.offsetAndTermArray k).1.toNat + 8 ≤ l.entryOff

private theorem loadConfiguration_eq {disk : List UInt8} {i : Int} {l l' : Loading}
    {header : EntryHeader}
    (hconf : loadConfiguration lib codec disk i l header = .ok l') :
    ∃ cm, l' = { l with configurationManager := cm } := by
  unfold loadConfiguration at hconf
  split at hconf
  · split at hconf
    · cases hconf
    · split at hconf
      · cases hconf
      · cases hconf
        exact ⟨_, rfl⟩
  · cases hconf
    exact ⟨l.configurationManager, rfl⟩

theorem Entered.enterHeader {size : Nat} {first : Int} {l : Loading} {header : EntryHeader}
    (h : Entered size l) (hfits : l.entryOff + (entryHeaderSize + header.dataLen) ≤ size) :
    Entered size (SegmentBytes.enterHeader first l header) := by
  refine ⟨hfits, fun k hterm => ?_⟩
  simp only [SegmentBytes.enterHeader, entryHeaderSize] at hterm ⊢
  by_cases hk : k = header.index - first
  · rw [hk, Function.update_self, Int.toNat_natCast]
    omega
  · rw [Function.update_of_ne hk] at hterm ⊢
    have hold := h.within k hterm
    omega

theorem Entered.loadLoop {first : Int} {disk : List UInt8} {fuel : Nat} {i ret : Int}
    {l l' : Loading} (h : Entered disk.length l)
    (hloop : SegmentBytes.loadLoop lib codec first disk fuel i l = some (ret, l')) :
    Entered disk.length l' := by
  induction fuel generalizing i l with
  | zero => cases hloop
  | succ fuel ih =>
    unfold SegmentBytes.loadLoop at hloop
    split at hloop
    · cases hloop
      exact h
    · split at hloop
      · split at hloop
        · exact ih h hloop
        · split at hloop
          · cases hloop
            exact h
          · cases hloop
            exact h
      · split at hloop
        · cases hloop
          exact h
        · rename_i hfits
          split at hloop
          · cases hloop
            exact h
          · rename_i hconf
            obtain ⟨cm, rfl⟩ := loadConfiguration_eq hconf
            have hkept : Entered disk.length { l with configurationManager := cm } :=
              ⟨h.entryOff, h.within⟩
            split at hloop
            · exact ih (hkept.enterHeader (not_lt.mp hfits)) hloop
            · cases hloop

private theorem load_cases {fuel : Nat} {file : DiskSegment} {cm cm' : ConfigurationManager}
    (hload : file.load lib codec fuel cm = some (0, seg, cm')) :
    ∃ ret l, loadLoop lib codec file.firstIndex file.disk fuel file.firstIndex
        ⟨file.offsetAndTermArray, file.endOffsetAndTermArray, file.firstIndex - 1, 0, cm⟩ =
          some (ret, l) ∧
      seg.bytes = l.entryOff ∧ seg.offsetAndTermArray = l.offsetAndTermArray ∧
      seg.disk = if l.entryOff ≠ file.disk.length then file.disk.take l.entryOff else file.disk := by
  unfold DiskSegment.load at hload
  obtain ⟨⟨ret, l⟩, hloop, hresult⟩ := Option.map_eq_some_iff.mp hload
  dsimp only at hresult
  generalize (if ret = 0 ∧ (!file.isOpen) = true ∧ l.actualLastIndex < file.lastIndex then -1
    else ret) = result at hresult
  simp only [Prod.mk.injEq] at hresult
  obtain ⟨rfl, rfl, -⟩ := hresult
  exact ⟨ret, l, hloop, rfl, rfl, by simp⟩

private theorem settled_load {fuel : Nat} {file : DiskSegment} {cm cm' : ConfigurationManager}
    (hload : file.refile.load lib codec fuel cm = some (0, seg, cm')) : Settled seg := by
  obtain ⟨ret, l, hloop, hbytes, harray, hdisk⟩ := load_cases hload
  have hfresh : file.refile.offsetAndTermArray = fun _ => (-1, 0) := by
    unfold DiskSegment.refile
    split <;> rfl
  rw [hfresh] at hloop
  have hentered : Entered file.refile.disk.length l :=
    Entered.loadLoop ⟨Nat.zero_le _, fun _ hterm => absurd rfl hterm⟩ hloop
  have hlength : seg.disk.length = l.entryOff := by
    rw [hdisk]
    split
    · rw [List.length_take]
      exact Nat.min_eq_left hentered.entryOff
    · rename_i hwhole
      exact (not_not.mp hwhole).symm
  constructor
  · rw [hbytes, hlength]
  · rw [harray, hlength]
    exact hentered.within

theorem Reached.settled (h : Reached lib codec seg) : Settled seg := by
  induction h with
  | create checksumType firstIndex => exact settled_create checksumType firstIndex
  | load hload => exact settled_load hload
  | append _ happend ih => exact ih.append happend
  | truncate _ htruncate ih => exact ih.truncate htruncate
  | prepareToClose _ ih => exact ⟨ih.bytes, ih.within⟩
  | close _ ih => exact ⟨ih.bytes, ih.within⟩

end Load

section Read

/-- The file holds a record, and the arrays say where. -/
structure Holds (lib : ByteLibrary) (r : EntryRecord) (seg : DiskSegment) : Prop where
  range : seg.firstIndex ≤ r.index ∧ r.index ≤ seg.lastIndex
  placed : ∃ checksumType pre post, seg.disk = pre ++ (packEntry lib checksumType r ++ post) ∧
    seg.offsetAndTermArray (r.index - seg.firstIndex) = ((pre.length : Int), r.term) ∧
    seg.endOffsetAndTermArray (r.index - seg.firstIndex) =
      (((pre.length + r.size : Nat) : Int), r.term)

private theorem Settled.holds_write (h : Settled seg) (hlow : 0 ≤ r.index - seg.firstIndex) :
    Holds lib r (seg.write lib r) := by
  refine ⟨⟨by simp only [DiskSegment.write]; omega, le_max_right _ _⟩, ?_⟩
  refine ⟨seg.checksumType, seg.disk, [], ?_, ?_, ?_⟩
  · simp only [DiskSegment.write, List.append_nil]
  · simp only [DiskSegment.write, Function.update_self, h.bytes]
  · simp only [DiskSegment.write, Function.update_self, h.bytes, length_packEntry]

theorem Holds.write {other : EntryRecord} (h : Holds lib r seg) (hne : other.index ≠ r.index) :
    Holds lib r (seg.write lib other) := by
  obtain ⟨⟨hlow, hhigh⟩, checksumType, pre, post, hdisk, hoffset, hend⟩ := h
  have hk : r.index - seg.firstIndex ≠ other.index - seg.firstIndex := by omega
  refine ⟨⟨hlow, le_max_of_le_left hhigh⟩, checksumType, pre,
    post ++ packEntry lib seg.checksumType other, ?_, ?_, ?_⟩
  · simp only [DiskSegment.write, hdisk, List.append_assoc]
  · simp only [DiskSegment.write, Function.update_of_ne hk, hoffset]
  · simp only [DiskSegment.write, Function.update_of_ne hk, hend]

theorem Holds.append {written : Bool} (h : Holds lib r seg) (hne : entry.id.index ≠ r.index)
    (happend : seg.append lib codec entry = some (seg', written)) : Holds lib r seg' := by
  rcases append_cases happend with ⟨rfl, -⟩ | ⟨data, -, -, -, rfl | rfl⟩
  · exact h
  · exact h.write hne
  · have hwritten : Holds lib r (seg.write lib
        ⟨entry.id.term, entry.id.index, entry.dependency, entry.type, data⟩) := h.write hne
    exact ⟨hwritten.range, hwritten.placed⟩

private theorem typeOfCode_typeCode (type : EntryType) : typeOfCode
    (typeCode type) = some type := by
  cases type <;> rfl

theorem Holds.get (h : Holds lib r seg) (hpack : Packable r) (hterm : r.term ≠ 0) :
    seg.get lib codec r.index = r.toEntry codec r.index := by
  obtain ⟨⟨hlow, hhigh⟩, checksumType, pre, post, hdisk, hoffset, hend⟩ := h
  have hlength : ((pre.length + r.size : Nat) : Int) - pre.length = r.size := by omega
  have hmeta : seg.getMeta r.index = some ((pre.length : Int), (r.size : Int), r.term) := by
    unfold DiskSegment.getMeta
    rw [if_neg (by omega)]
    simp only [hoffset, hend, hlength, ne_eq, hterm, not_false_eq_true, if_true]
  unfold DiskSegment.get
  rw [hmeta]
  show (loadEntry lib seg.disk (pre.length : Int).toNat (r.size : Int).toNat).toOption.bind _ = _
  rw [Int.toNat_natCast, Int.toNat_natCast, hdisk, loadEntry_packEntry hpack hterm]
  show (typeOfCode (typeCode r.type)).bind _ = _
  rw [typeOfCode_typeCode]
  rfl

end Read

theorem Admissible.packable {data : List UInt8} (h : Admissible codec entry)
    (hdata : dataOf codec entry = some (some data)) :
    Packable ⟨entry.id.term, entry.id.index, entry.dependency, entry.type, data⟩ :=
  ⟨h.term.2, h.index, h.payload data (by rw [hdata]; rfl)⟩

theorem Admissible.toEntry {data : List UInt8} (h : Admissible codec entry)
    (hdata : dataOf codec entry = some (some data)) :
    EntryRecord.toEntry codec
      ⟨entry.id.term, entry.id.index, entry.dependency, entry.type, data⟩ entry.id.index =
        some (carried entry) := by
  have hread : Storable (carried entry) → dataOf codec (carried entry) = some (some data) →
      EntryRecord.toEntry codec ⟨(carried entry).id.term, (carried entry).id.index,
        (carried entry).dependency, (carried entry).type, data⟩ (carried entry).id.index =
          some (carried entry) := by
    intro hstorable hsame
    obtain ⟨data', hdata', hread⟩ := hstorable.toEntry_dataOf codec
    cases hsame.symm.trans hdata'
    exact hread
  obtain ⟨type, id, dependency, peers, oldPeers, payload⟩ := entry
  cases type with
  | unknown => cases hdata
  | o3 => cases hdata
  | noOp => exact hread ⟨rfl, rfl, rfl⟩ hdata
  | data => exact hread ⟨rfl, rfl⟩ hdata
  | configuration =>
    obtain ⟨peers, rfl, -⟩ := dataOf_configuration codec rfl hdata
    exact hread ⟨rfl, h.oldPeers rfl, rfl⟩ hdata

theorem Reached.holds_append (h : Reached lib codec seg)
    (happend : seg.append lib codec entry = some (seg', true)) :
    ∃ data, dataOf codec entry = some (some data) ∧
      Holds lib ⟨entry.id.term, entry.id.index, entry.dependency, entry.type, data⟩ seg' := by
  rcases append_cases happend with ⟨-, hrefused⟩ | ⟨data, hdata, -, hlow, hbehind⟩
  · cases hrefused
  · have hwritten : Holds lib _ (seg.write lib ⟨entry.id.term, entry.id.index, entry.dependency,
      entry.type, data⟩) := h.settled.holds_write hlow
    rcases hbehind with rfl | rfl
    · exact ⟨data, hdata, hwritten⟩
    · exact ⟨data, hdata, hwritten.range, hwritten.placed⟩

/-- The calls of `append` with other entries, one after the other. -/
def appendNext (lib : ByteLibrary) (codec : ConfigurationCodec) (seg : DiskSegment)
    (other : LogEntry) : Option DiskSegment := (seg.append lib codec other).map Prod.fst

/-- An entry that a segment takes is read back as it was, whatever entries of other indexes
are appended behind it. -/
theorem get_appended (lib : ByteLibrary) (codec : ConfigurationCodec)
    {seg behind last : DiskSegment} {entry : LogEntry} {further : List LogEntry}
    (h : Reached lib codec seg) (hentry : Admissible codec entry)
    (happend : seg.append lib codec entry = some (behind, true))
    (hother : ∀ other ∈ further, other.id.index ≠ entry.id.index)
    (hrun : runEvents (appendNext lib codec) behind further = some last) :
    last.get lib codec entry.id.index = some (carried entry) := by
  obtain ⟨data, hdata, hheld⟩ := h.holds_append happend
  have hkept : ∀ seg other seg', Holds lib ⟨entry.id.term, entry.id.index, entry.dependency,
      entry.type, data⟩ seg → other.id.index ≠ entry.id.index →
        appendNext lib codec seg other = some seg' → Holds lib ⟨entry.id.term,
          entry.id.index, entry.dependency, entry.type, data⟩ seg' := by
    intro seg other seg' hholds hne hstep
    obtain ⟨⟨seg', written⟩, hother, rfl⟩ := Option.map_eq_some_iff.mp hstep
    exact hholds.append hne hother
  have hlast := invariant_of_step hkept hheld (guarded_of_forall hother) hrun
  exact (hlast.get (hentry.packable hdata) hentry.term.1).trans (hentry.toEntry hdata)

private def dataAt (index : Int) (data : List UInt8) : LogEntry :=
  ⟨.data, ⟨index, 3⟩, 5, none, none, data⟩

private def writeData (seg : DiskSegment) (index : Int) (data : List UInt8) : DiskSegment :=
  seg.write .networkOrder ⟨3, index, 5, .data, data⟩

/-- Index 2 is written over, and index 1 follows behind it. -/
theorem get_appended_twice : ∃ seg behind last,
    (DiskSegment.create .crc32 1).append .networkOrder .unary (dataAt 2 [7, 7]) =
      some (seg, true) ∧
    seg.append .networkOrder .unary (dataAt 2 [9]) = some (behind, true) ∧
    runEvents (appendNext .networkOrder .unary) behind [dataAt 1 []] = some last ∧
    last.get .networkOrder .unary 2 = some (dataAt 2 [9]) := by
  let seg := writeData (.create .crc32 1) 2 [7, 7]
  let behind := writeData seg 2 [9]
  let last := writeData behind 1 []
  have hseg : (DiskSegment.create .crc32 1).append .networkOrder .unary (dataAt 2 [7, 7]) =
      some (seg, true) := rfl
  have hbehind : seg.append .networkOrder .unary (dataAt 2 [9]) = some (behind, true) := rfl
  have hlast : runEvents (appendNext .networkOrder .unary) behind [dataAt 1 []] = some last := rfl
  have hentry : Admissible .unary (dataAt 2 [9]) :=
    ⟨.inl rfl, by decide, by decide, by decide, by decide⟩
  have hread : last.get .networkOrder .unary (dataAt 2 [9]).id.index = some (carried (dataAt 2 [9])) :=
    get_appended .networkOrder .unary (.append (.create .crc32 1) hseg) hentry hbehind
      (by decide) hlast
  exact ⟨seg, behind, last, hseg, hbehind, hlast, hread⟩

end HitConsistency.Log.EntryRoundTrip
