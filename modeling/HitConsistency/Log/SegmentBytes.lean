/- GID: HitConsistency/Log/SegmentBytes
   digest: One segment on its bytes: headers, checksums, append, truncate, load and get. -/

import HitConsistency.Base.ByteFields
import HitConsistency.Log.SegmentFile

set_option autoImplicit false
set_option relaxedAutoImplicit false

/-!
The file of a segment is a list of bytes. A header of 40 bytes stands before the data
of every entry; it holds the length of the data and two checksums. No read or write of
the file fails, and a file ends where its last write did. Packing and checksums are
those of a base library.
-/

namespace HitConsistency.Log.SegmentBytes

open HitConsistency.Base.ByteFields
open HitConsistency.Group.Peers
open HitConsistency.Log.Entry
open HitConsistency.Log.MemoryLog
open HitConsistency.Log.SegmentFile

/-- `RawPacker`, `RawUnpacker` and the hash functions of the base library. -/
structure ByteLibrary where
  pack32 : BitVec 32 → List UInt8
  pack64 : BitVec 64 → List UInt8
  unpack32 : List UInt8 → BitVec 32
  unpack64 : List UInt8 → BitVec 64
  length_pack32 : ∀ v, (pack32 v).length = 4
  length_pack64 : ∀ v, (pack64 v).length = 8
  unpack32_pack32 : ∀ v, unpack32 (pack32 v) = v
  unpack64_pack64 : ∀ v, unpack64 (pack64 v) = v
  murmurhash32 : List UInt8 → BitVec 32
  crc32 : List UInt8 → BitVec 32

namespace ByteLibrary

private def mixBlock (k : BitVec 32) : BitVec 32 :=
  (k * 0xcc9e2d51#32).rotateLeft 15 * 0x1b873593#32

private def mixHash (h k : BitVec 32) : BitVec 32 :=
  (h ^^^ mixBlock k).rotateLeft 13 * 5#32 + 0xe6546b64#32

private def littleEndian (bytes : List UInt8) : BitVec 32 :=
  .ofNat 32 (unpackBytes bytes.reverse)

/-- The blocks of four bytes, then what is left. -/
private def murmurBlocks (h : BitVec 32) : List UInt8 → BitVec 32
  | a :: b :: c :: d :: rest => murmurBlocks (mixHash h (littleEndian [a, b, c, d])) rest
  | tail => h ^^^ mixBlock (littleEndian tail)

/-- `MurmurHash3_x86_32` with seed 0. -/
def murmurHash3 (bytes : List UInt8) : BitVec 32 :=
  let h := murmurBlocks 0 bytes ^^^ .ofNat 32 bytes.length
  let h := (h ^^^ h >>> 16) * 0x85ebca6b#32
  let h := (h ^^^ h >>> 13) * 0xc2b2ae35#32
  h ^^^ h >>> 16

private def crcBit (crc : BitVec 32) : BitVec 32 :=
  if crc.getLsbD 0 then crc >>> 1 ^^^ 0x82f63b78#32 else crc >>> 1

/-- CRC-32C, one bit after the other. -/
def crc32c (bytes : List UInt8) : BitVec 32 :=
  ~~~ bytes.foldl (fun crc b => crcBit^[8] (crc ^^^ .ofNat 32 b.toNat)) (BitVec.allOnes 32)

def networkOrder : ByteLibrary where
  pack32 v := packBytes 4 v.toNat
  pack64 v := packBytes 8 v.toNat
  unpack32 bytes := .ofNat 32 (unpackBytes bytes)
  unpack64 bytes := .ofNat 64 (unpackBytes bytes)
  length_pack32 v := length_packBytes 4 v.toNat
  length_pack64 v := length_packBytes 8 v.toNat
  unpack32_pack32 v := by
    rw [unpackBytes_packBytes, show 256 ^ 4 = 2 ^ 32 from rfl, Nat.mod_eq_of_lt v.isLt,
      BitVec.ofNat_toNat, BitVec.setWidth_eq]
  unpack64_pack64 v := by
    rw [unpackBytes_packBytes, show 256 ^ 8 = 2 ^ 64 from rfl, Nat.mod_eq_of_lt v.isLt,
      BitVec.ofNat_toNat, BitVec.setWidth_eq]
  murmurhash32 := murmurHash3
  crc32 := crc32c

end ByteLibrary

inductive CheckSumType
  | murmurhash32 | crc32
  deriving DecidableEq

def CheckSumType.code : CheckSumType → Nat
  | .murmurhash32 => 0
  | .crc32 => 1

/-- The numbers of `EntryType`. -/
def typeCode : EntryType → Nat
  | .unknown => 0
  | .noOp => 1
  | .data => 2
  | .configuration => 3
  | .o3 => 4

def typeOfCode : Nat → Option EntryType
  | 0 => some .unknown
  | 1 => some .noOp
  | 2 => some .data
  | 3 => some .configuration
  | 4 => some .o3
  | _ => none

structure EntryHeader where
  term : Int
  index : Int
  dependency : BitVec 64
  type : Nat
  checksumType : Nat
  dataLen : Nat
  dataChecksum : BitVec 32
  deriving DecidableEq

def entryHeaderSize : Nat := 40

section Library

variable (lib : ByteLibrary)

def getChecksum (checksumType : CheckSumType) (data : List UInt8) : BitVec 32 :=
  match checksumType with
  | .murmurhash32 => lib.murmurhash32 data
  | .crc32 => lib.crc32 data

/-- A type that is not known verifies nothing. -/
def verifyChecksum (checksumType : Nat) (data : List UInt8) (value : BitVec 32) : Bool :=
  match checksumType with
  | 0 => value = lib.murmurhash32 data
  | 1 => value = lib.crc32 data
  | _ => false

def metaField (type : EntryType) (checksumType : CheckSumType) : BitVec 32 :=
  BitVec.ofNat 32 (typeCode type) <<< 24 ||| BitVec.ofNat 32 checksumType.code <<< 16

def packFields (checksumType : CheckSumType) (r : EntryRecord) : List UInt8 :=
  lib.pack64 (.ofInt 64 r.term) ++ (lib.pack64 (.ofInt 64 r.index) ++
    (lib.pack64 r.dependency ++ (lib.pack32 (metaField r.type checksumType) ++
      (lib.pack32 (.ofNat 32 r.data.length) ++ lib.pack32 (getChecksum lib checksumType r.data)))))

def packHeader (checksumType : CheckSumType) (r : EntryRecord) : List UInt8 :=
  let fields := packFields lib checksumType r
  fields ++ lib.pack32 (getChecksum lib checksumType fields)

/-- What `append` writes of an entry. -/
def packEntry (checksumType : CheckSumType) (r : EntryRecord) : List UInt8 :=
  packHeader lib checksumType r ++ r.data

def unpackHeader (p : List UInt8) : EntryHeader :=
  let metaField := lib.unpack32 (slice p 24 4)
  { term := (lib.unpack64 (slice p 0 8)).toInt
    index := (lib.unpack64 (slice p 8 8)).toInt
    dependency := lib.unpack64 (slice p 16 8)
    type := (metaField >>> 24).toNat
    checksumType := (metaField <<< 8 >>> 24).toNat
    dataLen := (lib.unpack32 (slice p 28 4)).toNat
    dataChecksum := lib.unpack32 (slice p 32 4) }

def headerChecksum (p : List UInt8) : BitVec 32 := lib.unpack32 (slice p 36 4)

/-- `_load_entry` without a place for the data: its result code, or the header and what
was read with it. -/
def loadHeader (disk : List UInt8) (offset sizeHint : Nat) :
    Except Int (EntryHeader × List UInt8) :=
  let toRead := max sizeHint entryHeaderSize
  let buf := slice disk offset toRead
  if buf.length ≠ toRead then .error 1
  else
    let p := buf.take entryHeaderSize
    let header := unpackHeader lib p
    if header.term = 0 then .error (-2)
    else if verifyChecksum lib header.checksumType (p.take (entryHeaderSize - 4))
        (headerChecksum lib p) then .ok (header, buf)
    else .error (-1)

/-- `_load_entry` with one. -/
def loadEntry (disk : List UInt8) (offset sizeHint : Nat) :
    Except Int (EntryHeader × List UInt8) := do
  let (header, buf) ← loadHeader lib disk offset sizeHint
  let whole := entryHeaderSize + header.dataLen
  let buf :=
    if buf.length < whole then buf ++ slice disk (offset + buf.length) (whole - buf.length)
    else buf.take whole
  if buf.length ≠ whole then .error 1
  else
    let data := buf.drop entryHeaderSize
    if verifyChecksum lib header.checksumType data header.dataChecksum then .ok (header, data)
    else .error (-1)

end Library

structure DiskSegment where
  firstIndex : Int
  lastIndex : Int
  isOpen : Bool
  pendingForClosing : Bool
  vaildEntriesCounter : Int
  checksumType : CheckSumType
  bytes : Nat
  offsetAndTermArray : Int → Int × Int
  endOffsetAndTermArray : Int → Int × Int
  disk : List UInt8

namespace DiskSegment

/-- The constructor of an open segment, on a file that is there. -/
def openFile (checksumType : CheckSumType) (firstIndex : Int) (disk : List UInt8) :
    DiskSegment where
  firstIndex := firstIndex
  lastIndex := firstIndex - 1
  isOpen := true
  pendingForClosing := false
  vaildEntriesCounter := 0
  checksumType := checksumType
  bytes := 0
  offsetAndTermArray := fun _ => (-1, 0)
  endOffsetAndTermArray := fun _ => (-1, 0)
  disk := disk

def closedFile (checksumType : CheckSumType) (firstIndex lastIndex : Int) (disk : List UInt8) :
    DiskSegment :=
  { openFile checksumType firstIndex disk with lastIndex := lastIndex, isOpen := false }

/-- `create`. -/
def create (checksumType : CheckSumType) (firstIndex : Int) : DiskSegment :=
  openFile checksumType firstIndex []

def refile (seg : DiskSegment) : DiskSegment :=
  if seg.isOpen then openFile seg.checksumType seg.firstIndex seg.disk
  else closedFile seg.checksumType seg.firstIndex seg.lastIndex seg.disk

def isFullfilled (seg : DiskSegment) : Bool :=
  seg.lastIndex - seg.firstIndex + 1 - seg.vaildEntriesCounter = 0

def prepareToClose (seg : DiskSegment) : DiskSegment := { seg with pendingForClosing := true }

def close (seg : DiskSegment) : DiskSegment :=
  { seg with isOpen := false, pendingForClosing := false }

section Operations

variable (lib : ByteLibrary) (codec : ConfigurationCodec)

def write (seg : DiskSegment) (r : EntryRecord) : DiskSegment :=
  let k := r.index - seg.firstIndex
  let written := packEntry lib seg.checksumType r
  { seg with
    disk := seg.disk ++ written
    offsetAndTermArray := Function.update seg.offsetAndTermArray k (seg.bytes, r.term)
    lastIndex := max seg.lastIndex r.index
    vaildEntriesCounter := seg.vaildEntriesCounter + 1
    bytes := seg.bytes + written.length
    endOffsetAndTermArray :=
      Function.update seg.endOffsetAndTermArray k ((seg.bytes + written.length : Nat), r.term) }

/-- Whether the entry was written; a closed segment takes none. -/
def append (seg : DiskSegment) (entry : LogEntry) : Option (DiskSegment × Bool) :=
  if !seg.isOpen then some (seg, false)
  else match dataOf codec entry with
  | none => none
  | some none => some (seg, false)
  | some (some data) =>
      if 0 ≤ entry.id.index - seg.firstIndex ∧ entry.id.index - seg.firstIndex < arraySize then
        let seg :=
          seg.write lib ⟨entry.id.term, entry.id.index, entry.dependency, entry.type, data⟩
        some (if seg.pendingForClosing ∧ seg.isFullfilled then seg.close else seg, true)
      else none

def dropEntry (seg : DiskSegment) (index : Int) : DiskSegment :=
  let k := index - seg.firstIndex
  let offset := (seg.offsetAndTermArray k).1
  if (seg.offsetAndTermArray k).2 ≠ 0 then
    { seg with
      disk := overwrite seg.disk offset.toNat (lib.pack64 0)
      vaildEntriesCounter := seg.vaildEntriesCounter - 1
      offsetAndTermArray := Function.update seg.offsetAndTermArray k (offset, 0) }
  else seg

def dropEntries : Nat → Int → DiskSegment → DiskSegment
  | 0, _, seg => seg
  | n + 1, index, seg => dropEntries n (index + 1) (seg.dropEntry lib index)

def truncate (seg : DiskSegment) (lastIndexKept : Int) : Option DiskSegment :=
  if seg.lastIndex ≤ lastIndexKept then some seg
  else if lastIndexKept + 1 < seg.firstIndex then none
  else some { dropEntries lib (seg.lastIndex - lastIndexKept).toNat (lastIndexKept + 1) seg with
    isOpen := true
    lastIndex := lastIndexKept }

/-- `_get_meta`: offset, length and term. -/
def getMeta (seg : DiskSegment) (index : Int) : Option (Int × Int × Int) :=
  let k := index - seg.firstIndex
  if seg.lastIndex < index ∨ index < seg.firstIndex then none
  else if (seg.offsetAndTermArray k).2 ≠ 0 then
    some ((seg.offsetAndTermArray k).1,
      (seg.endOffsetAndTermArray k).1 - (seg.offsetAndTermArray k).1,
      (seg.offsetAndTermArray k).2)
  else none

def getTerm (seg : DiskSegment) (index : Int) : Int :=
  ((seg.getMeta index).map fun (_, _, term) => term).getD 0

def get (seg : DiskSegment) (index : Int) : Option LogEntry := do
  let (offset, length, _) ← seg.getMeta index
  let (header, data) ← (loadEntry lib seg.disk offset.toNat length.toNat).toOption
  let type ← typeOfCode header.type
  EntryRecord.toEntry codec ⟨header.term, header.index, header.dependency, type, data⟩ index

end Operations

end DiskSegment

section Load

variable (lib : ByteLibrary) (codec : ConfigurationCodec)

/-- A configuration is read once more, with its data: the loop goes on, or ends with
the result so far. -/
def loadConfiguration (disk : List UInt8) (i : Int) (l : Loading) (header : EntryHeader) :
    Except Int Loading :=
  if header.type = typeCode .configuration then
    match loadEntry lib disk l.entryOff (entryHeaderSize + header.dataLen) with
    | .error _ => .error 0
    | .ok (_, data) =>
        match parseConfigurationMeta codec data with
        | none => .error (-1)
        | some (peers, oldPeers) => .ok { l with
            configurationManager := l.configurationManager.add
              (.ofEntry ⟨.configuration, ⟨i, header.term⟩, header.dependency, some peers,
                oldPeers, []⟩) }
  else .ok l

def enterHeader (firstIndex : Int) (l : Loading) (header : EntryHeader) : Loading :=
  let k := header.index - firstIndex
  let skipLen := entryHeaderSize + header.dataLen
  { l with
    offsetAndTermArray := Function.update l.offsetAndTermArray k (l.entryOff, header.term)
    endOffsetAndTermArray :=
      Function.update l.endOffsetAndTermArray k ((l.entryOff + skipLen : Nat), header.term)
    actualLastIndex := max header.index l.actualLastIndex
    entryOff := l.entryOff + skipLen }

/-- The loop of `load`, with a bound on its rounds: the result and what was entered. -/
def loadLoop (firstIndex : Int) (disk : List UInt8) : Nat → Int → Loading → Option (Int × Loading)
  | 0, _, _ => none
  | fuel + 1, i, l =>
      if disk.length ≤ l.entryOff then some (0, l)
      else match loadHeader lib disk l.entryOff entryHeaderSize with
      | .error rc =>
          -- The offset stays where it is.
          if rc = -2 then loadLoop firstIndex disk fuel (i + 1) l
          else if 0 < rc then some (0, l)
          else some (rc, l)
      | .ok (header, _) =>
          if disk.length < l.entryOff + (entryHeaderSize + header.dataLen) then some (0, l)
          else match loadConfiguration lib codec disk i l header with
          | .error ret => some (ret, l)
          | .ok l =>
              if 0 ≤ header.index - firstIndex ∧ header.index - firstIndex < arraySize then
                loadLoop firstIndex disk fuel (i + 1) (enterHeader firstIndex l header)
              else none

/-- The result, the segment and the configurations behind `load`. -/
def DiskSegment.load (fuel : Nat) (seg : DiskSegment) (cm : ConfigurationManager) :
    Option (Int × DiskSegment × ConfigurationManager) :=
  (loadLoop lib codec seg.firstIndex seg.disk fuel seg.firstIndex
      ⟨seg.offsetAndTermArray, seg.endOffsetAndTermArray, seg.firstIndex - 1, 0, cm⟩).map
    fun (ret, l) =>
      let ret := if ret = 0 ∧ !seg.isOpen ∧ l.actualLastIndex < seg.lastIndex then -1 else ret
      (ret, { seg with
        offsetAndTermArray := l.offsetAndTermArray
        endOffsetAndTermArray := l.endOffsetAndTermArray
        lastIndex := if seg.isOpen then l.actualLastIndex else seg.lastIndex
        disk := if ret = 0 ∧ l.entryOff ≠ seg.disk.length then seg.disk.take l.entryOff
          else seg.disk
        bytes := l.entryOff }, l.configurationManager)

end Load

end HitConsistency.Log.SegmentBytes
