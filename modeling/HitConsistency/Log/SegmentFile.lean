/- GID: HitConsistency/Log/SegmentFile
   digest: One segment of the log: its file, the index arrays, append, truncate, close and load. -/

import HitConsistency.Base.RecordFile
import HitConsistency.Log.MemoryLog
import Mathlib.Algebra.Order.Group.Unbundled.Int
import Mathlib.Logic.Equiv.List

set_option autoImplicit false
set_option relaxedAutoImplicit false

/-!
A segment is a file of entries in the order they were written, next to two arrays
that say where the entry of each index starts and ends. A file holds whole entries
only and no checksum fails. A subscript outside an array has no result. Truncation
writes term 0 over the entries it drops and leaves the file as long as it was.

A configuration is stored as a protobuf message. Its bytes are those of a codec that
reads back what it wrote.
-/

namespace HitConsistency.Log.SegmentFile

open HitConsistency.Base.RecordFile
open HitConsistency.Group.Peers
open HitConsistency.Log.Entry
open HitConsistency.Log.MemoryLog

/-- `ConfigurationPBMeta` on the wire. -/
structure ConfigurationCodec where
  serialize : List PeerId → List PeerId → List UInt8
  parse : List UInt8 → Option (List PeerId × List PeerId)
  parse_serialize : ∀ peers oldPeers, parse (serialize peers oldPeers) = some (peers, oldPeers)

namespace ConfigurationCodec

private def peerKey (peer : PeerId) : Nat × Int × Int := (peer.ip.toNat, peer.port, peer.idx)

private def keyPeer (key : Nat × Int × Int) : PeerId := ⟨.ofNat key.1, key.2.1, key.2.2⟩

/-- The simplest codec there is: a message as that many zero bytes. -/
def unary : ConfigurationCodec where
  serialize peers oldPeers :=
    List.replicate (Encodable.encode (peers.map peerKey, oldPeers.map peerKey)) 0
  parse data :=
    (Encodable.decode (α := List (Nat × Int × Int) × List (Nat × Int × Int)) data.length).map
      fun (peers, oldPeers) => (peers.map keyPeer, oldPeers.map keyPeer)
  parse_serialize := by
    intro peers oldPeers
    have hkey : keyPeer ∘ peerKey = id := by
      funext peer
      simp [keyPeer, peerKey]
    simp [hkey]

end ConfigurationCodec

/-- An entry in a file: the fields of its header and its data. -/
structure EntryRecord where
  term : Int
  index : Int
  dependency : BitVec 64
  type : EntryType
  data : List UInt8
  deriving DecidableEq

namespace EntryRecord

/-- `ENTRY_HEADER_SIZE` and the data. -/
def size (r : EntryRecord) : Nat := 40 + r.data.length

theorem size_pos (r : EntryRecord) : 0 < r.size := by
  unfold size
  omega

def invalidate (r : EntryRecord) : EntryRecord := { r with term := 0 }

theorem size_invalidate (r : EntryRecord) : r.invalidate.size = r.size := rfl

end EntryRecord

section Codec

variable (codec : ConfigurationCodec)

/-- The data an entry is written with; a type without a case is refused. -/
def dataOf (entry : LogEntry) : Option (Option (List UInt8)) :=
  match entry.type with
  | .data => some (some entry.data)
  | .noOp => some (some [])
  | .configuration => (serializeConfigurationMeta codec.serialize entry).map some
  | .unknown | .o3 => some none

theorem dataOf_configuration {entry : LogEntry} {data : List UInt8}
    (htype : entry.type = .configuration) (hdata : dataOf codec entry = some (some data)) :
    ∃ peers, entry.peers = some peers ∧
      codec.serialize peers (entry.oldPeers.getD []) = data := by
  simp only [dataOf, htype] at hdata
  obtain ⟨written, hwritten, hsame⟩ := Option.map_eq_some_iff.mp hdata
  cases hsame
  exact Option.map_eq_some_iff.mp hwritten

def parseConfigurationMeta (data : List UInt8) :
    Option (List PeerId × Option (List PeerId)) :=
  (codec.parse data).map fun (peers, oldPeers) =>
    (peers, if oldPeers.isEmpty then none else some oldPeers)

def EntryRecord.toEntry (r : EntryRecord) (index : Int) : Option LogEntry :=
  match r.type with
  | .data => some ⟨r.type, ⟨index, r.term⟩, r.dependency, none, none, r.data⟩
  | .configuration =>
      (parseConfigurationMeta codec r.data).map fun (peers, oldPeers) =>
        ⟨r.type, ⟨index, r.term⟩, r.dependency, some peers, oldPeers, []⟩
  | .noOp | .unknown | .o3 => some ⟨r.type, ⟨index, r.term⟩, r.dependency, none, none, []⟩

end Codec

def arraySize : Int := 1000000

structure Segment where
  firstIndex : Int
  lastIndex : Int
  isOpen : Bool
  pendingForClosing : Bool
  vaildEntriesCounter : Int
  bytes : Nat
  offsetAndTermArray : Int → Int × Int
  endOffsetAndTermArray : Int → Int × Int
  file : List EntryRecord

namespace Segment

/-- The constructor of an open segment, and `create`. -/
def new (firstIndex : Int) : Segment where
  firstIndex := firstIndex
  lastIndex := firstIndex - 1
  isOpen := true
  pendingForClosing := false
  vaildEntriesCounter := 0
  bytes := 0
  offsetAndTermArray := fun _ => (-1, 0)
  endOffsetAndTermArray := fun _ => (-1, 0)
  file := []

def isFullfilled (seg : Segment) : Bool :=
  seg.lastIndex - seg.firstIndex + 1 - seg.vaildEntriesCounter = 0

def prepareToClose (seg : Segment) : Segment := { seg with pendingForClosing := true }

def close (seg : Segment) : Segment := { seg with isOpen := false, pendingForClosing := false }

/-- `_get_meta`: where the entry of an index starts, and its term. -/
def getMeta (seg : Segment) (index : Int) : Option (Int × Int) :=
  if seg.lastIndex < index ∨ index < seg.firstIndex then none
  else if (seg.offsetAndTermArray (index - seg.firstIndex)).2 ≠ 0 then
    some (seg.offsetAndTermArray (index - seg.firstIndex))
  else none

def getTerm (seg : Segment) (index : Int) : Int := ((seg.getMeta index).map Prod.snd).getD 0

def get (codec : ConfigurationCodec) (seg : Segment) (index : Int) : Option LogEntry := do
  let (offset, _) ← seg.getMeta index
  let r ← recordAt EntryRecord.size seg.file offset.toNat
  if r.term = 0 then none else r.toEntry codec index

/-- Write one entry behind the file and enter it into the arrays. -/
def write (seg : Segment) (r : EntryRecord) : Segment :=
  let k := r.index - seg.firstIndex
  { seg with
    file := seg.file ++ [r]
    offsetAndTermArray := Function.update seg.offsetAndTermArray k (seg.bytes, r.term)
    lastIndex := max seg.lastIndex r.index
    vaildEntriesCounter := seg.vaildEntriesCounter + 1
    bytes := seg.bytes + r.size
    endOffsetAndTermArray :=
      Function.update seg.endOffsetAndTermArray k ((seg.bytes + r.size : Nat), r.term) }

/-- Whether the entry was written; a closed segment takes none. -/
def append (codec : ConfigurationCodec) (seg : Segment) (entry : LogEntry) :
    Option (Segment × Bool) :=
  if !seg.isOpen then some (seg, false)
  else match dataOf codec entry with
  | none => none
  | some none => some (seg, false)
  | some (some data) =>
      if 0 ≤ entry.id.index - seg.firstIndex ∧ entry.id.index - seg.firstIndex < arraySize then
        let seg := seg.write ⟨entry.id.term, entry.id.index, entry.dependency, entry.type, data⟩
        some (if seg.pendingForClosing ∧ seg.isFullfilled then seg.close else seg, true)
      else none

def dropEntry (seg : Segment) (index : Int) : Segment :=
  let k := index - seg.firstIndex
  if (seg.offsetAndTermArray k).2 ≠ 0 then
    { seg with
      file :=
        rewriteAt EntryRecord.size EntryRecord.invalidate seg.file
          (seg.offsetAndTermArray k).1.toNat
      vaildEntriesCounter := seg.vaildEntriesCounter - 1
      offsetAndTermArray :=
        Function.update seg.offsetAndTermArray k ((seg.offsetAndTermArray k).1, 0) }
  else seg

/-- The loop of `truncate` over the next indexes. -/
def dropEntries : Nat → Int → Segment → Segment
  | 0, _, seg => seg
  | n + 1, index, seg => dropEntries n (index + 1) (seg.dropEntry index)

/-- A closed segment is opened again, its file renamed back. -/
def truncate (seg : Segment) (lastIndexKept : Int) : Option Segment :=
  if seg.lastIndex ≤ lastIndexKept then some seg
  else if lastIndexKept + 1 < seg.firstIndex then none
  else some { dropEntries (seg.lastIndex - lastIndexKept).toNat (lastIndexKept + 1) seg with
    isOpen := true
    lastIndex := lastIndexKept }

end Segment

def openFile (firstIndex : Int) (file : List EntryRecord) : Segment :=
  { Segment.new firstIndex with file := file }

def closedFile (firstIndex lastIndex : Int) (file : List EntryRecord) : Segment :=
  { openFile firstIndex file with lastIndex := lastIndex, isOpen := false }

/-- What the loop of `load` has collected so far. -/
structure Loading where
  offsetAndTermArray : Int → Int × Int
  endOffsetAndTermArray : Int → Int × Int
  actualLastIndex : Int
  entryOff : Nat
  configurationManager : ConfigurationManager

namespace Loading

def start (firstIndex : Int) (cm : ConfigurationManager) : Loading :=
  ⟨fun _ => (-1, 0), fun _ => (-1, 0), firstIndex - 1, 0, cm⟩

/-- A configuration is entered under the loop's own counter. -/
def addConfiguration (codec : ConfigurationCodec) (l : Loading) (i : Int) (r : EntryRecord) :
    Option Loading :=
  if r.type = .configuration then
    (parseConfigurationMeta codec r.data).map fun (peers, oldPeers) =>
      { l with
        configurationManager := l.configurationManager.add
          (.ofEntry ⟨r.type, ⟨i, r.term⟩, r.dependency, some peers, oldPeers, []⟩) }
  else some l

def enter (firstIndex : Int) (l : Loading) (r : EntryRecord) : Loading :=
  let k := r.index - firstIndex
  { l with
    offsetAndTermArray := Function.update l.offsetAndTermArray k (l.entryOff, r.term)
    endOffsetAndTermArray :=
      Function.update l.endOffsetAndTermArray k ((l.entryOff + r.size : Nat), r.term)
    actualLastIndex := max r.index l.actualLastIndex
    entryOff := l.entryOff + r.size }

/-- The loop of `load`. At a truncated entry it goes round without moving its offset,
so it never ends. -/
def records (codec : ConfigurationCodec) (firstIndex : Int) :
    Int → Loading → List EntryRecord → Option Loading
  | _, l, [] => some l
  | i, l, r :: rest =>
      if r.term = 0 then none
      else if 0 ≤ r.index - firstIndex ∧ r.index - firstIndex < arraySize then
        (l.addConfiguration codec i r).bind fun l =>
          records codec firstIndex (i + 1) (l.enter firstIndex r) rest
      else none

end Loading

/-- `load` of a segment whose arrays are empty. A closed segment that ends before its
name says is refused. -/
def Segment.load (codec : ConfigurationCodec) (seg : Segment) (cm : ConfigurationManager) :
    Option (Segment × ConfigurationManager) :=
  (Loading.records codec seg.firstIndex seg.firstIndex (.start seg.firstIndex cm)
      seg.file).bind fun l =>
    if !seg.isOpen ∧ l.actualLastIndex < seg.lastIndex then none
    else some ({ seg with
      offsetAndTermArray := l.offsetAndTermArray
      endOffsetAndTermArray := l.endOffsetAndTermArray
      lastIndex := if seg.isOpen then l.actualLastIndex else seg.lastIndex
      bytes := l.entryOff }, l.configurationManager)

/-- An entry as the log writes it: each field that its type does not carry is empty. -/
def Storable (entry : LogEntry) : Prop :=
  match entry.type with
  | .data => entry.peers = none ∧ entry.oldPeers = none
  | .noOp => entry.peers = none ∧ entry.oldPeers = none ∧ entry.data = []
  | .configuration => entry.peers.isSome ∧ entry.oldPeers ≠ some [] ∧ entry.data = []
  | .unknown | .o3 => False

instance storableDecidable : ∀ entry : LogEntry, Decidable (Storable entry)
  | ⟨.data, _, _, peers, oldPeers, _⟩ =>
      inferInstanceAs (Decidable (peers = none ∧ oldPeers = none))
  | ⟨.noOp, _, _, peers, oldPeers, data⟩ =>
      inferInstanceAs (Decidable (peers = none ∧ oldPeers = none ∧ data = []))
  | ⟨.configuration, _, _, peers, oldPeers, data⟩ =>
      inferInstanceAs (Decidable (peers.isSome ∧ oldPeers ≠ some [] ∧ data = []))
  | ⟨.unknown, _, _, _, _, _⟩ | ⟨.o3, _, _, _, _, _⟩ => inferInstanceAs (Decidable False)

theorem Storable.toEntry_dataOf {entry : LogEntry} (h : Storable entry)
    (codec : ConfigurationCodec) :
    ∃ data, dataOf codec entry = some (some data) ∧
      EntryRecord.toEntry codec
        ⟨entry.id.term, entry.id.index, entry.dependency, entry.type, data⟩ entry.id.index =
          some entry := by
  obtain ⟨type, ⟨index, term⟩, dependency, peers, oldPeers, data⟩ := entry
  cases type with
  | unknown => cases h
  | o3 => cases h
  | noOp =>
    obtain ⟨rfl, rfl, rfl⟩ := h
    exact ⟨[], rfl, rfl⟩
  | data =>
    obtain ⟨rfl, rfl⟩ := h
    exact ⟨data, rfl, rfl⟩
  | configuration =>
    obtain ⟨hpeers, hold, rfl⟩ := h
    obtain ⟨peers, rfl⟩ := Option.isSome_iff_exists.mp hpeers
    refine ⟨codec.serialize peers (oldPeers.getD []), rfl, ?_⟩
    simp only [EntryRecord.toEntry, parseConfigurationMeta, codec.parse_serialize, Option.map_some]
    cases oldPeers with
    | none => rfl
    | some old =>
      have hne : old ≠ [] := fun hnil => hold (congrArg some hnil)
      simp [hne]

end HitConsistency.Log.SegmentFile
