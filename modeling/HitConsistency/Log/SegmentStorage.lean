/- GID: HitConsistency/Log/SegmentStorage
   digest: The log storage over segments: routing, rotation, truncation, reset and loading. -/

import HitConsistency.Log.SegmentFile

set_option autoImplicit false
set_option relaxedAutoImplicit false

/-!
One segment is open and takes every index from its first one on. Older segments stay
writable while an index of their range is missing. No call to the file system fails,
so a directory holds one file for each segment, named after its state, and the meta
file. The background `unlink` of a renamed file is left out.
-/

namespace HitConsistency.Log.SegmentStorage

open HitConsistency.Log.Entry
open HitConsistency.Log.MemoryLog
open HitConsistency.Log.SegmentFile

structure Flags where
  raftMaxSegmentSize : Nat
  raftMaxSegmentIndexSize : Nat

/-- `_segments` is in key order; the open segment is not among them. -/
structure SegmentLogStorage where
  firstLogIndex : Int
  lastLogIndex : Int
  segments : List Segment
  openedSegment : Option Segment
  /-- What the meta file holds. -/
  logMeta : Int

inductive Place
  | opened
  | older (position : Nat)

namespace SegmentLogStorage

/-- `init` on an empty directory. -/
def fresh : SegmentLogStorage := ⟨1, 0, [], none, 1⟩

def live (s : SegmentLogStorage) : List Segment := s.segments ++ s.openedSegment.toList

/-- `_segments[first_index] = segment`. -/
def insertSegment (seg : Segment) : List Segment → List Segment
  | [] => [seg]
  | head :: rest =>
      if seg.firstIndex < head.firstIndex then seg :: head :: rest
      else if seg.firstIndex = head.firstIndex then seg :: rest
      else head :: insertSegment seg rest

/-- The storage with an open segment that has room. A full one is closed if no index
is missing in it, and kept waiting otherwise. -/
def openSegment (flags : Flags) (s : SegmentLogStorage) : SegmentLogStorage × Segment :=
  let seg := s.openedSegment.getD (.new (s.lastLogIndex + 1))
  if flags.raftMaxSegmentSize < seg.bytes ∨
      flags.raftMaxSegmentIndexSize < seg.lastIndex - seg.firstIndex then
    let prev := seg.prepareToClose
    let prev := if prev.isFullfilled then prev.close else prev
    let next : Segment := .new (s.lastLogIndex + 1)
    ({ s with segments := insertSegment prev s.segments, openedSegment := some next }, next)
  else ({ s with openedSegment := some seg }, seg)

/-- The segment before the upper bound of an index; before the first there is none. -/
def olderSegment (s : SegmentLogStorage) (index : Int) : Option Place :=
  match (s.segments.takeWhile fun seg => seg.firstIndex ≤ index).length with
  | 0 => none
  | position + 1 => some (.older position)

/-- `get_segment`: the inner `none` is its -1. -/
def getSegment (s : SegmentLogStorage) (index : Int) : Option (Option Place) :=
  if s.firstLogIndex = s.lastLogIndex + 1 then some none
  else if index < s.firstLogIndex ∨ s.lastLogIndex < index then some none
  else match s.openedSegment with
  | some seg =>
      if seg.firstIndex ≤ index then some (some .opened) else (s.olderSegment index).map some
  | none => (s.olderSegment index).map some

def segmentAt (s : SegmentLogStorage) : Place → Option Segment
  | .opened => s.openedSegment
  | .older position => s.segments[position]?

def put (s : SegmentLogStorage) (seg : Segment) : Place → SegmentLogStorage
  | .opened => { s with openedSegment := some seg }
  | .older position => { s with segments := s.segments.set position seg }

/-- The outer `none` is a step without a result. -/
def getEntry (codec : ConfigurationCodec) (s : SegmentLogStorage) (index : Int) :
    Option (Option LogEntry) := do
  match ← s.getSegment index with
  | none => some none
  | some place => (s.segmentAt place).map fun seg => seg.get codec index

def getTerm (s : SegmentLogStorage) (index : Int) : Option Int := do
  match ← s.getSegment index with
  | none => some 0
  | some place => (s.segmentAt place).map fun seg => seg.getTerm index

/-- The segment that an entry goes to once there is room. An index that `get_segment`
does not find stays with the open one. -/
def route (s : SegmentLogStorage) (opened : Segment) (index : Int) : Option Place :=
  if index < opened.firstIndex then (s.getSegment index).map fun place => place.getD .opened
  else some .opened

/-- One round of the loop of `append_entries`, and whether the entry was written. -/
def appendOne (flags : Flags) (codec : ConfigurationCodec) (s : SegmentLogStorage)
    (entry : LogEntry) : Option (SegmentLogStorage × Bool) := do
  let (s, opened) := s.openSegment flags
  let place ← s.route opened entry.id.index
  let seg ← s.segmentAt place
  let (seg, written) ← seg.append codec entry
  if written then
    some ({ s.put seg place with lastLogIndex := max s.lastLogIndex entry.id.index }, true)
  else some (s, false)

/-- The storage behind the call, and the number of entries it took. -/
def appendEntries (flags : Flags) (codec : ConfigurationCodec) :
    SegmentLogStorage → List LogEntry → Option (SegmentLogStorage × Nat)
  | s, [] => some (s, 0)
  | s, entry :: rest => do
      let (s, written) ← s.appendOne flags codec entry
      if written then (appendEntries flags codec s rest).map fun (s, n) => (s, n + 1)
      else some (s, 0)

def popSegments (s : SegmentLogStorage) (firstIndexKept : Int) : SegmentLogStorage :=
  let s := { s with
    firstLogIndex := firstIndexKept
    segments := s.segments.dropWhile fun seg => seg.lastIndex < firstIndexKept }
  if s.segments ≠ [] then s
  else match s.openedSegment with
  | some seg =>
      if seg.lastIndex < firstIndexKept then
        { s with openedSegment := none, lastLogIndex := firstIndexKept - 1 }
      else s
  | none => { s with lastLogIndex := firstIndexKept - 1 }

def truncatePrefix (s : SegmentLogStorage) (firstIndexKept : Int) : SegmentLogStorage :=
  if firstIndexKept ≤ s.firstLogIndex then s
  else { s with logMeta := firstIndexKept }.popSegments firstIndexKept

/-- The storage without the segments above the kept index, and its last segment. -/
def popSegmentsFromBack (s : SegmentLogStorage) (lastIndexKept : Int) :
    SegmentLogStorage × Option Place :=
  let s := { s with lastLogIndex := lastIndexKept }
  if s.openedSegment.any fun seg => seg.firstIndex ≤ lastIndexKept then (s, some .opened)
  else
    let s := { s with
      openedSegment := none
      segments := s.segments.rdropWhile fun seg => lastIndexKept < seg.firstIndex }
    if s.segments ≠ [] then (s, some (.older (s.segments.length - 1)))
    else ({ s with firstLogIndex := lastIndexKept + 1 }, none)

/-- `_segments.erase` of the last segment, which may be the open one. -/
def eraseLast (s : SegmentLogStorage) (seg : Segment) : SegmentLogStorage :=
  { s with
    segments := s.segments.filter fun other => other.firstIndex ≠ seg.firstIndex
    openedSegment := none }

def truncateSuffix (s : SegmentLogStorage) (lastIndexKept : Int) : Option SegmentLogStorage :=
  match s.popSegmentsFromBack lastIndexKept with
  | (s, none) => some s
  | (s, some place) => do
      let seg ← s.segmentAt place
      if s.firstLogIndex ≤ s.lastLogIndex then
        (seg.truncate lastIndexKept).map fun seg => s.put seg place
      else some (s.eraseLast seg)

/-- An index below 1 is refused. -/
def reset (s : SegmentLogStorage) (nextLogIndex : Int) : SegmentLogStorage :=
  if nextLogIndex ≤ 0 then s else ⟨nextLogIndex, nextLogIndex - 1, [], none, nextLogIndex⟩

end SegmentLogStorage

/-- `log_inprogress_` and the first index, or `log_` and both. -/
inductive FileName
  | inprogress (firstIndex : Int)
  | closed (firstIndex lastIndex : Int)

structure Directory where
  logMeta : Option Int
  files : List (FileName × List EntryRecord)

/-- `file_name`. -/
def fileName (seg : Segment) : FileName :=
  if seg.isOpen then .inprogress seg.firstIndex else .closed seg.firstIndex seg.lastIndex

namespace SegmentLogStorage

def directory (s : SegmentLogStorage) : Directory :=
  ⟨some s.logMeta, s.live.map fun seg => (fileName seg, seg.file)⟩

/-- The first loop of `list_segments`: a second segment in progress is a conflict. -/
def readFiles : SegmentLogStorage → List (FileName × List EntryRecord) → Option SegmentLogStorage
  | s, [] => some s
  | s, (.closed firstIndex lastIndex, file) :: rest =>
      let seg := closedFile firstIndex lastIndex file
      readFiles { s with segments := insertSegment seg s.segments } rest
  | s, (.inprogress firstIndex, file) :: rest =>
      if s.openedSegment.isSome then none
      else readFiles { s with openedSegment := some (openFile firstIndex file) } rest

/-- The second loop: closed segments lie one behind the other, from the first index on.
`lastLogIndex` is -1 until a segment is kept. -/
def checkSegments (firstLogIndex : Int) : Int → List Segment → Option (List Segment)
  | _, [] => some []
  | lastLogIndex, seg :: rest =>
      if seg.lastIndex < seg.firstIndex then none
      else if lastLogIndex ≠ -1 ∧ seg.firstIndex ≠ lastLogIndex + 1 then none
      else if lastLogIndex = -1 ∧ firstLogIndex < seg.firstIndex then none
      else if lastLogIndex = -1 ∧ seg.lastIndex < firstLogIndex then
        checkSegments firstLogIndex lastLogIndex rest
      else (checkSegments firstLogIndex seg.lastIndex rest).map (seg :: ·)

def listSegments (s : SegmentLogStorage) (directory : Directory) : Option SegmentLogStorage := do
  let s ← s.readFiles directory.files
  let segments ← checkSegments s.firstLogIndex (-1) s.segments
  some { s with segments := segments }

def loadClosed (codec : ConfigurationCodec) :
    List Segment → ConfigurationManager → Option (List Segment × ConfigurationManager)
  | [], cm => some ([], cm)
  | seg :: rest, cm => do
      let (seg, cm) ← seg.load codec cm
      let (rest, cm) ← loadClosed codec rest cm
      some (seg :: rest, cm)

/-- An open segment below the first index is discarded. -/
def loadOpened (codec : ConfigurationCodec) (s : SegmentLogStorage) (cm : ConfigurationManager) :
    Option (SegmentLogStorage × ConfigurationManager) :=
  match s.openedSegment with
  | none => some (s, cm)
  | some seg => do
      let (seg, cm) ← seg.load codec cm
      if seg.lastIndex < s.firstLogIndex then some ({ s with openedSegment := none }, cm)
      else some ({ s with openedSegment := some seg, lastLogIndex := seg.lastIndex }, cm)

def loadSegments (codec : ConfigurationCodec) (s : SegmentLogStorage) (cm : ConfigurationManager) :
    Option (SegmentLogStorage × ConfigurationManager) := do
  let (segments, cm) ← loadClosed codec s.segments cm
  let lastLogIndex := (segments.getLast?.map Segment.lastIndex).getD s.lastLogIndex
  let s := { s with segments := segments, lastLogIndex := lastLogIndex }
  let (s, cm) ← s.loadOpened codec cm
  some (if s.lastLogIndex = 0 then { s with lastLogIndex := s.firstLogIndex - 1 } else s, cm)

/-- `init` of a new storage. Without a meta file the directory is emptied. A result
other than 0 and a load that does not return are `none`. -/
def init (codec : ConfigurationCodec) (directory : Directory) (cm : ConfigurationManager) :
    Option (SegmentLogStorage × ConfigurationManager) :=
  match directory.logMeta with
  | none => some (fresh, cm)
  | some firstLogIndex => do
      let s ← listSegments ⟨firstLogIndex, 0, [], none, firstLogIndex⟩ directory
      s.loadSegments codec cm

end SegmentLogStorage

end HitConsistency.Log.SegmentStorage
