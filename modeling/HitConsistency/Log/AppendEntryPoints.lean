/- GID: HitConsistency/Log/AppendEntryPoints
   digest: When append_entry and append_entries of the one entry leave the same storage behind. -/

import HitConsistency.Base.GuardedRuns
import HitConsistency.Log.StorageContents

set_option autoImplicit false
set_option relaxedAutoImplicit false

/-!
`append_entries` looks for the older segment that owns an index below the open one;
`append_entry` writes every entry to the open segment, under a subscript that may be
negative. A write does not fail here, but a sync may.
-/

namespace HitConsistency.Log.AppendEntryPoints

open HitConsistency.Base.GuardedRuns
open HitConsistency.Log.Entry
open HitConsistency.Log.SegmentContents
open HitConsistency.Log.SegmentFile
open HitConsistency.Log.SegmentStorage
open HitConsistency.Log.StorageContents

/-- The flags behind `sync`, and what `raft_fsync` returns if it is called. -/
structure SyncSetting where
  raftSync : Bool
  enableSync : Bool
  raftFsync : Int

/-- A segment of one index is not synced. -/
def sync (setting : SyncSetting) (seg : Segment) : Int :=
  if seg.firstIndex < seg.lastIndex then
    if setting.raftSync ∧ setting.enableSync then setting.raftFsync else 0
  else 0

/-- `append_entry`, and whether it returns 0. `Segment::append` never returns `EEXIST`. -/
def appendEntry (flags : Flags) (codec : ConfigurationCodec) (setting : SyncSetting)
    (s : SegmentLogStorage) (entry : LogEntry) : Option (SegmentLogStorage × Bool) := do
  let (s, opened) := s.openSegment flags
  let (seg, written) ← opened.append codec entry
  if written then
    some ({ s.put seg .opened with lastLogIndex := max s.lastLogIndex entry.id.index },
      sync setting seg = 0)
  else some (s, false)

inductive Call
  | appendEntries (flags : Flags) (entries : List LogEntry)
  | appendEntry (flags : Flags) (setting : SyncSetting) (entry : LogEntry)
  | truncatePrefix (firstIndexKept : Int)
  | truncateSuffix (lastIndexKept : Int)

def perform (codec : ConfigurationCodec) (s : SegmentLogStorage) :
    Call → Option SegmentLogStorage
  | .appendEntries flags entries => (s.appendEntries flags codec entries).map Prod.fst
  | .appendEntry flags setting entry =>
      (appendEntry flags codec setting s entry).map Prod.fst
  | .truncatePrefix firstIndexKept => some (s.truncatePrefix firstIndexKept)
  | .truncateSuffix lastIndexKept => s.truncateSuffix lastIndexKept

/-- Both entry points have a result, both take the entry or neither does, and what they
leave behind reads the same. -/
def Agree (flags : Flags) (codec : ConfigurationCodec) (setting : SyncSetting)
    (s : SegmentLogStorage) (entry : LogEntry) : Prop :=
  ∃ s₁ succeeded s₂ taken, appendEntry flags codec setting s entry = some (s₁, succeeded) ∧
    s.appendEntries flags codec [entry] = some (s₂, taken) ∧ (succeeded = true ↔ taken = 1) ∧
    (∀ i, s₁.getEntry codec i = s₂.getEntry codec i) ∧ (∀ i, s₁.getTerm i = s₂.getTerm i) ∧
    s₁.lastLogIndex = s₂.lastLogIndex

def HasRoom (flags : Flags) (seg : Segment) : Prop :=
  seg.bytes ≤ flags.raftMaxSegmentSize ∧
    seg.lastIndex - seg.firstIndex ≤ flags.raftMaxSegmentIndexSize

instance hasRoomDecidable (flags : Flags) (seg : Segment) : Decidable (HasRoom flags seg) :=
  inferInstanceAs (Decidable (_ ∧ _))

/-- The range of the segment that is open once there is room: the one that is, or an empty
one behind the last index. -/
def openRange (flags : Flags) (s : SegmentLogStorage) : Int × Int :=
  match s.openedSegment with
  | some seg =>
      if HasRoom flags seg then (seg.firstIndex, seg.lastIndex)
      else (s.lastLogIndex + 1, s.lastLogIndex)
  | none => (s.lastLogIndex + 1, s.lastLogIndex)

/-- The open segment has a place for the index, and is synced if it has to be. -/
structure TakenOpen (setting : SyncSetting) (range : Int × Int) (index : Int) : Prop where
  above : range.1 ≤ index
  inArrays : index - range.1 < arraySize
  synced : range.1 < max range.2 index → setting.raftSync = true → setting.enableSync = true →
    setting.raftFsync = 0

/-- What `open_segment` leaves: a segment with room, and a full one among the older ones. -/
theorem openSegment_cases (flags : Flags) (s : SegmentLogStorage) :
    (∃ seg, s.openedSegment = some seg ∧ HasRoom flags seg ∧ s.openSegment flags = (s, seg)) ∨
    (s.openedSegment = none ∧ s.openSegment flags =
      ({ s with openedSegment := some (.new (s.lastLogIndex + 1)) },
        .new (s.lastLogIndex + 1))) ∨
    ∃ seg, ∃ prev : Segment, s.openedSegment = some seg ∧ ¬ HasRoom flags seg ∧
      prev.firstIndex = seg.firstIndex ∧ s.openSegment flags =
        ({ s with
          segments := SegmentLogStorage.insertSegment prev s.segments
          openedSegment := some (.new (s.lastLogIndex + 1)) }, .new (s.lastLogIndex + 1)) := by
  cases hopened : s.openedSegment with
  | none =>
    refine .inr (.inl ⟨rfl, ?_⟩)
    have hroom : ¬ (flags.raftMaxSegmentSize < (Segment.new (s.lastLogIndex + 1)).bytes ∨
        (flags.raftMaxSegmentIndexSize : Int) < (Segment.new (s.lastLogIndex + 1)).lastIndex -
          (Segment.new (s.lastLogIndex + 1)).firstIndex) := by
      simp only [Segment.new]
      omega
    simp only [SegmentLogStorage.openSegment, hopened, Option.getD_none]
    rw [if_neg hroom]
  | some seg =>
    by_cases hroom : HasRoom flags seg
    · refine .inl ⟨seg, rfl, hroom, ?_⟩
      have hlimits : ¬ (flags.raftMaxSegmentSize < seg.bytes ∨
          (flags.raftMaxSegmentIndexSize : Int) < seg.lastIndex - seg.firstIndex) := by
        have hsize := hroom.1
        have hindexes := hroom.2
        omega
      simp only [SegmentLogStorage.openSegment, hopened, Option.getD_some]
      rw [if_neg hlimits, ← hopened]
    · refine .inr (.inr ⟨seg, if seg.prepareToClose.isFullfilled then seg.prepareToClose.close
        else seg.prepareToClose, rfl, hroom, ?_, ?_⟩)
      · split
        · rfl
        · rfl
      · have hlimits : flags.raftMaxSegmentSize < seg.bytes ∨
            (flags.raftMaxSegmentIndexSize : Int) < seg.lastIndex - seg.firstIndex := by
          unfold HasRoom at hroom
          omega
        simp only [SegmentLogStorage.openSegment, hopened, Option.getD_some]
        rw [if_pos hlimits]

/-- The segment that `open_segment` returns is the open one, over the range that the
state before it tells. -/
private theorem openSegment_range (flags : Flags) (s : SegmentLogStorage) :
    (s.openSegment flags).1.openedSegment = some (s.openSegment flags).2 ∧
      ((s.openSegment flags).2.firstIndex, (s.openSegment flags).2.lastIndex) =
        openRange flags s := by
  rcases openSegment_cases flags s with ⟨seg, hopened, hroom, heq⟩ | ⟨hopened, heq⟩ |
    ⟨seg, prev, hopened, hroom, -, heq⟩
  · rw [heq]
    refine ⟨hopened, ?_⟩
    simp [openRange, hopened, hroom]
  · rw [heq]
    refine ⟨rfl, ?_⟩
    simp [openRange, hopened, Segment.new]
  · rw [heq]
    refine ⟨rfl, ?_⟩
    simp [openRange, hopened, hroom, Segment.new]

/-- The open segment is in progress and not yet to be closed. -/
def Ready (s : SegmentLogStorage) : Prop :=
  ∀ seg, s.openedSegment = some seg → seg.isOpen = true ∧ seg.pendingForClosing = false

section Ready

variable {flags : Flags} {codec : ConfigurationCodec} {setting : SyncSetting}
variable {s s' : SegmentLogStorage} {seg seg' : Segment} {entry : LogEntry}

private theorem ready_fresh : Ready .fresh := by
  intro seg hopened
  cases hopened

theorem Ready.openSegment (h : Ready s) (flags : Flags) : Ready (s.openSegment flags).1 := by
  rcases openSegment_cases flags s with ⟨seg, hopened, -, heq⟩ | ⟨-, heq⟩ | ⟨_, _, -, -, -, heq⟩
  · rw [heq]
    exact h
  · rw [heq]
    intro seg hseg
    cases hseg
    exact ⟨rfl, rfl⟩
  · rw [heq]
    intro seg hseg
    cases hseg
    exact ⟨rfl, rfl⟩

private theorem ready_append {written : Bool}
    (h : seg.isOpen = true ∧ seg.pendingForClosing = false)
    (happend : seg.append codec entry = some (seg', written)) :
    seg'.isOpen = true ∧ seg'.pendingForClosing = false := by
  cases written with
  | false =>
    rw [(append_refused happend).1]
    exact h
  | true =>
    obtain ⟨-, data, -, -, -, rfl | ⟨hpending, -⟩⟩ := append_cases happend
    · exact h
    · rw [h.2] at hpending
      cases hpending

theorem Ready.appendOne {written : Bool} (h : Ready s)
    (happend : s.appendOne flags codec entry = some (s', written)) : Ready s' := by
  have hready := h.openSegment flags
  obtain ⟨place, -, hrest⟩ := Option.bind_eq_some_iff.mp happend
  obtain ⟨seg, hseg, hrest⟩ := Option.bind_eq_some_iff.mp hrest
  obtain ⟨⟨seg', written'⟩, hwrite, hresult⟩ := Option.bind_eq_some_iff.mp hrest
  cases written' with
  | false =>
    cases hresult
    exact hready
  | true =>
    cases hresult
    cases place with
    | opened =>
      intro other hother
      cases hother
      exact ready_append (hready seg hseg) hwrite
    | older position => exact hready

theorem Ready.appendEntries {taken : Nat} {entries : List LogEntry} (h : Ready s)
    (happend : s.appendEntries flags codec entries = some (s', taken)) : Ready s' := by
  induction entries generalizing s taken with
  | nil =>
    cases happend
    exact h
  | cons entry rest ih =>
    obtain ⟨⟨next, written⟩, hone, hrest⟩ := Option.bind_eq_some_iff.mp happend
    have hnext := h.appendOne hone
    cases written with
    | false =>
      cases hrest
      exact hnext
    | true =>
      obtain ⟨⟨last, n⟩, hrun, hlast⟩ := Option.map_eq_some_iff.mp hrest
      cases hlast
      exact ih hnext hrun

theorem Ready.appendEntry {succeeded : Bool} (h : Ready s)
    (happend : appendEntry flags codec setting s entry = some (s', succeeded)) : Ready s' := by
  have hready := h.openSegment flags
  have hopened := hready _ (openSegment_range flags s).1
  obtain ⟨⟨seg', written⟩, hwrite, hresult⟩ := Option.bind_eq_some_iff.mp happend
  cases written with
  | false =>
    cases hresult
    exact hready
  | true =>
    cases hresult
    intro other hother
    cases hother
    exact ready_append hopened hwrite

theorem Ready.truncatePrefix (h : Ready s) (k : Int) : Ready (s.truncatePrefix k) := by
  unfold SegmentLogStorage.truncatePrefix
  split
  · exact h
  · obtain ⟨dropped, -, ⟨_, _, -, -, heq⟩ | ⟨_, -, -, -, heq⟩ | ⟨-, heq⟩⟩ :=
      popSegments_cases { s with logMeta := k } k
    · rw [heq]
      exact h
    · rw [heq]
      exact h
    · rw [heq]
      intro seg hseg
      cases hseg

private theorem ready_truncate {k : Int} (h : seg.isOpen = true ∧ seg.pendingForClosing = false)
    (htruncate : seg.truncate k = some seg') :
    seg'.isOpen = true ∧ seg'.pendingForClosing = false := by
  unfold Segment.truncate at htruncate
  split at htruncate
  · cases htruncate
    exact h
  · split at htruncate
    · cases htruncate
    · cases htruncate
      exact ⟨rfl, (pendingForClosing_dropEntries _ _ seg).trans h.2⟩

private theorem popSegmentsFromBack_cases (s : SegmentLogStorage) (k : Int) :
    s.popSegmentsFromBack k = ({ s with lastLogIndex := k }, some .opened) ∨
      (s.popSegmentsFromBack k).1.openedSegment = none ∧
        (s.popSegmentsFromBack k).2 ≠ some .opened := by
  unfold SegmentLogStorage.popSegmentsFromBack
  dsimp only
  split
  · exact .inl rfl
  · split
    · exact .inr ⟨rfl, by simp⟩
    · exact .inr ⟨rfl, by simp⟩

theorem Ready.truncateSuffix {k : Int} (h : Ready s) (htruncate : s.truncateSuffix k = some s') :
    Ready s' := by
  unfold SegmentLogStorage.truncateSuffix at htruncate
  rcases popSegmentsFromBack_cases s k with heq | ⟨hnone, hplace⟩
  · rw [heq] at htruncate
    obtain ⟨seg, hopened, hrest⟩ := Option.bind_eq_some_iff.mp htruncate
    split at hrest
    · obtain ⟨seg', hcut, rfl⟩ := Option.map_eq_some_iff.mp hrest
      intro other hother
      cases hother
      exact ready_truncate (h seg hopened) hcut
    · cases hrest
      intro other hother
      cases hother
  · generalize s.popSegmentsFromBack k = popped at htruncate hnone hplace
    obtain ⟨t, place⟩ := popped
    have hready : ∀ t' : SegmentLogStorage, t'.openedSegment = none → Ready t' := by
      intro t' hnothing seg hseg
      rw [hnothing] at hseg
      cases hseg
    cases place with
    | none =>
      cases htruncate
      exact hready _ hnone
    | some place =>
      obtain ⟨seg, -, hrest⟩ := Option.bind_eq_some_iff.mp htruncate
      split at hrest
      · obtain ⟨seg', -, rfl⟩ := Option.map_eq_some_iff.mp hrest
        cases place with
        | opened => exact absurd rfl hplace
        | older position => exact hready _ hnone
      · cases hrest
        exact hready _ rfl

theorem Ready.perform {call : Call} (h : Ready s) (hcall : perform codec s call = some s') :
    Ready s' := by
  cases call with
  | appendEntries flags entries =>
    obtain ⟨⟨t, taken⟩, happend, rfl⟩ := Option.map_eq_some_iff.mp hcall
    exact h.appendEntries happend
  | appendEntry flags setting entry =>
    obtain ⟨⟨t, succeeded⟩, happend, rfl⟩ := Option.map_eq_some_iff.mp hcall
    exact h.appendEntry happend
  | truncatePrefix k =>
    cases hcall
    exact h.truncatePrefix k
  | truncateSuffix k => exact h.truncateSuffix hcall

private theorem ready_reached {calls : List Call}
    (h : runEvents (perform codec) .fresh calls = some s) :
    Ready s :=
  invariant_of_every_step (fun _ _ _ => Ready.perform) ready_fresh h

end Ready

section Routing

variable {flags : Flags} {codec : ConfigurationCodec} {setting : SyncSetting}
variable {s : SegmentLogStorage} {seg seg' : Segment} {entry : LogEntry} {index : Int}

private theorem olderSegment_isSome :
    (s.olderSegment index).isSome = true ↔ ∃ head rest, s.segments = head :: rest ∧
      head.firstIndex ≤ index := by
  unfold SegmentLogStorage.olderSegment
  cases s.segments with
  | nil => simp
  | cons head rest =>
    by_cases hhead : head.firstIndex ≤ index
    · simp [hhead]
    · simp [hhead]

/-- An index is looked up without a fault when it is out of range, in the open segment, or
not below all the older ones. -/
private theorem getSegment_isSome :
    (s.getSegment index).isSome = true ↔ s.firstLogIndex = s.lastLogIndex + 1 ∨
      (index < s.firstLogIndex ∨ s.lastLogIndex < index) ∨
      (∃ seg, s.openedSegment = some seg ∧ seg.firstIndex ≤ index) ∨
      ∃ head rest, s.segments = head :: rest ∧ head.firstIndex ≤ index := by
  rw [← olderSegment_isSome]
  unfold SegmentLogStorage.getSegment
  by_cases hempty : s.firstLogIndex = s.lastLogIndex + 1
  · simp [hempty]
  · by_cases hout : index < s.firstLogIndex ∨ s.lastLogIndex < index
    · simp [hempty, hout]
    · cases hopened : s.openedSegment with
      | none => simp [hempty, hout]
      | some seg =>
        by_cases hseg : seg.firstIndex ≤ index
        · simp [hempty, hout, hseg]
        · simp [hempty, hout, hseg]

private theorem insertSegment_head (seg : Segment) (segs : List Segment) :
    ∃ head rest, SegmentLogStorage.insertSegment seg segs = head :: rest ∧
      head.firstIndex ≤ seg.firstIndex ∧
        ∀ first behind, segs = first :: behind → head.firstIndex ≤ first.firstIndex := by
  cases segs with
  | nil => exact ⟨seg, [], rfl, le_rfl, by simp⟩
  | cons first behind =>
    unfold SegmentLogStorage.insertSegment
    split
    · rename_i hbelow
      refine ⟨seg, first :: behind, rfl, le_rfl, ?_⟩
      rintro _ _ ⟨⟩
      exact hbelow.le
    · split
      · rename_i hsame
        refine ⟨seg, behind, rfl, le_rfl, ?_⟩
        rintro _ _ ⟨⟩
        exact hsame.le
      · rename_i habove _
        refine ⟨first, _, rfl, not_lt.mp habove, ?_⟩
        rintro _ _ ⟨⟩
        exact le_rfl

private theorem getSegment_openSegment (flags : Flags) (h : (s.getSegment index).isSome = true) :
    ((s.openSegment flags).1.getSegment index).isSome = true := by
  rw [getSegment_isSome] at h ⊢
  rcases openSegment_cases flags s with ⟨_, -, -, heq⟩ | ⟨hnone, heq⟩ |
    ⟨seg, prev, hopened, -, hfirst, heq⟩
  · rw [heq]
    exact h
  · rw [heq]
    rcases h with h | h | ⟨seg, hseg, -⟩ | h
    · exact .inl h
    · exact .inr (.inl h)
    · rw [hnone] at hseg
      cases hseg
    · exact .inr (.inr (.inr h))
  · rw [heq]
    obtain ⟨head, rest, hinsert, hbelow, hold⟩ := insertSegment_head prev s.segments
    rcases h with h | h | ⟨other, hother, hindex⟩ | ⟨first, behind, hsegments, hindex⟩
    · exact .inl h
    · exact .inr (.inl h)
    · cases hopened.symm.trans hother
      exact .inr (.inr (.inr ⟨head, rest, hinsert, by omega⟩))
    · have hhead := hold first behind hsegments
      exact .inr (.inr (.inr ⟨head, rest, hinsert, by omega⟩))

private theorem segmentAt_getSegment {place : Place}
    (h : s.getSegment index = some (some place)) : ∃ seg, s.segmentAt place = some seg := by
  have holder : ∀ place, s.olderSegment index = some place →
      ∃ seg, s.segmentAt place = some seg := by
    intro place hplace
    unfold SegmentLogStorage.olderSegment at hplace
    have hlength := (List.takeWhile_prefix (l := s.segments)
      fun seg => decide (seg.firstIndex ≤ index)).length_le
    split at hplace
    · cases hplace
    · rename_i position hposition
      cases hplace
      rw [hposition] at hlength
      exact ⟨_, List.getElem?_eq_getElem (Nat.lt_of_succ_le hlength)⟩
  unfold SegmentLogStorage.getSegment at h
  split at h
  · cases h
  · split at h
    · cases h
    · split at h
      · rename_i seg hopened
        split at h
        · cases h
          exact ⟨seg, hopened⟩
        · obtain ⟨place', hplace, hsame⟩ := Option.map_eq_some_iff.mp h
          cases hsame
          exact holder place hplace
      · obtain ⟨place', hplace, hsame⟩ := Option.map_eq_some_iff.mp h
        cases hsame
        exact holder place hplace

private theorem route_segmentAt (hopened : s.openedSegment = some seg)
    (h : (s.getSegment index).isSome = true) :
    ∃ place other, s.route seg index = some place ∧ s.segmentAt place = some other := by
  unfold SegmentLogStorage.route
  split
  · obtain ⟨found, hfound⟩ := Option.isSome_iff_exists.mp h
    rw [hfound]
    cases found with
    | none => exact ⟨.opened, seg, rfl, hopened⟩
    | some place =>
      obtain ⟨other, hother⟩ := segmentAt_getSegment hfound
      exact ⟨place, other, rfl, hother⟩
  · exact ⟨.opened, seg, rfl, hopened⟩

theorem append_undefined (hopen : seg.isOpen = true) (hdata : dataOf codec entry = none) :
    seg.append codec entry = none := by
  rw [Segment.append, hopen, hdata]
  rfl

private theorem append_unwritable (seg : Segment) (hdata : dataOf codec entry = some none) :
    seg.append codec entry = some (seg, false) := by
  unfold Segment.append
  split
  · rfl
  · rw [hdata]

private theorem agree_unwritable (hnew : s.getEntry codec entry.id.index = some none)
    (hdata : dataOf codec entry = some none) : Agree flags codec setting s entry := by
  have hfound : (s.getSegment entry.id.index).isSome = true := by
    obtain ⟨place, hplace, -⟩ := Option.bind_eq_some_iff.mp hnew
    rw [hplace]
    rfl
  obtain ⟨place, other, hroute, hother⟩ :=
    route_segmentAt (openSegment_range flags s).1 (getSegment_openSegment flags hfound)
  have hone : appendEntry flags codec setting s entry = some ((s.openSegment flags).1, false) := by
    simp [appendEntry, append_unwritable _ hdata]
  have hmany : s.appendEntries flags codec [entry] = some ((s.openSegment flags).1, 0) := by
    simp [SegmentLogStorage.appendEntries, SegmentLogStorage.appendOne, hroute, hother,
      append_unwritable _ hdata]
  exact ⟨_, false, _, 0, hone, hmany, by simp, fun _ => rfl, fun _ => rfl, rfl⟩

private theorem both_append (setting : SyncSetting)
    (hlow : 0 ≤ entry.id.index - (s.openSegment flags).2.firstIndex)
    (happend : (s.openSegment flags).2.append codec entry = some (seg', true)) :
    ∃ t, appendEntry flags codec setting s entry = some (t, decide (sync setting seg' = 0)) ∧
      s.appendEntries flags codec [entry] = some (t, 1) := by
  have hroute : (s.openSegment flags).1.route (s.openSegment flags).2 entry.id.index =
      some .opened := by
    unfold SegmentLogStorage.route
    rw [if_neg (by omega)]
  have hplace : (s.openSegment flags).1.segmentAt .opened = some (s.openSegment flags).2 :=
    (openSegment_range flags s).1
  refine ⟨{ (s.openSegment flags).1.put seg' .opened with
    lastLogIndex := max (s.openSegment flags).1.lastLogIndex entry.id.index }, ?_, ?_⟩
  · simp only [appendEntry, happend, Option.bind_eq_bind, Option.bind_some, if_true]
  · simp only [SegmentLogStorage.appendEntries, SegmentLogStorage.appendOne, hroute, hplace,
      happend, Option.bind_eq_bind, Option.bind_some, if_true, Option.map_some]

end Routing

section Agree

variable {codec : ConfigurationCodec} {s : SegmentLogStorage} {seg seg' : Segment}
variable {entry : LogEntry}

private theorem sync_eq_zero (setting : SyncSetting) (seg : Segment) :
    sync setting seg = 0 ↔ (seg.firstIndex < seg.lastIndex →
      setting.raftSync = true → setting.enableSync = true → setting.raftFsync = 0) := by
  unfold sync
  by_cases hmore : seg.firstIndex < seg.lastIndex
  · by_cases hsync : setting.raftSync = true ∧ setting.enableSync = true
    · simp [hmore, hsync]
    · rw [if_pos hmore, if_neg hsync]
      exact ⟨fun _ _ hraft henable => absurd ⟨hraft, henable⟩ hsync, fun _ => rfl⟩
  · simp [hmore]

private theorem sync_append (setting : SyncSetting) (hready : seg.pendingForClosing = false)
    (happend : seg.append codec entry = some (seg', true)) :
    sync setting seg' = 0 ↔ (seg.firstIndex < max seg.lastIndex entry.id.index →
      setting.raftSync = true → setting.enableSync = true → setting.raftFsync = 0) := by
  obtain ⟨-, data, -, -, -, rfl | ⟨hpending, -⟩⟩ := append_cases happend
  · exact sync_eq_zero setting _
  · rw [hready] at hpending
    cases hpending

/-- For an entry that is not stored yet, the entry points agree exactly when both refuse its
type, or it has data, the open segment takes it and its sync does not fail. -/
theorem agree_iff (flags : Flags) (codec : ConfigurationCodec) (setting : SyncSetting)
    {calls : List Call} {s : SegmentLogStorage} {entry : LogEntry}
    (hreached : runEvents (perform codec) .fresh calls = some s)
    (hnew : s.getEntry codec entry.id.index = some none) :
    Agree flags codec setting s entry ↔ dataOf codec entry = some none ∨
      dataOf codec entry ≠ none ∧ TakenOpen setting (openRange flags s) entry.id.index := by
  obtain ⟨hopened, hrange⟩ := openSegment_range flags s
  obtain ⟨hopen, hpending⟩ := (ready_reached hreached).openSegment flags _ hopened
  rw [← hrange]
  rcases hdata : dataOf codec entry with - | - | data
  · refine iff_of_false ?_ (by rintro (hnone | ⟨hnone, -⟩) <;> simp at hnone)
    rintro ⟨s₁, succeeded, s₂, taken, hone, -⟩
    obtain ⟨result, happend, -⟩ := Option.bind_eq_some_iff.mp hone
    cases (append_undefined hopen hdata).symm.trans happend
  · exact iff_of_true (agree_unwritable hnew hdata) (.inl rfl)
  · constructor
    · rintro ⟨s₁, succeeded, s₂, taken, hone, hmany, hsame, -⟩
      obtain ⟨⟨seg', written⟩, happend, -⟩ := Option.bind_eq_some_iff.mp hone
      cases written with
      | false =>
        rw [(append_refused happend).2 hopen] at hdata
        cases hdata
      | true =>
        obtain ⟨-, -, -, hlow, hhigh, -⟩ := append_cases happend
        obtain ⟨t, hone', hmany'⟩ := both_append setting hlow happend
        cases hone.symm.trans hone'
        cases hmany.symm.trans hmany'
        have hsync : sync setting seg' = 0 := of_decide_eq_true (hsame.mpr rfl)
        refine .inr ⟨by simp, Int.sub_nonneg.mp hlow, hhigh, ?_⟩
        exact (sync_append setting hpending happend).mp hsync
    · rintro (hnone | ⟨-, habove, hinside, hsynced⟩)
      · cases hnone
      · have hlow := Int.sub_nonneg.mpr habove
        obtain ⟨seg', happend⟩ := append_succeeds hopen hdata hlow hinside
        obtain ⟨t, hone, hmany⟩ := both_append setting hlow happend
        have hsync := (sync_append setting hpending happend).mpr hsynced
        exact ⟨t, _, t, 1, hone, hmany, by simp [hsync], fun _ => rfl, fun _ => rfl, rfl⟩

end Agree

section Samples

private def tight : Flags := ⟨40, 100⟩

private def synced : SyncSetting := ⟨true, true, 0⟩

private def byteAt (index : Int) : LogEntry := ⟨.data, ⟨index, 1⟩, 0, none, none, [7]⟩

/-- The storage behind one append of index 2, whose segment is then over its limit. -/
private def secondOnly : SegmentLogStorage :=
  { SegmentLogStorage.fresh with
    lastLogIndex := 2
    openedSegment := some ((Segment.new 1).write ⟨1, 2, 0, .data, [7]⟩) }

private theorem secondOnly_reached : runEvents (perform .unary) .fresh
    [.appendEntries tight [byteAt 2]] = some secondOnly := rfl

theorem agree_iff_next : Agree tight .unary synced secondOnly (byteAt 3) :=
  (agree_iff tight .unary synced secondOnly_reached rfl).mpr
    (.inr ⟨by decide, by decide, by decide, fun _ _ _ => rfl⟩)

/-- Index 1 is missing in the first segment. `append_entries` writes it there;
`append_entry` starts the segment of index 3 and writes outside its arrays. -/
theorem not_agree_below : ∃ calls s,
    runEvents (perform .unary) .fresh calls = some s ∧ s.firstLogIndex ≤ (byteAt 1).id.index ∧
      s.getEntry .unary (byteAt 1).id.index = some none ∧
      ¬ Agree tight .unary synced s (byteAt 1) := by
  refine ⟨_, secondOnly, secondOnly_reached, by decide, rfl, ?_⟩
  rintro ⟨s₁, succeeded, s₂, taken, hone, -⟩
  have hfault : appendEntry tight .unary synced secondOnly (byteAt 1) = none := rfl
  rw [hfault] at hone
  cases hone

end Samples

end HitConsistency.Log.AppendEntryPoints
