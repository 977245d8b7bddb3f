/- GID: HitConsistency/Log/StorageContents
   digest: What the segments of a storage hold together, kept by routing, rotation and truncation. -/

import HitConsistency.Base.IntervalTiling
import HitConsistency.Log.SegmentContents
import HitConsistency.Log.SegmentStorage

set_option autoImplicit false
set_option relaxedAutoImplicit false

/-!
The segments tile the indexes from one at or below the first log index up to the last
one. A read asks the one segment its index falls into, and every change is a change of
one tile, of the tiles at an end, or a new tile behind the last.
-/

namespace HitConsistency.Log.StorageContents

open HitConsistency.Base.IntervalTiling
open HitConsistency.Log.Entry
open HitConsistency.Log.MemoryLog
open HitConsistency.Log.SegmentFile
open HitConsistency.Log.SegmentContents
open HitConsistency.Log.SegmentStorage

variable {codec : ConfigurationCodec} {flags : Flags} {s s' : SegmentLogStorage}

/-- Segments one behind the other from the first index to before the second. -/
def Covers (a e : Int) (segs : List Segment) : Prop :=
  Tiles Segment.firstIndex Segment.lastIndex a e segs

def contents (codec : ConfigurationCodec) (segs : List Segment) (i : Int) : Option LogEntry :=
  lookup (Segment.get codec) segs i

structure WellFormed (codec : ConfigurationCodec) (s : SegmentLogStorage) : Prop where
  sound : ∀ seg ∈ s.live, Sound codec seg
  covers : ∃ a, a ≤ s.firstLogIndex ∧ Covers a (s.lastLogIndex + 1) s.live
  first_le : s.firstLogIndex ≤ s.lastLogIndex + 1
  ranged : ∀ seg ∈ s.segments, seg.firstIndex ≤ seg.lastIndex ∧ s.firstLogIndex ≤ seg.lastIndex
  opened : ∀ seg ∈ s.openedSegment, seg.isOpen = true ∧ seg.pendingForClosing = false
  blank : ∀ seg ∈ s.openedSegment,
    (seg.firstIndex ≤ seg.lastIndex ∧ s.firstLogIndex ≤ seg.lastIndex) ∨
      (seg.lastIndex < seg.firstIndex ∧ seg.bytes = 0)

theorem wellFormed_fresh : WellFormed codec .fresh := by
  refine ⟨?_, ⟨1, ?_, ?_⟩, ?_, ?_, ?_, ?_⟩
  all_goals simp [SegmentLogStorage.fresh, SegmentLogStorage.live, Covers, Tiles]

theorem contents_around {a e i : Int} {before behind : List Segment} {seg : Segment}
    (hcovers : Covers a e (before ++ seg :: behind))
    (hsound : ∀ seg' ∈ before ++ seg :: behind, Sound codec seg')
    (hlow : seg.firstIndex ≤ i) (hhigh : i ≤ seg.lastIndex) :
    contents codec (before ++ seg :: behind) i = seg.get codec i :=
  lookup_around hcovers hlow hhigh fun seg' hmem _ hget => (hsound seg' hmem).get_range hget

theorem WellFormed.locate (hwf : WellFormed codec s) {i : Int} (hlow : s.firstLogIndex ≤ i)
    (hhigh : i ≤ s.lastLogIndex) :
    ∃ place seg before behind, s.getSegment i = some (some place) ∧
      s.segmentAt place = some seg ∧ s.live = before ++ seg :: behind ∧
      seg.firstIndex ≤ i ∧ i ≤ seg.lastIndex ∧
      ((place = .opened ∧ behind = [] ∧ s.segments = before) ∨
        ∃ others, place = .older before.length ∧ s.segments = before ++ seg :: others ∧
          behind = others ++ s.openedSegment.toList) := by
  obtain ⟨a, ha, hcovers⟩ := hwf.covers
  obtain ⟨before, seg, behind, hlive, hfirst, hlast⟩ :=
    Tiles.split hcovers (by omega : a ≤ i) (by omega : i < s.lastLogIndex + 1)
  have holder : ∀ others, s.segments = before ++ seg :: others →
      s.olderSegment i = some (.older before.length) := by
    intro others hsegments
    have htiles : Covers a (s.lastLogIndex + 1) (s.segments ++ s.openedSegment.toList) := hcovers
    obtain ⟨c, htiles, -⟩ := tiles_append.mp htiles
    rw [hsegments] at htiles
    unfold SegmentLogStorage.olderSegment
    rw [hsegments, Tiles.takeWhile_first htiles hfirst hlast]
    simp
  have hsplit : s.segments ++ s.openedSegment.toList = before ++ seg :: behind := hlive
  unfold SegmentLogStorage.getSegment
  rw [if_neg (by omega), if_neg (by omega)]
  cases hopened : s.openedSegment with
  | none =>
    rw [hopened, Option.toList_none, List.append_nil] at hsplit
    refine ⟨.older before.length, seg, before, behind, ?_, ?_, hlive, hfirst, hlast, ?_⟩
    · simp [holder behind hsplit]
    · simp [SegmentLogStorage.segmentAt, hsplit]
    · exact .inr ⟨behind, rfl, hsplit, by simp⟩
  | some o =>
    rw [hopened, Option.toList_some] at hsplit
    rcases List.eq_nil_or_concat' behind with rfl | ⟨others, z, rfl⟩
    · obtain ⟨hsegments, ho⟩ := List.append_inj' hsplit rfl
      obtain rfl : o = seg := by simpa using ho
      refine ⟨.opened, o, before, [], ?_, hopened, hlive, hfirst, hlast, .inl ⟨rfl, rfl, hsegments⟩⟩
      simp [hfirst]
    · rw [← List.cons_append, ← List.append_assoc] at hsplit
      obtain ⟨hsegments, ho⟩ := List.append_inj' hsplit rfl
      obtain rfl : o = z := by simpa using ho
      -- The open segment begins behind the one that holds the index.
      have hbehind : i < o.firstIndex := by
        have htiles : Covers a (s.lastLogIndex + 1) ((before ++ seg :: others) ++ o :: []) := by
          rw [← hsplit, ← Option.toList_some, ← hopened]
          exact hcovers
        obtain ⟨hbefore, -, -⟩ := tiles_around.mp htiles
        have hbounds := hbefore.bounds (show seg ∈ before ++ seg :: others by simp)
        omega
      refine ⟨.older before.length, seg, before, others ++ [o], ?_, ?_, hlive, hfirst, hlast, ?_⟩
      · simp [holder others hsegments, hbehind]
      · simp [SegmentLogStorage.segmentAt, hsegments]
      · exact .inr ⟨others, rfl, hsegments, rfl⟩

theorem getSegment_outside {i : Int} (hout : ¬ (s.firstLogIndex ≤ i ∧ i ≤ s.lastLogIndex)) :
    s.getSegment i = some none := by
  unfold SegmentLogStorage.getSegment
  split
  · rfl
  · rw [if_pos (by omega)]

theorem WellFormed.getEntry_eq (hwf : WellFormed codec s) (i : Int) :
    s.getEntry codec i =
      some (if s.firstLogIndex ≤ i ∧ i ≤ s.lastLogIndex then contents codec s.live i else none) := by
  by_cases hrange : s.firstLogIndex ≤ i ∧ i ≤ s.lastLogIndex
  · obtain ⟨place, seg, before, behind, hplace, hseg, hlive, hfirst, hlast, -⟩ :=
      hwf.locate hrange.1 hrange.2
    obtain ⟨a, -, hcovers⟩ := hwf.covers
    have hsound := hwf.sound
    rw [hlive] at hcovers hsound
    simp only [SegmentLogStorage.getEntry, hplace, Option.bind_eq_bind, Option.bind_some, hseg,
      Option.map_some]
    rw [if_pos hrange, hlive, contents_around hcovers hsound hfirst hlast]
  · simp [SegmentLogStorage.getEntry, getSegment_outside hrange, hrange]

theorem WellFormed.getTerm_eq (hwf : WellFormed codec s) (i : Int) :
    s.getTerm i = (s.getEntry codec i).map fun entry =>
      (entry.map fun entry => entry.id.term).getD 0 := by
  by_cases hrange : s.firstLogIndex ≤ i ∧ i ≤ s.lastLogIndex
  · obtain ⟨place, seg, before, behind, hplace, hseg, hlive, -⟩ := hwf.locate hrange.1 hrange.2
    have hsound : Sound codec seg := hwf.sound seg (by rw [hlive]; simp)
    simp only [SegmentLogStorage.getTerm, SegmentLogStorage.getEntry, hplace, Option.bind_eq_bind,
      Option.bind_some, hseg, Option.map_some, hsound.getTerm_of_get i]
  · simp [SegmentLogStorage.getTerm, SegmentLogStorage.getEntry, getSegment_outside hrange]

section Open

private theorem contents_append (codec : ConfigurationCodec) (segs more : List Segment) (i : Int) :
    contents codec (segs ++ more) i = (contents codec segs i).or (contents codec more i) :=
  List.findSome?_append

private theorem contents_single (codec : ConfigurationCodec) (seg : Segment) (i : Int) :
    contents codec [seg] i = seg.get codec i := by
  simp only [contents, lookup, List.findSome?_cons, List.findSome?_nil]
  cases seg.get codec i with
  | none => rfl
  | some entry => rfl

theorem contents_push_new (segs : List Segment) (first i : Int) :
    contents codec (segs ++ [.new first]) i = contents codec segs i := by
  rw [contents_append, contents_single, get_new, Option.or_none]

private theorem covers_push_new {a e : Int} {segs : List Segment} (h : Covers a e segs) :
    Covers a e (segs ++ [.new e]) := by
  unfold Covers at *
  rw [tiles_append]
  refine ⟨e, h, rfl, ?_, ?_⟩
  · simp [Segment.new]
  · simp [Tiles, Segment.new]

theorem insertSegment_last {seg : Segment} {segs : List Segment}
    (h : ∀ other ∈ segs, other.firstIndex < seg.firstIndex) :
    SegmentLogStorage.insertSegment seg segs = segs ++ [seg] := by
  induction segs with
  | nil => rfl
  | cons head rest ih =>
    have hhead := h head (by simp)
    have hrest := ih fun other hmem => h other (by simp [hmem])
    rw [SegmentLogStorage.insertSegment, if_neg (by omega), if_neg (by omega), hrest]
    rfl

/-- A segment of a size is over one of the limits. -/
def OverLimit (flags : Flags) (bytes : Nat) (seg : Segment) : Prop :=
  flags.raftMaxSegmentSize < bytes ∨
    (flags.raftMaxSegmentIndexSize : Int) < seg.lastIndex - seg.firstIndex

instance overLimitDecidable (flags : Flags) (bytes : Nat) (seg : Segment) :
    Decidable (OverLimit flags bytes seg) :=
  inferInstanceAs (Decidable (_ ∨ _))

/-- Either there is room in the open segment, which may be new, or the open segment moves to
the older ones, closed if it is full, and a new one is opened. -/
theorem WellFormed.openSegment_cases (hwf : WellFormed codec s) (flags : Flags) :
    (∃ seg, s.openSegment flags = ({ s with openedSegment := some seg }, seg) ∧
      ¬ OverLimit flags seg.bytes seg ∧
      (s.openedSegment = some seg ∨
        s.openedSegment = none ∧ seg = .new (s.lastLogIndex + 1))) ∨
    ∃ seg prev, s.openedSegment = some seg ∧ seg.firstIndex ≤ seg.lastIndex ∧
      OverLimit flags seg.bytes seg ∧
      (seg.isFullfilled = false ∧ prev = seg.prepareToClose ∨
        seg.isFullfilled = true ∧ prev = seg.close) ∧
      s.openSegment flags = ({ s with
        segments := s.segments ++ [prev]
        openedSegment := some (.new (s.lastLogIndex + 1)) }, .new (s.lastLogIndex + 1)) := by
  unfold SegmentLogStorage.openSegment
  cases hopened : s.openedSegment with
  | none =>
    refine .inl ⟨.new (s.lastLogIndex + 1), ?_, ?_, .inr ⟨rfl, rfl⟩⟩
    · simp [Segment.new]
    · simp [OverLimit, Segment.new]
  | some seg =>
    by_cases hfull : flags.raftMaxSegmentSize < seg.bytes ∨
        (flags.raftMaxSegmentIndexSize : Int) < seg.lastIndex - seg.firstIndex
    · have hrange : seg.firstIndex ≤ seg.lastIndex := by
        by_contra hlt
        have hblank := hwf.blank seg hopened
        omega
      obtain ⟨a, -, hcovers⟩ := hwf.covers
      have hbefore : ∀ other ∈ s.segments, other.firstIndex < seg.firstIndex := by
        have htiles : Covers a (s.lastLogIndex + 1) (s.segments ++ seg :: []) := by
          simpa [SegmentLogStorage.live, hopened] using hcovers
        obtain ⟨hsegments, -, -⟩ := tiles_around.mp htiles
        intro other hmem
        have hbounds := hsegments.bounds hmem
        have hranged := (hwf.ranged other hmem).1
        omega
      have hinsert : ∀ prev : Segment, prev.firstIndex = seg.firstIndex →
          SegmentLogStorage.insertSegment prev s.segments = s.segments ++ [prev] := by
        intro prev hprev
        apply insertSegment_last
        rw [hprev]
        exact hbefore
      by_cases hdone : seg.isFullfilled = true
      · refine .inr ⟨seg, seg.close, rfl, hrange, hfull, .inr ⟨hdone, rfl⟩, ?_⟩
        have hdone' : seg.prepareToClose.isFullfilled = true := hdone
        simp only [Option.getD_some, if_pos hfull, hdone', if_true]
        rw [hinsert seg.prepareToClose.close rfl]
        rfl
      · refine .inr ⟨seg, seg.prepareToClose, rfl, hrange, hfull,
          .inl ⟨Bool.eq_false_iff.mpr hdone, rfl⟩, ?_⟩
        have hdone' : ¬ seg.prepareToClose.isFullfilled = true := hdone
        simp only [Option.getD_some, if_pos hfull, hdone', Bool.false_eq_true, if_false]
        rw [hinsert seg.prepareToClose rfl]
    · refine .inl ⟨seg, ?_, hfull, .inl rfl⟩
      simp only [Option.getD_some, if_neg hfull]

theorem WellFormed.openSegment (hwf : WellFormed codec s) {seg : Segment}
    (h : s.openSegment flags = (s', seg)) :
    WellFormed codec s' ∧ s'.openedSegment = some seg ∧ s'.firstLogIndex = s.firstLogIndex ∧
      s'.lastLogIndex = s.lastLogIndex ∧ ∀ i, contents codec s'.live i = contents codec s.live i := by
  obtain ⟨a, ha, hcovers⟩ := hwf.covers
  have hnewSound := sound_new codec (s.lastLogIndex + 1)
  rcases hwf.openSegment_cases flags with
    ⟨cur, hopen, -, hcur | ⟨hcur, rfl⟩⟩ | ⟨cur, prev, hcur, hrange, -, hprev, hopen⟩
  · cases hopen.symm.trans h
    have hsame : { s with openedSegment := some seg } = s := by rw [← hcur]
    rw [hsame]
    exact ⟨hwf, hcur, rfl, rfl, fun i => rfl⟩
  · cases hopen.symm.trans h
    have hlive : s.live = s.segments := by simp [SegmentLogStorage.live, hcur]
    have hlive' : SegmentLogStorage.live
        { s with openedSegment := some (.new (s.lastLogIndex + 1)) } =
          s.live ++ [.new (s.lastLogIndex + 1)] := by
      rw [hlive]
      rfl
    refine ⟨⟨?_, ⟨a, ha, ?_⟩, hwf.first_le, hwf.ranged, ?_, ?_⟩, rfl, rfl, rfl, ?_⟩
    · rw [hlive']
      intro seg hmem
      rcases List.mem_append.mp hmem with hmem | hmem
      · exact hwf.sound seg hmem
      · cases List.mem_singleton.mp hmem
        exact hnewSound
    · rw [hlive']
      exact covers_push_new hcovers
    · rintro seg ⟨⟩
      exact ⟨rfl, rfl⟩
    · rintro seg ⟨⟩
      exact .inr ⟨by simp [Segment.new], rfl⟩
    · intro i
      rw [hlive', contents_push_new]
  · cases hopen.symm.trans h
    have hlive : s.live = s.segments ++ [cur] := by simp [SegmentLogStorage.live, hcur]
    have hsame : SameContents cur prev := by
      rcases hprev with ⟨-, rfl⟩ | ⟨-, rfl⟩
      · exact sameContents_prepareToClose cur
      · exact sameContents_close cur
    have hlive' : SegmentLogStorage.live { s with
        segments := s.segments ++ [prev]
        openedSegment := some (.new (s.lastLogIndex + 1)) } =
          (s.segments ++ [prev]) ++ [.new (s.lastLogIndex + 1)] := rfl
    have hreach : s.lastLogIndex = cur.lastIndex := by
      rw [hlive] at hcovers
      have hend := (tiles_around.mp hcovers).2.2
      simp only [Tiles] at hend
      omega
    have hmoved : Covers a (s.lastLogIndex + 1) (s.segments ++ [prev]) := by
      rw [hlive] at hcovers
      exact Tiles.replace hcovers hsame.first hsame.last
    refine ⟨⟨?_, ⟨a, ha, ?_⟩, hwf.first_le, ?_, ?_, ?_⟩, rfl, rfl, rfl, ?_⟩
    · rw [hlive']
      intro seg hmem
      simp only [List.mem_append, List.mem_singleton] at hmem
      rcases hmem with (hmem | rfl) | rfl
      · exact hwf.sound seg (by rw [hlive]; simp [hmem])
      · exact hsame.sound (hwf.sound cur (by rw [hlive]; simp))
      · exact hnewSound
    · rw [hlive']
      exact covers_push_new hmoved
    · intro seg hmem
      simp only [List.mem_append, List.mem_singleton] at hmem
      rcases hmem with hmem | rfl
      · exact hwf.ranged seg hmem
      · have hblank := hwf.blank cur hcur
        rw [hsame.first, hsame.last]
        dsimp only
        omega
    · rintro seg ⟨⟩
      exact ⟨rfl, rfl⟩
    · rintro seg ⟨⟩
      exact .inr ⟨by simp [Segment.new], rfl⟩
    · intro i
      rw [hlive', contents_push_new, hlive, contents_append, contents_append, contents_single,
        contents_single, hsame.get]

/-- What holds of a new segment, and of a full one that is put away, holds of every segment
once there is room. -/
theorem WellFormed.forall_openSegment (hwf : WellFormed codec s) {P : Segment → Prop}
    (hnew : ∀ first, P (.new first)) (hprepare : ∀ seg, P seg → P seg.prepareToClose)
    (hclose : ∀ seg, seg.isFullfilled = true → P seg → P seg.close)
    (hlive : ∀ seg ∈ s.live, P seg) {o : Segment} (hroom : s.openSegment flags = (s', o)) :
    (∀ seg ∈ s'.live, P seg) ∧ s'.logMeta = s.logMeta := by
  have hold : ∀ seg ∈ s.segments, P seg := fun seg hmem => hlive seg (by
    simp [SegmentLogStorage.live, hmem])
  rcases hwf.openSegment_cases flags with
    ⟨cur, hopen, -, hcur | ⟨hcur, rfl⟩⟩ | ⟨cur, prev, hcur, -, -, hprev, hopen⟩
  · cases hopen.symm.trans hroom
    refine ⟨?_, rfl⟩
    intro seg hmem
    apply hlive seg
    simpa [SegmentLogStorage.live, hcur] using hmem
  · cases hopen.symm.trans hroom
    refine ⟨?_, rfl⟩
    intro seg hmem
    rcases List.mem_append.mp hmem with hmem | hmem
    · exact hold seg hmem
    · cases List.mem_singleton.mp hmem
      exact hnew _
  · cases hopen.symm.trans hroom
    refine ⟨?_, rfl⟩
    have hcurrent := hlive cur (by simp [SegmentLogStorage.live, hcur])
    have hmoved : P prev := by
      rcases hprev with ⟨-, rfl⟩ | ⟨hdone, rfl⟩
      · exact hprepare cur hcurrent
      · exact hclose cur hdone hcurrent
    intro seg hmem
    rcases List.mem_append.mp hmem with hmem | hmem
    · rcases List.mem_append.mp hmem with hmem | hmem
      · exact hold seg hmem
      · cases List.mem_singleton.mp hmem
        exact hmoved
    · cases List.mem_singleton.mp hmem
      exact hnew _

end Open

section Append

variable {entry : LogEntry}

/-- Where a successful append went: the segment, the tiles around it, and what replaced it. -/
structure Written (codec : ConfigurationCodec) (s s' : SegmentLogStorage) (entry : LogEntry)
    (before behind : List Segment) (seg seg' : Segment) : Prop where
  live : s.live = before ++ seg :: behind
  live' : s'.live = before ++ seg' :: behind
  append : seg.append codec entry = some (seg', true)
  inside : behind = [] ∧ s.openedSegment = some seg ∨ entry.id.index ≤ seg.lastIndex
  first : s'.firstLogIndex = s.firstLogIndex
  last : s'.lastLogIndex = max s.lastLogIndex entry.id.index
  logMeta : s'.logMeta = s.logMeta

theorem Written.forall {before behind : List Segment} {seg seg' : Segment} {P : Segment → Prop}
    (h : Written codec s s' entry before behind seg seg') (hlive : ∀ seg ∈ s.live, P seg)
    (hseg' : P seg → P seg') : ∀ seg ∈ s'.live, P seg := by
  rw [h.live] at hlive
  rw [h.live']
  intro other hother
  rcases List.mem_append.mp hother with hother | hother
  · exact hlive other (List.mem_append_left _ hother)
  · rcases List.mem_cons.mp hother with rfl | hother
    · exact hseg' (hlive seg (by simp))
    · exact hlive other (List.mem_append_right _ (List.mem_cons_of_mem _ hother))

theorem WellFormed.opened_live (hwf : WellFormed codec s) {o : Segment}
    (hopened : s.openedSegment = some o) :
    s.live = s.segments ++ [o] ∧ o.lastIndex = s.lastLogIndex := by
  have hlive : s.live = s.segments ++ [o] := by simp [SegmentLogStorage.live, hopened]
  refine ⟨hlive, ?_⟩
  obtain ⟨a, -, hcovers⟩ := hwf.covers
  rw [hlive] at hcovers
  have hend := (tiles_around.mp hcovers).2.2
  simp only [Tiles] at hend
  omega

theorem WellFormed.route_inside (hwf : WellFormed codec s) {o : Segment} {i : Int}
    (hopened : s.openedSegment = some o) (hlow : s.firstLogIndex ≤ i) (hhigh : i ≤ s.lastLogIndex) :
    ∃ place seg before behind, s.route o i = some place ∧ s.segmentAt place = some seg ∧
      s.live = before ++ seg :: behind ∧ seg.firstIndex ≤ i ∧ i ≤ seg.lastIndex := by
  unfold SegmentLogStorage.route
  by_cases hbefore : i < o.firstIndex
  · obtain ⟨place, seg, before, behind, hget, hseg, hlive, hfirst, hlast, -⟩ :=
      hwf.locate hlow hhigh
    exact ⟨place, seg, before, behind, by simp [hbefore, hget], hseg, hlive, hfirst, hlast⟩
  · obtain ⟨hlive, hlast⟩ := hwf.opened_live hopened
    exact ⟨.opened, o, s.segments, [], if_neg hbefore, hopened, hlive, by omega, by omega⟩

theorem WellFormed.write_opened (hwf : WellFormed codec s) {o o' : Segment}
    (hopened : s.openedSegment = some o) (happend : o.append codec entry = some (o', true)) :
    Written codec s { s.put o' .opened with lastLogIndex := max s.lastLogIndex entry.id.index }
        entry s.segments [] o o' ∧
      WellFormed codec
        { s.put o' .opened with lastLogIndex := max s.lastLogIndex entry.id.index } := by
  obtain ⟨hlive, hlast⟩ := hwf.opened_live hopened
  obtain ⟨a, ha, hcovers⟩ := hwf.covers
  have hsound := hwf.sound o (by rw [hlive]; simp)
  obtain ⟨hsound', hfirst', hlast', -⟩ := sound_append hsound happend
  obtain ⟨hopen, data, -, hlow, -, hwritten⟩ := append_cases happend
  obtain ⟨-, hpending⟩ := hwf.opened o hopened
  have hstate : o'.isOpen = true ∧ o'.pendingForClosing = false := by
    rcases hwritten with rfl | ⟨hclosing, -, -⟩
    · exact ⟨hopen, hpending⟩
    · rw [hpending] at hclosing
      cases hclosing
  refine ⟨⟨hlive, rfl, happend, .inl ⟨rfl, hopened⟩, rfl, rfl, rfl⟩, ?_⟩
  rw [hlive] at hcovers
  obtain ⟨hbefore, -, -⟩ := tiles_around.mp hcovers
  have hfirstLe := hwf.first_le
  refine ⟨?_, ⟨a, ha, ?_⟩, ?_, hwf.ranged, ?_, ?_⟩
  · intro seg hmem
    rcases List.mem_append.mp hmem with hmem | hmem
    · exact hwf.sound seg (by rw [hlive]; exact List.mem_append_left _ hmem)
    · cases List.mem_singleton.mp hmem
      exact hsound'
  · refine tiles_around.mpr ⟨?_, ?_, ?_⟩
    · rw [hfirst']
      exact hbefore
    · exact hsound'.range
    · simp only [Tiles]
      rw [hlast', hlast]
  · simp only [SegmentLogStorage.put]
    omega
  · rintro seg ⟨⟩
    exact hstate
  · rintro seg ⟨⟩
    refine .inl ?_
    have hblank := hwf.blank o hopened
    rw [hfirst', hlast']
    simp only [SegmentLogStorage.put]
    omega

theorem WellFormed.write_older (hwf : WellFormed codec s) {before others : List Segment}
    {seg seg' : Segment} (hsegments : s.segments = before ++ seg :: others)
    (hhigh : entry.id.index ≤ seg.lastIndex) (happend : seg.append codec entry = some (seg', true)) :
    Written codec s { s.put seg' (.older before.length) with
        lastLogIndex := max s.lastLogIndex entry.id.index }
        entry before (others ++ s.openedSegment.toList) seg seg' ∧
      WellFormed codec { s.put seg' (.older before.length) with
        lastLogIndex := max s.lastLogIndex entry.id.index } := by
  have hlive : s.live = before ++ seg :: (others ++ s.openedSegment.toList) := by
    simp [SegmentLogStorage.live, hsegments]
  obtain ⟨a, ha, hcovers⟩ := hwf.covers
  rw [hlive] at hcovers
  have hsound := hwf.sound seg (by rw [hlive]; simp)
  obtain ⟨hsound', hfirst', hlast', -⟩ := sound_append hsound happend
  have hsame : seg'.lastIndex = seg.lastIndex := by omega
  have hend : max s.lastLogIndex entry.id.index = s.lastLogIndex := by
    have hbounds := hcovers.bounds
      (show seg ∈ before ++ seg :: (others ++ s.openedSegment.toList) by simp)
    omega
  have hset : s.segments.set before.length seg' = before ++ seg' :: others := by
    rw [hsegments]
    simp
  have hlive' : (s.segments.set before.length seg') ++ s.openedSegment.toList =
      before ++ seg' :: (others ++ s.openedSegment.toList) := by
    rw [hset]
    simp
  refine ⟨⟨hlive, hlive', happend, .inr hhigh, rfl, rfl, rfl⟩, ?_⟩
  rw [hend]
  refine ⟨?_, ⟨a, ha, ?_⟩, hwf.first_le, ?_, hwf.opened, hwf.blank⟩
  · intro other hmem
    replace hmem : other ∈ before ++ seg' :: (others ++ s.openedSegment.toList) := hlive' ▸ hmem
    rcases List.mem_append.mp hmem with hmem | hmem
    · exact hwf.sound other (by rw [hlive]; simp [hmem])
    · rcases List.mem_cons.mp hmem with rfl | hmem
      · exact hsound'
      · exact hwf.sound other (by
          rw [hlive]
          exact List.mem_append_right _ (List.mem_cons_of_mem _ hmem))
  · change Covers a _ ((s.segments.set before.length seg') ++ s.openedSegment.toList)
    rw [hlive']
    exact Tiles.replace hcovers hfirst' hsame
  · intro other hmem
    replace hmem : other ∈ before ++ seg' :: others := hset ▸ hmem
    have hold : ∀ x ∈ before ++ seg :: others,
        x.firstIndex ≤ x.lastIndex ∧ s.firstLogIndex ≤ x.lastIndex := by
      rw [← hsegments]
      exact hwf.ranged
    rcases List.mem_append.mp hmem with hmem | hmem
    · exact hold other (by simp [hmem])
    · rcases List.mem_cons.mp hmem with rfl | hmem
      · rw [hfirst', hsame]
        exact hold seg (by simp)
      · exact hold other (by simp [hmem])

theorem WellFormed.appendOne (hwf : WellFormed codec s)
    (h : s.appendOne flags codec entry = some (s', true)) :
    ∃ s1 o before behind seg seg', s.openSegment flags = (s1, o) ∧
      Written codec s1 s' entry before behind seg seg' ∧ WellFormed codec s' := by
  unfold SegmentLogStorage.appendOne at h
  cases hroom : s.openSegment flags with
  | mk s1 o =>
  obtain ⟨hwf1, hopened, -⟩ := hwf.openSegment hroom
  rw [hroom] at h
  obtain ⟨place, hplace, h⟩ := Option.bind_eq_some_iff.mp h
  obtain ⟨seg, hseg, h⟩ := Option.bind_eq_some_iff.mp h
  obtain ⟨⟨seg', written⟩, happend, h⟩ := Option.bind_eq_some_iff.mp h
  cases written with
  | false => cases h
  | true =>
  cases h
  have hopen : place = .opened → ∃ before behind seg0 seg0',
      Written codec s1 { s1.put seg' place with
        lastLogIndex := max s1.lastLogIndex entry.id.index } entry before behind seg0 seg0' ∧
      WellFormed codec { s1.put seg' place with
        lastLogIndex := max s1.lastLogIndex entry.id.index } := by
    rintro rfl
    cases hopened.symm.trans hseg
    exact ⟨s1.segments, [], o, seg', hwf1.write_opened hopened happend⟩
  refine ⟨s1, o, ?_⟩
  simp only [true_and]
  unfold SegmentLogStorage.route at hplace
  split at hplace
  · obtain ⟨found, hfound, rfl⟩ := Option.map_eq_some_iff.mp hplace
    by_cases hrange : s1.firstLogIndex ≤ entry.id.index ∧ entry.id.index ≤ s1.lastLogIndex
    · obtain ⟨place, seg0, before, behind, hget, hat, hlive, hlow, hhigh, hcase⟩ :=
        hwf1.locate hrange.1 hrange.2
      cases hget.symm.trans hfound
      cases hat.symm.trans hseg
      rcases hcase with ⟨rfl, -, -⟩ | ⟨others, rfl, hsegments, rfl⟩
      · exact hopen rfl
      · exact ⟨before, _, seg, seg', hwf1.write_older hsegments hhigh happend⟩
    · rw [getSegment_outside hrange] at hfound
      cases hfound
      exact hopen rfl
  · cases hplace
    exact hopen rfl

end Append

section Prefix

private theorem contents_of_ended {segs : List Segment} {k i : Int}
    (hsound : ∀ seg ∈ segs, Sound codec seg) (hended : ∀ seg ∈ segs, seg.lastIndex < k)
    (hi : k ≤ i) : contents codec segs i = none := by
  rw [contents, lookup, List.findSome?_eq_none_iff]
  intro seg hmem
  by_contra hne
  obtain ⟨entry, hget⟩ := Option.ne_none_iff_exists'.mp hne
  have hrange := (hsound seg hmem).get_range hget
  have hlast := hended seg hmem
  omega

private theorem contents_of_unstarted {segs : List Segment} {i : Int}
    (hsound : ∀ seg ∈ segs, Sound codec seg) (hbegin : ∀ seg ∈ segs, i < seg.firstIndex) :
    contents codec segs i = none := by
  rw [contents, lookup, List.findSome?_eq_none_iff]
  intro seg hmem
  by_contra hne
  obtain ⟨entry, hget⟩ := Option.ne_none_iff_exists'.mp hne
  have hrange := (hsound seg hmem).get_range hget
  have hfirst := hbegin seg hmem
  omega

theorem WellFormed.contents_above (hwf : WellFormed codec s) {i : Int} (hi : s.lastLogIndex < i) :
    contents codec s.live i = none := by
  obtain ⟨a, -, hcovers⟩ := hwf.covers
  apply contents_of_ended hwf.sound _ (by omega : s.lastLogIndex + 1 ≤ i)
  intro seg hmem
  have hbounds := hcovers.bounds hmem
  omega

theorem popSegments_cases (s : SegmentLogStorage) (k : Int) :
    ∃ dropped, (∀ seg ∈ dropped, seg.lastIndex < k) ∧
      ((∃ head rest, s.segments = dropped ++ head :: rest ∧ k ≤ head.lastIndex ∧
          s.popSegments k = { s with firstLogIndex := k, segments := head :: rest }) ∨
        (∃ o, s.segments = dropped ∧ s.openedSegment = some o ∧ k ≤ o.lastIndex ∧
          s.popSegments k = { s with firstLogIndex := k, segments := [] }) ∨
        (s.live = dropped ∧ s.popSegments k = ⟨k, k - 1, [], none, s.logMeta⟩)) := by
  have hparts : s.segments.takeWhile (fun seg => seg.lastIndex < k) ++
      s.segments.dropWhile (fun seg => seg.lastIndex < k) = s.segments :=
    List.takeWhile_append_dropWhile
  have hended : ∀ seg ∈ s.segments.takeWhile (fun seg => seg.lastIndex < k),
      seg.lastIndex < k := by
    intro seg hmem
    simpa using List.mem_takeWhile_imp hmem
  cases hrest : s.segments.dropWhile (fun seg => seg.lastIndex < k) with
  | cons head rest =>
    refine ⟨_, hended, .inl ⟨head, rest, ?_, ?_, ?_⟩⟩
    · rw [← hrest, hparts]
    · have hhead := List.head_dropWhile_not (fun seg : Segment => decide (seg.lastIndex < k))
        (show s.segments.dropWhile (fun seg => seg.lastIndex < k) ≠ [] by rw [hrest]; simp)
      simpa [hrest] using hhead
    · simp [SegmentLogStorage.popSegments, hrest]
  | nil =>
    rw [hrest, List.append_nil] at hparts
    rw [hparts] at hended
    cases hopened : s.openedSegment with
    | none =>
      refine ⟨s.segments, hended, .inr (.inr ⟨?_, ?_⟩)⟩
      · simp [SegmentLogStorage.live, hopened]
      · simp [SegmentLogStorage.popSegments, hrest, hopened]
    | some o =>
      by_cases hgone : o.lastIndex < k
      · refine ⟨s.live, ?_, .inr (.inr ⟨rfl, ?_⟩)⟩
        · intro seg hmem
          simp only [SegmentLogStorage.live, hopened, Option.toList_some, List.mem_append,
            List.mem_singleton] at hmem
          rcases hmem with hmem | rfl
          · exact hended seg hmem
          · exact hgone
        · simp [SegmentLogStorage.popSegments, hrest, hopened, hgone]
      · refine ⟨s.segments, hended, .inr (.inl ⟨o, rfl, rfl, by omega, ?_⟩)⟩
        simp [SegmentLogStorage.popSegments, hrest, hopened, hgone]

theorem wellFormed_empty (codec : ConfigurationCodec) (k logMeta : Int) :
    WellFormed codec ⟨k, k - 1, [], none, logMeta⟩ := by
  refine ⟨?_, ⟨k, ?_, ?_⟩, ?_, ?_, ?_, ?_⟩
  all_goals simp [SegmentLogStorage.live, Covers, Tiles]

theorem WellFormed.popSegments (hwf : WellFormed codec s) {k : Int} (hk : s.firstLogIndex < k) :
    WellFormed codec (s.popSegments k) ∧ (s.popSegments k).firstLogIndex = k ∧
      (s.popSegments k).lastLogIndex = max s.lastLogIndex (k - 1) ∧
      (∀ seg ∈ (s.popSegments k).live, seg ∈ s.live) ∧
      ∀ i, k ≤ i → contents codec (s.popSegments k).live i = contents codec s.live i := by
  obtain ⟨a, ha, hcovers⟩ := hwf.covers
  have hfirstLe := hwf.first_le
  obtain ⟨dropped, hended, hcases⟩ := popSegments_cases s k
  rcases hcases with ⟨head, rest, hsegments, hreach, hpop⟩ | ⟨o, hsegments, hopened, hreach, hpop⟩ |
    ⟨hdropped, hpop⟩
  · have hlive : s.live = dropped ++ (head :: rest ++ s.openedSegment.toList) := by
      rw [SegmentLogStorage.live, hsegments, List.append_assoc]
    have hsound := hwf.sound
    rw [hlive] at hcovers hsound
    obtain ⟨c, hbefore, hbehind⟩ := tiles_append.mp hcovers
    have hc : c ≤ k := hbefore.end_le (by omega) hended
    obtain ⟨-, -, htail⟩ := id hbehind
    have hend := htail.le
    have hsegs : ∀ seg ∈ head :: rest, seg.firstIndex ≤ seg.lastIndex := by
      intro seg hmem
      exact (hwf.ranged seg (by rw [hsegments]; exact List.mem_append_right _ hmem)).1
    rw [hpop]
    refine ⟨⟨?_, ⟨c, hc, hbehind⟩, ?_, ?_, hwf.opened, ?_⟩, rfl, ?_, ?_, ?_⟩
    · intro seg hmem
      exact hsound seg (List.mem_append_right _ hmem)
    · dsimp only
      omega
    · intro seg hmem
      refine ⟨hsegs seg hmem, ?_⟩
      rcases List.mem_cons.mp hmem with rfl | hmem'
      · exact hreach
      · have hbounds := htail.bounds (List.mem_append_left _ hmem')
        have hranged := hsegs seg hmem
        dsimp only
        omega
    · intro seg hmem
      have hbounds := htail.bounds (List.mem_append_right _ (Option.mem_toList.mpr hmem))
      have hblank := hwf.blank seg hmem
      dsimp only
      omega
    · dsimp only
      omega
    · intro seg hmem
      rw [hlive]
      exact List.mem_append_right _ hmem
    · intro i hi
      rw [hlive, contents_append codec dropped, contents_of_ended
        (fun seg hmem => hsound seg (List.mem_append_left _ hmem)) hended hi, Option.none_or]
      rfl
  · obtain ⟨hlive, hlast⟩ := hwf.opened_live hopened
    rw [hsegments] at hlive
    have hsound := hwf.sound
    rw [hlive] at hcovers hsound
    obtain ⟨c, hbefore, hbehind⟩ := tiles_append.mp hcovers
    have hc : c ≤ k := hbefore.end_le (by omega) hended
    have hlive' : SegmentLogStorage.live { s with firstLogIndex := k, segments := [] } = [o] := by
      simp [SegmentLogStorage.live, hopened]
    have hofirst : o.firstIndex = c := hbehind.1
    rw [hpop]
    refine ⟨⟨?_, ⟨c, hc, ?_⟩, ?_, ?_, hwf.opened, ?_⟩, rfl, ?_, ?_, ?_⟩
    · rw [hlive']
      intro seg hmem
      exact hsound seg (List.mem_append_right _ hmem)
    · rw [hlive']
      exact hbehind
    · dsimp only
      omega
    · intro seg hmem
      cases hmem
    · intro seg hmem
      cases hopened.symm.trans hmem
      left
      dsimp only
      omega
    · dsimp only
      omega
    · rw [hlive', hlive]
      intro seg hmem
      exact List.mem_append_right _ hmem
    · intro i hi
      rw [hlive', hlive, contents_append codec dropped, contents_of_ended
        (fun seg hmem => hsound seg (List.mem_append_left _ hmem)) hended hi, Option.none_or]
  · rw [← hdropped] at hended
    have hend := hcovers.end_le (by omega) hended
    rw [hpop]
    refine ⟨wellFormed_empty codec k s.logMeta, rfl, ?_, ?_, ?_⟩
    · dsimp only
      omega
    · intro seg hmem
      cases hmem
    · intro i hi
      rw [contents_of_ended hwf.sound hended hi]
      rfl

theorem WellFormed.truncatePrefix (hwf : WellFormed codec s) (k : Int) :
    WellFormed codec (s.truncatePrefix k) ∧
      (s.truncatePrefix k).firstLogIndex = max s.firstLogIndex k ∧
      (s.truncatePrefix k).lastLogIndex = max s.lastLogIndex (k - 1) ∧
      (∀ seg ∈ (s.truncatePrefix k).live, seg ∈ s.live) ∧
      ∀ i, k ≤ i → contents codec (s.truncatePrefix k).live i = contents codec s.live i := by
  unfold SegmentLogStorage.truncatePrefix
  split
  · have hfirstLe := hwf.first_le
    exact ⟨hwf, by omega, by omega, fun seg hmem => hmem, fun i hi => rfl⟩
  · rename_i hk
    have hmeta : WellFormed codec { s with logMeta := k } :=
      ⟨hwf.sound, hwf.covers, hwf.first_le, hwf.ranged, hwf.opened, hwf.blank⟩
    obtain ⟨hpopped, hfirst, hlast, hkeep, hcontents⟩ :=
      hmeta.popSegments (show s.firstLogIndex < k by omega)
    exact ⟨hpopped, by omega, hlast, hkeep, hcontents⟩

end Prefix

section Suffix

variable {k : Int}

theorem popSegmentsFromBack_opened {o : Segment} (hopened : s.openedSegment = some o)
    (ho : o.firstIndex ≤ k) :
    s.popSegmentsFromBack k = ({ s with lastLogIndex := k }, some .opened) := by
  simp [SegmentLogStorage.popSegmentsFromBack, hopened, ho]

theorem popSegmentsFromBack_older {segs : List Segment}
    (hopened : ∀ o ∈ s.openedSegment, k < o.firstIndex)
    (hsegs : s.segments.rdropWhile (fun seg => k < seg.firstIndex) = segs) :
    s.popSegmentsFromBack k =
      if segs ≠ [] then
        ({ s with lastLogIndex := k, openedSegment := none, segments := segs },
          some (.older (segs.length - 1)))
      else
        ({ s with
          firstLogIndex := k + 1
          lastLogIndex := k
          openedSegment := none
          segments := segs }, none) := by
  have hany : (s.openedSegment.any fun seg => seg.firstIndex ≤ k) = false := by
    cases hcase : s.openedSegment with
    | none => rfl
    | some o =>
      have ho := hopened o hcase
      simp only [Option.any_some, decide_eq_false_iff_not]
      omega
  simp [SegmentLogStorage.popSegmentsFromBack, hany, hsegs]

theorem WellFormed.truncateSuffix_all (hwf : WellFormed codec s) (hk : s.firstLogIndex = k + 1) :
    s.truncateSuffix k = some ⟨k + 1, k, [], none, s.logMeta⟩ := by
  obtain ⟨a, ha, hcovers⟩ := hwf.covers
  -- An older segment reaches the first index, so none can end below another one's start.
  have hnone : ∀ (before : List Segment) (seg : Segment),
      Tiles Segment.firstIndex Segment.lastIndex a seg.firstIndex before →
      seg.firstIndex ≤ k → (∀ other ∈ before, other ∈ s.segments) → before = [] := by
    intro before seg htiles hseg hsub
    rw [List.eq_nil_iff_forall_not_mem]
    intro other hmem
    have hbounds := htiles.bounds hmem
    have hranged := (hwf.ranged other (hsub other hmem)).2
    omega
  by_cases hopened : ∃ o, s.openedSegment = some o ∧ o.firstIndex ≤ k
  · obtain ⟨o, ho, hfirst⟩ := hopened
    rw [(hwf.opened_live ho).1] at hcovers
    have hsegments := hnone s.segments o (tiles_around.mp hcovers).1 hfirst fun _ hmem => hmem
    have hlt : ¬ k + 1 ≤ k := by omega
    simp [SegmentLogStorage.truncateSuffix, popSegmentsFromBack_opened ho hfirst,
      SegmentLogStorage.segmentAt, ho, hk, SegmentLogStorage.eraseLast, hsegments]
  · have hopened' : ∀ o ∈ s.openedSegment, k < o.firstIndex := by
      intro o ho
      by_contra hle
      exact hopened ⟨o, ho, by omega⟩
    rcases List.eq_nil_or_concat'
      (s.segments.rdropWhile fun seg => k < seg.firstIndex) with hsegs | ⟨before, seg, hsegs⟩
    · simp [SegmentLogStorage.truncateSuffix, popSegmentsFromBack_older hopened' hsegs]
    · have hseg : seg.firstIndex ≤ k := by
        have hlast := List.rdropWhile_last_not (fun seg : Segment => decide (k < seg.firstIndex))
          s.segments (by rw [hsegs]; simp)
        simpa [hsegs] using hlast
      obtain ⟨more, hmore⟩ := List.rdropWhile_prefix
        (fun seg : Segment => decide (k < seg.firstIndex)) (l := s.segments)
      rw [hsegs, List.append_assoc, List.singleton_append] at hmore
      have hbefore : before = [] := by
        refine hnone before seg ?_ hseg ?_
        · rw [SegmentLogStorage.live, ← hmore, List.append_assoc, List.cons_append] at hcovers
          exact (tiles_around.mp hcovers).1
        · intro other hmem
          rw [← hmore]
          exact List.mem_append_left _ hmem
      subst hbefore
      simp [SegmentLogStorage.truncateSuffix, popSegmentsFromBack_older hopened' hsegs,
        SegmentLogStorage.segmentAt, hk, SegmentLogStorage.eraseLast]

theorem WellFormed.truncateSuffix_some (hwf : WellFormed codec s) (hlow : s.firstLogIndex ≤ k)
    (hhigh : k ≤ s.lastLogIndex) :
    ∃ s' before seg behind seg', s.truncateSuffix k = some s' ∧
      s.live = before ++ seg :: behind ∧ seg.firstIndex ≤ k ∧ k ≤ seg.lastIndex ∧
      seg.truncate k = some seg' ∧ s'.live = before ++ [seg'] ∧
      s'.firstLogIndex = s.firstLogIndex ∧ s'.lastLogIndex = k ∧ s'.logMeta = s.logMeta ∧
      ((s'.openedSegment = some seg' ∧ s.openedSegment = some seg ∧ s'.segments = before ∧
          s.segments = before) ∨
        (s'.openedSegment = none ∧ s'.segments = before ++ [seg'] ∧
          ∃ others, s.segments = before ++ seg :: others)) := by
  obtain ⟨place, seg, before, behind, -, hseg, hlive, hfirst, hlast, hcase⟩ :=
    hwf.locate hlow hhigh
  obtain ⟨seg', htruncate, -⟩ := truncate_spec (hwf.sound seg (by rw [hlive]; simp))
    (by omega : seg.firstIndex ≤ k + 1) hlast
  rcases hcase with ⟨rfl, rfl, hsegments⟩ | ⟨others, rfl, hsegments, rfl⟩
  · have hopened : s.openedSegment = some seg := hseg
    refine ⟨{ s with lastLogIndex := k, openedSegment := some seg' }, before, seg, [], seg', ?_,
      hlive, hfirst, hlast, htruncate, ?_, rfl, rfl, rfl,
      .inl ⟨rfl, hopened, hsegments, hsegments⟩⟩
    · simp [SegmentLogStorage.truncateSuffix, popSegmentsFromBack_opened hopened hfirst,
        SegmentLogStorage.segmentAt, hopened, hlow, htruncate, SegmentLogStorage.put]
    · simp [SegmentLogStorage.live, hsegments]
  · obtain ⟨a, -, hcovers⟩ := hwf.covers
    rw [hlive] at hcovers
    obtain ⟨-, -, hbehind⟩ := tiles_around.mp hcovers
    have hopened : ∀ o ∈ s.openedSegment, k < o.firstIndex := by
      intro o ho
      have hbounds := hbehind.bounds (List.mem_append_right _ (Option.mem_toList.mpr ho))
      omega
    have hsegs : s.segments.rdropWhile (fun seg => k < seg.firstIndex) = before ++ [seg] := by
      have htiles : Covers a (s.lastLogIndex + 1) (s.segments ++ s.openedSegment.toList) := by
        rw [hsegments, List.append_assoc, List.cons_append]
        exact hcovers
      obtain ⟨c, htiles, -⟩ := tiles_append.mp htiles
      rw [hsegments] at htiles ⊢
      exact Tiles.rdropWhile_first htiles hfirst hlast
    refine ⟨{ s with lastLogIndex := k, openedSegment := none, segments := before ++ [seg'] },
      before, seg, _, seg', ?_, hlive, hfirst, hlast, htruncate, ?_, rfl, rfl, rfl,
      .inr ⟨rfl, rfl, others, hsegments⟩⟩
    · simp [SegmentLogStorage.truncateSuffix, popSegmentsFromBack_older hopened hsegs,
        SegmentLogStorage.segmentAt, hlow, htruncate, SegmentLogStorage.put]
    · simp [SegmentLogStorage.live]

theorem WellFormed.truncateSuffix (hwf : WellFormed codec s) (hlow : s.firstLogIndex - 1 ≤ k)
    (hhigh : k ≤ s.lastLogIndex) :
    ∃ s', s.truncateSuffix k = some s' ∧ WellFormed codec s' ∧
      s'.firstLogIndex = s.firstLogIndex ∧ s'.lastLogIndex = k ∧ s'.logMeta = s.logMeta ∧
      (∀ seg' ∈ s'.live, ∃ seg ∈ s.live, seg' = seg ∨
        k < seg.lastIndex ∧ seg.truncate k = some seg') ∧
      ∀ i, s.firstLogIndex ≤ i → i ≤ k → contents codec s'.live i = contents codec s.live i := by
  by_cases hall : s.firstLogIndex = k + 1
  · refine ⟨_, hwf.truncateSuffix_all hall, ?_, hall.symm, rfl, rfl, ?_, ?_⟩
    · have hempty := wellFormed_empty codec (k + 1) s.logMeta
      rwa [add_sub_cancel_right] at hempty
    · intro seg hmem
      cases hmem
    · intro i hi hik
      omega
  · obtain ⟨s', before, seg, behind, seg', htruncate, hlive, hsegFirst, hsegLast, hseg', hlive',
      hfirst', hlast', hmeta, hcase⟩ := hwf.truncateSuffix_some (by omega) hhigh
    have hsound := hwf.sound seg (by rw [hlive]; simp)
    obtain ⟨seg'', hseg'', hsound', hsegFirst', hsegLast', hpending, hstate, hget⟩ :=
      truncate_spec hsound (by omega : seg.firstIndex ≤ k + 1) hsegLast
    cases hseg'.symm.trans hseg''
    obtain ⟨a, ha, hcovers⟩ := hwf.covers
    rw [hlive] at hcovers
    obtain ⟨hbefore, -, hbehind⟩ := tiles_around.mp hcovers
    have hcut : Covers a (k + 1) (before ++ [seg']) := by
      refine tiles_around.mpr ⟨by rw [hsegFirst']; exact hbefore, hsound'.range, ?_⟩
      simp only [Tiles]
      omega
    have hranged : ∀ other ∈ before, other.firstIndex ≤ other.lastIndex ∧
        s.firstLogIndex ≤ other.lastIndex := by
      intro other hmem
      apply hwf.ranged
      rcases hcase with ⟨-, -, -, hsegments⟩ | ⟨-, -, others, hsegments⟩
      · exact hsegments ▸ hmem
      · rw [hsegments]
        exact List.mem_append_left _ hmem
    refine ⟨s', htruncate, ⟨?_, ⟨a, by omega, ?_⟩, by omega, ?_, ?_, ?_⟩, hfirst', hlast', hmeta, ?_,
      ?_⟩
    · rw [hlive']
      intro other hmem
      rcases List.mem_append.mp hmem with hmem | hmem
      · exact hwf.sound other (by rw [hlive]; exact List.mem_append_left _ hmem)
      · cases List.mem_singleton.mp hmem
        exact hsound'
    · rw [hlive', hlast']
      exact hcut
    · rw [hfirst']
      rcases hcase with ⟨-, -, hsegments, -⟩ | ⟨-, hsegments, -⟩
      · rw [hsegments]
        exact hranged
      · rw [hsegments]
        intro other hmem
        rcases List.mem_append.mp hmem with hmem | hmem
        · exact hranged other hmem
        · cases List.mem_singleton.mp hmem
          omega
    · intro o ho
      rcases hcase with ⟨hopened', hopened, -, -⟩ | ⟨hopened', -, -⟩
      · cases hopened'.symm.trans ho
        have hold := hwf.opened seg hopened
        rcases hstate with rfl | ⟨-, hopen⟩
        · exact hold
        · exact ⟨hopen, hpending.trans hold.2⟩
      · cases hopened'.symm.trans ho
    · intro o ho
      rcases hcase with ⟨hopened', -, -, -⟩ | ⟨hopened', -, -⟩
      · cases hopened'.symm.trans ho
        exact .inl (by omega)
      · cases hopened'.symm.trans ho
    · rw [hlive', hlive]
      intro other hmem
      rcases List.mem_append.mp hmem with hmem | hmem
      · exact ⟨other, List.mem_append_left _ hmem, .inl rfl⟩
      · cases List.mem_singleton.mp hmem
        refine ⟨seg, by simp, ?_⟩
        rcases hstate with rfl | ⟨hlt, -⟩
        · exact .inl rfl
        · exact .inr ⟨hlt, hseg'⟩
    · intro i hi hik
      have hnone : contents codec behind i = none := by
        apply contents_of_unstarted
        · intro other hmem
          exact hwf.sound other (by
            rw [hlive]
            exact List.mem_append_right _ (List.mem_cons_of_mem _ hmem))
        · intro other hmem
          have hbounds := hbehind.bounds hmem
          omega
      rw [hlive', hlive, contents_append, contents_single, hget, if_pos hik,
        show before ++ seg :: behind = before ++ [seg] ++ behind by simp,
        contents_append codec (before ++ [seg]), contents_append, contents_single, hnone,
        Option.or_none]

end Suffix

end HitConsistency.Log.StorageContents
