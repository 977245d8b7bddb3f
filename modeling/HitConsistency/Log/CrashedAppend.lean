/- GID: HitConsistency/Log/CrashedAppend
   digest: What a crash inside an append leaves, and which of these directories restart. -/

import HitConsistency.Log.CrashedTruncation

set_option autoImplicit false
set_option relaxedAutoImplicit false

/-!
An append creates the file of a new segment, writes one record for each entry, and renames
a segment that is complete. A crash stops behind one of these actions, and what has been
written stays. A record that is cut off is left out by the load of its segment, so here a
record is written at once or not at all.
-/

namespace HitConsistency.Log.CrashedAppend

open HitConsistency.Base.GuardedRuns
open HitConsistency.Base.IntervalTiling
open HitConsistency.Log.CrashedTruncation hiding act actAll actAll_nil actAll_cons actAll_append
open HitConsistency.Log.Entry
open HitConsistency.Log.MemoryLog
open HitConsistency.Log.SegmentFile
open HitConsistency.Log.SegmentContents
open HitConsistency.Log.SegmentReload
open HitConsistency.Log.SegmentStorage
open HitConsistency.Log.StorageContents
open HitConsistency.Log.StorageRefinement (segmentOf)
open HitConsistency.Log.StorageRestart

inductive AppendAction
  | create (firstIndex : Int)
  | write (name : FileName) (record : EntryRecord)
  | rename (name new : FileName)

/-- `O_TRUNC` empties a file of the name. -/
def act (d : Directory) : AppendAction → Directory
  | .create firstIndex =>
      { d with files :=
          d.files.filter (fun f => f.1 ≠ .inprogress firstIndex) ++ [(.inprogress firstIndex, [])] }
  | .write name record =>
      { d with files := d.files.map fun f => if f.1 = name then (f.1, f.2 ++ [record]) else f }
  | .rename name new =>
      { d with files := d.files.map fun f => if f.1 = name then (new, f.2) else f }

def actAll (d : Directory) (actions : List AppendAction) : Directory := actions.foldl act d

/-- `open_segment`: a full segment is renamed if no index is missing in it. -/
def openActions (flags : Flags) (s : SegmentLogStorage) : List AppendAction :=
  match s.openedSegment with
  | none => [.create (s.lastLogIndex + 1)]
  | some seg =>
      if OverLimit flags seg.bytes seg then
        (if seg.isFullfilled then [.rename (fileName seg) (fileName seg.close)] else []) ++
          [.create (s.lastLogIndex + 1)]
      else []

/-- `Segment::append`: the record, and the rename of a segment that waited for it. -/
def segmentActions (codec : ConfigurationCodec) (seg : Segment) (entry : LogEntry) :
    List AppendAction :=
  match dataOf codec entry, seg.append codec entry with
  | some (some data), some (seg', true) =>
      .write (fileName seg)
          ⟨entry.id.term, entry.id.index, entry.dependency, entry.type, data⟩ ::
        if seg'.isOpen then [] else [.rename (fileName seg) (fileName seg')]
  | _, _ => []

def appendOneActions (flags : Flags) (codec : ConfigurationCodec) (s : SegmentLogStorage)
    (entry : LogEntry) : List AppendAction :=
  openActions flags s ++ ((segmentOf flags s entry.id.index).map fun seg =>
    segmentActions codec seg entry).getD []

/-- The loop of `append_entries` stops at an entry that is not taken. -/
def appendActions (flags : Flags) (codec : ConfigurationCodec) :
    SegmentLogStorage → List LogEntry → List AppendAction
  | _, [] => []
  | s, entry :: rest =>
      appendOneActions flags codec s entry ++
        match s.appendOne flags codec entry with
        | some (s', true) => appendActions flags codec s' rest
        | _ => []

def Writes : AppendAction → Bool
  | .write _ _ => true
  | .create _ | .rename _ _ => false

variable {flags : Flags} {codec : ConfigurationCodec} {s s' u : SegmentLogStorage} {d : Directory}

@[simp] theorem actAll_nil (d : Directory) : actAll d [] = d := rfl

@[simp] theorem actAll_cons (d : Directory) (action : AppendAction)
    (actions : List AppendAction) :
    actAll d (action :: actions) = actAll (act d action) actions := rfl

theorem actAll_append (d : Directory) (actions more : List AppendAction) :
    actAll d (actions ++ more) = actAll (actAll d actions) more :=
  List.foldl_append

private theorem prefix_append_cases {taken first second : List AppendAction}
    (h : taken <+: first ++ second) :
    taken <+: first ∨ ∃ more, taken = first ++ more ∧ more <+: second := by
  obtain ⟨rest, hrest⟩ := h
  rcases List.append_eq_append_iff.mp hrest with ⟨more, hfirst, -⟩ | ⟨more, htaken, hsecond⟩
  · exact .inl ⟨more, hfirst.symm⟩
  · exact .inr ⟨more, htaken, rest, hsecond.symm⟩

section Views

private theorem sameView_refl (s : SegmentLogStorage) : SameView codec s s :=
  ⟨rfl, rfl, fun _ => rfl, fun _ => rfl⟩

private theorem sameView_trans {t : SegmentLogStorage} (h : SameView codec s t)
    (h' : SameView codec t u) : SameView codec s u :=
  ⟨h'.first.trans h.first, h'.last.trans h.last, fun i => (h'.getEntry i).trans (h.getEntry i),
    fun i => (h'.getTerm i).trans (h.getTerm i)⟩

private theorem sameView_of_contents (hwf : WellFormed codec s) (hwf' : WellFormed codec u)
    (hfirst : u.firstLogIndex = s.firstLogIndex) (hlast : u.lastLogIndex = s.lastLogIndex)
    (hcontents : ∀ i, contents codec u.live i = contents codec s.live i) :
    SameView codec s u := by
  have hget : ∀ i, u.getEntry codec i = s.getEntry codec i := by
    intro i
    rw [hwf'.getEntry_eq, hwf.getEntry_eq, hfirst, hlast, hcontents]
  refine ⟨hfirst, hlast, hget, fun i => ?_⟩
  rw [hwf'.getTerm_eq, hwf.getTerm_eq, hget]

theorem reopened_view (h : Inv codec u) {cm : ConfigurationManager}
    (hopen : reopened codec cm u.directory = some s') : Inv codec s' ∧ SameView codec u s' := by
  by_cases htidy : Tidy u
  · obtain ⟨t, cm', hinit, hinv, hview⟩ := init_tidy h htidy cm
    rw [reopened, hinit] at hopen
    cases hopen
    exact ⟨hinv, hview⟩
  · rw [reopened, init_untidy h htidy cm] at hopen
    cases hopen

end Views

section Files

variable {before behind : List Segment} {seg seg' : Segment} {logMeta : Option Int}

private theorem names_apart
    (h : (before ++ seg :: behind).Pairwise fun a b => a.firstIndex < b.firstIndex) :
    ∀ other ∈ before ++ behind, fileName other ≠ fileName seg := by
  intro other hother hname
  have hfirst := congrArg firstIndexOf hname
  rw [firstIndex_fileName, firstIndex_fileName] at hfirst
  obtain ⟨-, hback, hcross⟩ := List.pairwise_append.mp h
  rcases List.mem_append.mp hother with hother | hother
  · exact absurd hfirst (hcross other hother seg (by simp)).ne
  · exact absurd hfirst (List.rel_of_pairwise_cons hback hother).ne'

private theorem act_rename (hothers : ∀ other ∈ before ++ behind, fileName other ≠ fileName seg)
    (hfile : seg'.file = seg.file) :
    act ⟨logMeta, filesOf (before ++ seg :: behind)⟩ (.rename (fileName seg) (fileName seg')) =
      ⟨logMeta, filesOf (before ++ seg' :: behind)⟩ := by
  rw [act]
  dsimp only
  rw [map_filesOf (fun f => (fileName seg', f.2)) hothers, ← hfile]
  simp [filesOf]

private theorem act_write {record : EntryRecord}
    (hothers : ∀ other ∈ before ++ behind, fileName other ≠ fileName seg)
    (hname : fileName seg' = fileName seg) (hfile : seg'.file = seg.file ++ [record]) :
    act ⟨logMeta, filesOf (before ++ seg :: behind)⟩ (.write (fileName seg) record) =
      ⟨logMeta, filesOf (before ++ seg' :: behind)⟩ := by
  rw [act]
  dsimp only
  rw [map_filesOf (fun f => (f.1, f.2 ++ [record])) hothers, ← hname, ← hfile]
  simp [filesOf]

private theorem act_create {segs : List Segment} {firstIndex : Int}
    (hfresh : ∀ seg ∈ segs, seg.firstIndex ≠ firstIndex) :
    act ⟨logMeta, filesOf segs⟩ (.create firstIndex) =
      ⟨logMeta, filesOf (segs ++ [.new firstIndex])⟩ := by
  have hkeep : (filesOf segs).filter (fun f => f.1 ≠ .inprogress firstIndex) = filesOf segs := by
    refine List.filter_eq_self.mpr fun f hf => ?_
    obtain ⟨seg, hseg, rfl⟩ := List.mem_map.mp hf
    refine decide_eq_true fun hname => hfresh seg hseg ?_
    exact (firstIndex_fileName seg).symm.trans (congrArg firstIndexOf hname)
  rw [act]
  dsimp only
  rw [hkeep]
  simp [filesOf, fileName, Segment.new]

end Files

section Opening

private theorem inv_shut
    (h : Inv codec { s with openedSegment := some (.new (s.lastLogIndex + 1)) }) :
    Inv codec { s with openedSegment := none } ∧
      SameView codec { s with openedSegment := some (.new (s.lastLogIndex + 1)) }
        { s with openedSegment := none } := by
  have hwf := h.wellFormed
  have hlive : SegmentLogStorage.live
      { s with openedSegment := some (.new (s.lastLogIndex + 1)) } =
        s.segments ++ [.new (s.lastLogIndex + 1)] := rfl
  have hlive' : SegmentLogStorage.live { s with openedSegment := none } = s.segments := by
    simp [SegmentLogStorage.live]
  have hmem : ∀ seg ∈ SegmentLogStorage.live { s with openedSegment := none },
      seg ∈ SegmentLogStorage.live
        { s with openedSegment := some (.new (s.lastLogIndex + 1)) } := by
    intro seg hseg
    rw [hlive'] at hseg
    rw [hlive]
    exact List.mem_append_left _ hseg
  obtain ⟨a, ha, hcovers⟩ := hwf.covers
  rw [hlive] at hcovers
  obtain ⟨hsegments, -, -⟩ := tiles_around.mp hcovers
  have hwf' : WellFormed codec { s with openedSegment := none } := by
    have hnone : ∀ seg ∈ (none : Option Segment), False := by simp
    refine ⟨fun seg hseg => hwf.sound seg (hmem seg hseg), ⟨a, ha, ?_⟩, hwf.first_le, hwf.ranged,
      fun seg hseg => (hnone seg hseg).elim, fun seg hseg => (hnone seg hseg).elim⟩
    rw [hlive']
    exact hsegments
  refine ⟨⟨hwf', fun seg hseg => h.filed seg (hmem seg hseg), h.logMeta, h.first_pos⟩, ?_⟩
  refine sameView_of_contents hwf hwf' rfl rfl fun i => ?_
  rw [hlive, hlive', contents_push_new]

private theorem inv_openSegment {o : Segment} (h : Inv codec s)
    (hroom : s.openSegment flags = (s', o)) : Inv codec s' ∧ SameView codec s s' := by
  obtain ⟨hwf', -, hfirst, hlast, hcontents⟩ := h.wellFormed.openSegment hroom
  obtain ⟨hfiled, hmeta⟩ := h.wellFormed.forall_openSegment (filed_new codec)
    (fun seg => SameContents.filed (sameContents_prepareToClose seg))
    (fun seg _ => SameContents.filed (sameContents_close seg)) h.filed hroom
  refine ⟨⟨hwf', hfiled, ?_, ?_⟩,
    sameView_of_contents h.wellFormed hwf' hfirst hlast hcontents⟩
  · rw [hmeta, hfirst]
    exact h.logMeta
  · rw [hfirst]
    exact h.first_pos

private theorem ahead_of_live (hwf : WellFormed codec s) {segs : List Segment}
    (hsegs : ∀ seg ∈ segs, seg ∈ s.live ∧ seg.firstIndex ≤ seg.lastIndex) :
    ∀ seg ∈ segs, seg.firstIndex ≠ s.lastLogIndex + 1 := by
  intro seg hseg
  obtain ⟨hlive, hrange⟩ := hsegs seg hseg
  obtain ⟨a, -, hcovers⟩ := hwf.covers
  have hbounds := hcovers.bounds hlive
  omega

/-- What `open_segment` does to the directory: nothing, or it creates the file of the next
segment, or it renames the full one before. -/
private theorem openActions_cases (h : Inv codec s) (flags : Flags) :
    (openActions flags s = [] ∧ (s.openSegment flags).1.directory = s.directory) ∨
      (∃ create, openActions flags s = [create] ∧
        act s.directory create = (s.openSegment flags).1.directory) ∨
      ∃ rename create t, openActions flags s = [rename, create] ∧
        act s.directory rename = t.directory ∧ Inv codec t ∧ SameView codec s t ∧
        act t.directory create = (s.openSegment flags).1.directory := by
  have hwf := h.wellFormed
  rcases hwf.openSegment_cases flags with
    ⟨cur, hopen, hroom, hcur | ⟨hcur, rfl⟩⟩ | ⟨cur, prev, hcur, hrange, hfull, hprev, hopen⟩
  · refine .inl ⟨?_, ?_⟩
    · unfold openActions
      rw [hcur]
      exact if_neg hroom
    · rw [hopen, ← hcur]
  · refine .inr (.inl ⟨.create (s.lastLogIndex + 1), ?_, ?_⟩)
    · unfold openActions
      rw [hcur]
    · have hlive : s.live = s.segments := by simp [SegmentLogStorage.live, hcur]
      have hfresh : ∀ seg ∈ s.live, seg.firstIndex ≠ s.lastLogIndex + 1 := by
        refine ahead_of_live hwf fun seg hseg => ⟨hseg, ?_⟩
        rw [hlive] at hseg
        exact (hwf.ranged seg hseg).1
      have hcreated : act ⟨some s.logMeta, filesOf s.live⟩ (.create (s.lastLogIndex + 1)) =
          ⟨some s.logMeta, filesOf (s.live ++ [.new (s.lastLogIndex + 1)])⟩ := act_create hfresh
      rw [hlive] at hcreated
      rw [hopen, SegmentLogStorage.directory, SegmentLogStorage.directory, hlive]
      exact hcreated
  · have hlive : s.live = s.segments ++ [cur] := by simp [SegmentLogStorage.live, hcur]
    have hincreasing := StorageRestart.increasing hwf
    rw [hlive] at hincreasing
    have hfresh : ∀ seg ∈ s.live, seg.firstIndex ≠ s.lastLogIndex + 1 := by
      refine ahead_of_live hwf fun seg hseg => ⟨hseg, ?_⟩
      rw [hlive] at hseg
      rcases List.mem_append.mp hseg with hseg | hseg
      · exact (hwf.ranged seg hseg).1
      · rw [List.mem_singleton.mp hseg]
        exact hrange
    have hfirst : prev.firstIndex = cur.firstIndex ∧ prev.file = cur.file := by
      rcases hprev with ⟨-, rfl⟩ | ⟨-, rfl⟩
      · exact ⟨rfl, rfl⟩
      · exact ⟨rfl, rfl⟩
    have hcreated : act ⟨some s.logMeta, filesOf (s.segments ++ [prev])⟩
        (.create (s.lastLogIndex + 1)) = (s.openSegment flags).1.directory := by
      rw [hopen]
      refine act_create fun seg hseg => ?_
      rcases List.mem_append.mp hseg with hseg | hseg
      · exact hfresh seg (by rw [hlive]; exact List.mem_append_left _ hseg)
      · rw [List.mem_singleton.mp hseg, hfirst.1]
        exact hfresh cur (by rw [hlive]; simp)
    rcases hprev with ⟨hwaits, rfl⟩ | ⟨hdone, rfl⟩
    · refine .inr (.inl ⟨.create (s.lastLogIndex + 1), ?_, ?_⟩)
      · unfold openActions
        rw [hcur]
        dsimp only
        rw [if_pos hfull, hwaits]
        rfl
      · rw [← hcreated, SegmentLogStorage.directory, hlive]
        congr 2
        simp [filesOf, fileName, Segment.prepareToClose]
    · have hopened := inv_openSegment h hopen
      obtain ⟨hinv, hview⟩ := inv_shut (s := { s with segments := s.segments ++ [cur.close] })
        hopened.1
      refine .inr (.inr ⟨.rename (fileName cur) (fileName cur.close),
        .create (s.lastLogIndex + 1),
        { s with segments := s.segments ++ [cur.close], openedSegment := none }, ?_, ?_, hinv,
        sameView_trans hopened.2 hview, ?_⟩)
      · unfold openActions
        rw [hcur]
        dsimp only
        rw [if_pos hfull, if_pos hdone]
        rfl
      · rw [SegmentLogStorage.directory, hlive]
        refine (act_rename (names_apart hincreasing) hfirst.2).trans ?_
        simp [SegmentLogStorage.directory, SegmentLogStorage.live, filesOf]
      · rw [← hcreated]
        simp [SegmentLogStorage.directory, SegmentLogStorage.live, filesOf]

private theorem writes_open {taken : List AppendAction} (htaken : taken <+: openActions flags s) :
    taken.countP Writes = 0 := by
  have hnone : ∀ action ∈ openActions flags s, Writes action = false := by
    intro action haction
    unfold openActions at haction
    split at haction
    · cases List.mem_singleton.mp haction
      rfl
    · split_ifs at haction with hfull hdone
      · rcases List.mem_append.mp haction with haction | haction
        · cases List.mem_singleton.mp haction
          rfl
        · cases List.mem_singleton.mp haction
          rfl
      · cases List.mem_singleton.mp haction
        rfl
      · cases haction
  refine List.countP_eq_zero.mpr fun action haction => ?_
  rw [hnone action (htaken.subset haction)]
  exact Bool.false_ne_true

private theorem open_done (h : Inv codec s) :
    actAll s.directory (openActions flags s) = (s.openSegment flags).1.directory := by
  rcases openActions_cases h flags with ⟨hnil, hsame⟩ | ⟨create, hone, hdone⟩ |
    ⟨rename, create, t, htwo, hrenamed, -, -, hdone⟩
  · rw [hnil, hsame]
    rfl
  · rw [hone]
    exact hdone
  · rw [htwo, actAll_cons, actAll_cons, hrenamed]
    exact hdone

/-- Wherever `open_segment` is stopped, the directory is that of a storage that reads as
before. -/
private theorem open_points (h : Inv codec s) {taken : List AppendAction}
    (htaken : taken <+: openActions flags s) :
    ∃ u, u.directory = actAll s.directory taken ∧ Inv codec u ∧ SameView codec s u := by
  have hnone : taken = [] → ∃ u, u.directory = actAll s.directory taken ∧ Inv codec u ∧
      SameView codec s u := by
    rintro rfl
    exact ⟨s, rfl, h, sameView_refl s⟩
  have hall : taken = openActions flags s → ∃ u, u.directory = actAll s.directory taken ∧
      Inv codec u ∧ SameView codec s u := by
    rintro rfl
    rw [open_done h]
    exact ⟨_, rfl, inv_openSegment h rfl⟩
  rcases openActions_cases h flags with ⟨hnil, -⟩ | ⟨create, hone, -⟩ |
    ⟨rename, create, t, htwo, hrenamed, hinv, hview, -⟩
  · rw [hnil] at htaken
    exact hnone (List.prefix_nil.mp htaken)
  · rw [hone, List.prefix_cons_iff] at htaken
    rcases htaken with rfl | ⟨rest, rfl, hrest⟩
    · exact hnone rfl
    · exact hall (by rw [hone, List.prefix_nil.mp hrest])
  · rw [htwo, List.prefix_cons_iff] at htaken
    rcases htaken with rfl | ⟨rest, rfl, hrest⟩
    · exact hnone rfl
    · rcases List.prefix_cons_iff.mp hrest with rfl | ⟨last, rfl, hlast⟩
      · exact ⟨t, hrenamed.symm, hinv, hview⟩
      · exact hall (by rw [htwo, List.prefix_nil.mp hlast])

end Opening

section Appending

variable {entry : LogEntry} {before behind others : List Segment} {seg seg' : Segment}

private theorem closed_segments (hwf : WellFormed codec s)
    (hlive : s.live = before ++ seg :: behind)
    (hclosed : seg.isOpen = false) : ∃ others, s.segments = before ++ seg :: others ∧
      behind = others ++ s.openedSegment.toList := by
  cases hopened : s.openedSegment with
  | none =>
    refine ⟨behind, ?_, by simp⟩
    rw [← hlive]
    simp [SegmentLogStorage.live, hopened]
  | some o =>
    have hsegments : s.segments ++ [o] = before ++ seg :: behind := by
      rw [← hlive]
      simp [SegmentLogStorage.live, hopened]
    rcases List.eq_nil_or_concat' behind with rfl | ⟨others, last, rfl⟩
    · obtain ⟨-, hlast⟩ := List.append_inj' hsegments rfl
      cases hlast
      cases hclosed.symm.trans (hwf.opened seg hopened).1
    · have hsplit : s.segments ++ [o] = (before ++ seg :: others) ++ [last] := by
        simpa using hsegments
      obtain ⟨hfront, hlast⟩ := List.append_inj' hsplit rfl
      cases hlast
      exact ⟨others, hfront, rfl⟩

private theorem inv_replaced (h : Inv codec s) (hsegments : s.segments = before ++ seg :: others)
    (hsame : SameContents seg seg') :
    Inv codec { s with segments := before ++ seg' :: others } ∧
      SameView codec s { s with segments := before ++ seg' :: others } := by
  have hwf := h.wellFormed
  have hlive : s.live = before ++ seg :: (others ++ s.openedSegment.toList) := by
    simp [SegmentLogStorage.live, hsegments]
  have hlive' : SegmentLogStorage.live { s with segments := before ++ seg' :: others } =
      before ++ seg' :: (others ++ s.openedSegment.toList) := by
    simp [SegmentLogStorage.live]
  have hkeep : ∀ {P : Segment → Prop} {more : List Segment},
      (∀ other ∈ before ++ seg :: more, P other) → (P seg → P seg') →
        ∀ other ∈ before ++ seg' :: more, P other := by
    intro P more hall hseg other hother
    rcases List.mem_append.mp hother with hother | hother
    · exact hall other (by simp [hother])
    · rcases List.mem_cons.mp hother with rfl | hother
      · exact hseg (hall seg (by simp))
      · exact hall other (by simp [hother])
  obtain ⟨a, ha, hcovers⟩ := hwf.covers
  have hsound := hwf.sound
  have hfiled := h.filed
  have hranged := hwf.ranged
  rw [hlive] at hcovers hsound hfiled
  rw [hsegments] at hranged
  have hwf' : WellFormed codec { s with segments := before ++ seg' :: others } := by
    refine ⟨?_, ⟨a, ha, ?_⟩, hwf.first_le, ?_, hwf.opened, hwf.blank⟩
    · rw [hlive']
      exact hkeep hsound hsame.sound
    · rw [hlive']
      exact Tiles.replace hcovers hsame.first hsame.last
    · refine hkeep hranged ?_
      rw [hsame.first, hsame.last]
      exact id
  refine ⟨⟨hwf', ?_, h.logMeta, h.first_pos⟩, sameView_of_contents hwf hwf' rfl rfl fun i => ?_⟩
  · rw [hlive']
    exact hkeep hfiled (SameContents.filed hsame)
  · rw [hlive, hlive', contents, contents, lookup, lookup, List.findSome?_append,
      List.findSome?_append, List.findSome?_cons, List.findSome?_cons, hsame.get]

private theorem written_segment (hwf : WellFormed codec s)
    (hstep : s.appendOne flags codec entry = some (s', true)) :
    ∃ before behind seg seg', segmentOf flags s entry.id.index = some seg ∧
      Written codec (s.openSegment flags).1 s' entry before behind seg seg' := by
  unfold SegmentLogStorage.appendOne at hstep
  unfold segmentOf
  cases hroom : s.openSegment flags with
  | mk s1 o =>
  obtain ⟨hwf1, hopened, -⟩ := hwf.openSegment hroom
  rw [hroom] at hstep
  obtain ⟨place, hplace, hstep⟩ := Option.bind_eq_some_iff.mp hstep
  obtain ⟨seg, hseg, hstep⟩ := Option.bind_eq_some_iff.mp hstep
  obtain ⟨⟨seg', written⟩, happend, hstep⟩ := Option.bind_eq_some_iff.mp hstep
  cases written with
  | false => cases hstep
  | true =>
  cases hstep
  have hrouted : (s1.route o entry.id.index).bind s1.segmentAt = some seg := by
    rw [hplace]
    exact hseg
  have hopen : place = .opened → ∃ before behind seg0 seg0',
      (s1.route o entry.id.index).bind s1.segmentAt = some seg0 ∧
        Written codec s1 { s1.put seg' place with
          lastLogIndex := max s1.lastLogIndex entry.id.index } entry before behind seg0 seg0' := by
    rintro rfl
    cases hopened.symm.trans hseg
    exact ⟨s1.segments, [], o, seg', hrouted, (hwf1.write_opened hopened happend).1⟩
  dsimp only
  unfold SegmentLogStorage.route at hplace
  split at hplace
  · obtain ⟨found, hfound, rfl⟩ := Option.map_eq_some_iff.mp hplace
    by_cases hrange : s1.firstLogIndex ≤ entry.id.index ∧ entry.id.index ≤ s1.lastLogIndex
    · obtain ⟨place, seg0, before, behind, hget, hat, hlive, hlow, hhigh, hcase⟩ :=
        hwf1.locate hrange.1 hrange.2
      cases hget.symm.trans hfound
      cases hat.symm.trans hseg
      rcases hcase with ⟨rfl, -, -⟩ | ⟨others, rfl, hsegments, rfl⟩
      · exact hopen rfl
      · exact ⟨before, _, seg, seg', hrouted, (hwf1.write_older hsegments hhigh happend).1⟩
    · rw [getSegment_outside hrange] at hfound
      cases hfound
      exact hopen rfl
  · cases hplace
    exact hopen rfl

/-- What one entry does to the directory behind `open_segment`: it writes the record, and a
segment that waited for it is renamed. -/
private theorem segmentActions_cases (h : Inv codec s)
    (hstep : s.appendOne flags codec entry = some (s', true)) :
    (∃ write, appendOneActions flags codec s entry = openActions flags s ++ [write] ∧
        Writes write = true ∧ act (s.openSegment flags).1.directory write = s'.directory) ∨
      ∃ write rename t, appendOneActions flags codec s entry =
          openActions flags s ++ [write, rename] ∧
        Writes write = true ∧ Writes rename = false ∧
        act (s.openSegment flags).1.directory write = t.directory ∧ Inv codec t ∧
        SameView codec s' t ∧ act t.directory rename = s'.directory := by
  have hinv' := h.appendOne hstep
  obtain ⟨before, behind, seg, seg', hrouted, hwritten⟩ := written_segment h.wellFormed hstep
  have hopened : Inv codec (s.openSegment flags).1 := (inv_openSegment h rfl).1
  have hothers := names_apart (hwritten.live ▸ StorageRestart.increasing hopened.wellFormed)
  obtain ⟨hopen, data, hdata, -, -, hcases⟩ := append_cases hwritten.append
  have hactions : appendOneActions flags codec s entry = openActions flags s ++
      .write (fileName seg)
          ⟨entry.id.term, entry.id.index, entry.dependency, entry.type, data⟩ ::
        if seg'.isOpen then [] else [.rename (fileName seg) (fileName seg')] := by
    rw [appendOneActions, hrouted, Option.map_some, Option.getD_some, segmentActions, hdata,
      hwritten.append]
  generalize hrecord : (⟨entry.id.term, entry.id.index, entry.dependency, entry.type,
    data⟩ : EntryRecord) = record at hactions hcases
  have hname : fileName (seg.write record) = fileName seg := by
    simp [fileName, Segment.write, hopen]
  have hbefore : (s.openSegment flags).1.directory =
      ⟨some s'.logMeta, filesOf (before ++ seg :: behind)⟩ := by
    rw [SegmentLogStorage.directory, hwritten.live, hwritten.logMeta]
    rfl
  have hbehind : s'.directory = ⟨some s'.logMeta, filesOf (before ++ seg' :: behind)⟩ := by
    rw [SegmentLogStorage.directory, hwritten.live']
    rfl
  have hwrite : act ⟨some s'.logMeta, filesOf (before ++ seg :: behind)⟩
      (.write (fileName seg) record) =
        ⟨some s'.logMeta, filesOf (before ++ seg.write record :: behind)⟩ :=
    act_write hothers hname rfl
  rw [← hbefore] at hwrite
  rcases hcases with rfl | ⟨-, -, rfl⟩
  · refine .inl ⟨_, hactions.trans ?_, rfl, hwrite.trans hbehind.symm⟩
    rw [if_pos (show (seg.write record).isOpen = true from hopen)]
  · obtain ⟨others, hsegments, rfl⟩ := closed_segments hinv'.wellFormed hwritten.live' rfl
    have hsame : SameContents (seg.write record).close (seg.write record) :=
      ⟨rfl, rfl, rfl, rfl, rfl⟩
    obtain ⟨hinv, hview⟩ := inv_replaced hinv' hsegments hsame
    have hreplaced : SegmentLogStorage.directory
        { s' with segments := before ++ seg.write record :: others } =
          ⟨some s'.logMeta, filesOf (before ++ seg.write record ::
            (others ++ s'.openedSegment.toList))⟩ := by
      simp [SegmentLogStorage.directory, SegmentLogStorage.live, filesOf]
    refine .inr ⟨_, .rename (fileName seg) (fileName (seg.write record).close), _,
      hactions.trans ?_, rfl, rfl, hwrite.trans hreplaced.symm, hinv, hview, ?_⟩
    · rw [if_neg (show ¬ (seg.write record).close.isOpen = true from Bool.false_ne_true)]
    · rw [hreplaced, hbehind, ← hname]
      refine act_rename ?_ rfl
      rw [hname]
      exact hothers

private theorem appendOne_done (h : Inv codec s)
    (hstep : s.appendOne flags codec entry = some (s', true)) :
    actAll s.directory (appendOneActions flags codec s entry) = s'.directory := by
  rcases segmentActions_cases h hstep with ⟨write, hone, -, hwritten⟩ |
    ⟨write, rename, t, htwo, -, -, hwritten, -, -, hrenamed⟩
  · rw [hone, actAll_append, open_done h]
    exact hwritten
  · rw [htwo, actAll_append, open_done h, actAll_cons, actAll_cons, hwritten]
    exact hrenamed

private theorem appendOneActions_refused
    (hstep : ∀ s', s.appendOne flags codec entry ≠ some (s', true)) :
    appendOneActions flags codec s entry = openActions flags s := by
  have hnone : ((segmentOf flags s entry.id.index).map fun seg =>
      segmentActions codec seg entry).getD [] = [] := by
    cases hrouted : segmentOf flags s entry.id.index with
    | none => rfl
    | some seg =>
      rw [Option.map_some, Option.getD_some]
      unfold segmentActions
      split
      · rename_i data seg' hdata happend
        exfalso
        obtain ⟨place, hplace, hseg⟩ := Option.bind_eq_some_iff.mp hrouted
        refine hstep { (s.openSegment flags).1.put seg' place with
          lastLogIndex := max (s.openSegment flags).1.lastLogIndex entry.id.index } ?_
        simp [SegmentLogStorage.appendOne, hplace, hseg, happend]
      · rfl
  rw [appendOneActions, hnone, List.append_nil]

private theorem writes_appendOne (h : Inv codec s)
    (hstep : s.appendOne flags codec entry = some (s', true)) :
    (appendOneActions flags codec s entry).countP Writes = 1 := by
  have hopen := writes_open (List.prefix_refl (openActions flags s))
  rcases segmentActions_cases h hstep with ⟨write, hone, hwrite, -⟩ |
    ⟨write, rename, t, htwo, hwrite, hrename, -⟩
  · rw [hone, List.countP_append, hopen, List.countP_cons_of_pos hwrite]
    rfl
  · rw [htwo, List.countP_append, hopen, List.countP_cons_of_pos hwrite,
      List.countP_cons_of_neg (by simp [hrename])]
    rfl

/-- Where the append of one entry is stopped, the directory is that of a storage that reads
as before it, or as behind it once the record is written. -/
private theorem appendOne_points (h : Inv codec s) {taken : List AppendAction}
    (htaken : taken <+: appendOneActions flags codec s entry) :
    ∃ u, u.directory = actAll s.directory taken ∧ Inv codec u ∧
      (taken.countP Writes = 0 ∧ SameView codec s u ∨ taken.countP Writes = 1 ∧
        ∃ s', s.appendOne flags codec entry = some (s', true) ∧ SameView codec s' u) := by
  have hopening : taken <+: openActions flags s → ∃ u, u.directory = actAll s.directory taken ∧
      Inv codec u ∧ (taken.countP Writes = 0 ∧ SameView codec s u ∨ taken.countP Writes = 1 ∧
        ∃ s', s.appendOne flags codec entry = some (s', true) ∧ SameView codec s' u) := by
    intro hopen
    obtain ⟨u, hdirectory, hinv, hview⟩ := open_points h hopen
    exact ⟨u, hdirectory, hinv, .inl ⟨writes_open hopen, hview⟩⟩
  by_cases hstep : ∃ s', s.appendOne flags codec entry = some (s', true)
  · obtain ⟨s', hstep⟩ := hstep
    have hall : taken = appendOneActions flags codec s entry →
        ∃ u, u.directory = actAll s.directory taken ∧ Inv codec u ∧
          (taken.countP Writes = 0 ∧ SameView codec s u ∨ taken.countP Writes = 1 ∧
            ∃ s', s.appendOne flags codec entry = some (s', true) ∧ SameView codec s' u) := by
      rintro rfl
      exact ⟨s', (appendOne_done h hstep).symm, h.appendOne hstep,
        .inr ⟨writes_appendOne h hstep, s', hstep, sameView_refl s'⟩⟩
    rcases segmentActions_cases h hstep with ⟨write, hone, -⟩ |
      ⟨write, rename, t, htwo, hwrite, -, hwritten, hinv, hview, -⟩
    · rw [hone] at htaken
      rcases List.prefix_concat_iff.mp htaken with hfull | hopen
      · exact hall (by rw [hfull, hone])
      · exact hopening hopen
    · rw [htwo] at htaken
      rcases prefix_append_cases htaken with hopen | ⟨more, rfl, hmore⟩
      · exact hopening hopen
      · rcases List.prefix_cons_iff.mp hmore with rfl | ⟨last, rfl, hlast⟩
        · rw [List.append_nil] at hopening ⊢
          exact hopening (List.prefix_refl _)
        · rcases List.prefix_cons_iff.mp hlast with rfl | ⟨rest, rfl, hrest⟩
          · refine ⟨t, ?_, hinv, .inr ⟨?_, s', hstep, hview⟩⟩
            · rw [actAll_append, open_done h, actAll_cons, actAll_nil, hwritten]
            · rw [List.countP_append, writes_open (List.prefix_refl _),
                List.countP_cons_of_pos hwrite]
              rfl
          · exact hall (by rw [htwo, List.prefix_nil.mp hrest])
  · rw [not_exists] at hstep
    rw [appendOneActions_refused hstep] at htaken
    exact hopening htaken

/-- Wherever an append is stopped, the directory is that of a storage that reads as behind
the entries whose records are written. -/
theorem append_points {entries : List LogEntry} (h : Inv codec s) {taken : List AppendAction}
    (htaken : taken <+: appendActions flags codec s entries) :
    taken.countP Writes ≤ entries.length ∧ ∃ t u,
      s.appendEntries flags codec (entries.take (taken.countP Writes)) =
        some (t, taken.countP Writes) ∧
      u.directory = actAll s.directory taken ∧ Inv codec u ∧ SameView codec t u := by
  induction entries generalizing s taken with
  | nil =>
    rw [List.prefix_nil.mp htaken]
    exact ⟨Nat.le_refl _, s, s, rfl, rfl, h, sameView_refl s⟩
  | cons entry rest ih =>
    rcases prefix_append_cases htaken with hfirst | ⟨more, rfl, hmore⟩
    · obtain ⟨u, hdirectory, hinv, ⟨hcount, hview⟩ | ⟨hcount, s', hstep, hview⟩⟩ :=
        appendOne_points h hfirst
      · rw [hcount]
        exact ⟨Nat.zero_le _, s, u, rfl, hdirectory, hinv, hview⟩
      · rw [hcount]
        refine ⟨by simp, s', u, ?_, hdirectory, hinv, hview⟩
        simp [SegmentLogStorage.appendEntries, hstep]
    · by_cases hstep : ∃ s', s.appendOne flags codec entry = some (s', true)
      · obtain ⟨s', hstep⟩ := hstep
        rw [hstep] at hmore
        obtain ⟨hk, t, u, happended, hdirectory, hinv, hview⟩ := ih (h.appendOne hstep) hmore
        rw [List.countP_append, writes_appendOne h hstep, Nat.add_comm]
        refine ⟨by simpa using hk, t, u, ?_, ?_, hinv, hview⟩
        · simp [SegmentLogStorage.appendEntries, hstep, happended]
        · rw [hdirectory, actAll_append, appendOne_done h hstep]
      · rw [not_exists] at hstep
        have hnil : more = [] := by
          split at hmore
          · rename_i s' hs'
            exact absurd hs' (hstep s')
          · exact List.prefix_nil.mp hmore
        obtain ⟨u, hdirectory, hinv, ⟨hcount, hview⟩ | ⟨-, s', hs', -⟩⟩ :=
          appendOne_points h (List.prefix_refl (appendOneActions flags codec s entry))
        · rw [hnil, List.append_nil, hcount]
          exact ⟨Nat.zero_le _, s, u, rfl, hdirectory, hinv, hview⟩
        · exact absurd hs' (hstep s')

end Appending

section Restart

def InProgress : FileName → Bool
  | .inprogress _ => true
  | .closed _ _ => false

/-- Only the newest file is in progress, and no file holds a truncated entry. -/
structure TidyFiles (d : Directory) : Prop where
  closed : ∀ f ∈ d.files.dropLast, InProgress f.1 = false
  intact : ∀ f ∈ d.files, Intact f.2

instance tidyFilesDecidable (d : Directory) : Decidable (TidyFiles d) :=
  decidable_of_iff ((∀ f ∈ d.files.dropLast, InProgress f.1 = false) ∧
      ∀ f ∈ d.files, Intact f.2)
    ⟨fun h => ⟨h.1, h.2⟩, fun h => ⟨h.closed, h.intact⟩⟩

private theorem inProgress_fileName (seg : Segment) : InProgress (fileName seg) = seg.isOpen := by
  unfold fileName
  cases seg.isOpen with
  | true => rfl
  | false => rfl

private theorem tidyFiles_directory (s : SegmentLogStorage) : TidyFiles s.directory ↔ Tidy s := by
  have hfiles : s.directory.files = filesOf s.live := rfl
  have hdrop : s.directory.files.dropLast = filesOf s.live.dropLast := by
    rw [hfiles, filesOf, filesOf, List.map_dropLast]
  constructor
  · intro h
    refine ⟨fun seg hseg => ?_, fun seg hseg => ?_⟩
    · rw [← inProgress_fileName]
      exact h.closed (fileName seg, seg.file) (by rw [hdrop]; exact List.mem_map_of_mem hseg)
    · exact h.intact (fileName seg, seg.file) (by rw [hfiles]; exact List.mem_map_of_mem hseg)
  · intro h
    refine ⟨fun f hf => ?_, fun f hf => ?_⟩
    · rw [hdrop] at hf
      obtain ⟨seg, hseg, rfl⟩ := List.mem_map.mp hf
      exact (inProgress_fileName seg).trans (h.closed seg hseg)
    · rw [hfiles] at hf
      obtain ⟨seg, hseg, rfl⟩ := List.mem_map.mp hf
      exact h.intact seg hseg

/-- A crash inside an append: a restart succeeds exactly if only the newest file is in
progress and no file holds a truncated entry, and what comes up then reads as behind the
entries whose records were written. -/
theorem append_crash_restarts_iff (codec : ConfigurationCodec) (cm : ConfigurationManager)
    (events : List Event) (s : SegmentLogStorage)
    (hinLog : Guarded (step codec) InLog .fresh events)
    (hrun : runEvents (step codec) .fresh events = some s) (flags : Flags)
    (entries : List LogEntry) (taken : List AppendAction)
    (htaken : taken <+: appendActions flags codec s entries) :
    ((reopened codec cm (actAll s.directory taken)).isSome ↔
        TidyFiles (actAll s.directory taken)) ∧
      ∃ t, s.appendEntries flags codec (entries.take (taken.countP Writes)) =
          some (t, taken.countP Writes) ∧
        ∀ s', reopened codec cm (actAll s.directory taken) = some s' → SameView codec t s' := by
  have hinv : Inv codec s := invariant_of_step inv_step inv_fresh hinLog hrun
  obtain ⟨-, t, u, happended, hdirectory, hinvu, hview⟩ := append_points hinv htaken
  rw [← hdirectory, tidyFiles_directory]
  refine ⟨?_, t, happended, fun s' hopen => sameView_trans hview (reopened_view hinvu hopen).2⟩
  by_cases htidy : Tidy u
  · obtain ⟨s', cm', hinit, -⟩ := init_tidy hinvu htidy cm
    refine iff_of_true ?_ htidy
    rw [reopened, hinit]
    rfl
  · refine iff_of_false ?_ htidy
    rw [reopened, init_untidy hinvu htidy cm]
    simp

/-- One entry fills a segment. -/
private def narrow : Flags := ⟨40, 100⟩

private def plain (index : Int) : LogEntry := ⟨.data, ⟨index, 1⟩, 0, none, none, [4, 5]⟩

/-- The third segment is renamed, and the fourth is not created any more. -/
theorem append_crash_restarts_rotating : ∃ s s' t,
    runEvents (step .unary) .fresh [.perform narrow (.append [plain 1, plain 2])] = some s ∧
    reopened .unary .new (actAll s.directory
      ((appendActions narrow .unary s [plain 3, plain 4]).take 4)) = some s' ∧
    s.appendEntries narrow .unary ([plain 3, plain 4].take
        (((appendActions narrow .unary s [plain 3, plain 4]).take 4).countP Writes)) =
      some (t, ((appendActions narrow .unary s [plain 3, plain 4]).take 4).countP Writes) ∧
    SameView .unary t s' := by
  obtain ⟨s, hrun⟩ := Option.isSome_iff_exists.mp (show (runEvents (step .unary) .fresh
    [.perform narrow (.append [plain 1, plain 2])]).isSome by decide +kernel)
  have htidy : ∀ s ∈ runEvents (step .unary) .fresh
      [.perform narrow (.append [plain 1, plain 2])], TidyFiles (actAll s.directory
        ((appendActions narrow .unary s [plain 3, plain 4]).take 4)) := by decide +kernel
  obtain ⟨hiff, t, happended, hview⟩ := append_crash_restarts_iff .unary .new
    [.perform narrow (.append [plain 1, plain 2])] s (by decide +kernel) hrun narrow
    [plain 3, plain 4] _ (List.take_prefix 4 _)
  obtain ⟨s', hopen⟩ := Option.isSome_iff_exists.mp (hiff.mpr (htidy s hrun))
  exact ⟨s, s', t, hrun, hopen, happended, hview s' hopen⟩

end Restart

end HitConsistency.Log.CrashedAppend
