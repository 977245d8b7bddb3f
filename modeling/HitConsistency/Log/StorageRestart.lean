/- GID: HitConsistency/Log/StorageRestart
   digest: When a storage that is constructed again on its directory reads as it did before. -/

import HitConsistency.Log.SegmentReload
import HitConsistency.Log.StorageRefinement

set_option autoImplicit false
set_option relaxedAutoImplicit false

/-!
A restart takes the closed segments in order and at most one segment in progress, and
the loop that reads a file does not get past a truncated entry. So it depends on what
rotation, delayed closing and truncation have left in the directory.
-/

namespace HitConsistency.Log.StorageRestart

open HitConsistency.Base.GuardedRuns
open HitConsistency.Base.IntervalTiling
open HitConsistency.Log.Entry
open HitConsistency.Log.MemoryLog
open HitConsistency.Log.SegmentFile
open HitConsistency.Log.SegmentContents
open HitConsistency.Log.SegmentReload
open HitConsistency.Log.SegmentStorage
open HitConsistency.Log.StorageContents
open HitConsistency.Log.StorageRefinement (Operation execute)

/-- What can happen to a storage: an operation under any flags, or a new process. -/
inductive Event
  | perform (flags : Flags) (op : Operation)
  | restart (cm : ConfigurationManager)

/-- A restart that fails or does not return ends the run. -/
def step (codec : ConfigurationCodec) (s : SegmentLogStorage) : Event → Option SegmentLogStorage
  | .perform flags op => execute flags codec s op
  | .restart cm => (SegmentLogStorage.init codec s.directory cm).map Prod.fst

def InLog (s : SegmentLogStorage) : Event → Prop
  | .perform _ (.truncateSuffix k) => s.firstLogIndex - 1 ≤ k ∧ k ≤ s.lastLogIndex
  | _ => True

structure SameView (codec : ConfigurationCodec) (s s' : SegmentLogStorage) : Prop where
  first : s'.firstLogIndex = s.firstLogIndex
  last : s'.lastLogIndex = s.lastLogIndex
  getEntry : ∀ i, s'.getEntry codec i = s.getEntry codec i
  getTerm : ∀ i, s'.getTerm i = s.getTerm i

/-- Only the newest segment is in progress, and no file holds a truncated entry. -/
structure Tidy (s : SegmentLogStorage) : Prop where
  closed : ∀ seg ∈ s.live.dropLast, seg.isOpen = false
  intact : ∀ seg ∈ s.live, Intact seg.file

instance inLogDecidable (s : SegmentLogStorage) : ∀ event, Decidable (InLog s event)
  | .perform _ (.truncateSuffix _) => inferInstanceAs (Decidable (_ ∧ _))
  | .perform _ (.append _) | .perform _ (.truncatePrefix _) | .perform _ (.reset _)
  | .restart _ => inferInstanceAs (Decidable True)

instance tidyDecidable (s : SegmentLogStorage) : Decidable (Tidy s) :=
  decidable_of_iff ((∀ seg ∈ s.live.dropLast, seg.isOpen = false) ∧
      ∀ seg ∈ s.live, Intact seg.file)
    ⟨fun h => ⟨h.1, h.2⟩, fun h => ⟨h.closed, h.intact⟩⟩

structure Inv (codec : ConfigurationCodec) (s : SegmentLogStorage) : Prop where
  wellFormed : WellFormed codec s
  filed : ∀ seg ∈ s.live, Filed codec seg
  logMeta : s.logMeta = s.firstLogIndex
  first_pos : 1 ≤ s.firstLogIndex

variable {codec : ConfigurationCodec} {flags : Flags} {s s' : SegmentLogStorage}

theorem inv_fresh : Inv codec .fresh := by
  refine ⟨wellFormed_fresh, ?_, rfl, by decide⟩
  intro seg hmem
  simp [SegmentLogStorage.fresh, SegmentLogStorage.live] at hmem

section Operations

theorem Inv.appendOne {entry : LogEntry} (h : Inv codec s)
    (hstep : s.appendOne flags codec entry = some (s', true)) : Inv codec s' := by
  obtain ⟨s1, o, before, behind, seg, seg', hroom, hwritten, hwf'⟩ := h.wellFormed.appendOne hstep
  obtain ⟨-, -, hfirst1, -⟩ := h.wellFormed.openSegment hroom
  obtain ⟨hfiled1, hmeta1⟩ := h.wellFormed.forall_openSegment (filed_new codec)
    (fun seg => SameContents.filed (sameContents_prepareToClose seg))
    (fun seg _ => SameContents.filed (sameContents_close seg)) h.filed hroom
  refine ⟨hwf', ?_, ?_, ?_⟩
  · exact hwritten.forall hfiled1 fun hfiled => filed_append hfiled hwritten.append
  · rw [hwritten.logMeta, hwritten.first, hmeta1, hfirst1]
    exact h.logMeta
  · rw [hwritten.first, hfirst1]
    exact h.first_pos

theorem Inv.appendEntries {entries : List LogEntry} (h : Inv codec s)
    (hstep : s.appendEntries flags codec entries = some (s', entries.length)) : Inv codec s' := by
  induction entries generalizing s with
  | nil =>
    cases hstep
    exact h
  | cons entry rest ih =>
    simp only [SegmentLogStorage.appendEntries, Option.bind_eq_bind, Option.bind_eq_some_iff] at hstep
    obtain ⟨⟨s1, written⟩, hone, hstep⟩ := hstep
    cases written with
    | false => cases hstep
    | true =>
      obtain ⟨⟨s2, n⟩, hrest, heq⟩ := Option.map_eq_some_iff.mp hstep
      cases heq
      exact ih (h.appendOne hone) hrest

theorem Inv.truncatePrefix (h : Inv codec s) (k : Int) : Inv codec (s.truncatePrefix k) := by
  obtain ⟨hwf', hfirst, -, hkeep, -⟩ := h.wellFormed.truncatePrefix k
  have hpos := h.first_pos
  refine ⟨hwf', fun seg hmem => h.filed seg (hkeep seg hmem), ?_, by omega⟩
  by_cases hk : k ≤ s.firstLogIndex
  · have hs : s.truncatePrefix k = s := by rw [SegmentLogStorage.truncatePrefix, if_pos hk]
    rw [hs]
    exact h.logMeta
  · have hs : s.truncatePrefix k = { s with logMeta := k }.popSegments k := by
      rw [SegmentLogStorage.truncatePrefix, if_neg hk]
    have hmeta : ({ s with logMeta := k }.popSegments k).logMeta = k := by
      obtain ⟨-, -, ⟨_, _, -, -, hpop⟩ | ⟨_, -, -, -, hpop⟩ | ⟨-, hpop⟩⟩ :=
        popSegments_cases { s with logMeta := k } k
      all_goals rw [hpop]
    rw [hfirst, hs, hmeta]
    omega

theorem Inv.truncateSuffix {k : Int} (h : Inv codec s) (hlow : s.firstLogIndex - 1 ≤ k)
    (hhigh : k ≤ s.lastLogIndex) (hstep : s.truncateSuffix k = some s') : Inv codec s' := by
  obtain ⟨s'', hs'', hwf', hfirst, -, hmeta, hfrom, -⟩ := h.wellFormed.truncateSuffix hlow hhigh
  cases hs''.symm.trans hstep
  refine ⟨hwf', ?_, by rw [hmeta, hfirst]; exact h.logMeta, by rw [hfirst]; exact h.first_pos⟩
  intro seg' hmem
  obtain ⟨seg, hseg, rfl | ⟨hlt, hcut⟩⟩ := hfrom seg' hmem
  · exact h.filed seg' hseg
  · exact (filed_truncate (h.wellFormed.sound seg hseg) (h.filed seg hseg) hlt hcut).1

theorem Inv.reset (h : Inv codec s) (n : Int) : Inv codec (s.reset n) := by
  unfold SegmentLogStorage.reset
  split
  · exact h
  · refine ⟨wellFormed_empty codec n n, ?_, rfl, by dsimp only; omega⟩
    intro seg hmem
    cases hmem

theorem Inv.execute {op : Operation} (h : Inv codec s) (hinLog : InLog s (.perform flags op))
    (hstep : execute flags codec s op = some s') : Inv codec s' := by
  cases op with
  | append entries =>
    simp only [StorageRefinement.execute, Option.bind_eq_bind, Option.bind_eq_some_iff] at hstep
    obtain ⟨⟨s1, count⟩, happend, hstep⟩ := hstep
    split at hstep
    · rename_i hcount
      cases hstep
      cases hcount
      exact h.appendEntries happend
    · cases hstep
  | truncatePrefix k =>
    cases hstep
    exact h.truncatePrefix k
  | truncateSuffix k => exact h.truncateSuffix hinLog.1 hinLog.2 hstep
  | reset n =>
    cases hstep
    exact h.reset n

end Operations

section Listing

def filesOf (segs : List Segment) : List (FileName × List EntryRecord) :=
  segs.map fun seg => (fileName seg, seg.file)

theorem increasing (hwf : WellFormed codec s) :
    s.live.Pairwise fun seg other => seg.firstIndex < other.firstIndex := by
  obtain ⟨a, -, hcovers⟩ := hwf.covers
  have hends := hcovers.pairwise
  rw [SegmentLogStorage.live, List.pairwise_append] at hends ⊢
  obtain ⟨hsegments, -, hopened⟩ := hends
  refine ⟨hsegments.imp_of_mem ?_, ?_, ?_⟩
  · intro seg other hmem _ hlt
    have hranged := (hwf.ranged seg hmem).1
    omega
  · cases s.openedSegment with
    | none => exact .nil
    | some o => exact List.pairwise_singleton _ _
  · intro seg hmem other hother
    have hlt := hopened seg hmem other hother
    have hranged := (hwf.ranged seg hmem).1
    omega

theorem readFiles_closed {segs : List Segment} (r : SegmentLogStorage) (rest : List Segment)
    (hclosed : ∀ seg ∈ segs, seg.isOpen = false)
    (hincreasing : segs.Pairwise fun seg other => seg.firstIndex < other.firstIndex)
    (hbehind : ∀ old ∈ r.segments, ∀ seg ∈ segs, old.firstIndex < seg.firstIndex) :
    r.readFiles (filesOf (segs ++ rest)) =
      { r with segments := r.segments ++ segs.map refile }.readFiles (filesOf rest) := by
  induction segs generalizing r with
  | nil => simp
  | cons seg segs ih =>
    have hseg := hclosed seg (by simp)
    obtain ⟨hhead, htail⟩ := List.pairwise_cons.mp hincreasing
    have hinsert : SegmentLogStorage.insertSegment (refile seg) r.segments =
        r.segments ++ [refile seg] := by
      apply insertSegment_last
      intro old hold
      rw [refile_first]
      exact hbehind old hold seg (by simp)
    have hone : r.readFiles (filesOf (seg :: segs ++ rest)) =
        { r with segments := r.segments ++ [refile seg] }.readFiles (filesOf (segs ++ rest)) := by
      rw [← hinsert]
      simp [filesOf, fileName, hseg, SegmentLogStorage.readFiles, refile]
    rw [hone, ih _ (fun other hmem => hclosed other (by simp [hmem])) htail]
    · simp
    · intro old hold other hother
      rcases List.mem_append.mp hold with hold | hold
      · exact hbehind old hold other (by simp [hother])
      · cases List.mem_singleton.mp hold
        rw [refile_first]
        exact hhead other hother

theorem readFiles_open {seg : Segment} (r : SegmentLogStorage) (rest : List Segment)
    (hopen : seg.isOpen = true) :
    r.readFiles (filesOf (seg :: rest)) =
      if r.openedSegment.isSome then none
      else { r with openedSegment := some (refile seg) }.readFiles (filesOf rest) := by
  simp [filesOf, fileName, hopen, SegmentLogStorage.readFiles, refile]

private theorem checkSegments_tiles {first acc e : Int} {segs : List Segment} (rest : List Segment)
    (hcovers : Covers (acc + 1) e segs) (hranged : ∀ seg ∈ segs, seg.firstIndex ≤ seg.lastIndex)
    (hacc : 0 ≤ acc) :
    SegmentLogStorage.checkSegments first acc (segs ++ rest) =
      (SegmentLogStorage.checkSegments first (e - 1) rest).map (segs ++ ·) := by
  induction segs generalizing acc with
  | nil =>
    have he : acc + 1 = e := hcovers
    obtain rfl : acc = e - 1 := by omega
    simp
  | cons seg segs ih =>
    obtain ⟨hfirst, -, htail⟩ := hcovers
    have hseg := hranged seg (by simp)
    rw [List.cons_append, SegmentLogStorage.checkSegments, if_neg (by omega), if_neg (by omega),
      if_neg (by omega), if_neg (by omega),
      ih htail (fun other hmem => hranged other (by simp [hmem])) (by omega), Option.map_map]
    rfl

private theorem checkSegments_from {first a e : Int} {segs : List Segment} (rest : List Segment)
    (hcovers : Covers a e segs) (ha : a ≤ first) (hfirst : 1 ≤ first)
    (hranged : ∀ seg ∈ segs, seg.firstIndex ≤ seg.lastIndex ∧ first ≤ seg.lastIndex) :
    SegmentLogStorage.checkSegments first (-1) (segs ++ rest) =
      (SegmentLogStorage.checkSegments first (if segs = [] then -1 else e - 1) rest).map
        (segs ++ ·) := by
  cases segs with
  | nil => simp
  | cons seg segs =>
    obtain ⟨hbegin, -, htail⟩ := hcovers
    have hseg := hranged seg (by simp)
    rw [List.cons_append, SegmentLogStorage.checkSegments, if_neg (by omega), if_neg (by omega),
      if_neg (by omega), if_neg (by omega), checkSegments_tiles rest htail
        (fun other hmem => (hranged other (by simp [hmem])).1) (by omega), Option.map_map,
      if_neg (by simp)]
    rfl

private theorem checkSegments_gap {first a c : Int} {before behind : List Segment} {seg : Segment}
    (hcovers : Covers a c before) (ha : a ≤ first) (hfirst : 1 ≤ first)
    (hranged : ∀ seg ∈ before, seg.firstIndex ≤ seg.lastIndex ∧ first ≤ seg.lastIndex)
    (hlate : c < seg.firstIndex) (hlate' : first < seg.firstIndex) :
    SegmentLogStorage.checkSegments first (-1) (before ++ seg :: behind) = none := by
  rw [checkSegments_from _ hcovers ha hfirst hranged]
  have hnone : SegmentLogStorage.checkSegments first (if before = [] then -1 else c - 1)
      (seg :: behind) = none := by
    rw [SegmentLogStorage.checkSegments]
    split
    · rfl
    · by_cases hbefore : before = []
      · rw [if_pos hbefore, if_neg (by omega), if_pos (by omega)]
      · obtain ⟨head, hhead⟩ := List.exists_mem_of_ne_nil before hbefore
        have hbounds := hcovers.bounds hhead
        have hreach := hranged head hhead
        rw [if_neg hbefore, if_pos (by omega)]
  rw [hnone]
  rfl

end Listing

section Loading

private theorem loadClosed_intact {segs : List Segment} (cm : ConfigurationManager)
    (hfiled : ∀ seg ∈ segs, Filed codec seg) (hintact : ∀ seg ∈ segs, Intact seg.file) :
    ∃ cm', SegmentLogStorage.loadClosed codec (segs.map refile) cm =
      some (segs.map reload, cm') := by
  induction segs generalizing cm with
  | nil => exact ⟨cm, rfl⟩
  | cons seg segs ih =>
    obtain ⟨cm1, hseg⟩ := load_intact (hfiled seg (by simp)) (hintact seg (by simp)) cm
    obtain ⟨cm2, hrest⟩ := ih cm1 (fun other hmem => hfiled other (by simp [hmem]))
      (fun other hmem => hintact other (by simp [hmem]))
    exact ⟨cm2, by simp [SegmentLogStorage.loadClosed, hseg, hrest]⟩

private theorem loadClosed_truncated {segs : List Segment} {seg : Segment}
    (cm : ConfigurationManager)
    (hmem : seg ∈ segs) (hbroken : ¬ Intact seg.file) :
    SegmentLogStorage.loadClosed codec (segs.map refile) cm = none := by
  induction segs generalizing cm with
  | nil => cases hmem
  | cons head segs ih =>
    rcases List.mem_cons.mp hmem with rfl | hmem
    · simp [SegmentLogStorage.loadClosed, load_truncated hbroken]
    · cases hload : (refile head).load codec cm with
      | none => simp [SegmentLogStorage.loadClosed, hload]
      | some loaded => simp [SegmentLogStorage.loadClosed, hload, ih loaded.2 hmem]

theorem split_newest {segs : List Segment} (hclosed : ∀ seg ∈ segs.dropLast, seg.isOpen = false) :
    ∃ closed newest, segs = closed ++ Option.toList newest ∧
      (∀ seg ∈ closed, seg.isOpen = false) ∧ ∀ seg ∈ newest, seg.isOpen = true := by
  rcases List.eq_nil_or_concat' segs with rfl | ⟨before, seg, rfl⟩
  · exact ⟨[], none, rfl, by simp, by simp⟩
  · rw [List.dropLast_concat] at hclosed
    cases hopen : seg.isOpen with
    | true => exact ⟨before, some seg, rfl, hclosed, by simp [hopen]⟩
    | false =>
      refine ⟨before ++ [seg], none, by simp, ?_, by simp⟩
      intro other hmem
      rcases List.mem_append.mp hmem with hmem | hmem
      · exact hclosed other hmem
      · cases List.mem_singleton.mp hmem
        exact hopen

theorem closed_ranged (hwf : WellFormed codec s) {seg : Segment} (hmem : seg ∈ s.live)
    (hclosed : seg.isOpen = false) :
    seg.firstIndex ≤ seg.lastIndex ∧ s.firstLogIndex ≤ seg.lastIndex := by
  rcases List.mem_append.mp hmem with hmem | hmem
  · exact hwf.ranged seg hmem
  · have hopen := (hwf.opened seg (Option.mem_toList.mp hmem)).1
    rw [hopen] at hclosed
    cases hclosed

private theorem covers_refile {a e : Int} {segs : List Segment} (hcovers : Covers a e segs)
    (hclosed : ∀ seg ∈ segs, seg.isOpen = false) : Covers a e (segs.map refile) :=
  Tiles.map hcovers fun seg hmem => ⟨refile_first seg, refile_last (hclosed seg hmem)⟩

private theorem ranged_refile {first : Int} {segs : List Segment}
    (hclosed : ∀ seg ∈ segs, seg.isOpen = false)
    (hranged : ∀ seg ∈ segs, seg.firstIndex ≤ seg.lastIndex ∧ first ≤ seg.lastIndex) :
    ∀ seg ∈ segs.map refile, seg.firstIndex ≤ seg.lastIndex ∧ first ≤ seg.lastIndex := by
  intro seg' hmem
  obtain ⟨seg, hseg, rfl⟩ := List.mem_map.mp hmem
  rw [refile_first, refile_last (hclosed seg hseg)]
  exact hranged seg hseg

/-- The storage that `list_segments` starts from. -/
def blankStorage (first : Int) : SegmentLogStorage := ⟨first, 0, [], none, first⟩

private theorem init_eq (h : Inv codec s) (cm : ConfigurationManager) :
    SegmentLogStorage.init codec s.directory cm =
      ((blankStorage s.firstLogIndex).readFiles (filesOf s.live)).bind fun r =>
        (SegmentLogStorage.checkSegments r.firstLogIndex (-1) r.segments).bind fun segs =>
          { r with segments := segs }.loadSegments codec cm := by
  simp only [SegmentLogStorage.init, SegmentLogStorage.directory, SegmentLogStorage.listSegments,
    h.logMeta, blankStorage, filesOf, Option.bind_eq_bind, Option.bind_assoc, Option.bind_some]

private theorem init_listed (h : Inv codec s) (cm : ConfigurationManager) {closed : List Segment}
    {newest : Option Segment} (hlive : s.live = closed ++ newest.toList)
    (hclosed : ∀ seg ∈ closed, seg.isOpen = false) (hnewest : ∀ seg ∈ newest, seg.isOpen = true) :
    SegmentLogStorage.init codec s.directory cm =
      SegmentLogStorage.loadSegments codec ⟨s.firstLogIndex, 0, closed.map refile,
        newest.map refile, s.firstLogIndex⟩ cm := by
  have hincreasing := increasing h.wellFormed
  obtain ⟨a, ha, hcovers⟩ := h.wellFormed.covers
  rw [hlive] at hincreasing hcovers
  obtain ⟨c, hfront, -⟩ := tiles_append.mp hcovers
  have hread : (blankStorage s.firstLogIndex).readFiles (filesOf s.live) =
      some ⟨s.firstLogIndex, 0, closed.map refile, newest.map refile, s.firstLogIndex⟩ := by
    rw [hlive, readFiles_closed _ _ hclosed (List.pairwise_append.mp hincreasing).1 (by
      intro old hold
      cases hold)]
    cases newest with
    | none => rfl
    | some o =>
      rw [Option.toList_some, readFiles_open _ _ (hnewest o rfl)]
      rfl
  have hcheck : SegmentLogStorage.checkSegments s.firstLogIndex (-1) (closed.map refile) =
      some (closed.map refile) := by
    have hfrom := checkSegments_from [] (covers_refile hfront hclosed) ha h.first_pos
      (ranged_refile hclosed fun seg hmem =>
        closed_ranged h.wellFormed (by rw [hlive]; simp [hmem]) (hclosed seg hmem))
    simpa [SegmentLogStorage.checkSegments] using hfrom
  rw [init_eq h, hread, Option.bind_some, hcheck, Option.bind_some]

private theorem init_disordered (h : Inv codec s) (cm : ConfigurationManager)
    (hdisordered : ¬ ∀ seg ∈ s.live.dropLast, seg.isOpen = false) :
    SegmentLogStorage.init codec s.directory cm = none := by
  have hwf := h.wellFormed
  have hincreasing := increasing hwf
  obtain ⟨a, ha, hcovers⟩ := hwf.covers
  cases hfind : s.live.find? Segment.isOpen with
  | none =>
    refine absurd ?_ hdisordered
    intro seg hmem
    have hclosed := List.find?_eq_none.mp hfind seg (List.mem_of_mem_dropLast hmem)
    simpa using hclosed
  | some p =>
    obtain ⟨hp, before, rest, hlive, hbefore⟩ := List.find?_eq_some_iff_append.mp hfind
    replace hbefore : ∀ seg ∈ before, seg.isOpen = false := by simpa using hbefore
    rw [hlive] at hincreasing hcovers
    obtain ⟨hinc1, hinc2, hcross⟩ := List.pairwise_append.mp hincreasing
    obtain ⟨-, hinc3⟩ := List.pairwise_cons.mp hinc2
    obtain ⟨hfront, -, hbehind⟩ := tiles_around.mp hcovers
    have hread : (blankStorage s.firstLogIndex).readFiles (filesOf s.live) =
        SegmentLogStorage.readFiles ⟨s.firstLogIndex, 0, before.map refile, some (refile p),
          s.firstLogIndex⟩ (filesOf rest) := by
      rw [hlive, readFiles_closed _ _ hbefore hinc1 (by
        intro old hold
        cases hold), readFiles_open _ _ hp]
      rfl
    have hacross : ∀ old ∈ before.map refile, ∀ seg ∈ rest, old.firstIndex < seg.firstIndex := by
      intro old hold seg hseg
      obtain ⟨seg0, hseg0, rfl⟩ := List.mem_map.mp hold
      rw [refile_first]
      exact hcross seg0 hseg0 seg (by simp [hseg])
    rw [init_eq h, hread]
    cases hsecond : rest.find? Segment.isOpen with
    | some q =>
      obtain ⟨hq, mid, rest', hrest, hmid⟩ := List.find?_eq_some_iff_append.mp hsecond
      replace hmid : ∀ seg ∈ mid, seg.isOpen = false := by simpa using hmid
      rw [hrest] at hinc3 hacross ⊢
      rw [readFiles_closed _ _ hmid (List.pairwise_append.mp hinc3).1
        (fun old hold seg hseg => hacross old hold seg (by simp [hseg])), readFiles_open _ _ hq]
      rfl
    | none =>
      have hclosed : ∀ seg ∈ rest, seg.isOpen = false := by
        intro seg hmem
        simpa using List.find?_eq_none.mp hsecond seg hmem
      have hwhole := readFiles_closed ⟨s.firstLogIndex, 0, before.map refile, some (refile p),
        s.firstLogIndex⟩ [] hclosed hinc3 hacross
      rw [List.append_nil] at hwhole
      rw [hwhole]
      cases rest with
      | nil =>
        refine absurd ?_ hdisordered
        rw [hlive, List.dropLast_concat]
        exact hbefore
      | cons y rest =>
        have hpRanged : p.firstIndex ≤ p.lastIndex ∧ s.firstLogIndex ≤ p.lastIndex := by
          apply hwf.ranged
          have hmem : p ∈ s.live.dropLast := by
            rw [hlive, List.dropLast_append_cons, List.dropLast_cons_cons]
            simp
          rw [SegmentLogStorage.live] at hmem
          cases hopened : s.openedSegment with
          | none =>
            rw [hopened, Option.toList_none, List.append_nil] at hmem
            exact List.mem_of_mem_dropLast hmem
          | some o =>
            rw [hopened, Option.toList_some, List.dropLast_concat] at hmem
            exact hmem
        have hy : y.firstIndex = p.lastIndex + 1 := hbehind.1
        have hgap : SegmentLogStorage.checkSegments s.firstLogIndex (-1)
            (before.map refile ++ refile y :: rest.map refile) = none :=
          checkSegments_gap (covers_refile hfront hbefore) ha h.first_pos
            (ranged_refile hbefore fun seg hmem =>
              closed_ranged hwf (by rw [hlive]; simp [hmem]) (hbefore seg hmem))
            (by rw [refile_first]; omega) (by rw [refile_first]; omega)
        simp only [filesOf, List.map_nil, SegmentLogStorage.readFiles, Option.bind_some,
          List.map_cons, hgap, Option.bind_none]

private theorem init_truncated (h : Inv codec s) (cm : ConfigurationManager)
    (hclosed : ∀ seg ∈ s.live.dropLast, seg.isOpen = false)
    (hbroken : ¬ ∀ seg ∈ s.live, Intact seg.file) :
    SegmentLogStorage.init codec s.directory cm = none := by
  obtain ⟨closed, newest, hlive, hclosed, hnewest⟩ := split_newest hclosed
  rw [init_listed h cm hlive hclosed hnewest]
  simp only [not_forall] at hbroken
  obtain ⟨seg, hmem, hseg⟩ := hbroken
  rw [hlive] at hmem
  rcases List.mem_append.mp hmem with hmem | hmem
  · simp [SegmentLogStorage.loadSegments, loadClosed_truncated cm hmem hseg]
  · obtain rfl : newest = some seg := Option.mem_toList.mp hmem
    cases hload : SegmentLogStorage.loadClosed codec (closed.map refile) cm with
    | none => simp [SegmentLogStorage.loadSegments, hload]
    | some loaded =>
      simp [SegmentLogStorage.loadSegments, SegmentLogStorage.loadOpened, hload,
        load_truncated hseg]

end Loading

section Reloaded

/-- The storage behind a restart that kept every segment. -/
def reloaded (s : SegmentLogStorage) (closed : List Segment) (newest : Option Segment) :
    SegmentLogStorage :=
  ⟨s.firstLogIndex, s.lastLogIndex, closed.map reload, newest.map reload, s.logMeta⟩

variable {closed : List Segment} {newest : Option Segment}

private theorem reloaded_live (hlive : s.live = closed ++ newest.toList) :
    (reloaded s closed newest).live = s.live.map reload := by
  rw [hlive, SegmentLogStorage.live, reloaded]
  cases newest with
  | none => simp
  | some o => simp

private theorem contents_map_reload {segs : List Segment} (hfiled : ∀ seg ∈ segs, Filed codec seg)
    (hintact : ∀ seg ∈ segs, Intact seg.file) (i : Int) :
    contents codec (segs.map reload) i = contents codec segs i := by
  induction segs with
  | nil => rfl
  | cons seg segs ih =>
    have hget : (reload seg).get codec = seg.get codec :=
      (sameContents_reload (hfiled seg (by simp)) (hintact seg (by simp))).get
    have hrest := ih (fun other hmem => hfiled other (by simp [hmem]))
      (fun other hmem => hintact other (by simp [hmem]))
    simp only [contents, lookup, List.map_cons, List.findSome?_cons, hget] at hrest ⊢
    rw [hrest]

private theorem inv_reloaded (h : Inv codec s) (hintact : ∀ seg ∈ s.live, Intact seg.file)
    (hlive : s.live = closed ++ newest.toList) (hclosed : ∀ seg ∈ closed, seg.isOpen = false)
    (hnewest : ∀ seg ∈ newest, seg.isOpen = true) : Inv codec (reloaded s closed newest) := by
  have hwf := h.wellFormed
  have hsame : ∀ seg ∈ s.live, SameContents seg (reload seg) :=
    fun seg hmem => sameContents_reload (h.filed seg hmem) (hintact seg hmem)
  obtain ⟨a, ha, hcovers⟩ := hwf.covers
  refine ⟨⟨?_, ⟨a, ha, ?_⟩, hwf.first_le, ?_, ?_, ?_⟩, ?_, h.logMeta, h.first_pos⟩
  · rw [reloaded_live hlive]
    intro seg' hmem
    obtain ⟨seg, hseg, rfl⟩ := List.mem_map.mp hmem
    exact (hsame seg hseg).sound (hwf.sound seg hseg)
  · rw [reloaded_live hlive]
    exact Tiles.map hcovers fun seg hmem => ⟨(hsame seg hmem).first, (hsame seg hmem).last⟩
  · intro seg' hmem
    obtain ⟨seg, hseg, rfl⟩ := List.mem_map.mp hmem
    have hmem : seg ∈ s.live := by rw [hlive]; simp [hseg]
    rw [(hsame seg hmem).first, (hsame seg hmem).last]
    exact closed_ranged hwf hmem (hclosed seg hseg)
  · intro seg' hmem
    obtain ⟨seg, hseg, rfl⟩ := Option.map_eq_some_iff.mp hmem
    exact ⟨(reload_isOpen seg).trans (hnewest seg hseg), reload_pending seg⟩
  · intro seg' hmem
    obtain ⟨seg, hseg, rfl⟩ := Option.map_eq_some_iff.mp hmem
    have hmem : seg ∈ s.live := by
      rw [hlive]
      exact List.mem_append_right _ (Option.mem_toList.mpr hseg)
    rw [(hsame seg hmem).first, (hsame seg hmem).last, (hsame seg hmem).bytes]
    rcases List.mem_append.mp hmem with hmem | hmem
    · exact .inl (hwf.ranged seg hmem)
    · exact hwf.blank seg (Option.mem_toList.mp hmem)
  · rw [reloaded_live hlive]
    intro seg' hmem
    obtain ⟨seg, hseg, rfl⟩ := List.mem_map.mp hmem
    exact SameContents.filed (hsame seg hseg) (h.filed seg hseg)

private theorem sameView_reloaded (h : Inv codec s) (hintact : ∀ seg ∈ s.live, Intact seg.file)
    (hlive : s.live = closed ++ newest.toList) (hclosed : ∀ seg ∈ closed, seg.isOpen = false)
    (hnewest : ∀ seg ∈ newest, seg.isOpen = true) : SameView codec s (reloaded s closed newest) := by
  have hwf' := (inv_reloaded h hintact hlive hclosed hnewest).wellFormed
  have hget : ∀ i, (reloaded s closed newest).getEntry codec i = s.getEntry codec i := by
    intro i
    rw [hwf'.getEntry_eq, h.wellFormed.getEntry_eq, reloaded_live hlive,
      contents_map_reload h.filed hintact]
    rfl
  refine ⟨rfl, rfl, hget, ?_⟩
  intro i
  rw [hwf'.getTerm_eq, h.wellFormed.getTerm_eq, hget]

private theorem sameView_empty (hwf : WellFormed codec s)
    (hempty : s.lastLogIndex < s.firstLogIndex) :
    SameView codec s ⟨s.firstLogIndex, s.firstLogIndex - 1, [], none, s.firstLogIndex⟩ := by
  have hwf' := wellFormed_empty codec s.firstLogIndex s.firstLogIndex
  have hlast : s.lastLogIndex = s.firstLogIndex - 1 := by
    have hfirst := hwf.first_le
    omega
  have hget : ∀ i, SegmentLogStorage.getEntry codec
      ⟨s.firstLogIndex, s.firstLogIndex - 1, [], none, s.firstLogIndex⟩ i = s.getEntry codec i := by
    intro i
    rw [hwf'.getEntry_eq, hwf.getEntry_eq, if_neg (by dsimp only; omega), if_neg (by omega)]
  refine ⟨rfl, hlast.symm, hget, ?_⟩
  intro i
  rw [hwf'.getTerm_eq, hwf.getTerm_eq, hget]

private theorem inv_empty (h : Inv codec s) :
    Inv codec ⟨s.firstLogIndex, s.firstLogIndex - 1, [], none, s.firstLogIndex⟩ := by
  refine ⟨wellFormed_empty codec _ _, ?_, rfl, h.first_pos⟩
  intro seg hmem
  cases hmem

private theorem load_closed (h : Inv codec s) (hclosed : ∀ seg ∈ s.live, seg.isOpen = false)
    (hintact : ∀ seg ∈ s.live, Intact seg.file) (cm : ConfigurationManager) :
    ∃ s' cm', SegmentLogStorage.init codec s.directory cm = some (s', cm') ∧ Inv codec s' ∧
      SameView codec s s' := by
  have hpos := h.first_pos
  obtain ⟨a, ha, hcovers⟩ := h.wellFormed.covers
  obtain ⟨cm', hload⟩ := loadClosed_intact cm h.filed hintact
  have hnone : ∀ seg ∈ (none : Option Segment), seg.isOpen = true := by simp
  have hlive : s.live = s.live ++ (none : Option Segment).toList := by simp
  rw [init_listed h cm hlive hclosed hnone]
  simp only [SegmentLogStorage.loadSegments, hload, Option.bind_eq_bind, Option.bind_some,
    SegmentLogStorage.loadOpened, Option.map_none]
  rcases List.eq_nil_or_concat' s.live with hempty | ⟨before, seg, hlast⟩
  · rw [hempty] at hcovers
    have hend : a = s.lastLogIndex + 1 := hcovers
    refine ⟨_, cm', rfl, ?_, ?_⟩
    · simpa [hempty] using inv_empty h
    · simpa [hempty] using sameView_empty h.wellFormed (by omega)
  · have hmem : seg ∈ s.live := by rw [hlast]; simp
    have hreach := (closed_ranged h.wellFormed hmem (hclosed seg hmem)).2
    rw [hlast] at hcovers
    have hend : seg.lastIndex + 1 = s.lastLogIndex + 1 := (tiles_around.mp hcovers).2.2
    have hgetLast : (((s.live.map reload).getLast?.map Segment.lastIndex).getD 0) =
        s.lastLogIndex := by
      simp only [hlast, List.map_append, List.map_cons, List.map_nil, List.getLast?_concat,
        Option.map_some, Option.getD_some, reload]
      omega
    refine ⟨reloaded s s.live none, cm', ?_, inv_reloaded h hintact hlive hclosed hnone,
      sameView_reloaded h hintact hlive hclosed hnone⟩
    simp only [hgetLast]
    rw [if_neg (by omega)]
    simp [reloaded, h.logMeta]

private theorem load_newest (h : Inv codec s) {o : Segment} (hlive : s.live = closed ++ [o])
    (hclosed : ∀ seg ∈ closed, seg.isOpen = false) (hopen : o.isOpen = true)
    (hintact : ∀ seg ∈ s.live, Intact seg.file) (cm : ConfigurationManager) :
    ∃ s' cm', SegmentLogStorage.init codec s.directory cm = some (s', cm') ∧ Inv codec s' ∧
      SameView codec s s' := by
  have hpos := h.first_pos
  obtain ⟨a, ha, hcovers⟩ := h.wellFormed.covers
  rw [hlive] at hcovers
  obtain ⟨hfront, hrange, hend⟩ := tiles_around.mp hcovers
  replace hend : o.lastIndex + 1 = s.lastLogIndex + 1 := hend
  have hmem : ∀ seg ∈ closed, seg ∈ s.live := fun seg hseg => by rw [hlive]; simp [hseg]
  have homem : o ∈ s.live := by rw [hlive]; simp
  obtain ⟨cm1, hload⟩ := loadClosed_intact cm (fun seg hseg => h.filed seg (hmem seg hseg))
    (fun seg hseg => hintact seg (hmem seg hseg))
  obtain ⟨cm2, hloadOpen⟩ := load_intact (h.filed o homem) (hintact o homem) cm1
  have hnewest : ∀ seg ∈ some o, seg.isOpen = true := by
    rintro seg ⟨⟩
    exact hopen
  have hlive' : s.live = closed ++ (some o).toList := hlive
  rw [init_listed h cm hlive' hclosed hnewest]
  simp only [SegmentLogStorage.loadSegments, hload, Option.bind_eq_bind, Option.bind_some,
    SegmentLogStorage.loadOpened, Option.map_some, hloadOpen]
  by_cases hbelow : o.lastIndex < s.firstLogIndex
  · have hnil : closed = [] := by
      rw [List.eq_nil_iff_forall_not_mem]
      intro seg hseg
      have hreach := (closed_ranged h.wellFormed (hmem seg hseg) (hclosed seg hseg)).2
      have hbounds := hfront.bounds hseg
      omega
    refine ⟨_, cm2, by rw [if_pos (show (reload o).lastIndex < s.firstLogIndex from hbelow)]; rfl,
      ?_, ?_⟩
    · simpa [hnil] using inv_empty h
    · simpa [hnil] using sameView_empty h.wellFormed (by omega)
  · refine ⟨reloaded s closed (some o), cm2, ?_, inv_reloaded h hintact hlive' hclosed hnewest,
      sameView_reloaded h hintact hlive' hclosed hnewest⟩
    rw [if_neg (show ¬ (reload o).lastIndex < s.firstLogIndex from hbelow)]
    have hlast : (reload o).lastIndex = s.lastLogIndex := by
      change o.lastIndex = _
      omega
    simp only [Option.bind_some, hlast]
    rw [if_neg (by omega)]
    simp [reloaded, h.logMeta]

theorem init_tidy (h : Inv codec s) (htidy : Tidy s) (cm : ConfigurationManager) :
    ∃ s' cm', SegmentLogStorage.init codec s.directory cm = some (s', cm') ∧ Inv codec s' ∧
      SameView codec s s' := by
  obtain ⟨closed, newest, hlive, hclosed, hnewest⟩ := split_newest htidy.closed
  cases newest with
  | none =>
    rw [Option.toList_none, List.append_nil] at hlive
    rw [← hlive] at hclosed
    exact load_closed h hclosed htidy.intact cm
  | some o => exact load_newest h hlive hclosed (hnewest o rfl) htidy.intact cm

theorem init_untidy (h : Inv codec s) (huntidy : ¬ Tidy s) (cm : ConfigurationManager) :
    SegmentLogStorage.init codec s.directory cm = none := by
  by_cases hclosed : ∀ seg ∈ s.live.dropLast, seg.isOpen = false
  · exact init_truncated h cm hclosed fun hintact => huntidy ⟨hclosed, hintact⟩
  · exact init_disordered h cm hclosed

end Reloaded

theorem inv_step (s : SegmentLogStorage) (event : Event) (s' : SegmentLogStorage)
    (h : Inv codec s) (hinLog : InLog s event) (hstep : step codec s event = some s') :
    Inv codec s' := by
  cases event with
  | perform flags op => exact h.execute hinLog hstep
  | restart cm =>
    obtain ⟨⟨s1, cm1⟩, hinit, rfl⟩ := Option.map_eq_some_iff.mp hstep
    by_cases htidy : Tidy s
    · obtain ⟨s2, cm2, hinit', hinv, -⟩ := init_tidy h htidy cm
      cases hinit'.symm.trans hinit
      exact hinv
    · rw [init_untidy h htidy cm] at hinit
      cases hinit

/-- A new storage on the directory reads as the old one, exactly if the directory is tidy. -/
theorem restart_restores_iff (codec : ConfigurationCodec) (cm : ConfigurationManager)
    (events : List Event) (s : SegmentLogStorage)
    (hinLog : Guarded (step codec) InLog .fresh events)
    (hrun : runEvents (step codec) .fresh events = some s) :
    (∃ s' cm', SegmentLogStorage.init codec s.directory cm = some (s', cm') ∧
      SameView codec s s') ↔ Tidy s := by
  have hinv : Inv codec s := invariant_of_step inv_step inv_fresh hinLog hrun
  constructor
  · rintro ⟨s', cm', hinit, -⟩
    by_contra huntidy
    rw [init_untidy hinv huntidy cm] at hinit
    cases hinit
  · intro htidy
    obtain ⟨s', cm', hinit, -, hview⟩ := init_tidy hinv htidy cm
    exact ⟨s', cm', hinit, hview⟩

/-- One entry fills a segment. -/
private def tight : Flags := ⟨40, 100⟩

private def roomy : Flags := ⟨1000, 100⟩

/-- The first segment waits for index 1, is closed, and survives two restarts. -/
private def tidyRun : List Event :=
  [.perform tight (.append [sampleEntry 2 1, sampleEntry 1 1, sampleEntry 3 1]),
    .restart .new, .perform roomy (.append [sampleEntry 5 1, sampleEntry 4 1]),
    .perform roomy (.truncatePrefix 2)]

theorem tidy_run_restored :
    ∃ s s' cm', runEvents (step .unary) .fresh tidyRun = some s ∧
      SegmentLogStorage.init .unary s.directory .new = some (s', cm') ∧ SameView .unary s s' := by
  obtain ⟨s, hrun⟩ := Option.isSome_iff_exists.mp
    (show (runEvents (step .unary) .fresh tidyRun).isSome by decide +kernel)
  have htidy : ∀ s ∈ runEvents (step .unary) .fresh tidyRun, Tidy s := by decide +kernel
  obtain ⟨s', cm', hrestored⟩ :=
    (restart_restores_iff .unary .new tidyRun s (by decide +kernel) hrun).mpr (htidy s hrun)
  exact ⟨s, s', cm', hrun, hrestored⟩

/-- The first segment is full with index 3 alone and waits for the two before it. -/
private def waitingRun : List Event :=
  [.perform tight (.append [sampleEntry 3 1]), .perform tight (.append [sampleEntry 4 1])]

/-- A restart does not count the entries again, so the first segment is never complete. -/
private def recountRun : List Event :=
  [.perform tight (.append [sampleEntry 1 1]), .restart .new,
    .perform tight (.append [sampleEntry 2 1])]

private def cutRun : List Event :=
  [.perform roomy (.append [sampleEntry 1 1, sampleEntry 2 1]), .perform roomy (.truncateSuffix 1)]

/-- The run succeeds, and a restart behind it does not. -/
def LosesLog (codec : ConfigurationCodec) (cm : ConfigurationManager) (events : List Event) :
    Prop :=
  ∃ s, runEvents (step codec) .fresh events = some s ∧
    SegmentLogStorage.init codec s.directory cm = none

private theorem losesLog_iff {cm : ConfigurationManager} {events : List Event} :
    LosesLog codec cm events ↔ ((runEvents (step codec) .fresh events).map fun s =>
      (SegmentLogStorage.init codec s.directory cm).isNone) = some true := by
  simp only [LosesLog, Option.map_eq_some_iff, Option.isNone_iff_eq_none]

/-- Two segments in progress are refused, and the load of a truncated file does not end. -/
theorem restart_loses_log :
    LosesLog .unary .new waitingRun ∧ LosesLog .unary .new recountRun ∧
      LosesLog .unary .new cutRun := by
  simp only [losesLog_iff]
  decide +kernel

end HitConsistency.Log.StorageRestart
