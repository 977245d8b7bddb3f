/- GID: HitConsistency/Log/CrashedTruncation
   digest: What a crash inside a prefix truncation, a suffix truncation or a reset leaves. -/

import HitConsistency.Log.StorageRestart

set_option autoImplicit false
set_option relaxedAutoImplicit false

/-!
Each of the three operations is a list of actions on the directory, and a crash stops
behind one of them. An action happens at once or not at all: the meta file is replaced
by renaming, a segment is removed by renaming it to a name that the next listing throws
away, and a term is zeroed by one write of eight bytes.
-/

namespace HitConsistency.Log.CrashedTruncation

open HitConsistency.Base.GuardedRuns
open HitConsistency.Base.IntervalTiling
open HitConsistency.Base.RecordFile
open HitConsistency.Log.Entry
open HitConsistency.Log.MemoryLog
open HitConsistency.Log.SegmentFile
open HitConsistency.Log.SegmentContents
open HitConsistency.Log.SegmentReload
open HitConsistency.Log.SegmentStorage
open HitConsistency.Log.StorageContents
open HitConsistency.Log.StorageRestart

deriving instance DecidableEq for FileName

inductive DiskAction
  | saveMeta (firstLogIndex : Int)
  /-- The rename to `.tmp`. -/
  | unlink (name : FileName)
  /-- Zero the term of the entry at an offset. -/
  | invalidate (name : FileName) (offset : Nat)
  /-- No file has the new name. -/
  | rename (name new : FileName)

def act (d : Directory) : DiskAction → Directory
  | .saveMeta firstLogIndex => { d with logMeta := some firstLogIndex }
  | .unlink name => { d with files := d.files.filter fun f => f.1 ≠ name }
  | .invalidate name offset =>
      { d with files := d.files.map fun f =>
          if f.1 = name then
            (f.1, rewriteAt EntryRecord.size EntryRecord.invalidate f.2 offset)
          else f }
  | .rename name new =>
      { d with files := d.files.map fun f => if f.1 = name then (new, f.2) else f }

def actAll (d : Directory) (actions : List DiskAction) : Directory := actions.foldl act d

def unlinkAll (popped : List Segment) : List DiskAction :=
  popped.map fun seg => .unlink (fileName seg)

/-- What `pop_segments` hands back: it returns at the first segment that it keeps. -/
def popped (s : SegmentLogStorage) (firstIndexKept : Int) : List Segment :=
  if (s.segments.all fun seg => seg.lastIndex < firstIndexKept) then
    s.segments ++ (s.openedSegment.filter fun seg => seg.lastIndex < firstIndexKept).toList
  else s.segments.takeWhile fun seg => seg.lastIndex < firstIndexKept

def truncatePrefixActions (s : SegmentLogStorage) (firstIndexKept : Int) : List DiskAction :=
  if firstIndexKept ≤ s.firstLogIndex then []
  else .saveMeta firstIndexKept :: unlinkAll (popped s firstIndexKept)

def resetActions (s : SegmentLogStorage) (nextLogIndex : Int) : List DiskAction :=
  if nextLogIndex ≤ 0 then [] else .saveMeta nextLogIndex :: unlinkAll s.live

/-- The loop of `Segment::truncate` over the next indexes. -/
def dropActions : Nat → Int → Segment → List DiskAction
  | 0, _, _ => []
  | n + 1, index, seg =>
      let k := index - seg.firstIndex
      (if (seg.offsetAndTermArray k).2 ≠ 0 then
        [.invalidate (fileName seg) (seg.offsetAndTermArray k).1.toNat]
      else []) ++ dropActions n (index + 1) (seg.dropEntry index)

def truncateActions (seg : Segment) (lastIndexKept : Int) : List DiskAction :=
  if seg.lastIndex ≤ lastIndexKept then []
  else dropActions (seg.lastIndex - lastIndexKept).toNat (lastIndexKept + 1) seg ++
    if seg.isOpen then [] else [.rename (fileName seg) (.inprogress seg.firstIndex)]

/-- What `pop_segments_from_back` hands back, the newest segment first. -/
def poppedFromBack (s : SegmentLogStorage) (lastIndexKept : Int) : List Segment :=
  if s.openedSegment.any fun seg => seg.firstIndex ≤ lastIndexKept then []
  else s.openedSegment.toList ++
    s.segments.reverse.takeWhile fun seg => lastIndexKept < seg.firstIndex

/-- The last segment is truncated before the others are unlinked. -/
def truncateSuffixActions (s : SegmentLogStorage) (lastIndexKept : Int) : List DiskAction :=
  let popped := poppedFromBack s lastIndexKept
  match s.popSegmentsFromBack lastIndexKept with
  | (_, none) => unlinkAll popped
  | (after, some place) =>
      match after.segmentAt place with
      | none => unlinkAll popped
      | some seg =>
          if after.firstLogIndex ≤ after.lastLogIndex then
            truncateActions seg lastIndexKept ++ unlinkAll popped
          else unlinkAll (popped ++ [seg])

def reopened (codec : ConfigurationCodec) (cm : ConfigurationManager) (d : Directory) :
    Option SegmentLogStorage :=
  (SegmentLogStorage.init codec d cm).map Prod.fst

def firstIndexOf : FileName → Int
  | .inprogress firstIndex => firstIndex
  | .closed firstIndex _ => firstIndex

variable {codec : ConfigurationCodec} {s s' : SegmentLogStorage} {d : Directory}
  {cm : ConfigurationManager}

@[simp] theorem firstIndex_fileName (seg : Segment) :
    firstIndexOf (fileName seg) = seg.firstIndex := by
  unfold fileName
  split
  · rfl
  · rfl

@[simp] theorem actAll_nil (d : Directory) : actAll d [] = d := rfl

@[simp] theorem actAll_cons (d : Directory) (action : DiskAction) (actions : List DiskAction) :
    actAll d (action :: actions) = actAll (act d action) actions := rfl

theorem actAll_append (d : Directory) (actions more : List DiskAction) :
    actAll d (actions ++ more) = actAll (actAll d actions) more :=
  List.foldl_append

section Unlinking

private theorem actAll_unlinkAll (d : Directory) (segs : List Segment) :
    actAll d (unlinkAll segs) =
      { d with files := d.files.filter fun f => f.1 ∉ segs.map fileName } := by
  induction segs generalizing d with
  | nil => simp [unlinkAll]
  | cons seg segs ih =>
    have hhead : actAll d (unlinkAll (seg :: segs)) =
        actAll (act d (.unlink (fileName seg))) (unlinkAll segs) := rfl
    rw [hhead, ih]
    simp only [act, List.filter_filter, List.map_cons, List.mem_cons, not_or, ne_eq,
      Bool.decide_and]
    congr 2
    funext f
    exact Bool.and_comm _ _

private theorem filter_filesOf {segs gone : List Segment} :
    (filesOf segs).filter (fun f => f.1 ∉ gone.map fileName) =
      filesOf (segs.filter fun seg => fileName seg ∉ gone.map fileName) := by
  simp only [filesOf, List.filter_map]
  rfl

private theorem filter_apart {kept gone : List Segment}
    (h : ∀ seg ∈ kept, ∀ other ∈ gone, seg.firstIndex ≠ other.firstIndex) :
    kept.filter (fun seg => fileName seg ∉ gone.map fileName) = kept := by
  refine List.filter_eq_self.mpr fun seg hseg => ?_
  simp only [List.mem_map, decide_eq_true_eq, not_exists, not_and]
  intro other hother hname
  have hfirst := congrArg firstIndexOf hname
  simp only [firstIndex_fileName] at hfirst
  exact h seg hseg other hother hfirst.symm

private theorem filter_gone (gone : List Segment) :
    gone.filter (fun seg => fileName seg ∉ gone.map fileName) = [] := by
  refine List.filter_eq_nil_iff.mpr fun seg hseg => ?_
  simpa using ⟨seg, hseg, rfl⟩

private theorem unlink_front {gone kept : List Segment}
    (h : (gone ++ kept).Pairwise fun seg other => seg.firstIndex < other.firstIndex)
    (logMeta : Option Int) :
    actAll ⟨logMeta, filesOf (gone ++ kept)⟩ (unlinkAll gone) = ⟨logMeta, filesOf kept⟩ := by
  have hcross := (List.pairwise_append.mp h).2.2
  rw [actAll_unlinkAll, filter_filesOf, List.filter_append, filter_gone, List.nil_append,
    filter_apart fun seg hseg other hother => (hcross other hother seg hseg).ne']

private theorem unlink_back {gone kept : List Segment}
    (h : (kept ++ gone).Pairwise fun seg other => seg.firstIndex < other.firstIndex)
    (logMeta : Option Int) :
    actAll ⟨logMeta, filesOf (kept ++ gone)⟩ (unlinkAll gone.reverse) =
      ⟨logMeta, filesOf kept⟩ := by
  have hcross := (List.pairwise_append.mp h).2.2
  have hnames : ∀ name, name ∈ gone.reverse.map fileName ↔ name ∈ gone.map fileName := by simp
  rw [actAll_unlinkAll]
  simp only [hnames]
  rw [filter_filesOf, List.filter_append, filter_gone, List.append_nil,
    filter_apart fun seg hseg other hother => (hcross seg hseg other hother).ne]

private theorem prefix_unlinkAll {taken : List DiskAction} {segs : List Segment}
    (h : taken <+: unlinkAll segs) :
    ∃ gone left, segs = gone ++ left ∧ taken = unlinkAll gone := by
  obtain ⟨rest, hrest⟩ := h
  obtain ⟨gone, left, hsegs, hgone, -⟩ := List.map_eq_append_iff.mp hrest.symm
  exact ⟨gone, left, hsegs, hgone.symm⟩

end Unlinking

section Listing

private theorem init_files {closed : List Segment} {newest : Option Segment} (n : Int)
    (hclosed : ∀ seg ∈ closed, seg.isOpen = false) (hnewest : ∀ seg ∈ newest, seg.isOpen = true)
    (hincreasing : closed.Pairwise fun seg other => seg.firstIndex < other.firstIndex) :
    SegmentLogStorage.init codec ⟨some n, filesOf (closed ++ newest.toList)⟩ cm =
      (SegmentLogStorage.checkSegments n (-1) (closed.map refile)).bind fun segs =>
        SegmentLogStorage.loadSegments codec ⟨n, 0, segs, newest.map refile, n⟩ cm := by
  have hread : (blankStorage n).readFiles (filesOf (closed ++ newest.toList)) =
      some ⟨n, 0, closed.map refile, newest.map refile, n⟩ := by
    rw [readFiles_closed _ _ hclosed hincreasing (by
      intro old hold
      cases hold)]
    cases newest with
    | none => rfl
    | some o =>
      rw [Option.toList_some, readFiles_open _ _ (hnewest o rfl)]
      rfl
  have hlist : SegmentLogStorage.listSegments (blankStorage n)
      ⟨some n, filesOf (closed ++ newest.toList)⟩ =
        (SegmentLogStorage.checkSegments n (-1) (closed.map refile)).map fun segs =>
          ⟨n, 0, segs, newest.map refile, n⟩ := by
    simp only [SegmentLogStorage.listSegments, hread, Option.bind_eq_bind, Option.bind_some,
      Option.map_eq_bind]
    rfl
  change (SegmentLogStorage.listSegments (blankStorage n) _).bind _ = _
  rw [hlist, Option.bind_map]
  rfl

private theorem checkSegments_low {n : Int} {low rest : List Segment}
    (h : ∀ seg ∈ low, seg.firstIndex ≤ seg.lastIndex ∧ seg.lastIndex < n) :
    SegmentLogStorage.checkSegments n (-1) (low ++ rest) =
      SegmentLogStorage.checkSegments n (-1) rest := by
  induction low with
  | nil => rfl
  | cons seg low ih =>
    have hseg := h seg (by simp)
    rw [List.cons_append, SegmentLogStorage.checkSegments, if_neg (by omega), if_neg (by omega),
      if_neg (by omega), if_pos ⟨rfl, hseg.2⟩]
    exact ih fun other hmem => h other (by simp [hmem])

/-- What every segment of a storage that restarts is like. -/
structure Loadable (codec : ConfigurationCodec) (segs : List Segment) : Prop where
  increasing : segs.Pairwise fun seg other => seg.firstIndex < other.firstIndex
  closed : ∀ seg ∈ segs.dropLast, seg.isOpen = false
  ranged : ∀ seg ∈ segs, seg.isOpen = false → seg.firstIndex ≤ seg.lastIndex
  filed : ∀ seg ∈ segs, Filed codec seg
  intact : ∀ seg ∈ segs, Intact seg.file

private theorem Loadable.of_tidy (h : Inv codec s) (htidy : Tidy s) : Loadable codec s.live :=
  ⟨StorageRestart.increasing h.wellFormed, htidy.closed,
    fun _ hmem hclosed => (closed_ranged h.wellFormed hmem hclosed).1, h.filed, htidy.intact⟩

theorem Loadable.drop {front segs : List Segment} (h : Loadable codec (front ++ segs)) :
    Loadable codec segs := by
  have hmem : ∀ seg ∈ segs, seg ∈ front ++ segs := fun seg hseg => by simp [hseg]
  refine ⟨(List.pairwise_append.mp h.increasing).2.1, ?_,
    fun seg hseg => h.ranged seg (hmem seg hseg), fun seg hseg => h.filed seg (hmem seg hseg),
    fun seg hseg => h.intact seg (hmem seg hseg)⟩
  intro seg hseg
  apply h.closed
  have hne : segs ≠ [] := by
    rintro rfl
    cases hseg
  rw [List.dropLast_append_of_ne_nil hne]
  simp [hseg]

private theorem reopened_empty (n : Int) :
    reopened codec cm ⟨some n, filesOf []⟩ = some ⟨n, n - 1, [], none, n⟩ := rfl

/-- Segments that end below the saved first index make no difference to a restart: closed
ones are passed over and the one in progress is discarded behind its load. -/
private theorem reopened_low {n : Int} {low kept : List Segment} (h : Loadable codec (low ++ kept))
    (hlow : ∀ seg ∈ low, seg.lastIndex < n) :
    reopened codec cm ⟨some n, filesOf (low ++ kept)⟩ =
      reopened codec cm ⟨some n, filesOf kept⟩ := by
  have hpass : ∀ closed : List Segment, (∀ seg ∈ closed, seg ∈ low ∧ seg.isOpen = false) →
      ∀ seg ∈ closed.map refile, seg.firstIndex ≤ seg.lastIndex ∧ seg.lastIndex < n := by
    intro closed hclosed seg' hmem
    obtain ⟨seg, hseg, rfl⟩ := List.mem_map.mp hmem
    obtain ⟨hseg, hopen⟩ := hclosed seg hseg
    rw [refile_first, refile_last hopen]
    exact ⟨h.ranged seg (by simp [hseg]) hopen, hlow seg hseg⟩
  rcases List.eq_nil_or_concat' kept with rfl | ⟨before, last, rfl⟩
  · -- Nothing is kept, so the one in progress may be among the others.
    rw [List.append_nil] at h ⊢
    obtain ⟨closed, newest, rfl, hclosed, hnewest⟩ := split_newest h.closed
    have hincreasing := (List.pairwise_append.mp h.increasing).1
    have hcheck : SegmentLogStorage.checkSegments n (-1) (closed.map refile) = some [] := by
      rw [← List.append_nil (closed.map refile), checkSegments_low (hpass closed fun seg hseg =>
        ⟨by simp [hseg], hclosed seg hseg⟩)]
      rfl
    rw [reopened, init_files n hclosed hnewest hincreasing, hcheck, reopened_empty]
    cases newest with
    | none => rfl
    | some o =>
      have ho : o ∈ closed ++ (some o).toList := by simp
      obtain ⟨cm', hload⟩ := load_intact (h.filed o ho) (h.intact o ho) cm
      have hlast : (reload o).lastIndex < n := hlow o ho
      simp [SegmentLogStorage.loadSegments, SegmentLogStorage.loadClosed,
        SegmentLogStorage.loadOpened, hload, hlast]
  · -- The one in progress is kept, so every other one is closed.
    have hlowClosed : ∀ seg ∈ low, seg.isOpen = false := by
      intro seg hseg
      apply h.closed
      rw [← List.append_assoc, List.dropLast_concat]
      simp [hseg]
    obtain ⟨closed, newest, hkept, hclosed, hnewest⟩ := split_newest h.drop.closed
    rw [hkept] at h ⊢
    have hboth : ∀ seg ∈ low ++ closed, seg.isOpen = false := by
      intro seg hseg
      rcases List.mem_append.mp hseg with hseg | hseg
      · exact hlowClosed seg hseg
      · exact hclosed seg hseg
    have hincreasing := h.increasing
    rw [← List.append_assoc] at hincreasing ⊢
    have hincreasing := (List.pairwise_append.mp hincreasing).1
    rw [reopened, reopened, init_files n hboth hnewest hincreasing,
      init_files n hclosed hnewest (List.pairwise_append.mp hincreasing).2.1, List.map_append,
      checkSegments_low (hpass low fun seg hseg => ⟨hseg, hlowClosed seg hseg⟩)]

end Listing

section Prefix

private theorem popped_low {k : Int} {seg : Segment} (h : seg ∈ popped s k) :
    seg.lastIndex < k := by
  unfold popped at h
  split at h
  · rename_i hall
    rcases List.mem_append.mp h with h | h
    · simpa using List.all_eq_true.mp hall seg h
    · simpa using (Option.mem_filter_iff.mp (Option.mem_toList.mp h)).2
  · simpa using List.mem_takeWhile_imp h

private theorem popped_live (s : SegmentLogStorage) {k : Int} (hk : s.firstLogIndex < k) :
    s.live = popped s k ++ (s.truncatePrefix k).live ∧ (s.truncatePrefix k).logMeta = k := by
  have hpop : s.truncatePrefix k = { s with logMeta := k }.popSegments k := by
    rw [SegmentLogStorage.truncatePrefix, if_neg (by omega)]
  rw [hpop, popped]
  split
  · rename_i hall
    have hnone : s.segments.dropWhile (fun seg => seg.lastIndex < k) = [] := by
      simpa [List.dropWhile_eq_nil_iff] using hall
    cases hopened : s.openedSegment with
    | none => simp [SegmentLogStorage.popSegments, SegmentLogStorage.live, hnone, hopened]
    | some o =>
      by_cases hgone : o.lastIndex < k
      · simp [SegmentLogStorage.popSegments, SegmentLogStorage.live, hnone, hopened, hgone,
          Option.filter_some]
      · simp [SegmentLogStorage.popSegments, SegmentLogStorage.live, hnone, hopened, hgone,
          Option.filter_some]
  · rename_i hsome
    have hne : s.segments.dropWhile (fun seg => seg.lastIndex < k) ≠ [] := by
      rw [ne_eq, List.dropWhile_eq_nil_iff]
      simpa [List.all_eq_true] using hsome
    have hparts : s.segments.takeWhile (fun seg => seg.lastIndex < k) ++
        s.segments.dropWhile (fun seg => seg.lastIndex < k) = s.segments :=
      List.takeWhile_append_dropWhile
    simp only [SegmentLogStorage.popSegments, hne, ne_eq, not_false_eq_true, if_true,
      SegmentLogStorage.live, and_true]
    rw [← List.append_assoc, hparts]

private theorem truncatePrefix_done (h : Inv codec s) (k : Int) :
    actAll s.directory (truncatePrefixActions s k) = (s.truncatePrefix k).directory := by
  unfold truncatePrefixActions
  split
  · rename_i hk
    rw [SegmentLogStorage.truncatePrefix, if_pos hk]
    rfl
  · obtain ⟨hlive, hmeta⟩ := popped_live s (show s.firstLogIndex < k by omega)
    have hincreasing := StorageRestart.increasing h.wellFormed
    rw [hlive] at hincreasing
    have hsaved : act s.directory (.saveMeta k) =
        ⟨some k, filesOf (popped s k ++ (s.truncatePrefix k).live)⟩ := by
      rw [← hlive]
      rfl
    rw [actAll_cons, hsaved, unlink_front hincreasing, SegmentLogStorage.directory, hmeta]
    rfl

private theorem tidy_truncatePrefix (htidy : Tidy s) (k : Int) : Tidy (s.truncatePrefix k) := by
  by_cases hk : k ≤ s.firstLogIndex
  · rw [SegmentLogStorage.truncatePrefix, if_pos hk]
    exact htidy
  · obtain ⟨hlive, -⟩ := popped_live s (show s.firstLogIndex < k by omega)
    refine ⟨fun seg hmem => htidy.closed seg ?_, fun seg hmem => htidy.intact seg ?_⟩
    · have hne : (s.truncatePrefix k).live ≠ [] := by
        intro hnil
        rw [hnil] at hmem
        cases hmem
      rw [hlive, List.dropLast_append_of_ne_nil hne]
      exact List.mem_append_right _ hmem
    · rw [hlive]
      exact List.mem_append_right _ hmem

theorem reopened_popped (h : Inv codec s) (htidy : Tidy s) {k : Int} {taken : List DiskAction}
    (htaken : taken <+: truncatePrefixActions s k) (hne : taken ≠ []) :
    reopened codec cm (actAll s.directory taken) =
      reopened codec cm (s.truncatePrefix k).directory := by
  unfold truncatePrefixActions at htaken
  split at htaken
  · exact absurd (List.prefix_nil.mp htaken) hne
  · obtain ⟨first, taken, rfl⟩ := List.exists_cons_of_ne_nil hne
    obtain ⟨rfl, htail⟩ := List.cons_prefix_cons.mp htaken
    obtain ⟨gone, left, hpopped, rfl⟩ := prefix_unlinkAll htail
    obtain ⟨hlive, hmeta⟩ := popped_live s (show s.firstLogIndex < k by omega)
    rw [hpopped, List.append_assoc] at hlive
    have hload := Loadable.of_tidy h htidy
    rw [hlive] at hload
    have hsaved : act s.directory (.saveMeta k) =
        ⟨some k, filesOf (gone ++ (left ++ (s.truncatePrefix k).live))⟩ := by
      rw [← hlive]
      rfl
    have hfinished : (s.truncatePrefix k).directory =
        ⟨some k, filesOf (s.truncatePrefix k).live⟩ := by
      rw [SegmentLogStorage.directory, hmeta]
      rfl
    rw [actAll_cons, hsaved, unlink_front hload.increasing, hfinished]
    refine reopened_low hload.drop fun seg hseg => popped_low (s := s) ?_
    rw [hpopped]
    exact List.mem_append_right _ hseg

end Prefix

section Reset

private theorem checkSegments_last {n acc : Int} {segs kept : List Segment} {seg : Segment}
    (hreach : n ≤ seg.lastIndex)
    (h : SegmentLogStorage.checkSegments n acc (segs ++ [seg]) = some kept) :
    ∃ before, kept = before ++ [seg] := by
  induction segs generalizing acc kept with
  | nil =>
    simp only [List.nil_append, SegmentLogStorage.checkSegments] at h
    split at h
    · cases h
    · split at h
      · cases h
      · split at h
        · cases h
        · rw [if_neg (by omega)] at h
          exact ⟨[], by simpa using h.symm⟩
  | cons head segs ih =>
    simp only [List.cons_append, SegmentLogStorage.checkSegments] at h
    split at h
    · cases h
    · split at h
      · cases h
      · split at h
        · cases h
        · split at h
          · exact ih h
          · obtain ⟨rest, hrest, rfl⟩ := Option.map_eq_some_iff.mp h
            obtain ⟨before, rfl⟩ := ih hrest
            exact ⟨head :: before, rfl⟩

private theorem loadClosed_last {segs out : List Segment} {seg : Segment}
    {cm cm' : ConfigurationManager}
    (h : SegmentLogStorage.loadClosed codec (segs ++ [seg]) cm = some (out, cm')) :
    ∃ before seg' cm1 cm2, out = before ++ [seg'] ∧ seg.load codec cm1 = some (seg', cm2) := by
  induction segs generalizing cm out with
  | nil =>
    simp only [List.nil_append, SegmentLogStorage.loadClosed, Option.bind_eq_bind,
      Option.bind_eq_some_iff] at h
    obtain ⟨⟨seg', cm2⟩, hload, ⟨rest, cm3⟩, hrest, heq⟩ := h
    cases hrest
    cases heq
    exact ⟨[], seg', cm, cm2, rfl, hload⟩
  | cons head segs ih =>
    simp only [List.cons_append, SegmentLogStorage.loadClosed, Option.bind_eq_bind,
      Option.bind_eq_some_iff] at h
    obtain ⟨⟨head', cm2⟩, -, ⟨rest, cm3⟩, hrest, heq⟩ := h
    cases heq
    obtain ⟨before, seg', cm4, cm5, rfl, hload⟩ := ih hrest
    exact ⟨head' :: before, seg', cm4, cm5, rfl, hload⟩

/-- A restart that succeeds ends where the last segment does, if that one reaches the
first index. -/
private theorem reopened_last {n : Int} {front : List Segment} {seg : Segment}
    (h : Loadable codec (front ++ [seg])) (hn : 1 ≤ n) (hreach : n ≤ seg.lastIndex)
    (hopen : reopened codec cm ⟨some n, filesOf (front ++ [seg])⟩ = some s') :
    s'.lastLogIndex = seg.lastIndex := by
  have hincreasing := h.increasing
  have hfront := h.closed
  rw [List.dropLast_concat] at hfront
  have hmem : seg ∈ front ++ [seg] := by simp
  obtain ⟨⟨s1, cm1⟩, hinit, rfl⟩ := Option.map_eq_some_iff.mp hopen
  cases hseg : seg.isOpen with
  | true =>
    have hnewest : ∀ other ∈ some seg, other.isOpen = true := by
      rintro other ⟨⟩
      exact hseg
    have hfiles : SegmentLogStorage.init codec ⟨some n, filesOf (front ++ [seg])⟩ cm = _ :=
      init_files n hfront hnewest (List.pairwise_append.mp hincreasing).1
    rw [hfiles, Option.bind_eq_some_iff] at hinit
    obtain ⟨segs, -, hload⟩ := hinit
    simp only [SegmentLogStorage.loadSegments, Option.bind_eq_bind, Option.bind_eq_some_iff,
      Option.map_some, SegmentLogStorage.loadOpened] at hload
    obtain ⟨⟨loaded, cm2⟩, -, ⟨s2, cm3⟩, ⟨⟨o, cm4⟩, ho, hs2⟩, hs1⟩ := hload
    obtain ⟨cm5, hintact⟩ := load_intact (h.filed seg hmem) (h.intact seg hmem) cm2
    cases hintact.symm.trans ho
    have hkept : ¬ (reload seg).lastIndex < n := by
      change ¬ seg.lastIndex < n
      omega
    rw [if_neg hkept] at hs2
    cases hs2
    have hlast : (reload seg).lastIndex ≠ 0 := by
      change seg.lastIndex ≠ 0
      omega
    rw [if_neg hlast] at hs1
    cases hs1
    rfl
  | false =>
    have hclosed : ∀ other ∈ front ++ [seg], other.isOpen = false := by
      intro other hother
      rcases List.mem_append.mp hother with hother | hother
      · exact hfront other hother
      · rw [List.mem_singleton.mp hother]
        exact hseg
    have hnone : ∀ other ∈ (none : Option Segment), other.isOpen = true := by simp
    have hfiles : SegmentLogStorage.init codec
        ⟨some n, filesOf (front ++ [seg] ++ (none : Option Segment).toList)⟩ cm = _ :=
      init_files n hclosed hnone hincreasing
    rw [Option.toList_none, List.append_nil] at hfiles
    rw [hfiles, Option.bind_eq_some_iff] at hinit
    obtain ⟨segs, hcheck, hload⟩ := hinit
    rw [List.map_append] at hcheck
    obtain ⟨before, rfl⟩ := checkSegments_last (by rw [refile_last hseg]; exact hreach) hcheck
    simp only [SegmentLogStorage.loadSegments, Option.bind_eq_bind, Option.bind_eq_some_iff,
      Option.map_none, SegmentLogStorage.loadOpened] at hload
    obtain ⟨⟨loaded, cm2⟩, hclosedLoad, ⟨s2, cm3⟩, hs2, hs1⟩ := hload
    obtain ⟨before', seg', cm4, cm5, rfl, hseg'⟩ := loadClosed_last hclosedLoad
    obtain ⟨cm6, hintact⟩ := load_intact (h.filed seg hmem) (h.intact seg hmem) cm4
    cases hintact.symm.trans hseg'
    cases hs2
    have hlast : (reload seg).lastIndex ≠ 0 := by
      change seg.lastIndex ≠ 0
      omega
    simp only [List.getLast?_concat, Option.map_some, Option.getD_some, hlast, if_false] at hs1
    cases hs1
    rfl

/-- A reset behind the save of the new first index comes up as the finished call does,
exactly if every file is gone or the old log ends below the new first index. -/
theorem reopened_reset (h : Inv codec s) (htidy : Tidy s) {n : Int} {taken : List DiskAction}
    (htaken : taken <+: resetActions s n) (hne : taken ≠ []) :
    reopened codec cm (actAll s.directory taken) = some (s.reset n) ↔
      taken = resetActions s n ∨ s.lastLogIndex < n := by
  unfold resetActions at htaken ⊢
  split at htaken
  · exact absurd (List.prefix_nil.mp htaken) hne
  · rename_i hn
    rw [if_neg hn, SegmentLogStorage.reset, if_neg hn]
    obtain ⟨first, taken, rfl⟩ := List.exists_cons_of_ne_nil hne
    obtain ⟨rfl, htail⟩ := List.cons_prefix_cons.mp htaken
    obtain ⟨gone, left, hlive, rfl⟩ := prefix_unlinkAll htail
    have hload := Loadable.of_tidy h htidy
    obtain ⟨a, -, hcovers⟩ := h.wellFormed.covers
    have hleft : actAll s.directory (.saveMeta n :: unlinkAll gone) =
        ⟨some n, filesOf left⟩ := by
      have hsaved : act s.directory (.saveMeta n) = ⟨some n, filesOf (gone ++ left)⟩ := by
        rw [← hlive]
        rfl
      rw [hlive] at hload
      rw [actAll_cons, hsaved, unlink_front hload.increasing]
    rw [hleft]
    constructor
    · intro hopen
      rcases List.eq_nil_or_concat' left with rfl | ⟨front, seg, rfl⟩
      · refine .inl ?_
        rw [hlive, List.append_nil]
      · refine .inr ?_
        by_contra hreach
        rw [hlive, ← List.append_assoc] at hcovers
        have hend : seg.lastIndex + 1 = s.lastLogIndex + 1 := (tiles_around.mp hcovers).2.2
        rw [hlive] at hload
        have hlast := reopened_last hload.drop (by omega) (by omega) hopen
        dsimp only at hlast
        omega
    · rintro (hall | hbelow)
      · have hnil : left = [] := by
          have hlength := congrArg List.length hall
          simp only [List.length_cons, unlinkAll, List.length_map, hlive,
            List.length_append] at hlength
          exact List.length_eq_zero_iff.mp (by omega)
        rw [hnil]
        exact reopened_empty n
      · rw [hlive] at hload hcovers
        have hlow : ∀ seg ∈ left, seg.lastIndex < n := by
          intro seg hseg
          have hbounds := hcovers.bounds (List.mem_append_right gone hseg)
          omega
        have hleft := hload.drop
        rw [← List.append_nil left] at hleft ⊢
        rw [reopened_low hleft hlow]
        exact reopened_empty n

end Reset

section Suffix

variable {k : Int} {seg : Segment}

private theorem poppedFromBack_opened {o : Segment} (hopened : s.openedSegment = some o)
    (ho : o.firstIndex ≤ k) : poppedFromBack s k = [] := by
  simp [poppedFromBack, hopened, ho]

private theorem poppedFromBack_older {kept : List Segment}
    (hopened : ∀ o ∈ s.openedSegment, k < o.firstIndex)
    (hkept : s.segments.rdropWhile (fun seg => k < seg.firstIndex) = kept) :
    ∃ others, s.segments = kept ++ others ∧
      poppedFromBack s k = (others ++ s.openedSegment.toList).reverse := by
  have hparts : s.segments.reverse.takeWhile (fun seg => k < seg.firstIndex) ++
      s.segments.reverse.dropWhile (fun seg => k < seg.firstIndex) = s.segments.reverse :=
    List.takeWhile_append_dropWhile
  refine ⟨(s.segments.reverse.takeWhile fun seg => k < seg.firstIndex).reverse, ?_, ?_⟩
  · rw [← hkept, List.rdropWhile, ← List.reverse_append, hparts, List.reverse_reverse]
  · have hnone : ¬ (s.openedSegment.any fun seg => seg.firstIndex ≤ k) = true := by
      cases hcase : s.openedSegment with
      | none => simp
      | some o =>
        have ho := hopened o hcase
        simp only [Option.any_some, decide_eq_true_eq]
        omega
    rw [poppedFromBack, if_neg hnone, List.reverse_append, List.reverse_reverse]
    cases s.openedSegment with
    | none => rfl
    | some o => rfl

private theorem suffixActions_all (hwf : WellFormed codec s) (hk : s.firstLogIndex = k + 1) :
    truncateSuffixActions s k = unlinkAll s.live.reverse := by
  obtain ⟨a, ha, hcovers⟩ := hwf.covers
  have hnone : ∀ (before : List Segment) (seg : Segment),
      Tiles Segment.firstIndex Segment.lastIndex a seg.firstIndex before →
      seg.firstIndex ≤ k → (∀ other ∈ before, other ∈ s.segments) → before = [] := by
    intro before seg htiles hseg hsub
    rw [List.eq_nil_iff_forall_not_mem]
    intro other hmem
    have hbounds := htiles.bounds hmem
    have hranged := (hwf.ranged other (hsub other hmem)).2
    omega
  by_cases hopened : ∃ o, s.openedSegment = some o ∧ o.firstIndex ≤ k
  · obtain ⟨o, ho, hfirst⟩ := hopened
    have hlive := (hwf.opened_live ho).1
    rw [hlive] at hcovers
    have hsegments := hnone s.segments o (tiles_around.mp hcovers).1 hfirst fun _ hmem => hmem
    have hlt : ¬ k + 1 ≤ k := by omega
    simp [truncateSuffixActions, popSegmentsFromBack_opened ho hfirst,
      poppedFromBack_opened ho hfirst, SegmentLogStorage.segmentAt, ho, hk, hlive, hsegments]
  · have hopened' : ∀ o ∈ s.openedSegment, k < o.firstIndex := by
      intro o ho
      by_contra hle
      exact hopened ⟨o, ho, by omega⟩
    rcases List.eq_nil_or_concat'
      (s.segments.rdropWhile fun seg => k < seg.firstIndex) with hkept | ⟨before, seg, hkept⟩
    · obtain ⟨others, hsegments, hpopped⟩ := poppedFromBack_older hopened' hkept
      simp [truncateSuffixActions, popSegmentsFromBack_older hopened' hkept, hpopped,
        SegmentLogStorage.live, hsegments]
    · have hseg : seg.firstIndex ≤ k := by
        have hlast := List.rdropWhile_last_not (fun seg : Segment => decide (k < seg.firstIndex))
          s.segments (by rw [hkept]; simp)
        simpa [hkept] using hlast
      obtain ⟨others, hsegments, hpopped⟩ := poppedFromBack_older hopened' hkept
      have hbefore : before = [] := by
        refine hnone before seg ?_ hseg ?_
        · rw [SegmentLogStorage.live, hsegments] at hcovers
          simp only [List.append_assoc, List.singleton_append] at hcovers
          exact (tiles_around.mp hcovers).1
        · intro other hmem
          rw [hsegments]
          simp [hmem]
      subst hbefore
      simp [truncateSuffixActions, popSegmentsFromBack_older hopened' hkept, hpopped,
        SegmentLogStorage.segmentAt, hk, SegmentLogStorage.live, hsegments]

/-- The segment of the kept index is truncated first, then the ones behind it are
unlinked, the newest one first. -/
private theorem suffixActions_some (hwf : WellFormed codec s) (hlow : s.firstLogIndex ≤ k)
    (hhigh : k ≤ s.lastLogIndex) :
    ∃ before seg behind, s.live = before ++ seg :: behind ∧ seg.firstIndex ≤ k ∧
      k ≤ seg.lastIndex ∧
      truncateSuffixActions s k = truncateActions seg k ++ unlinkAll behind.reverse := by
  obtain ⟨place, seg, before, behind, -, hseg, hlive, hfirst, hlast, hcase⟩ :=
    hwf.locate hlow hhigh
  refine ⟨before, seg, behind, hlive, hfirst, hlast, ?_⟩
  rcases hcase with ⟨rfl, rfl, hsegments⟩ | ⟨others, rfl, hsegments, rfl⟩
  · have hopened : s.openedSegment = some seg := hseg
    simp [truncateSuffixActions, popSegmentsFromBack_opened hopened hfirst,
      poppedFromBack_opened hopened hfirst, SegmentLogStorage.segmentAt, hopened, hlow]
  · obtain ⟨a, -, hcovers⟩ := hwf.covers
    rw [hlive] at hcovers
    obtain ⟨-, -, hbehind⟩ := tiles_around.mp hcovers
    have hopened : ∀ o ∈ s.openedSegment, k < o.firstIndex := by
      intro o ho
      have hbounds := hbehind.bounds (List.mem_append_right _ (Option.mem_toList.mpr ho))
      omega
    have hkept : s.segments.rdropWhile (fun seg => k < seg.firstIndex) = before ++ [seg] := by
      have htiles : Covers a (s.lastLogIndex + 1) (s.segments ++ s.openedSegment.toList) := by
        rw [hsegments, List.append_assoc, List.cons_append]
        exact hcovers
      obtain ⟨c, htiles, -⟩ := tiles_append.mp htiles
      rw [hsegments] at htiles ⊢
      exact Tiles.rdropWhile_first htiles hfirst hlast
    obtain ⟨others', hsegments', hpopped⟩ := poppedFromBack_older hopened hkept
    have hothers : others' = others := by
      rw [hsegments, List.append_assoc, List.singleton_append] at hsegments'
      have hcancel := List.append_cancel_left hsegments'
      exact (List.cons.inj hcancel).2.symm
    rw [hothers] at hpopped
    simp [truncateSuffixActions, popSegmentsFromBack_older hopened hkept, hpopped,
      SegmentLogStorage.segmentAt, hlow]

@[simp] theorem fileName_dropEntry (seg : Segment) (i : Int) :
    fileName (seg.dropEntry i) = fileName seg := by
  unfold Segment.dropEntry
  dsimp only
  split
  · rfl
  · rfl

private theorem dropActions_mem {n : Nat} {i : Int} {action : DiskAction}
    (h : action ∈ dropActions n i seg) : ∃ offset, action = .invalidate (fileName seg) offset := by
  induction n generalizing i seg with
  | zero => cases h
  | succ n ih =>
    simp only [dropActions] at h
    rcases List.mem_append.mp h with h | h
    · split at h
      · exact ⟨_, List.mem_singleton.mp h⟩
      · cases h
    · obtain ⟨offset, rfl⟩ := ih h
      exact ⟨offset, by rw [fileName_dropEntry]⟩

private theorem dropActions_first {n : Nat} {i j : Int} (hsound : Sound codec seg) (hlow : i ≤ j)
    (hhigh : j < i + n) (hterm : seg.getTerm j ≠ 0) :
    ∃ offset r rest, dropActions n i seg = .invalidate (fileName seg) offset :: rest ∧
      recordAt EntryRecord.size seg.file offset = some r := by
  induction n generalizing i with
  | zero => omega
  | succ n ih =>
    simp only [dropActions]
    by_cases hheld : (seg.offsetAndTermArray (i - seg.firstIndex)).2 ≠ 0
    · obtain ⟨r, hr, -⟩ := hsound.points _ hheld
      exact ⟨_, r, _, by rw [if_pos hheld]; rfl, hr⟩
    · have hne : j ≠ i := by
        rintro rfl
        rw [hsound.getTerm_eq] at hterm
        exact hheld hterm
      have hsame : seg.dropEntry i = seg := by
        rw [Segment.dropEntry, if_neg hheld]
      rw [if_neg hheld, List.nil_append, hsame]
      exact ih (by omega) (by omega)

private theorem truncateActions_first (hsound : Sound codec seg) (hfiled : Filed codec seg)
    (hintact : Intact seg.file) (hlow : seg.firstIndex ≤ k) (hcut : k < seg.lastIndex) :
    ∃ offset r rest, truncateActions seg k = .invalidate (fileName seg) offset :: rest ∧
      recordAt EntryRecord.size seg.file offset = some r := by
  have hheld := getTerm_last hsound hfiled hintact (by omega)
  obtain ⟨offset, r, rest, hdrop, hr⟩ := dropActions_first hsound (i := k + 1)
    (n := (seg.lastIndex - k).toNat) (by omega) (by omega) hheld
  exact ⟨offset, r, rest ++ if seg.isOpen then [] else
    [.rename (fileName seg) (.inprogress seg.firstIndex)],
    by rw [truncateActions, if_neg (by omega), hdrop, List.cons_append], hr⟩

end Suffix

section Spoiled

/-- A file with a truncated entry, under a name that a listing does not pass over. -/
structure Spoiled (first last : Int) (d : Directory) : Prop where
  saved : ∃ n, d.logMeta = some n ∧ n ≤ last
  distinct : (d.files.map fun f => firstIndexOf f.1).Nodup
  broken : ∃ f ∈ d.files, ¬ Intact f.2 ∧ (f.1 = .inprogress first ∨ f.1 = .closed first last)

/-- The segment stays where it is, but may be renamed to be in progress. -/
def Stays (first : Int) : DiskAction → Prop
  | .saveMeta _ => False
  | .unlink name => firstIndexOf name ≠ first
  | .invalidate _ _ => True
  | .rename name new => firstIndexOf name = first ∧ new = .inprogress first

private theorem mem_insertSegment {seg new : Segment} {segs : List Segment}
    (h : seg = new ∨ (seg ∈ segs ∧ seg.firstIndex ≠ new.firstIndex)) :
    seg ∈ SegmentLogStorage.insertSegment new segs := by
  induction segs with
  | nil =>
    rcases h with rfl | ⟨h, -⟩
    · simp [SegmentLogStorage.insertSegment]
    · cases h
  | cons head segs ih =>
    unfold SegmentLogStorage.insertSegment
    split
    · rcases h with rfl | ⟨h, -⟩
      · simp
      · exact List.mem_cons_of_mem _ h
    · split
      · rename_i heq
        rcases h with rfl | ⟨h, hne⟩
        · simp
        · rcases List.mem_cons.mp h with rfl | h
          · exact absurd heq.symm hne
          · exact List.mem_cons_of_mem _ h
      · rcases h with rfl | ⟨h, hne⟩
        · exact List.mem_cons_of_mem _ (ih (.inl rfl))
        · rcases List.mem_cons.mp h with rfl | h
          · simp
          · exact List.mem_cons_of_mem _ (ih (.inr ⟨h, hne⟩))

private theorem readFiles_keeps {r r' : SegmentLogStorage}
    {files : List (FileName × List EntryRecord)}
    (h : r.readFiles files = some r') :
    r'.firstLogIndex = r.firstLogIndex ∧
      (∀ o, r.openedSegment = some o → r'.openedSegment = some o) ∧
      ∀ seg ∈ r.segments, (∀ f ∈ files, firstIndexOf f.1 ≠ seg.firstIndex) → seg ∈ r'.segments := by
  induction files generalizing r with
  | nil =>
    cases h
    exact ⟨rfl, fun o ho => ho, fun seg hseg _ => hseg⟩
  | cons f files ih =>
    obtain ⟨name, file⟩ := f
    cases name with
    | closed first last =>
      obtain ⟨hfirst, hopened, hkeeps⟩ := ih h
      refine ⟨hfirst, hopened, fun seg hseg hother => hkeeps seg ?_ fun f hf =>
        hother f (List.mem_cons_of_mem _ hf)⟩
      have hne := hother (.closed first last, file) (by simp)
      exact mem_insertSegment (.inr ⟨hseg, Ne.symm hne⟩)
    | inprogress first =>
      simp only [SegmentLogStorage.readFiles] at h
      split at h
      · cases h
      · rename_i hnone
        obtain ⟨hfirst, -, hkeeps⟩ := ih h
        refine ⟨hfirst, fun o ho => ?_, fun seg hseg hother => hkeeps seg hseg fun f hf =>
          hother f (List.mem_cons_of_mem _ hf)⟩
        rw [ho] at hnone
        exact absurd rfl hnone

private theorem readFiles_mem {r r' : SegmentLogStorage}
    {files : List (FileName × List EntryRecord)}
    (h : r.readFiles files = some r') (hdistinct : (files.map fun f => firstIndexOf f.1).Nodup) :
    (∀ first last file, (.closed first last, file) ∈ files →
        closedFile first last file ∈ r'.segments) ∧
      ∀ first file, (.inprogress first, file) ∈ files →
        r'.openedSegment = some (openFile first file) := by
  induction files generalizing r with
  | nil =>
    refine ⟨fun _ _ _ hmem => ?_, fun _ _ hmem => ?_⟩
    · cases hmem
    · cases hmem
  | cons f files ih =>
    obtain ⟨name, file⟩ := f
    rw [List.map_cons, List.nodup_cons] at hdistinct
    obtain ⟨hnew, hdistinct⟩ := hdistinct
    have hothers : ∀ f ∈ files, firstIndexOf f.1 ≠ firstIndexOf name := fun f hf heq =>
      hnew (List.mem_map.mpr ⟨f, hf, heq⟩)
    cases name with
    | closed first last =>
      have hread : SegmentLogStorage.readFiles { r with
          segments := SegmentLogStorage.insertSegment (closedFile first last file) r.segments }
          files = some r' := h
      obtain ⟨hclosed, hopened⟩ := ih h hdistinct
      obtain ⟨-, -, hkeeps⟩ := readFiles_keeps hread
      refine ⟨fun first' last' file' hmem => ?_, fun first' file' hmem => ?_⟩
      · rcases List.mem_cons.mp hmem with heq | hmem
        · cases heq
          exact hkeeps _ (mem_insertSegment (.inl rfl)) hothers
        · exact hclosed first' last' file' hmem
      · rcases List.mem_cons.mp hmem with heq | hmem
        · cases heq
        · exact hopened first' file' hmem
    | inprogress first =>
      simp only [SegmentLogStorage.readFiles] at h
      split at h
      · cases h
      · obtain ⟨hclosed, hopened⟩ := ih h hdistinct
        obtain ⟨-, hkept, -⟩ := readFiles_keeps h
        refine ⟨fun first' last' file' hmem => ?_, fun first' file' hmem => ?_⟩
        · rcases List.mem_cons.mp hmem with heq | hmem
          · cases heq
          · exact hclosed first' last' file' hmem
        · rcases List.mem_cons.mp hmem with heq | hmem
          · cases heq
            exact hkept _ rfl
          · exact hopened first' file' hmem

private theorem checkSegments_mem {n acc : Int} {segs kept : List Segment} {seg : Segment}
    (h : SegmentLogStorage.checkSegments n acc segs = some kept) (hmem : seg ∈ segs)
    (hreach : n ≤ seg.lastIndex) : seg ∈ kept := by
  induction segs generalizing acc kept with
  | nil => cases hmem
  | cons head segs ih =>
    simp only [SegmentLogStorage.checkSegments] at h
    split at h
    · cases h
    · split at h
      · cases h
      · split at h
        · cases h
        · split at h
          · rename_i hlow
            rcases List.mem_cons.mp hmem with rfl | hmem
            · omega
            · exact ih h hmem
          · obtain ⟨rest, hrest, rfl⟩ := Option.map_eq_some_iff.mp h
            rcases List.mem_cons.mp hmem with rfl | hmem
            · simp
            · exact List.mem_cons_of_mem _ (ih hrest hmem)

private theorem loadClosed_broken {segs : List Segment} {seg : Segment} (cm : ConfigurationManager)
    (hmem : seg ∈ segs) (hbroken : ∀ cm, seg.load codec cm = none) :
    SegmentLogStorage.loadClosed codec segs cm = none := by
  induction segs generalizing cm with
  | nil => cases hmem
  | cons head segs ih =>
    rcases List.mem_cons.mp hmem with rfl | hmem
    · simp [SegmentLogStorage.loadClosed, hbroken]
    · cases hload : head.load codec cm with
      | none => simp [SegmentLogStorage.loadClosed, hload]
      | some loaded => simp [SegmentLogStorage.loadClosed, hload, ih loaded.2 hmem]

theorem Spoiled.reopened {first last : Int} (h : Spoiled first last d) :
    reopened codec cm d = none := by
  obtain ⟨⟨n, hsaved, hn⟩, hdistinct, ⟨name, file⟩, hmem, hbroken, hname⟩ := h
  have hload : ∀ seg : Segment, refile seg = seg → ¬ Intact seg.file →
      ∀ cm, seg.load codec cm = none := by
    intro seg hsame hseg cm
    rw [← hsame]
    exact load_truncated hseg cm
  rw [CrashedTruncation.reopened, Option.map_eq_none_iff, SegmentLogStorage.init, hsaved]
  simp only [SegmentLogStorage.listSegments, Option.bind_eq_bind]
  cases hread : SegmentLogStorage.readFiles ⟨n, 0, [], none, n⟩ d.files with
  | none => rfl
  | some r =>
    obtain ⟨hclosed, hopened⟩ := readFiles_mem hread hdistinct
    obtain ⟨hfirst, -, -⟩ := readFiles_keeps hread
    rw [Option.bind_some]
    cases hcheck : SegmentLogStorage.checkSegments r.firstLogIndex (-1) r.segments with
    | none => rfl
    | some kept =>
      simp only [Option.bind_some, SegmentLogStorage.loadSegments, Option.bind_eq_bind]
      rcases hname with rfl | rfl
      · cases hkept : SegmentLogStorage.loadClosed codec kept cm with
        | none => rfl
        | some loaded =>
          have hnone := hload (openFile first file) rfl hbroken loaded.2
          simp [SegmentLogStorage.loadOpened, hopened first file hmem, hnone]
      · have hreach : r.firstLogIndex ≤ last := hfirst ▸ hn
        have hkept := checkSegments_mem hcheck (hclosed first last file hmem) hreach
        rw [loadClosed_broken cm hkept (hload _ rfl hbroken)]
        rfl

theorem Spoiled.act {first last : Int} {action : DiskAction} (h : Spoiled first last d)
    (hstays : Stays first action) : Spoiled first last (act d action) := by
  obtain ⟨hsaved, hdistinct, ⟨name, file⟩, hmem, hbroken, hname⟩ := h
  have hfirst : firstIndexOf name = first := by
    rcases hname with rfl | rfl
    · rfl
    · rfl
  cases action with
  | saveMeta => cases hstays
  | unlink other =>
    refine ⟨hsaved, hdistinct.sublist (List.filter_sublist.map _), (name, file), ?_, hbroken, hname⟩
    refine List.mem_filter.mpr ⟨hmem, ?_⟩
    rw [decide_eq_true_eq]
    rintro rfl
    exact hstays hfirst
  | invalidate other offset =>
    refine ⟨hsaved, ?_, _, List.mem_map.mpr ⟨(name, file), hmem, rfl⟩, ?_, ?_⟩
    · rw [CrashedTruncation.act, List.map_map]
      convert hdistinct using 2
      funext f
      simp only [Function.comp_apply]
      split
      · rfl
      · rfl
    · dsimp only
      split
      · exact fun hintact => hbroken (intact_of_rewriteAt hintact)
      · exact hbroken
    · dsimp only
      split
      · exact hname
      · exact hname
  | rename other new =>
    obtain ⟨hother, rfl⟩ := hstays
    refine ⟨hsaved, ?_, _, List.mem_map.mpr ⟨(name, file), hmem, rfl⟩, ?_, ?_⟩
    · rw [CrashedTruncation.act, List.map_map]
      convert hdistinct using 2
      funext f
      simp only [Function.comp_apply]
      split
      · rename_i heq
        rw [heq, hother]
        rfl
      · rfl
    · dsimp only
      split
      · exact hbroken
      · exact hbroken
    · dsimp only
      split
      · exact .inl rfl
      · exact hname

theorem Spoiled.actAll {first last : Int} {actions : List DiskAction} (h : Spoiled first last d)
    (hstays : ∀ action ∈ actions, Stays first action) :
    Spoiled first last (actAll d actions) := by
  induction actions generalizing d with
  | nil => exact h
  | cons action actions ih =>
    exact ih (h.act (hstays action (by simp))) fun other hother => hstays other (by simp [hother])

private theorem spoiled_invalidate (h : Inv codec s) {seg : Segment} (hmem : seg ∈ s.live)
    (hreach : s.firstLogIndex ≤ seg.lastIndex) {offset : Nat} {r : EntryRecord}
    (hr : recordAt EntryRecord.size seg.file offset = some r) :
    Spoiled seg.firstIndex seg.lastIndex
      (act s.directory (.invalidate (fileName seg) offset)) := by
  refine ⟨⟨s.logMeta, rfl, by rw [h.logMeta]; exact hreach⟩, ?_,
    (fileName seg, rewriteAt EntryRecord.size EntryRecord.invalidate seg.file offset), ?_, ?_, ?_⟩
  · have hincreasing := StorageRestart.increasing h.wellFormed
    have hnodup : (s.live.map Segment.firstIndex).Nodup :=
      List.pairwise_map.mpr (hincreasing.imp fun hlt => hlt.ne)
    rw [CrashedTruncation.act, SegmentLogStorage.directory, List.map_map, List.map_map]
    convert hnodup using 2
    funext other
    simp only [Function.comp_apply]
    split
    · exact firstIndex_fileName other
    · exact firstIndex_fileName other
  · refine List.mem_map.mpr ⟨(fileName seg, seg.file), List.mem_map.mpr ⟨seg, hmem, rfl⟩, ?_⟩
    rw [if_pos rfl]
  · exact fun hintact => hintact r.invalidate (mem_rewriteAt hr) rfl
  · unfold fileName
    split
    · exact .inl rfl
    · exact .inr rfl

end Spoiled

section CutBack

variable {k : Int}

/-- The log ends at some index from the kept one on, and up to there it reads as before. -/
structure CutBack (codec : ConfigurationCodec) (s : SegmentLogStorage) (k : Int)
    (s' : SegmentLogStorage) : Prop where
  first : s'.firstLogIndex = s.firstLogIndex
  kept : k ≤ s'.lastLogIndex
  last : s'.lastLogIndex ≤ s.lastLogIndex
  getEntry : ∀ i ≤ s'.lastLogIndex, s'.getEntry codec i = s.getEntry codec i
  getTerm : ∀ i ≤ s'.lastLogIndex, s'.getTerm i = s.getTerm i

private theorem CutBack.of_sameView (hview : SameView codec s s') (hhigh : k ≤ s.lastLogIndex) :
    CutBack codec s k s' :=
  ⟨hview.first, by rw [hview.last]; exact hhigh, hview.last.le, fun i _ => hview.getEntry i,
    fun i _ => hview.getTerm i⟩

private theorem inv_front (h : Inv codec s) (htidy : Tidy s) {front back : List Segment}
    (hlive : s.live = front ++ back) (hback : back ≠ []) :
    ∃ t, t.directory = ⟨some s.logMeta, filesOf front⟩ ∧ Inv codec t ∧ Tidy t ∧
      (∀ seg ∈ front, seg.lastIndex ≤ t.lastLogIndex) ∧
      CutBack codec s (s.firstLogIndex - 1) t := by
  have hwf := h.wellFormed
  obtain ⟨a, ha, hcovers⟩ := hwf.covers
  rw [hlive] at hcovers
  obtain ⟨e, hfront, hbehind⟩ := tiles_append.mp hcovers
  have hmem : ∀ seg ∈ front, seg ∈ s.live := fun seg hseg => by rw [hlive]; simp [hseg]
  have hdrop : ∀ seg ∈ front, seg ∈ s.live.dropLast := fun seg hseg => by
    rw [hlive, List.dropLast_append_of_ne_nil hback]
    simp [hseg]
  have hsegments : ∀ seg ∈ front, seg ∈ s.segments := by
    intro seg hseg
    have hin := hdrop seg hseg
    rw [SegmentLogStorage.live] at hin
    cases hopened : s.openedSegment with
    | none =>
      rw [hopened, Option.toList_none, List.append_nil] at hin
      exact List.mem_of_mem_dropLast hin
    | some o =>
      rw [hopened, Option.toList_some, List.dropLast_concat] at hin
      exact hin
  have hclosed : ∀ seg ∈ front, seg.isOpen = false :=
    fun seg hseg => htidy.closed seg (hdrop seg hseg)
  have hend := hbehind.le
  -- Without a segment the log ends below its first index.
  obtain ⟨last, a', ha', hcover, hlow, hhigh, hbelow⟩ : ∃ last a', a' ≤ s.firstLogIndex ∧
      Covers a' (last + 1) front ∧ s.firstLogIndex ≤ last + 1 ∧ last ≤ s.lastLogIndex ∧
      (s.firstLogIndex ≤ last → last < e) := by
    rcases List.eq_nil_or_concat' front with rfl | ⟨before, seg, rfl⟩
    · have hfirst := hwf.first_le
      exact ⟨s.firstLogIndex - 1, s.firstLogIndex, le_rfl, by simp [Covers, Tiles], by omega,
        by omega, fun hle => by omega⟩
    · have hbounds := hfront.bounds (show seg ∈ before ++ [seg] by simp)
      have hranged := hwf.ranged seg (hsegments seg (by simp))
      refine ⟨e - 1, a, ha, ?_, by omega, by omega, fun _ => by omega⟩
      rw [sub_add_cancel]
      exact hfront
  have hinv : Inv codec ⟨s.firstLogIndex, last, front, none, s.logMeta⟩ := by
    have hfrontLive : SegmentLogStorage.live ⟨s.firstLogIndex, last, front, none, s.logMeta⟩ =
        front := by simp [SegmentLogStorage.live]
    refine ⟨⟨?_, ⟨a', ha', ?_⟩, hlow, fun seg hseg => hwf.ranged seg (hsegments seg hseg),
      by simp, by simp⟩, ?_, h.logMeta, h.first_pos⟩
    · rw [hfrontLive]
      exact fun seg hseg => hwf.sound seg (hmem seg hseg)
    · rw [hfrontLive]
      exact hcover
    · rw [hfrontLive]
      exact fun seg hseg => h.filed seg (hmem seg hseg)
  have hget : ∀ i ≤ last, SegmentLogStorage.getEntry codec
      ⟨s.firstLogIndex, last, front, none, s.logMeta⟩ i = s.getEntry codec i := by
    intro i hi
    rw [hinv.wellFormed.getEntry_eq, hwf.getEntry_eq]
    by_cases hfirst : s.firstLogIndex ≤ i
    · rw [if_pos ⟨hfirst, hi⟩, if_pos ⟨hfirst, by omega⟩]
      have hbehindNone : contents codec back i = none := by
        refine List.findSome?_eq_none_iff.mpr fun seg hseg => ?_
        have hbounds := hbehind.bounds hseg
        cases hentry : seg.get codec i with
        | none => rfl
        | some entry =>
          have hrange := (hwf.sound seg (by rw [hlive]; simp [hseg])).get_range hentry
          have hlast := hbelow (by omega)
          omega
      have hsplit : contents codec (front ++ back) i =
          (contents codec front i).or (contents codec back i) := List.findSome?_append
      rw [hlive, hsplit, hbehindNone, Option.or_none]
      simp [SegmentLogStorage.live]
    · rw [if_neg fun hrange => hfirst hrange.1, if_neg fun hrange => hfirst hrange.1]
  refine ⟨⟨s.firstLogIndex, last, front, none, s.logMeta⟩, ?_, hinv, ⟨?_, ?_⟩, ?_,
    ⟨rfl, by dsimp only; omega, hhigh, hget, ?_⟩⟩
  · simp [SegmentLogStorage.directory, SegmentLogStorage.live, filesOf]
  · intro seg hseg
    simp only [SegmentLogStorage.live, Option.toList_none, List.append_nil] at hseg
    exact hclosed seg (List.mem_of_mem_dropLast hseg)
  · intro seg hseg
    simp only [SegmentLogStorage.live, Option.toList_none, List.append_nil] at hseg
    exact htidy.intact seg (hmem seg hseg)
  · intro seg hseg
    have hbounds := hcover.bounds hseg
    dsimp only
    omega
  · intro i hi
    rw [hinv.wellFormed.getTerm_eq, hwf.getTerm_eq, hget i hi]

private theorem reopened_front (h : Inv codec s) (htidy : Tidy s) {front back : List Segment}
    (hlive : s.live = front ++ back)
    (hkept : k = s.firstLogIndex - 1 ∨ ∃ seg ∈ front, k ≤ seg.lastIndex)
    (hhigh : k ≤ s.lastLogIndex) :
    ∃ s', reopened codec cm ⟨some s.logMeta, filesOf front⟩ = some s' ∧ Inv codec s' ∧
      CutBack codec s k s' := by
  by_cases hback : back = []
  · rw [hback, List.append_nil] at hlive
    obtain ⟨s', cm', hinit, hinv', hview⟩ := init_tidy h htidy cm
    refine ⟨s', ?_, hinv', .of_sameView hview hhigh⟩
    have hdirectory : s.directory = ⟨some s.logMeta, filesOf front⟩ := by
      rw [← hlive]
      rfl
    rw [reopened, ← hdirectory, hinit]
    rfl
  · obtain ⟨t, hdirectory, hinv, htidy', hreach, hcut⟩ := inv_front h htidy hlive hback
    obtain ⟨s', cm', hinit, hinv', hview⟩ := init_tidy hinv htidy' cm
    have hk : k ≤ t.lastLogIndex := by
      have hlow := hcut.kept
      rcases hkept with rfl | ⟨seg, hseg, hle⟩
      · exact hlow
      · have hseg := hreach seg hseg
        omega
    refine ⟨s', ?_, hinv', hview.first.trans hcut.first, by rw [hview.last]; exact hk,
      by rw [hview.last]; exact hcut.last, fun i hi => ?_, fun i hi => ?_⟩
    · rw [reopened, ← hdirectory, hinit]
      rfl
    · rw [hview.getEntry]
      exact hcut.getEntry i (by rw [← hview.last]; exact hi)
    · rw [hview.getTerm]
      exact hcut.getTerm i (by rw [← hview.last]; exact hi)

def Invalidates : DiskAction → Bool
  | .invalidate _ _ => true
  | _ => false

private theorem not_invalidates_unlinkAll (segs : List Segment) :
    (unlinkAll segs).any Invalidates = false := by
  simp [unlinkAll, Invalidates]

private theorem reopened_unlinked (h : Inv codec s) (htidy : Tidy s) {front behind : List Segment}
    {taken : List DiskAction} (hlive : s.live = front ++ behind)
    (htaken : taken <+: unlinkAll behind.reverse)
    (hkept : k = s.firstLogIndex - 1 ∨ ∃ seg ∈ front, k ≤ seg.lastIndex)
    (hhigh : k ≤ s.lastLogIndex) :
    taken.any Invalidates = false ∧ ∃ s', reopened codec cm (actAll s.directory taken) = some s' ∧
      Inv codec s' ∧ CutBack codec s k s' := by
  obtain ⟨gone, left, hbehind, rfl⟩ := prefix_unlinkAll htaken
  refine ⟨not_invalidates_unlinkAll gone, ?_⟩
  have hsplit : behind = left.reverse ++ gone.reverse := by
    rw [← List.reverse_append, ← hbehind, List.reverse_reverse]
  rw [hsplit, ← List.append_assoc] at hlive
  have hincreasing := StorageRestart.increasing h.wellFormed
  rw [hlive] at hincreasing
  have hdone : actAll s.directory (unlinkAll gone) =
      ⟨some s.logMeta, filesOf (front ++ left.reverse)⟩ := by
    have hunlinked := unlink_back hincreasing (some s.logMeta)
    rw [List.reverse_reverse, ← hlive] at hunlinked
    exact hunlinked
  rw [hdone]
  refine reopened_front h htidy hlive ?_ hhigh
  rcases hkept with hall | ⟨seg, hseg, hle⟩
  · exact .inl hall
  · exact .inr ⟨seg, List.mem_append_left _ hseg, hle⟩

/-- Inside a suffix truncation a crash is harmless up to the first zeroed term, and from
there on no restart succeeds. -/
theorem reopened_suffix (h : Inv codec s) (htidy : Tidy s) (hlow : s.firstLogIndex - 1 ≤ k)
    (hhigh : k ≤ s.lastLogIndex) {taken : List DiskAction}
    (htaken : taken <+: truncateSuffixActions s k) :
    (taken.any Invalidates = true ∧ reopened codec cm (actAll s.directory taken) = none) ∨
      (taken.any Invalidates = false ∧ ∃ s',
        reopened codec cm (actAll s.directory taken) = some s' ∧ Inv codec s' ∧
          CutBack codec s k s') := by
  have hwf := h.wellFormed
  by_cases hall : s.firstLogIndex = k + 1
  · rw [suffixActions_all hwf hall] at htaken
    exact .inr (reopened_unlinked h htidy (List.nil_append _).symm htaken (.inl (by omega)) hhigh)
  · obtain ⟨before, seg, behind, hlive, hfirst, hreach, hactions⟩ :=
      suffixActions_some hwf (by omega) hhigh
    have hmem : seg ∈ s.live := by rw [hlive]; simp
    rw [hactions] at htaken
    by_cases hcut : k < seg.lastIndex
    · obtain ⟨offset, r, rest, htruncate, hr⟩ := truncateActions_first (hwf.sound seg hmem)
        (h.filed seg hmem) (htidy.intact seg hmem) hfirst hcut
      cases taken with
      | nil =>
        obtain ⟨s', cm', hinit, hinv', hview⟩ := init_tidy h htidy cm
        refine .inr ⟨rfl, s', ?_, hinv', .of_sameView hview hhigh⟩
        rw [actAll_nil, reopened, hinit]
        rfl
      | cons action taken =>
        have hstays : ∀ action ∈ truncateActions seg k ++ unlinkAll behind.reverse,
            Stays seg.firstIndex action := by
          have hincreasing := StorageRestart.increasing hwf
          rw [hlive] at hincreasing
          have hbehind := (List.pairwise_cons.mp (List.pairwise_append.mp hincreasing).2.1).1
          intro action haction
          rcases List.mem_append.mp haction with haction | haction
          · rw [truncateActions, if_neg (by omega)] at haction
            rcases List.mem_append.mp haction with haction | haction
            · obtain ⟨offset, rfl⟩ := dropActions_mem haction
              trivial
            · split at haction
              · cases haction
              · rw [List.mem_singleton.mp haction]
                exact ⟨firstIndex_fileName seg, rfl⟩
          · obtain ⟨other, hother, rfl⟩ := List.mem_map.mp haction
            have hlt := hbehind other (List.mem_reverse.mp hother)
            rw [Stays, firstIndex_fileName]
            exact hlt.ne'
        have hsub : ∀ other ∈ action :: taken, Stays seg.firstIndex other := fun other hother =>
          hstays other (htaken.subset hother)
        rw [htruncate, List.cons_append] at htaken
        obtain ⟨rfl, -⟩ := List.cons_prefix_cons.mp htaken
        refine .inl ⟨rfl, ?_⟩
        rw [actAll_cons]
        have hspoiled := spoiled_invalidate h hmem (by omega) hr
        exact (hspoiled.actAll fun other hother => hsub other (by simp [hother])).reopened
    · rw [truncateActions, if_pos (by omega), List.nil_append] at htaken
      rw [List.append_cons] at hlive
      exact .inr (reopened_unlinked h htidy hlive htaken (.inr ⟨seg, by simp, hreach⟩) hhigh)

end CutBack

section Done

variable {k : Int} {seg : Segment} {before behind : List Segment}

theorem map_filesOf (change : FileName × List EntryRecord → FileName × List EntryRecord)
    (hothers : ∀ other ∈ before ++ behind, fileName other ≠ fileName seg) :
    ((filesOf (before ++ seg :: behind)).map fun f =>
        if f.1 = fileName seg then change f else f) =
      filesOf before ++ change (fileName seg, seg.file) :: filesOf behind := by
  have hsame : ∀ segs : List Segment, (∀ other ∈ segs, fileName other ≠ fileName seg) →
      ((filesOf segs).map fun f => if f.1 = fileName seg then change f else f) = filesOf segs := by
    intro segs hsegs
    rw [filesOf, List.map_map]
    refine List.map_congr_left fun other hother => ?_
    exact if_neg (hsegs other hother)
  have hbefore := hsame before fun other hother => hothers other (by simp [hother])
  have hbehind := hsame behind fun other hother => hothers other (by simp [hother])
  simp only [filesOf, List.map_append, List.map_cons] at hbefore hbehind ⊢
  rw [hbefore, hbehind, if_true]

private theorem actAll_dropActions (n : Nat) (i : Int) (logMeta : Option Int)
    (hothers : ∀ other ∈ before ++ behind, fileName other ≠ fileName seg) :
    actAll ⟨logMeta, filesOf (before ++ seg :: behind)⟩ (dropActions n i seg) =
      ⟨logMeta, filesOf (before ++ Segment.dropEntries n i seg :: behind)⟩ := by
  induction n generalizing i seg with
  | zero => rfl
  | succ n ih =>
    have hnext : actAll ⟨logMeta, filesOf (before ++ seg.dropEntry i :: behind)⟩
        (dropActions n (i + 1) (seg.dropEntry i)) =
          ⟨logMeta, filesOf (before ++
            Segment.dropEntries n (i + 1) (seg.dropEntry i) :: behind)⟩ :=
      ih (i + 1) (by simpa using hothers)
    rw [dropActions, Segment.dropEntries, ← hnext, actAll_append]
    congr 1
    by_cases hheld : (seg.offsetAndTermArray (i - seg.firstIndex)).2 ≠ 0
    · rw [if_pos hheld, actAll_cons, actAll_nil, act]
      dsimp only
      rw [map_filesOf _ hothers]
      have hname := fileName_dropEntry seg i
      simp only [filesOf, List.map_append, List.map_cons, hname]
      rw [Segment.dropEntry, if_pos hheld]
    · rw [if_neg hheld, actAll_nil, Segment.dropEntry, if_neg hheld]

private theorem fileName_dropEntries (n : Nat) (i : Int) (seg : Segment) :
    fileName (Segment.dropEntries n i seg) = fileName seg := by
  induction n generalizing i seg with
  | zero => rfl
  | succ n ih => rw [Segment.dropEntries, ih, fileName_dropEntry]

private theorem actAll_truncateActions {seg' : Segment} (logMeta : Option Int)
    (hothers : ∀ other ∈ before ++ behind, other.firstIndex ≠ seg.firstIndex)
    (h : seg.truncate k = some seg') :
    actAll ⟨logMeta, filesOf (before ++ seg :: behind)⟩ (truncateActions seg k) =
      ⟨logMeta, filesOf (before ++ seg' :: behind)⟩ := by
  have hnames : ∀ other ∈ before ++ behind, fileName other ≠ fileName seg := by
    intro other hother hname
    have hfirst := congrArg firstIndexOf hname
    rw [firstIndex_fileName, firstIndex_fileName] at hfirst
    exact hothers other hother hfirst
  unfold Segment.truncate at h
  unfold truncateActions
  split at h
  · rename_i hend
    cases h
    rw [if_pos hend]
    rfl
  · rename_i hcut
    split at h
    · cases h
    · cases h
      rw [if_neg hcut, actAll_append, actAll_dropActions _ _ _ hnames]
      have hkeep := fileName_dropEntries (seg.lastIndex - k).toNat (k + 1) seg
      generalize Segment.dropEntries (seg.lastIndex - k).toNat (k + 1) seg = cut at hkeep ⊢
      have hfirst := congrArg firstIndexOf hkeep
      rw [firstIndex_fileName, firstIndex_fileName] at hfirst
      have hreopened : fileName { cut with isOpen := true, lastIndex := k } =
          .inprogress seg.firstIndex := by
        rw [fileName, if_pos rfl, hfirst]
      cases hopen : seg.isOpen with
      | true =>
        have hname : fileName seg = .inprogress seg.firstIndex := by rw [fileName, if_pos hopen]
        simp only [if_true, actAll_nil, filesOf, List.map_append, List.map_cons, hreopened, hkeep,
          hname]
      | false =>
        rw [← hkeep] at hnames
        simp only [Bool.false_eq_true, if_false, actAll_cons, actAll_nil, act]
        rw [← hkeep, map_filesOf _ hnames]
        simp only [filesOf, List.map_append, List.map_cons, hreopened]

private theorem truncateSuffix_done (h : Inv codec s) (hlow : s.firstLogIndex - 1 ≤ k)
    (hhigh : k ≤ s.lastLogIndex) (hstep : s.truncateSuffix k = some s') :
    actAll s.directory (truncateSuffixActions s k) = s'.directory := by
  have hwf := h.wellFormed
  have hincreasing := StorageRestart.increasing hwf
  by_cases hall : s.firstLogIndex = k + 1
  · rw [hwf.truncateSuffix_all hall] at hstep
    cases hstep
    rw [suffixActions_all hwf hall]
    rw [← List.nil_append s.live] at hincreasing
    exact unlink_back hincreasing (some s.logMeta)
  · obtain ⟨before, seg, behind, hlive, hfirst, hreach, hactions⟩ :=
      suffixActions_some hwf (by omega) hhigh
    obtain ⟨s'', before', seg', behind', cut, hs'', hlive', hfirst', hreach', hcut, hcutLive, -, -,
      hmeta, -⟩ := hwf.truncateSuffix_some (by omega) hhigh
    cases hs''.symm.trans hstep
    obtain ⟨a, -, hcovers⟩ := hwf.covers
    have hcovers' := hcovers
    rw [hlive] at hcovers
    rw [hlive'] at hcovers'
    -- One segment holds the kept index.
    have hsame : before' ++ [seg'] = before ++ [seg] := by
      rw [← Tiles.takeWhile_first hcovers hfirst hreach, ← hlive, hlive',
        Tiles.takeWhile_first hcovers' hfirst' hreach']
    obtain ⟨rfl, heq⟩ := List.append_inj' hsame rfl
    obtain rfl : seg' = seg := by simpa using heq
    rw [hlive] at hincreasing
    have hothers : ∀ other ∈ before' ++ behind, other.firstIndex ≠ seg'.firstIndex := by
      obtain ⟨-, hbehind, hacross⟩ := List.pairwise_append.mp hincreasing
      intro other hother
      rcases List.mem_append.mp hother with hother | hother
      · exact (hacross other hother seg' (by simp)).ne
      · exact ((List.pairwise_cons.mp hbehind).1 other hother).ne'
    have hbefore : s.directory = ⟨some s.logMeta, filesOf (before' ++ seg' :: behind)⟩ := by
      rw [← hlive]
      rfl
    have hcutFirst : cut.firstIndex = seg'.firstIndex :=
      (truncate_spec (hwf.sound seg' (by rw [hlive]; simp)) (by omega) hreach).elim
        fun cut' hcut' => by
          cases hcut'.1.symm.trans hcut
          exact hcut'.2.2.1
    have hincreasing' : ((before' ++ [cut]) ++ behind).Pairwise
        fun seg other => seg.firstIndex < other.firstIndex := by
      rw [List.append_assoc, List.singleton_append]
      rw [List.pairwise_append, List.pairwise_cons] at hincreasing ⊢
      simpa [hcutFirst] using hincreasing
    have hdone : s'.directory = ⟨some s.logMeta, filesOf (before' ++ [cut])⟩ := by
      rw [← hmeta, ← hcutLive]
      rfl
    rw [hactions, actAll_append, hbefore, actAll_truncateActions _ hothers hcut, List.append_cons,
      unlink_back hincreasing', hdone]

end Done

section Crash

variable (codec) (cm) (events : List Event) (s)

/-- A crash inside a prefix truncation is harmless: what comes up reads as the log did
before the call, or as it does behind it. -/
theorem prefix_crash_harmless (hinLog : Guarded (step codec) InLog .fresh events)
    (hrun : runEvents (step codec) .fresh events = some s) (htidy : Tidy s) (k : Int)
    (taken : List DiskAction) (htaken : taken <+: truncatePrefixActions s k) :
    ∃ s', reopened codec cm (actAll s.directory taken) = some s' ∧
      (SameView codec s s' ∨ SameView codec (s.truncatePrefix k) s') := by
  have hinv : Inv codec s := invariant_of_step inv_step inv_fresh hinLog hrun
  by_cases hne : taken = []
  · obtain ⟨s', cm', hinit, -, hview⟩ := init_tidy hinv htidy cm
    refine ⟨s', ?_, .inl hview⟩
    rw [hne, actAll_nil, reopened, hinit]
    rfl
  · obtain ⟨s', cm', hinit, -, hview⟩ := init_tidy (hinv.truncatePrefix k)
      (tidy_truncatePrefix htidy k) cm
    refine ⟨s', ?_, .inr hview⟩
    rw [reopened_popped hinv htidy htaken hne, reopened, hinit]
    rfl

/-- One entry fills a segment. -/
private def tightSegments : Flags := ⟨40, 100⟩

private def roomySegments : Flags := ⟨1000, 100⟩

private def threeSegments : List Event :=
  [.perform tightSegments (.append [sampleEntry 1 1, sampleEntry 2 1, sampleEntry 3 1])]

private def oneSegment : List Event :=
  [.perform roomySegments (.append [sampleEntry 1 1, sampleEntry 2 1])]

/-- The first of two segments is gone, the second one is still there. -/
theorem prefix_crash_harmless_midway :
    ∃ s s', runEvents (step .unary) .fresh threeSegments = some s ∧
      reopened .unary .new (actAll s.directory ((truncatePrefixActions s 3).take 2)) = some s' ∧
      (SameView .unary s s' ∨ SameView .unary (s.truncatePrefix 3) s') := by
  obtain ⟨s, hrun⟩ := Option.isSome_iff_exists.mp
    (show (runEvents (step .unary) .fresh threeSegments).isSome by decide +kernel)
  have htidy : ∀ s ∈ runEvents (step .unary) .fresh threeSegments, Tidy s := by decide +kernel
  obtain ⟨s', hopen, hview⟩ := prefix_crash_harmless .unary s .new threeSegments
    (by decide +kernel) hrun (htidy s hrun) 3 _ (List.take_prefix 2 _)
  exact ⟨s, s', hrun, hopen, hview⟩

/-- A crash behind the first step of a reset is harmless exactly if no file is left or the
old log ends below the new first index. Otherwise old entries are back, or nothing
comes up. -/
theorem reset_crash_harmless_iff (hinLog : Guarded (step codec) InLog .fresh events)
    (hrun : runEvents (step codec) .fresh events = some s) (htidy : Tidy s) (n : Int)
    (taken : List DiskAction) (htaken : taken <+: resetActions s n) (hne : taken ≠ []) :
    reopened codec cm (actAll s.directory taken) = some (s.reset n) ↔
      taken = resetActions s n ∨ s.lastLogIndex < n :=
  reopened_reset (invariant_of_step inv_step inv_fresh hinLog hrun) htidy htaken hne

/-- A reset to an index behind the log. -/
theorem reset_crash_harmless_ahead :
    ∃ s, runEvents (step .unary) .fresh threeSegments = some s ∧
      (reopened .unary .new (actAll s.directory ((resetActions s 8).take 1)) = some (s.reset 8) ↔
        (resetActions s 8).take 1 = resetActions s 8 ∨ s.lastLogIndex < 8) := by
  obtain ⟨s, hrun⟩ := Option.isSome_iff_exists.mp
    (show (runEvents (step .unary) .fresh threeSegments).isSome by decide +kernel)
  have htidy : ∀ s ∈ runEvents (step .unary) .fresh threeSegments, Tidy s := by decide +kernel
  exact ⟨s, hrun, reset_crash_harmless_iff .unary s .new threeSegments (by decide +kernel) hrun
    (htidy s hrun) 8 _ (List.take_prefix 1 _) (by simp [resetActions])⟩

/-- A crash inside a suffix truncation leaves a log that is cut back somewhere above the
kept index, as long as no term has been zeroed; behind the first zeroed term no restart
succeeds. -/
theorem suffix_crash_dichotomy (hinLog : Guarded (step codec) InLog .fresh events)
    (hrun : runEvents (step codec) .fresh events = some s) (htidy : Tidy s) (k : Int)
    (hlow : s.firstLogIndex - 1 ≤ k) (hhigh : k ≤ s.lastLogIndex)
    (taken : List DiskAction) (htaken : taken <+: truncateSuffixActions s k) :
    if taken.any Invalidates then reopened codec cm (actAll s.directory taken) = none
    else ∃ s', reopened codec cm (actAll s.directory taken) = some s' ∧
      CutBack codec s k s' := by
  have hinv : Inv codec s := invariant_of_step inv_step inv_fresh hinLog hrun
  rcases reopened_suffix hinv htidy hlow hhigh htaken with
    ⟨hany, hnone⟩ | ⟨hany, s', hopen, -, hcut⟩
  · rw [if_pos hany]
    exact hnone
  · rw [if_neg (by simp [hany])]
    exact ⟨s', hopen, hcut⟩

/-- The last of two entries is zeroed. -/
theorem suffix_crash_spoiled :
    ∃ s, runEvents (step .unary) .fresh oneSegment = some s ∧
      reopened .unary .new (actAll s.directory ((truncateSuffixActions s 1).take 1)) = none := by
  obtain ⟨s, hrun⟩ := Option.isSome_iff_exists.mp
    (show (runEvents (step .unary) .fresh oneSegment).isSome by decide +kernel)
  have hready : ∀ s ∈ runEvents (step .unary) .fresh oneSegment, Tidy s ∧
      s.firstLogIndex - 1 ≤ 1 ∧ 1 ≤ s.lastLogIndex ∧
      ((truncateSuffixActions s 1).take 1).any Invalidates = true := by decide +kernel
  obtain ⟨htidy, hlow, hhigh, hany⟩ := hready s hrun
  have hcase := suffix_crash_dichotomy .unary s .new oneSegment (by decide +kernel) hrun htidy 1
    hlow hhigh _ (List.take_prefix 1 _)
  rw [if_pos hany] at hcase
  exact ⟨s, hrun, hcase⟩

end Crash

end HitConsistency.Log.CrashedTruncation
