/- GID: HitConsistency/Log/StoredAgain
   digest: When a storage takes entries again that it has stored already. -/

import HitConsistency.Base.GuardedRuns
import HitConsistency.Log.StorageRefinement

set_option autoImplicit false
set_option relaxedAutoImplicit false

/-!
A storage counts an entry that it takes again as if it were a new one. The counter of
a segment may so reach the length of its range too early, and a segment that waits
for its closing is closed. A closed segment takes nothing.
-/

namespace HitConsistency.Log.StoredAgain

open HitConsistency.Base.GuardedRuns
open HitConsistency.Base.IntervalTiling
open HitConsistency.Base.RecordFile
open HitConsistency.Log.Entry
open HitConsistency.Log.SegmentContents
open HitConsistency.Log.SegmentFile
open HitConsistency.Log.SegmentStorage
open HitConsistency.Log.StorageContents
open HitConsistency.Log.StorageRefinement

/-- One call of `append_entries`, under the limits of its time. -/
def step (codec : ConfigurationCodec) (s : SegmentLogStorage) (call : Flags × List LogEntry) :
    Option SegmentLogStorage :=
  (s.appendEntries call.1 codec call.2).map Prod.fst

/-- The call takes every entry, and every index reads as it did. -/
def Harmless (flags : Flags) (codec : ConfigurationCodec) (s : SegmentLogStorage)
    (entries : List LogEntry) : Prop :=
  ∃ s', s.appendEntries flags codec entries = some (s', entries.length) ∧
    ∀ i, s'.getEntry codec i = s.getEntry codec i ∧ s'.getTerm i = s.getTerm i

def writtenSize (codec : ConfigurationCodec) (entry : LogEntry) : Nat :=
  40 + ((dataOf codec entry).join.getD []).length

/-- How many indexes of the range the counter has not counted. -/
def missing (seg : Segment) : Int := seg.lastIndex - seg.firstIndex + 1 - seg.vaildEntriesCounter

def InRange (seg : Segment) (entry : LogEntry) : Prop :=
  seg.firstIndex ≤ entry.id.index ∧ entry.id.index ≤ seg.lastIndex

instance inRangeDecidable (seg : Segment) (entry : LogEntry) : Decidable (InRange seg entry) :=
  inferInstanceAs (Decidable (_ ∧ _))

/-- Whether a segment is closed once it has taken some of its entries again: it was, or
the counter reaches its range while the segment waits, or is about to. -/
def ClosedAfter (flags : Flags) (codec : ConfigurationCodec) (seg : Segment)
    (again : List LogEntry) : Prop :=
  seg.isOpen = false ∨
    (0 ≤ missing seg ∧ missing seg ≤ again.length) ∧
      (seg.pendingForClosing = true ∨
        OverLimit flags
          (seg.bytes + ((again.take (missing seg).toNat).map (writtenSize codec)).sum) seg)

instance closedAfterDecidable (flags : Flags) (codec : ConfigurationCodec) (seg : Segment)
    (again : List LogEntry) : Decidable (ClosedAfter flags codec seg again) :=
  inferInstanceAs (Decidable (_ ∨ (_ ∧ _) ∧ (_ ∨ _)))

/-- The segment of an entry is not closed, once the entries before it are taken. -/
def Takes (flags : Flags) (codec : ConfigurationCodec) (s : SegmentLogStorage)
    (done : List LogEntry) (entry : LogEntry) : Prop :=
  ∀ seg ∈ s.live, InRange seg entry →
    ¬ ClosedAfter flags codec seg (done.filter fun entry => InRange seg entry)

instance takesDecidable (flags : Flags) (codec : ConfigurationCodec) (s : SegmentLogStorage)
    (done : List LogEntry) (entry : LogEntry) : Decidable (Takes flags codec s done entry) :=
  inferInstanceAs (Decidable (∀ seg ∈ s.live, _ → ¬ _))

def TakesAll (flags : Flags) (codec : ConfigurationCodec) (s : SegmentLogStorage) :
    List LogEntry → List LogEntry → Prop
  | _, [] => True
  | done, entry :: rest =>
      Takes flags codec s done entry ∧ TakesAll flags codec s (done ++ [entry]) rest

instance takesAllDecidable (flags : Flags) (codec : ConfigurationCodec) (s : SegmentLogStorage) :
    ∀ done entries, Decidable (TakesAll flags codec s done entries)
  | _, [] => inferInstanceAs (Decidable True)
  | done, entry :: rest =>
      have := takesAllDecidable flags codec s (done ++ [entry]) rest
      inferInstanceAs (Decidable (_ ∧ _))

variable {codec : ConfigurationCodec} {flags : Flags} {s s' s1 : SegmentLogStorage}
  {seg seg' o : Segment} {entry : LogEntry} {done entries : List LogEntry}

section Invariant

/-- Every entry of a file is within the arrays, and of a type that is written. -/
structure KnownFile (seg : Segment) : Prop where
  fits : ∀ r ∈ seg.file, r.index - seg.firstIndex < arraySize
  known : ∀ r ∈ seg.file, r.type ≠ .unknown ∧ r.type ≠ .o3

/-- A segment that waits for its closing is not full. -/
def NotOverdue (seg : Segment) : Prop :=
  seg.isOpen = true → seg.pendingForClosing = true ∧ seg.isFullfilled = false

structure Regular (codec : ConfigurationCodec) (s : SegmentLogStorage) : Prop where
  wellFormed : WellFormed codec s
  files : ∀ seg ∈ s.live, KnownFile seg
  waiting : ∀ seg ∈ s.segments, NotOverdue seg

private theorem regular_fresh (codec : ConfigurationCodec) : Regular codec .fresh := by
  refine ⟨wellFormed_fresh, ?_, ?_⟩
  · intro seg hmem
    simp [SegmentLogStorage.fresh, SegmentLogStorage.live] at hmem
  · intro seg hmem
    cases hmem

private theorem knownFile_append (h : KnownFile seg)
    (happend : seg.append codec entry = some (seg', true)) : KnownFile seg' := by
  obtain ⟨-, data, hdata, -, hhigh, hcases⟩ := append_cases happend
  have htype : entry.type ≠ .unknown ∧ entry.type ≠ .o3 := by
    refine ⟨fun htype => ?_, fun htype => ?_⟩
    · rw [dataOf, htype] at hdata
      cases hdata
    · rw [dataOf, htype] at hdata
      cases hdata
  have hwrite : KnownFile
      (seg.write ⟨entry.id.term, entry.id.index, entry.dependency, entry.type, data⟩) := by
    refine ⟨fun r hr => ?_, fun r hr => ?_⟩
    · rcases List.mem_append.mp hr with hr | hr
      · exact h.fits r hr
      · cases List.mem_singleton.mp hr
        exact hhigh
    · rcases List.mem_append.mp hr with hr | hr
      · exact h.known r hr
      · cases List.mem_singleton.mp hr
        exact htype
  rcases hcases with rfl | ⟨-, -, rfl⟩
  · exact hwrite
  · exact ⟨hwrite.fits, hwrite.known⟩

theorem Regular.openSegment (h : Regular codec s) (hroom : s.openSegment flags = (s1, o)) :
    Regular codec s1 ∧ ¬ OverLimit flags o.bytes o := by
  obtain ⟨hwf1, -⟩ := h.wellFormed.openSegment hroom
  have hnew (first : Int) : KnownFile (.new first) :=
    ⟨by simp [Segment.new], by simp [Segment.new]⟩
  have hfiles := (h.wellFormed.forall_openSegment hnew (fun seg hseg => ⟨hseg.fits, hseg.known⟩)
    (fun seg _ hseg => ⟨hseg.fits, hseg.known⟩) h.files hroom).1
  rcases h.wellFormed.openSegment_cases flags with
    ⟨cur, hopen, hlimit, -⟩ | ⟨cur, prev, -, -, -, hprev, hopen⟩
  · cases hopen.symm.trans hroom
    exact ⟨⟨hwf1, hfiles, h.waiting⟩, hlimit⟩
  · cases hopen.symm.trans hroom
    refine ⟨⟨hwf1, hfiles, ?_⟩, by simp [OverLimit, Segment.new]⟩
    intro seg hmem
    rcases List.mem_append.mp hmem with hmem | hmem
    · exact h.waiting seg hmem
    · cases List.mem_singleton.mp hmem
      rcases hprev with ⟨hnot, rfl⟩ | ⟨-, rfl⟩
      · exact fun _ => ⟨rfl, hnot⟩
      · exact fun hopen => by cases hopen

private theorem notOverdue_append (h : NotOverdue seg)
    (happend : seg.append codec entry = some (seg', true)) : NotOverdue seg' := by
  obtain ⟨hopen, data, -, -, -, hcases⟩ := append_cases happend
  obtain ⟨hpending, -⟩ := h hopen
  intro hopen'
  have hfull : seg'.isFullfilled = false := by
    rw [Bool.eq_false_iff, Ne, ← isOpen_append hopen hpending happend, hopen']
    decide
  refine ⟨?_, hfull⟩
  rcases hcases with rfl | ⟨-, -, rfl⟩
  · exact hpending
  · cases hopen'

theorem Regular.appendOne {written : Bool} (h : Regular codec s)
    (happend : s.appendOne flags codec entry = some (s', written)) : Regular codec s' := by
  cases hroom : s.openSegment flags with
  | mk s1 o =>
  obtain ⟨h1, -⟩ := h.openSegment hroom
  have hrounds := happend
  unfold SegmentLogStorage.appendOne at hrounds
  rw [hroom] at hrounds
  obtain ⟨place, -, hrounds⟩ := Option.bind_eq_some_iff.mp hrounds
  obtain ⟨seg, hseg, hrounds⟩ := Option.bind_eq_some_iff.mp hrounds
  obtain ⟨⟨seg', written'⟩, htake, hrounds⟩ := Option.bind_eq_some_iff.mp hrounds
  cases written' with
  | false =>
    cases hrounds
    exact h1
  | true =>
    cases hrounds
    obtain ⟨s2, o2, before, behind, seg2, seg2', hroom2, hwritten, hwf'⟩ :=
      h.wellFormed.appendOne happend
    cases hroom.symm.trans hroom2
    refine ⟨hwf', hwritten.forall h1.files fun h => knownFile_append h hwritten.append, ?_⟩
    cases place with
    | opened => exact h1.waiting
    | older position =>
      intro other hmem
      rcases List.mem_or_eq_of_mem_set hmem with hmem | rfl
      · exact h1.waiting other hmem
      · exact notOverdue_append (h1.waiting seg (List.mem_of_getElem? hseg)) htake

theorem Regular.appendEntries {n : Nat} (h : Regular codec s)
    (happend : s.appendEntries flags codec entries = some (s', n)) : Regular codec s' := by
  induction entries generalizing s n with
  | nil =>
    cases happend
    exact h
  | cons entry rest ih =>
    rw [SegmentLogStorage.appendEntries] at happend
    obtain ⟨⟨next, written⟩, hround, happend⟩ := Option.bind_eq_some_iff.mp happend
    have hnext := h.appendOne hround
    cases written with
    | false =>
      cases happend
      exact hnext
    | true =>
      obtain ⟨⟨last, m⟩, hrest, heq⟩ := Option.map_eq_some_iff.mp happend
      cases heq
      exact ih hnext hrest

private theorem regular_run {calls : List (Flags × List LogEntry)}
    (hrun : runEvents (step codec) .fresh calls = some s) : Regular codec s := by
  refine invariant_of_every_step (fun t call t' ht hstep => ?_) (regular_fresh codec) hrun
  obtain ⟨⟨t'', n⟩, happend, rfl⟩ := Option.map_eq_some_iff.mp hstep
  exact ht.appendEntries happend

end Invariant

section Limits

private theorem inRange_congr (hfirst : seg'.firstIndex = seg.firstIndex)
    (hlast : seg'.lastIndex = seg.lastIndex) : InRange seg' = InRange seg := by
  ext entry
  rw [InRange, InRange, hfirst, hlast]

private theorem overLimit_mono {bytes more : Nat} (h : OverLimit flags bytes seg)
    (hle : bytes ≤ more) :
    OverLimit flags more seg := by
  rcases h with h | h
  · exact .inl (by omega)
  · exact .inr h

theorem isFullfilled_iff : seg.isFullfilled = true ↔ missing seg = 0 := by
  simp only [Segment.isFullfilled, missing, decide_eq_true_eq]

private theorem closedAfter_moved {again : List LogEntry} (hlimit : OverLimit flags seg.bytes seg)
    (hmoved : seg.isFullfilled = false ∧ seg' = seg.prepareToClose ∨
      seg.isFullfilled = true ∧ seg' = seg.close) :
    ClosedAfter flags codec seg' again ↔ ClosedAfter flags codec seg again := by
  have hlimit' : OverLimit flags
      (seg.bytes + ((again.take (missing seg).toNat).map (writtenSize codec)).sum) seg :=
    overLimit_mono hlimit (Nat.le_add_right _ _)
  rcases hmoved with ⟨-, rfl⟩ | ⟨hfull, rfl⟩
  · have hmissing : missing seg.prepareToClose = missing seg := rfl
    rw [ClosedAfter, ClosedAfter, hmissing]
    exact or_congr Iff.rfl (and_congr_right fun _ => iff_of_true (.inl rfl) (.inr hlimit'))
  · have hmissing := isFullfilled_iff.mp hfull
    refine iff_of_true (.inl rfl) (.inr ⟨?_, .inr hlimit'⟩)
    omega

private theorem closedAfter_write {again : List LogEntry} (hinside : InRange seg entry)
    (hwaiting : seg.pendingForClosing = true → seg.isFullfilled = false)
    (hroom : seg.pendingForClosing = false → ¬ OverLimit flags seg.bytes seg)
    (happend : seg.append codec entry = some (seg', true)) :
    ClosedAfter flags codec seg' again ↔ ClosedAfter flags codec seg (entry :: again) := by
  obtain ⟨hopen, data, hdata, -, -, hcases⟩ := append_cases happend
  have hsize : writtenSize codec entry = 40 + data.length := by
    rw [writtenSize, hdata, Option.join_some, Option.getD_some]
  have hmissing : missing (seg.write
      ⟨entry.id.term, entry.id.index, entry.dependency, entry.type, data⟩) = missing seg - 1 := by
    have hlast := hinside.2
    simp only [missing, Segment.write]
    omega
  have hlimit (bytes : Nat) : OverLimit flags bytes (seg.write
      ⟨entry.id.term, entry.id.index, entry.dependency, entry.type, data⟩) ↔
        OverLimit flags bytes seg := by
    have hlast := hinside.2
    simp only [OverLimit, Segment.write, max_eq_left hlast]
  cases hpending : seg.pendingForClosing with
  | true =>
    have hnot : missing seg ≠ 0 := by
      rw [Ne, ← isFullfilled_iff, hwaiting hpending]
      decide
    have hclosing := isOpen_append hopen hpending happend
    rcases hcases with rfl | ⟨-, hfull, rfl⟩
    · have hnot' : missing seg - 1 ≠ 0 := by
        rw [← hmissing, Ne, ← isFullfilled_iff, ← hclosing]
        simp [Segment.write, hopen]
      have hopen' : (seg.write ⟨entry.id.term, entry.id.index, entry.dependency, entry.type,
          data⟩).isOpen = true := hopen
      rw [ClosedAfter, ClosedAfter, hmissing, hopen, hopen', List.length_cons]
      refine or_congr Iff.rfl (and_congr ?_ (iff_of_true (.inl hpending) (.inl hpending)))
      omega
    · rw [isFullfilled_iff, hmissing] at hfull
      refine iff_of_true (.inl rfl) (.inr ⟨?_, .inl hpending⟩)
      simp only [List.length_cons]
      omega
  | false =>
    rcases hcases with rfl | ⟨hwait, -⟩
    · rw [ClosedAfter, ClosedAfter, hlimit, hmissing]
      by_cases hone : 1 ≤ missing seg
      · obtain ⟨n, hn⟩ : ∃ n : Nat, missing seg = n + 1 := ⟨(missing seg - 1).toNat, by omega⟩
        have hprev : (missing seg - 1).toNat = n := by omega
        have htake : (missing seg).toNat = n + 1 := by omega
        have hbytes : ∀ rest : Nat, seg.bytes + (40 + data.length) + rest =
            seg.bytes + (writtenSize codec entry + rest) := by
          intro rest
          omega
        rw [hprev, htake, List.take_succ_cons, List.map_cons, List.sum_cons, ← hbytes]
        refine or_congr Iff.rfl (and_congr ?_ Iff.rfl)
        simp only [List.length_cons]
        omega
      · refine iff_of_false ?_ ?_
        · rintro (hclosed | ⟨⟨hlow, -⟩, -⟩)
          · exact absurd (hopen.symm.trans hclosed) (by decide)
          · omega
        · rintro (hclosed | ⟨⟨hlow, -⟩, hwait | hover⟩)
          · exact absurd (hopen.symm.trans hclosed) (by decide)
          · exact absurd (hpending.symm.trans hwait) (by decide)
          · have hzero : (missing seg).toNat = 0 := by omega
            rw [hzero] at hover
            exact hroom hpending hover
    · cases hpending.symm.trans hwait

end Limits

section Round

private theorem not_inRange_new (first : Int) (entry : LogEntry) : ¬ InRange
    (.new first) entry := by
  rintro ⟨hlow, hhigh⟩
  simp only [Segment.new] at hlow hhigh
  omega

private theorem not_inRange_around {a e : Int} {before behind : List Segment}
    (hcovers : Covers a e (before ++ seg :: behind)) (hinside : InRange seg entry) :
    (∀ other ∈ before, ¬ InRange other entry) ∧ ∀ other ∈ behind, ¬ InRange other entry := by
  obtain ⟨hbefore, -, hbehind⟩ := tiles_around.mp hcovers
  obtain ⟨hlow, hhigh⟩ := hinside
  refine ⟨fun other hmem => ?_, fun other hmem => ?_⟩
  · have hbounds := hbefore.bounds hmem
    rintro ⟨-, hlast⟩
    omega
  · have hbounds := hbehind.bounds hmem
    rintro ⟨hfirst, -⟩
    omega

private theorem takes_openSegment (h : Regular codec s) (hroom : s.openSegment flags = (s1, o)) :
    Takes flags codec s done entry ↔ Takes flags codec s1 done entry := by
  rcases h.wellFormed.openSegment_cases flags with
    ⟨cur, hopen, -, hcur | ⟨hcur, rfl⟩⟩ | ⟨cur, prev, hcur, -, hlimit, hmoved, hopen⟩
  · cases hopen.symm.trans hroom
    have hsame : { s with openedSegment := some o } = s := by rw [← hcur]
    rw [hsame]
  · cases hopen.symm.trans hroom
    simp only [Takes, SegmentLogStorage.live, hcur, Option.toList_none, Option.toList_some,
      List.append_nil, List.forall_mem_append, List.forall_mem_singleton]
    exact (and_iff_left fun hin => absurd hin (not_inRange_new _ _)).symm
  · cases hopen.symm.trans hroom
    have hrange : InRange prev = InRange cur := by
      rcases hmoved with ⟨-, rfl⟩ | ⟨-, rfl⟩
      · rfl
      · rfl
    simp only [Takes, SegmentLogStorage.live, hcur, Option.toList_some, List.forall_mem_append,
      List.forall_mem_singleton, hrange, closedAfter_moved hlimit hmoved]
    exact (and_iff_left fun hin => absurd hin (not_inRange_new _ _)).symm

private theorem takes_written {before behind : List Segment} {next : LogEntry}
    (hwf : WellFormed codec s1)
    (hwritten : Written codec s1 s' entry before behind seg seg') (hinside : InRange seg entry)
    (hwaiting : seg.pendingForClosing = true → seg.isFullfilled = false)
    (hroom : seg.pendingForClosing = false → ¬ OverLimit flags seg.bytes seg) :
    Takes flags codec s1 (entry :: done) next ↔ Takes flags codec s' done next := by
  obtain ⟨a, -, hcovers⟩ := hwf.covers
  obtain ⟨-, hfirst, hlast, -⟩ :=
    sound_append (hwf.sound seg (by rw [hwritten.live]; simp)) hwritten.append
  rw [hwritten.live] at hcovers
  obtain ⟨hbefore, hbehind⟩ := not_inRange_around hcovers hinside
  have hrange : InRange seg' = InRange seg :=
    inRange_congr hfirst (hlast.trans (max_eq_left hinside.2))
  have hother {segs : List Segment} (hout : ∀ other ∈ segs, ¬ InRange other entry) :
      (∀ other ∈ segs, InRange other next → ¬ ClosedAfter flags codec other
        ((entry :: done).filter fun entry => InRange other entry)) ↔
      ∀ other ∈ segs, InRange other next → ¬ ClosedAfter flags codec other
        (done.filter fun entry => InRange other entry) := by
    refine forall₂_congr fun other hmem => ?_
    rw [List.filter_cons_of_neg (by simpa using hout other hmem)]
  rw [Takes, Takes, hwritten.live, hwritten.live']
  simp only [List.forall_mem_append, List.forall_mem_cons]
  refine and_congr (hother hbefore) (and_congr ?_ (hother hbehind))
  rw [List.filter_cons_of_pos (by simpa using hinside)]
  simp only [hrange, closedAfter_write hinside hwaiting hroom hwritten.append]

private theorem takesAll_written {rest : List LogEntry} (h : ∀ done next,
      Takes flags codec s (entry :: done) next ↔ Takes flags codec s' done next) :
    TakesAll flags codec s (entry :: done) rest ↔ TakesAll flags codec s' done rest := by
  induction rest generalizing done with
  | nil => exact Iff.rfl
  | cons next rest ih =>
    rw [TakesAll, TakesAll, h, List.cons_append, ih]

theorem Regular.ready (h : Regular codec s1) (hopened : s1.openedSegment = some o)
    (hlimit : ¬ OverLimit flags o.bytes o) (hmem : seg ∈ s1.live) (hopen : seg.isOpen = true) :
    (seg.pendingForClosing = true → seg.isFullfilled = false) ∧
      (seg.pendingForClosing = false → ¬ OverLimit flags seg.bytes seg) := by
  rw [(h.wellFormed.opened_live hopened).1] at hmem
  rcases List.mem_append.mp hmem with hmem | hmem
  · obtain ⟨hpending, hnot⟩ := h.waiting seg hmem hopen
    refine ⟨fun _ => hnot, fun hwait => ?_⟩
    cases hpending.symm.trans hwait
  · cases List.mem_singleton.mp hmem
    refine ⟨fun hpending => ?_, fun _ => hlimit⟩
    cases (h.wellFormed.opened seg hopened).2.symm.trans hpending

private theorem not_closedAfter_nil (hopen : seg.isOpen = true)
    (hwaiting : seg.pendingForClosing = true → seg.isFullfilled = false)
    (hroom : seg.pendingForClosing = false → ¬ OverLimit flags seg.bytes seg) :
    ¬ ClosedAfter flags codec seg [] := by
  rintro (hclosed | ⟨⟨hlow, hhigh⟩, hcase⟩)
  · cases hopen.symm.trans hclosed
  · have hzero : missing seg = 0 := by
      simp only [List.length_nil] at hhigh
      omega
    cases hpending : seg.pendingForClosing with
    | true => cases (hwaiting hpending).symm.trans (isFullfilled_iff.mpr hzero)
    | false =>
      rw [hzero, hpending] at hcase
      exact hroom hpending (hcase.resolve_left (by decide))

private theorem storable_of_get (hsound : Sound codec seg) (hknown : KnownFile seg) {i : Int}
    (hget : seg.get codec i = some entry) :
    Storable entry ∧ entry.id.index = i ∧ entry.id.term ≠ 0 ∧ i - seg.firstIndex < arraySize := by
  have hid : entry.id.index = i ∧ entry.id.term ≠ 0 := by
    rcases hsound.get_cases i with ⟨-, hnone⟩ | ⟨entry', hterm, hsome, hid⟩
    · cases hget.symm.trans hnone
    · cases hget.symm.trans hsome
      rw [hid]
      exact ⟨rfl, hterm⟩
  rw [Segment.get, hsound.getMeta_eq] at hget
  split at hget
  · rename_i hterm
    obtain ⟨r, hr, -, hindex, -⟩ := hsound.points _ hterm
    simp only [Option.bind_eq_bind, Option.bind_some, hr] at hget
    split at hget
    · cases hget
    · have hmem := mem_of_recordAt hr
      have hfits := hknown.fits r hmem
      refine ⟨?_, hid.1, hid.2, by omega⟩
      have htype := hknown.known r hmem
      simp only [EntryRecord.toEntry] at hget
      split at hget
      · rename_i hdata
        cases hget
        rw [Storable, hdata]
        exact ⟨rfl, rfl⟩
      · rename_i hconf
        obtain ⟨⟨peers, oldPeers⟩, hparse, rfl⟩ := Option.map_eq_some_iff.mp hget
        obtain ⟨⟨peers', old⟩, -, heq⟩ := Option.map_eq_some_iff.mp hparse
        cases heq
        rw [Storable, hconf]
        refine ⟨rfl, ?_, rfl⟩
        split
        · simp
        · rename_i hne
          simpa using hne
      · rename_i hnoOp
        cases hget
        rw [Storable, hnoOp]
        exact ⟨rfl, rfl, rfl⟩
      · rename_i hunknown
        exact absurd hunknown htype.1
      · rename_i ho3
        exact absurd ho3 htype.2
  · cases hget

theorem WellFormed.stored (hwf : WellFormed codec s) {i : Int}
    (hstored : s.getEntry codec i = some (some entry)) :
    (s.firstLogIndex ≤ i ∧ i ≤ s.lastLogIndex) ∧ contents codec s.live i = some entry := by
  rw [hwf.getEntry_eq] at hstored
  split at hstored
  · rename_i hrange
    exact ⟨hrange, Option.some.inj hstored⟩
  · cases hstored

private theorem reads_written {before behind : List Segment} (hwf : WellFormed codec s)
    (hroom : s.openSegment flags = (s1, o)) (hwf' : WellFormed codec s')
    (hwritten : Written codec s1 s' entry before behind seg seg') (hstorable : Storable entry)
    (hterm : entry.id.term ≠ 0)
    (hstored : s.getEntry codec entry.id.index = some (some entry)) (i : Int) :
    s'.getEntry codec i = s.getEntry codec i ∧ s'.getTerm i = s.getTerm i := by
  obtain ⟨hwf1, -, hfirst1, hlast1, hcontents1⟩ := hwf.openSegment hroom
  obtain ⟨hrange, hheld⟩ := WellFormed.stored hwf hstored
  have hlast : s'.lastLogIndex = s.lastLogIndex := by
    rw [hwritten.last, hlast1]
    exact max_eq_left hrange.2
  have hcontents : contents codec s'.live i = contents codec s.live i := by
    rw [contents_written hwf1 hwf' hwritten hstorable hterm, hcontents1]
    split
    · rename_i hi
      rw [hi, hheld]
    · rfl
  have hget : s'.getEntry codec i = s.getEntry codec i := by
    rw [hwf'.getEntry_eq, hwf.getEntry_eq, hwritten.first, hfirst1, hlast, hcontents]
  exact ⟨hget, by rw [hwf'.getTerm_eq, hwf.getTerm_eq, hget]⟩

/-- One entry again: either it is taken and nothing is read otherwise, or its segment is
closed and refuses it. -/
theorem Regular.again (h : Regular codec s) (flags : Flags)
    (hstored : s.getEntry codec entry.id.index = some (some entry)) :
    (∃ s', s.appendOne flags codec entry = some (s', true) ∧ Regular codec s' ∧
        (∀ i, s'.getEntry codec i = s.getEntry codec i ∧ s'.getTerm i = s.getTerm i) ∧
        Takes flags codec s [] entry ∧
        ∀ done next,
          Takes flags codec s (entry :: done) next ↔ Takes flags codec s' done next) ∨
      (∃ s', s.appendOne flags codec entry = some (s', false)) ∧
        ¬ Takes flags codec s [] entry := by
  have hwf := h.wellFormed
  cases hroom : s.openSegment flags with
  | mk s1 o =>
  obtain ⟨h1, hlimit⟩ := h.openSegment hroom
  obtain ⟨hwf1, hopened, hfirst1, hlast1, hcontents1⟩ := hwf.openSegment hroom
  obtain ⟨hrange, hheld⟩ := WellFormed.stored hwf hstored
  obtain ⟨place, seg, before, behind, hplace, hseg, hlive, hlow, hhigh⟩ :=
    hwf1.route_inside hopened (by omega) (by omega : entry.id.index ≤ s1.lastLogIndex)
  have hmem : seg ∈ s1.live := by rw [hlive]; simp
  obtain ⟨a, -, hcovers⟩ := hwf1.covers
  have hsound := hwf1.sound
  rw [hlive] at hcovers hsound
  rw [← hcontents1, hlive, contents_around hcovers hsound hlow hhigh] at hheld
  obtain ⟨hstorable, -, hterm, hfits⟩ :=
    storable_of_get (hwf1.sound seg hmem) (h1.files seg hmem) hheld
  cases hopen : seg.isOpen with
  | false =>
    refine .inr ⟨⟨s1, ?_⟩, fun htakes => ?_⟩
    · simp [SegmentLogStorage.appendOne, hroom, hplace, hseg, Segment.append, hopen]
    · rw [takes_openSegment h hroom] at htakes
      exact htakes seg hmem ⟨hlow, hhigh⟩ (.inl hopen)
  | true =>
    obtain ⟨hwaiting, hwithin⟩ := h1.ready hopened hlimit hmem hopen
    obtain ⟨data, hdata, -⟩ := hstorable.toEntry_dataOf codec
    obtain ⟨seg', happend⟩ := append_succeeds hopen hdata (by omega) hfits
    have hround : s.appendOne flags codec entry = some ({ s1.put seg' place with
        lastLogIndex := max s1.lastLogIndex entry.id.index }, true) := by
      simp [SegmentLogStorage.appendOne, hroom, hplace, hseg, happend]
    obtain ⟨s2, o2, before2, behind2, seg2, seg2', hroom2, hwritten, hwf'⟩ := hwf.appendOne hround
    cases hroom.symm.trans hroom2
    have htakes : Takes flags codec s [] entry := by
      rw [takes_openSegment h hroom, Takes, hlive]
      obtain ⟨hbefore, hbehind⟩ := not_inRange_around hcovers ⟨hlow, hhigh⟩
      simp only [List.forall_mem_append, List.forall_mem_cons]
      exact ⟨fun other hother hin => absurd hin (hbefore other hother),
        fun _ => not_closedAfter_nil hopen hwaiting hwithin,
        fun other hother hin => absurd hin (hbehind other hother)⟩
    refine .inl ⟨_, hround, h.appendOne hround,
      reads_written hwf hroom hwf' hwritten hstorable hterm hstored, htakes, fun done next => ?_⟩
    obtain ⟨hopen2, data2, -, hlow2, -⟩ := append_cases hwritten.append
    have hmem2 : seg2 ∈ s1.live := by rw [hwritten.live]; simp
    have hinside : InRange seg2 entry := by
      refine ⟨by omega, ?_⟩
      rcases hwritten.inside with ⟨-, hlast2⟩ | hlast2
      · have hend := (hwf1.opened_live hlast2).2
        omega
      · exact hlast2
    obtain ⟨hwaiting2, hwithin2⟩ := h1.ready hopened hlimit hmem2 hopen2
    rw [takes_openSegment h hroom]
    exact takes_written hwf1 hwritten hinside hwaiting2 hwithin2

end Round

private theorem Regular.harmless_iff (h : Regular codec s) (flags : Flags)
    (hstored : ∀ entry ∈ entries, s.getEntry codec entry.id.index = some (some entry)) :
    Harmless flags codec s entries ↔ TakesAll flags codec s [] entries := by
  induction entries generalizing s with
  | nil => exact iff_of_true ⟨s, rfl, fun _ => ⟨rfl, rfl⟩⟩ trivial
  | cons entry rest ih =>
    rw [TakesAll, List.nil_append]
    rcases h.again flags (hstored entry (by simp)) with
      ⟨s1, hround, h1, hreads, htakes, hmove⟩ | ⟨⟨s1, hround⟩, hnot⟩
    · have hstored1 : ∀ e ∈ rest, s1.getEntry codec e.id.index = some (some e) := by
        intro e he
        rw [(hreads _).1]
        exact hstored e (by simp [he])
      rw [takesAll_written hmove, ← ih h1 hstored1, and_iff_right htakes]
      constructor
      · rintro ⟨s', happend, hsame⟩
        simp only [SegmentLogStorage.appendEntries, hround, Option.bind_eq_bind, Option.bind_some,
          if_true, List.length_cons] at happend
        obtain ⟨⟨last, n⟩, hrest, heq⟩ := Option.map_eq_some_iff.mp happend
        cases heq
        refine ⟨last, hrest, fun i => ?_⟩
        exact ⟨(hsame i).1.trans (hreads i).1.symm, (hsame i).2.trans (hreads i).2.symm⟩
      · rintro ⟨s', hrest, hsame⟩
        refine ⟨s', ?_, fun i => ?_⟩
        · simp [SegmentLogStorage.appendEntries, hround, hrest]
        · exact ⟨(hsame i).1.trans (hreads i).1, (hsame i).2.trans (hreads i).2⟩
    · refine iff_of_false ?_ fun hall => hnot hall.1
      rintro ⟨s', happend, -⟩
      simp [SegmentLogStorage.appendEntries, hround] at happend

/-- Stored entries are taken again exactly if the segment of each is open when its turn
comes. -/
theorem harmless_iff_takesAll (codec : ConfigurationCodec) (calls : List (Flags × List LogEntry))
    {s : SegmentLogStorage} (hrun : runEvents (step codec) .fresh calls = some s) (flags : Flags)
    {entries : List LogEntry}
    (hstored : ∀ entry ∈ entries, s.getEntry codec entry.id.index = some (some entry)) :
    Harmless flags codec s entries ↔ TakesAll flags codec s [] entries :=
  (regular_run hrun).harmless_iff flags hstored

section Samples

private def noOpEntry (index : Int) : LogEntry := ⟨.noOp, ⟨index, 1⟩, 0, none, none, []⟩

/-- A limit of one byte leaves one segment behind with the first entry. -/
private def reached (entries : List LogEntry) : SegmentLogStorage :=
  (runEvents (step .unary) .fresh [(⟨1, 100⟩, entries)]).getD .fresh

/-- The first segment waits for the indexes 1 and 2, and takes index 3 in their place. -/
theorem waiting_takes_twice :
    Harmless ⟨1, 100⟩ .unary (reached [noOpEntry 3, noOpEntry 4]) [noOpEntry 3, noOpEntry 3] ↔
      TakesAll ⟨1, 100⟩ .unary (reached [noOpEntry 3, noOpEntry 4]) []
        [noOpEntry 3, noOpEntry 3] :=
  harmless_iff_takesAll .unary [(⟨1, 100⟩, [noOpEntry 3, noOpEntry 4])] rfl ⟨1, 100⟩
    (by decide +kernel)

/-- It is closed by then, and refuses the index once more. -/
example : ¬ TakesAll ⟨1, 100⟩ .unary (reached [noOpEntry 3, noOpEntry 4]) []
    [noOpEntry 3, noOpEntry 3, noOpEntry 3] := by
  decide +kernel

/-- A segment that is full when the next one is opened is closed, and refuses its entry. -/
theorem closed_refuses_again :
    runEvents (step .unary) .fresh [(⟨1, 100⟩, [noOpEntry 1, noOpEntry 2])] =
        some (reached [noOpEntry 1, noOpEntry 2]) ∧
      (reached [noOpEntry 1, noOpEntry 2]).getEntry .unary 1 = some (some (noOpEntry 1)) ∧
      ¬ Harmless ⟨1, 100⟩ .unary (reached [noOpEntry 1, noOpEntry 2]) [noOpEntry 1] := by
  refine ⟨rfl, by decide +kernel, ?_⟩
  rintro ⟨s', happend, -⟩
  have hcount : ((reached [noOpEntry 1, noOpEntry 2]).appendEntries ⟨1, 100⟩ .unary
      [noOpEntry 1]).map Prod.snd = some 0 := by decide +kernel
  rw [happend] at hcount
  cases hcount

end Samples

end HitConsistency.Log.StoredAgain
