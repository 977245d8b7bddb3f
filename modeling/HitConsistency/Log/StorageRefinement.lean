/- GID: HitConsistency/Log/StorageRefinement
   digest: The segmented storage, over runs without restart, is a map from indexes to entries. -/

import HitConsistency.Base.GuardedRuns
import HitConsistency.Log.StorageContents

set_option autoImplicit false
set_option relaxedAutoImplicit false

namespace HitConsistency.Log.StorageRefinement

open HitConsistency.Base.GuardedRuns
open HitConsistency.Base.IntervalTiling
open HitConsistency.Log.Entry
open HitConsistency.Log.SegmentFile
open HitConsistency.Log.SegmentContents
open HitConsistency.Log.SegmentStorage
open HitConsistency.Log.StorageContents

/-- What the storage is for: the latest entry of each index between two bounds. -/
structure IndexedMap where
  first : Int
  last : Int
  entries : Int → Option LogEntry

namespace IndexedMap

def fresh : IndexedMap := ⟨1, 0, fun _ => none⟩

def get (m : IndexedMap) (i : Int) : Option LogEntry :=
  if m.first ≤ i ∧ i ≤ m.last then m.entries i else none

def appendOne (m : IndexedMap) (entry : LogEntry) : IndexedMap :=
  ⟨m.first, max m.last entry.id.index, Function.update m.entries entry.id.index (some entry)⟩

def truncatePrefix (m : IndexedMap) (k : Int) : IndexedMap :=
  if k ≤ m.first then m
  else ⟨k, max m.last (k - 1), fun i => if k ≤ i then m.entries i else none⟩

def truncateSuffix (m : IndexedMap) (k : Int) : IndexedMap :=
  ⟨m.first, k, fun i => if i ≤ k then m.entries i else none⟩

def reset (m : IndexedMap) (n : Int) : IndexedMap :=
  if n ≤ 0 then m else ⟨n, n - 1, fun _ => none⟩

end IndexedMap

inductive Operation
  | append (entries : List LogEntry)
  | truncatePrefix (firstIndexKept : Int)
  | truncateSuffix (lastIndexKept : Int)
  | reset (nextLogIndex : Int)

def IndexedMap.apply (m : IndexedMap) : Operation → IndexedMap
  | .append entries => entries.foldl IndexedMap.appendOne m
  | .truncatePrefix k => m.truncatePrefix k
  | .truncateSuffix k => m.truncateSuffix k
  | .reset n => m.reset n

/-- The storage behind an operation; an append that does not take its whole batch has
none. -/
def execute (flags : Flags) (codec : ConfigurationCodec) (s : SegmentLogStorage) :
    Operation → Option SegmentLogStorage
  | .append entries => do
      let (s, count) ← s.appendEntries flags codec entries
      if count = entries.length then some s else none
  | .truncatePrefix k => some (s.truncatePrefix k)
  | .truncateSuffix k => s.truncateSuffix k
  | .reset n => some (s.reset n)

/-- The segment that an append would take an index to. -/
def segmentOf (flags : Flags) (s : SegmentLogStorage) (index : Int) : Option Segment :=
  ((s.openSegment flags).1.route (s.openSegment flags).2 index).bind
    (s.openSegment flags).1.segmentAt

def Fits (flags : Flags) (s : SegmentLogStorage) (index : Int) : Prop :=
  ∀ seg ∈ segmentOf flags s index, index - seg.firstIndex < arraySize

/-- An entry that may be appended: of a known type, at an index of the log that is free. -/
structure Appendable (flags : Flags) (s : SegmentLogStorage) (m : IndexedMap) (entry : LogEntry) :
    Prop where
  storable : Storable entry
  term_pos : 1 ≤ entry.id.term
  first_le : m.first ≤ entry.id.index
  free : m.get entry.id.index = none
  fits : Fits flags s entry.id.index

def AppendableAll (flags : Flags) (codec : ConfigurationCodec) :
    SegmentLogStorage → IndexedMap → List LogEntry → Prop
  | _, _, [] => True
  | s, m, entry :: rest =>
      Appendable flags s m entry ∧ ∀ s', s.appendOne flags codec entry = some (s', true) →
        AppendableAll flags codec s' (m.appendOne entry) rest

/-- What a caller may ask of a storage that stands for a map. -/
def Allowed (flags : Flags) (codec : ConfigurationCodec) (p : SegmentLogStorage × IndexedMap) :
    Operation → Prop
  | .append entries => AppendableAll flags codec p.1 p.2 entries
  | .truncateSuffix k => p.2.first - 1 ≤ k ∧ k ≤ p.2.last
  | .truncatePrefix _ | .reset _ => True

section Decidable

variable (flags : Flags) (codec : ConfigurationCodec)

instance fitsDecidable (s : SegmentLogStorage) (index : Int) : Decidable (Fits flags s index) :=
  inferInstanceAs (Decidable (∀ seg ∈ segmentOf flags s index, _))

instance appendableDecidable (s : SegmentLogStorage) (m : IndexedMap) (entry : LogEntry) :
    Decidable (Appendable flags s m entry) :=
  decidable_of_iff (Storable entry ∧ 1 ≤ entry.id.term ∧ m.first ≤ entry.id.index ∧
      m.get entry.id.index = none ∧ Fits flags s entry.id.index)
    ⟨fun ⟨h1, h2, h3, h4, h5⟩ => ⟨h1, h2, h3, h4, h5⟩, fun ⟨h1, h2, h3, h4, h5⟩ =>
      ⟨h1, h2, h3, h4, h5⟩⟩

instance appendableAllDecidable :
    ∀ (s : SegmentLogStorage) (m : IndexedMap) (entries : List LogEntry),
      Decidable (AppendableAll flags codec s m entries)
  | _, _, [] => inferInstanceAs (Decidable True)
  | s, m, entry :: rest =>
      have tail : Decidable (∀ s', s.appendOne flags codec entry = some (s', true) →
          AppendableAll flags codec s' (m.appendOne entry) rest) :=
        match h : s.appendOne flags codec entry with
        | none => .isTrue (by simp)
        | some (_, false) => .isTrue (by simp)
        | some (s', true) =>
            match appendableAllDecidable s' (m.appendOne entry) rest with
            | .isTrue ht => .isTrue (by simpa using ht)
            | .isFalse ht => .isFalse (by simpa using ht)
      inferInstanceAs (Decidable (Appendable flags s m entry ∧ _))

instance allowedDecidable (p : SegmentLogStorage × IndexedMap) :
    ∀ op, Decidable (Allowed flags codec p op)
  | .append entries => inferInstanceAs (Decidable (AppendableAll flags codec p.1 p.2 entries))
  | .truncateSuffix _ => inferInstanceAs (Decidable (_ ∧ _))
  | .truncatePrefix _ | .reset _ => inferInstanceAs (Decidable True)

end Decidable

/-- Bounds, entries and terms read from the storage are those of the map. -/
structure Refines (codec : ConfigurationCodec) (s : SegmentLogStorage) (m : IndexedMap) :
    Prop where
  first : s.firstLogIndex = m.first
  last : s.lastLogIndex = m.last
  getEntry : ∀ i, s.getEntry codec i = some (m.get i)
  getTerm : ∀ i, s.getTerm i = some (((m.get i).map fun entry => entry.id.term).getD 0)

/-- The counter is right, and a closed segment has every index of its range. -/
structure Whole (seg : Segment) : Prop where
  counted : Counted seg
  full : seg.isOpen = false → ∀ i, seg.firstIndex ≤ i → i ≤ seg.lastIndex → seg.getTerm i ≠ 0

structure Inv (codec : ConfigurationCodec) (s : SegmentLogStorage) (m : IndexedMap) : Prop where
  wellFormed : WellFormed codec s
  whole : ∀ seg ∈ s.live, Whole seg
  first : s.firstLogIndex = m.first
  last : s.lastLogIndex = m.last
  held : ∀ i, m.first ≤ i → contents codec s.live i = m.entries i

variable {codec : ConfigurationCodec} {flags : Flags} {s s' : SegmentLogStorage} {m : IndexedMap}

theorem inv_fresh : Inv codec .fresh .fresh := by
  refine ⟨wellFormed_fresh, ?_, rfl, rfl, fun i _ => rfl⟩
  intro seg hmem
  simp [SegmentLogStorage.fresh, SegmentLogStorage.live] at hmem

theorem Inv.refines (h : Inv codec s m) : Refines codec s m := by
  have hget : ∀ i, s.getEntry codec i = some (m.get i) := by
    intro i
    rw [h.wellFormed.getEntry_eq, h.first, h.last, IndexedMap.get]
    split
    · rename_i hrange
      rw [h.held i hrange.1]
    · rfl
  refine ⟨h.first, h.last, hget, ?_⟩
  intro i
  rw [h.wellFormed.getTerm_eq, hget, Option.map_some]

section Append

private theorem whole_new (first : Int) : Whole (.new first) :=
  ⟨counted_new first, fun hclosed => by cases hclosed⟩

private theorem whole_openSegment (hwf : WellFormed codec s) (hwhole : ∀ seg ∈ s.live, Whole seg)
    {o : Segment} (hroom : s.openSegment flags = (s', o)) : ∀ seg ∈ s'.live, Whole seg := by
  refine (hwf.forall_openSegment whole_new ?_ ?_ hwhole hroom).1
  · rintro seg ⟨hcount, hfull⟩
    exact ⟨(sameContents_prepareToClose seg).counted rfl hcount, hfull⟩
  · rintro seg hdone ⟨hcount, -⟩
    refine ⟨(sameContents_close seg).counted rfl hcount, ?_⟩
    intro hclosed i hlow hhigh
    exact hcount.full hdone hlow hhigh

variable {entry : LogEntry}

theorem append_defined (hwf : WellFormed codec s) (hwhole : ∀ seg ∈ s.live, Whole seg)
    (hfirst : s.firstLogIndex ≤ entry.id.index)
    (hfree : contents codec s.live entry.id.index = none) (hstorable : Storable entry)
    (hfits : Fits flags s entry.id.index) :
    ∃ s', s.appendOne flags codec entry = some (s', true) := by
  cases hroom : s.openSegment flags with
  | mk s1 o =>
  obtain ⟨hwf1, hopened, hfirst1, -, hcontents⟩ := hwf.openSegment hroom
  have hwhole1 := whole_openSegment hwf hwhole hroom
  obtain ⟨hlive, hlast⟩ := hwf1.opened_live hopened
  have hofits : ∀ place seg, s1.route o entry.id.index = some place →
      s1.segmentAt place = some seg → entry.id.index - seg.firstIndex < arraySize := by
    intro place seg hplace hseg
    apply hfits seg
    simp [segmentOf, hroom, hplace, hseg]
  -- Whatever segment the entry is routed to is open and begins at or below the index.
  obtain ⟨place, seg, hplace, hseg, hlow, hopen⟩ : ∃ place seg,
      s1.route o entry.id.index = some place ∧ s1.segmentAt place = some seg ∧
        seg.firstIndex ≤ entry.id.index ∧ seg.isOpen = true := by
    by_cases hinside : entry.id.index ≤ s1.lastLogIndex
    · obtain ⟨place, seg, before, behind, hplace, hseg, hlive1, hlow, hhigh⟩ :=
        hwf1.route_inside hopened (by omega) hinside
      refine ⟨place, seg, hplace, hseg, hlow, ?_⟩
      by_contra hclosed
      have hmem : seg ∈ s1.live := by rw [hlive1]; simp
      have hterm := (hwhole1 seg hmem).full (by simpa using hclosed) _ hlow hhigh
      obtain ⟨a, -, hcovers⟩ := hwf1.covers
      have hsound := hwf1.sound
      rw [hlive1] at hcovers hsound
      rw [← hcontents, hlive1, contents_around hcovers hsound hlow hhigh] at hfree
      rcases (hwf1.sound seg hmem).get_cases entry.id.index with ⟨hnone, -⟩ | ⟨e, -, hsome, -⟩
      · exact hterm hnone
      · rw [hfree] at hsome
        cases hsome
    · have hrange := (hwf1.sound o (by rw [hlive]; simp)).range
      exact ⟨.opened, o, if_neg (by omega), hopened, by omega, (hwf1.opened o hopened).1⟩
  obtain ⟨data, hdata, -⟩ := hstorable.toEntry_dataOf codec
  obtain ⟨seg', happend⟩ := append_succeeds hopen hdata (by omega) (hofits place seg hplace hseg)
  refine ⟨{ s1.put seg' place with lastLogIndex := max s1.lastLogIndex entry.id.index }, ?_⟩
  simp [SegmentLogStorage.appendOne, hroom, hplace, hseg, happend]

theorem contents_written {before behind : List Segment} {seg seg' : Segment}
    (hwf : WellFormed codec s) (hwf' : WellFormed codec s')
    (hwritten : Written codec s s' entry before behind seg seg') (hstorable : Storable entry)
    (hterm : entry.id.term ≠ 0) (i : Int) :
    contents codec s'.live i =
      if i = entry.id.index then some entry else contents codec s.live i := by
  have hsound := hwf.sound seg (by rw [hwritten.live]; simp)
  have hget := get_append hsound hstorable hterm hwritten.append
  split
  · rename_i hi
    obtain ⟨-, data, -, hlow, -⟩ := append_cases hwritten.append
    obtain ⟨-, hfirst', hlast', -⟩ := sound_append hsound hwritten.append
    obtain ⟨a, -, hcovers⟩ := hwf'.covers
    have hsound' := hwf'.sound
    rw [hwritten.live'] at hcovers hsound' ⊢
    rw [contents_around hcovers hsound' (by omega) (by omega), hget, if_pos hi]
  · rename_i hi
    have hsame : seg'.get codec i = seg.get codec i := by rw [hget, if_neg hi]
    rw [hwritten.live, hwritten.live', contents, contents, lookup, lookup, List.findSome?_append,
      List.findSome?_append, List.findSome?_cons, List.findSome?_cons, hsame]

private theorem whole_append {seg seg' : Segment} (hsound : Sound codec seg) (hwhole : Whole seg)
    (hfree : seg.getTerm entry.id.index = 0) (hterm : entry.id.term ≠ 0)
    (happend : seg.append codec entry = some (seg', true)) : Whole seg' := by
  have hcount := counted_append hsound hwhole.counted hfree hterm happend
  refine ⟨hcount, ?_⟩
  intro hclosed i hlow hhigh
  obtain ⟨hopen, data, -, -, -, rfl | ⟨-, hfull, rfl⟩⟩ := append_cases happend
  · cases hopen.symm.trans hclosed
  · exact hcount.full hfull hlow hhigh

theorem Inv.appendOne (h : Inv codec s m) (happendable : Appendable flags s m entry) :
    ∃ s', s.appendOne flags codec entry = some (s', true) ∧ Inv codec s' (m.appendOne entry) := by
  have hwf := h.wellFormed
  have hfree : contents codec s.live entry.id.index = none := by
    have hget := happendable.free
    unfold IndexedMap.get at hget
    split at hget
    · rw [h.held _ happendable.first_le, hget]
    · rename_i hout
      have hfirst := happendable.first_le
      have hlast := h.last
      exact hwf.contents_above (by omega)
  have hterm : entry.id.term ≠ 0 := by
    have hpos := happendable.term_pos
    omega
  obtain ⟨s', hs'⟩ := append_defined hwf h.whole (by rw [h.first]; exact happendable.first_le)
    hfree happendable.storable happendable.fits
  obtain ⟨s1, o, before, behind, seg, seg', hroom, hwritten, hwf'⟩ := hwf.appendOne hs'
  obtain ⟨hwf1, -, hfirst1, hlast1, hcontents1⟩ := hwf.openSegment hroom
  have hwhole1 := whole_openSegment hwf h.whole hroom
  have hmem : seg ∈ s1.live := by rw [hwritten.live]; simp
  have hcontents := contents_written hwf1 hwf' hwritten happendable.storable hterm
  have hsegFree : seg.getTerm entry.id.index = 0 := by
    rcases (hwf1.sound seg hmem).get_cases entry.id.index with ⟨hnone, -⟩ | ⟨e, hne, hsome, -⟩
    · exact hnone
    · obtain ⟨hlow, hhigh⟩ := (hwf1.sound seg hmem).getTerm_range hne
      obtain ⟨a, -, hcovers⟩ := hwf1.covers
      have hsound := hwf1.sound
      rw [hwritten.live] at hcovers hsound
      rw [← hcontents1, hwritten.live, contents_around hcovers hsound hlow hhigh, hsome] at hfree
      cases hfree
  refine ⟨s', hs', hwf', ?_, ?_, ?_, ?_⟩
  · exact hwritten.forall hwhole1 fun hwhole =>
      whole_append (hwf1.sound seg hmem) hwhole hsegFree hterm hwritten.append
  · rw [hwritten.first, hfirst1, h.first]
    rfl
  · rw [hwritten.last, hlast1, h.last]
    rfl
  · intro i hi
    rw [hcontents, hcontents1, h.held i hi]
    simp only [IndexedMap.appendOne, Function.update_apply]

theorem Inv.appendEntries {entries : List LogEntry} (h : Inv codec s m)
    (happendable : AppendableAll flags codec s m entries) :
    ∃ s', s.appendEntries flags codec entries = some (s', entries.length) ∧
      Inv codec s' (entries.foldl IndexedMap.appendOne m) := by
  induction entries generalizing s m with
  | nil => exact ⟨s, rfl, h⟩
  | cons entry rest ih =>
    obtain ⟨hhead, hrest⟩ := happendable
    obtain ⟨s1, hs1, h1⟩ := h.appendOne hhead
    obtain ⟨s2, hs2, h2⟩ := ih h1 (hrest s1 hs1)
    exact ⟨s2, by simp [SegmentLogStorage.appendEntries, hs1, hs2], h2⟩

end Append

theorem Inv.truncatePrefix (h : Inv codec s m) (k : Int) :
    Inv codec (s.truncatePrefix k) (m.truncatePrefix k) := by
  obtain ⟨hwf', hfirst, hlast, hkeep, hcontents⟩ := h.wellFormed.truncatePrefix k
  have hwhole : ∀ seg ∈ (s.truncatePrefix k).live, Whole seg :=
    fun seg hmem => h.whole seg (hkeep seg hmem)
  have hfirstLe := h.wellFormed.first_le
  by_cases hk : k ≤ m.first
  · have hs : s.truncatePrefix k = s := by
      rw [SegmentLogStorage.truncatePrefix, if_pos (by rw [h.first]; exact hk)]
    rw [hs, IndexedMap.truncatePrefix, if_pos hk]
    exact h
  · rw [IndexedMap.truncatePrefix, if_neg hk]
    have hsfirst := h.first
    have hslast := h.last
    refine ⟨hwf', hwhole, ?_, ?_, ?_⟩
    · dsimp only
      omega
    · dsimp only
      omega
    · intro i hi
      dsimp only at hi ⊢
      rw [hcontents i hi, h.held i (by omega), if_pos hi]

theorem Inv.truncateSuffix {k : Int} (h : Inv codec s m) (hlow : m.first - 1 ≤ k)
    (hhigh : k ≤ m.last) :
    ∃ s', s.truncateSuffix k = some s' ∧ Inv codec s' (m.truncateSuffix k) := by
  have hwf := h.wellFormed
  obtain ⟨s', htruncate, hwf', hfirst, hlast, -, hfrom, hcontents⟩ :=
    hwf.truncateSuffix (show s.firstLogIndex - 1 ≤ k by rw [h.first]; exact hlow)
      (by rw [h.last]; exact hhigh)
  refine ⟨s', htruncate, hwf', ?_, hfirst.trans h.first, hlast, ?_⟩
  · intro seg' hmem
    obtain ⟨seg, hseg, rfl | ⟨hlt, hcut⟩⟩ := hfrom seg' hmem
    · exact h.whole seg' hseg
    · have hsound := hwf.sound seg hseg
      refine ⟨counted_truncate hsound (h.whole seg hseg).counted hlt hcut, ?_⟩
      intro hclosed
      rw [Segment.truncate, if_neg (by omega)] at hcut
      split at hcut
      · cases hcut
      · cases hcut
        cases hclosed
  · intro i hi
    simp only [IndexedMap.truncateSuffix] at hi ⊢
    by_cases hik : i ≤ k
    · rw [if_pos hik, hcontents i (by rw [h.first]; exact hi) hik, h.held i hi]
    · rw [if_neg hik]
      exact hwf'.contents_above (by omega)

theorem Inv.reset (h : Inv codec s m) (n : Int) : Inv codec (s.reset n) (m.reset n) := by
  unfold SegmentLogStorage.reset IndexedMap.reset
  split
  · exact h
  · refine ⟨wellFormed_empty codec n n, ?_, rfl, rfl, fun i _ => rfl⟩
    intro seg hmem
    cases hmem

def stepBoth (flags : Flags) (codec : ConfigurationCodec) (p : SegmentLogStorage × IndexedMap)
    (op : Operation) : Option (SegmentLogStorage × IndexedMap) :=
  (execute flags codec p.1 op).map fun s => (s, p.2.apply op)

private theorem runEvents_stepBoth (s : SegmentLogStorage) (m : IndexedMap) (ops : List Operation) :
    runEvents (stepBoth flags codec) (s, m) ops =
      (runEvents (execute flags codec) s ops).map fun s => (s, ops.foldl IndexedMap.apply m) := by
  induction ops generalizing s m with
  | nil => rfl
  | cons op ops ih =>
    simp only [runEvents, stepBoth]
    cases execute flags codec s op with
    | none => rfl
    | some s' => exact ih s' (m.apply op)

theorem inv_step (p : SegmentLogStorage × IndexedMap) (op : Operation)
    (h : Inv codec p.1 p.2) (hallowed : Allowed flags codec p op) :
    ∃ q, stepBoth flags codec p op = some q ∧ Inv codec q.1 q.2 := by
  obtain ⟨s, m⟩ := p
  have hstep : ∃ s', execute flags codec s op = some s' ∧ Inv codec s' (m.apply op) := by
    cases op with
    | append entries =>
      obtain ⟨s', hs', h'⟩ := h.appendEntries hallowed
      exact ⟨s', by simp [execute, hs'], h'⟩
    | truncatePrefix k => exact ⟨_, rfl, h.truncatePrefix k⟩
    | truncateSuffix k => exact h.truncateSuffix hallowed.1 hallowed.2
    | reset n => exact ⟨_, rfl, h.reset n⟩
  obtain ⟨s', hs', h'⟩ := hstep
  exact ⟨(s', m.apply op), by simp [stepBoth, hs'], h'⟩

/-- Every allowed run succeeds, and the storage ends up reading as the map does. -/
theorem storage_refines_map (flags : Flags) (codec : ConfigurationCodec) (ops : List Operation)
    (hallowed : Guarded (stepBoth flags codec) (Allowed flags codec) (.fresh, .fresh) ops) :
    ∃ s, runEvents (execute flags codec) .fresh ops = some s ∧
      Refines codec s (ops.foldl IndexedMap.apply .fresh) := by
  obtain ⟨⟨s, m⟩, hrun, hinv⟩ := @run_defined_of_step _ _ (stepBoth flags codec)
    (Allowed flags codec) (fun p => Inv codec p.1 p.2) inv_step _ _ inv_fresh hallowed
  rw [runEvents_stepBoth] at hrun
  obtain ⟨s', hs', heq⟩ := Option.map_eq_some_iff.mp hrun
  cases heq
  exact ⟨s, hs', hinv.refines⟩

/-- The first segment is full after one entry and waits for the two before it; the last
operations cut it open again. -/
private def sampleRun : List Operation :=
  [.append [sampleEntry 3 1, sampleEntry 1 1], .append [sampleEntry 2 1, sampleEntry 5 1],
    .truncateSuffix 2, .append [sampleEntry 3 1], .truncatePrefix 2]

theorem rotated_run_refines_map :
    ∃ s, runEvents (execute ⟨40, 100⟩ .unary) .fresh sampleRun = some s ∧
      Refines .unary s (sampleRun.foldl IndexedMap.apply .fresh) :=
  storage_refines_map ⟨40, 100⟩ .unary sampleRun (by decide +kernel)

end HitConsistency.Log.StorageRefinement
