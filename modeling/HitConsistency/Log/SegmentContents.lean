/- GID: HitConsistency/Log/SegmentContents
   digest: What a segment holds: one specification for each of append, close, truncate and load. -/

import HitConsistency.Log.SegmentFile
import Mathlib.Data.Finset.Card
import Mathlib.Data.Finset.Image
import Mathlib.Data.Finset.Range

set_option autoImplicit false
set_option relaxedAutoImplicit false

namespace HitConsistency.Log.SegmentContents

open HitConsistency.Base.RecordFile
open HitConsistency.Log.Entry
open HitConsistency.Log.MemoryLog
open HitConsistency.Log.SegmentFile

variable {codec : ConfigurationCodec} {seg seg' : Segment}

/-- Every term in the index array belongs to an index of the range and stands with the
entry that the file has at its offset. -/
structure Sound (codec : ConfigurationCodec) (seg : Segment) : Prop where
  range : seg.firstIndex ≤ seg.lastIndex + 1
  inside : ∀ k, (seg.offsetAndTermArray k).2 ≠ 0 → 0 ≤ k ∧ seg.firstIndex + k ≤ seg.lastIndex
  points : ∀ k, (seg.offsetAndTermArray k).2 ≠ 0 → ∃ r,
    recordAt EntryRecord.size seg.file (seg.offsetAndTermArray k).1.toNat = some r ∧
      r.term = (seg.offsetAndTermArray k).2 ∧ r.index = seg.firstIndex + k ∧
      (r.toEntry codec r.index).isSome
  bytes_eq : seg.bytes = fileSize EntryRecord.size seg.file

/-- What reads depend on: the range, the array and the file. -/
structure SameContents (seg seg' : Segment) : Prop where
  first : seg'.firstIndex = seg.firstIndex
  last : seg'.lastIndex = seg.lastIndex
  array : seg'.offsetAndTermArray = seg.offsetAndTermArray
  file : seg'.file = seg.file
  bytes : seg'.bytes = seg.bytes

theorem SameContents.sound (h : SameContents seg seg') (hsound : Sound codec seg) :
    Sound codec seg' := by
  constructor
  · rw [h.first, h.last]
    exact hsound.range
  · rw [h.first, h.last, h.array]
    exact hsound.inside
  · rw [h.first, h.array, h.file]
    exact hsound.points
  · rw [h.file, h.bytes]
    exact hsound.bytes_eq

theorem SameContents.getMeta (h : SameContents seg seg') : seg'.getMeta = seg.getMeta := by
  funext i
  simp only [Segment.getMeta, h.first, h.last, h.array]

theorem SameContents.getTerm (h : SameContents seg seg') : seg'.getTerm = seg.getTerm := by
  funext i
  simp only [Segment.getTerm, h.getMeta]

theorem SameContents.get (h : SameContents seg seg') : seg'.get codec = seg.get codec := by
  funext i
  simp only [Segment.get, h.getMeta, h.file]

theorem sound_new (codec : ConfigurationCodec) (first : Int) : Sound codec (.new first) := by
  refine ⟨by simp [Segment.new], ?_, ?_, rfl⟩
  · intro k hk
    exact absurd rfl hk
  · intro k hk
    exact absurd rfl hk

theorem get_new (first i : Int) : (Segment.new first).get codec i = none := by
  simp [Segment.get, Segment.getMeta, Segment.new]

section Sound

variable (hsound : Sound codec seg)
include hsound

theorem Sound.getMeta_eq (i : Int) :
    seg.getMeta i =
      if (seg.offsetAndTermArray (i - seg.firstIndex)).2 ≠ 0 then
        some (seg.offsetAndTermArray (i - seg.firstIndex))
      else none := by
  unfold Segment.getMeta
  by_cases hterm : (seg.offsetAndTermArray (i - seg.firstIndex)).2 ≠ 0
  · have hrange := hsound.inside _ hterm
    rw [if_neg (by omega)]
  · simp [hterm]

theorem Sound.getTerm_eq (i : Int) :
    seg.getTerm i = (seg.offsetAndTermArray (i - seg.firstIndex)).2 := by
  rw [Segment.getTerm, hsound.getMeta_eq]
  split
  · rfl
  · rename_i hterm
    simpa using (not_not.mp hterm).symm

theorem Sound.getTerm_range {i : Int} (hterm : seg.getTerm i ≠ 0) :
    seg.firstIndex ≤ i ∧ i ≤ seg.lastIndex := by
  rw [hsound.getTerm_eq] at hterm
  have hrange := hsound.inside _ hterm
  omega

theorem Sound.get_cases (i : Int) :
    (seg.getTerm i = 0 ∧ seg.get codec i = none) ∨
      ∃ entry, seg.getTerm i ≠ 0 ∧ seg.get codec i = some entry ∧
        entry.id = ⟨i, seg.getTerm i⟩ := by
  rw [hsound.getTerm_eq, Segment.get, hsound.getMeta_eq]
  by_cases hterm : (seg.offsetAndTermArray (i - seg.firstIndex)).2 = 0
  · exact .inl ⟨hterm, by simp [hterm]⟩
  · obtain ⟨r, hr, hrterm, hrindex, hentry⟩ := hsound.points _ hterm
    obtain ⟨entry, hentry⟩ := Option.isSome_iff_exists.mp hentry
    have hi : r.index = i := by omega
    rw [hi] at hentry
    refine .inr ⟨entry, hterm, ?_, ?_⟩
    · simp [hterm, hr, hrterm, hentry]
    · rw [← hrterm]
      simp only [EntryRecord.toEntry] at hentry
      split at hentry
      · cases hentry
        rfl
      · obtain ⟨peers, -, rfl⟩ := Option.map_eq_some_iff.mp hentry
        rfl
      all_goals
        cases hentry
        rfl

theorem Sound.getTerm_of_get (i : Int) :
    seg.getTerm i = ((seg.get codec i).map fun entry => entry.id.term).getD 0 := by
  rcases hsound.get_cases i with ⟨hterm, hget⟩ | ⟨entry, -, hget, hid⟩
  · rw [hget, hterm]
    rfl
  · rw [hget, Option.map_some, Option.getD_some, hid]

theorem Sound.get_range {i : Int} {entry : LogEntry} (hget : seg.get codec i = some entry) :
    seg.firstIndex ≤ i ∧ i ≤ seg.lastIndex := by
  rcases hsound.get_cases i with ⟨-, hnone⟩ | ⟨-, hterm, -, -⟩
  · rw [hnone] at hget
    cases hget
  · exact hsound.getTerm_range hterm

end Sound

section Append

variable {entry : LogEntry} {data : List UInt8}

private theorem toEntry_isSome (hdata : dataOf codec entry = some (some data)) :
    (EntryRecord.toEntry codec ⟨entry.id.term, entry.id.index, entry.dependency, entry.type, data⟩
      entry.id.index).isSome := by
  obtain ⟨type, id, dependency, peers, oldPeers, bytes⟩ := entry
  cases type with
  | unknown => cases hdata
  | o3 => cases hdata
  | noOp => rfl
  | data => rfl
  | configuration =>
    obtain ⟨peers, -, rfl⟩ := dataOf_configuration codec rfl hdata
    simp [EntryRecord.toEntry, parseConfigurationMeta, codec.parse_serialize]

variable {r : EntryRecord}

private theorem sound_write (hsound : Sound codec seg) (hk : 0 ≤ r.index - seg.firstIndex)
    (hr : (r.toEntry codec r.index).isSome) : Sound codec (seg.write r) := by
  have hrange := hsound.range
  constructor
  · simp only [Segment.write]
    omega
  · intro k hterm
    simp only [Segment.write, Function.update_apply] at hterm ⊢
    split at hterm
    · omega
    · have hin := hsound.inside k hterm
      omega
  · intro k hterm
    simp only [Segment.write, Function.update_apply] at hterm ⊢
    rw [recordAt_push EntryRecord.size_pos]
    by_cases hsame : k = r.index - seg.firstIndex
    · refine ⟨r, ?_, ?_, by omega, hr⟩
      · simp [hsame, hsound.bytes_eq]
      · simp [hsame]
    · simp only [if_neg hsame] at hterm ⊢
      obtain ⟨r', hr', hfacts⟩ := hsound.points k hterm
      have hlt := recordAt_lt EntryRecord.size_pos hr'
      exact ⟨r', by rw [if_neg (by omega), hr'], hfacts⟩
  · simp [Segment.write, fileSize_push, hsound.bytes_eq]

private theorem getTerm_write (hsound : Sound codec seg) (hk : 0 ≤ r.index - seg.firstIndex)
    (hr : (r.toEntry codec r.index).isSome) (i : Int) :
    (seg.write r).getTerm i = if i = r.index then r.term else seg.getTerm i := by
  rw [(sound_write hsound hk hr).getTerm_eq, hsound.getTerm_eq]
  simp only [Segment.write, Function.update_apply]
  by_cases hi : i = r.index
  · simp [hi]
  · rw [if_neg (by omega), if_neg hi]

private theorem get_write (hsound : Sound codec seg) (hk : 0 ≤ r.index - seg.firstIndex)
    (hr : (r.toEntry codec r.index).isSome) (hterm : r.term ≠ 0) (i : Int) :
    (seg.write r).get codec i =
      if i = r.index then r.toEntry codec r.index else seg.get codec i := by
  rw [Segment.get, Segment.get, (sound_write hsound hk hr).getMeta_eq, hsound.getMeta_eq]
  simp only [Segment.write, Function.update_apply]
  by_cases hi : i = r.index
  · simp [hi, hterm, recordAt_push EntryRecord.size_pos, hsound.bytes_eq]
  · have hk : ¬ i - seg.firstIndex = r.index - seg.firstIndex := by omega
    simp only [if_neg hi, if_neg hk]
    by_cases hold : (seg.offsetAndTermArray (i - seg.firstIndex)).2 = 0
    · simp [hold]
    · obtain ⟨r', hr', -⟩ := hsound.points _ hold
      have hlt := recordAt_lt EntryRecord.size_pos hr'
      have hne : (seg.offsetAndTermArray (i - seg.firstIndex)).1.toNat ≠
          fileSize EntryRecord.size seg.file := by omega
      simp [hold, recordAt_push EntryRecord.size_pos, hne]

theorem append_cases (h : seg.append codec entry = some (seg', true)) :
    seg.isOpen = true ∧ ∃ data, dataOf codec entry = some (some data) ∧
      0 ≤ entry.id.index - seg.firstIndex ∧ entry.id.index - seg.firstIndex < arraySize ∧
      (seg' = seg.write ⟨entry.id.term, entry.id.index, entry.dependency, entry.type, data⟩ ∨
        (seg.pendingForClosing = true ∧
          (seg.write ⟨entry.id.term, entry.id.index, entry.dependency, entry.type,
            data⟩).isFullfilled = true ∧
          seg' = (seg.write ⟨entry.id.term, entry.id.index, entry.dependency, entry.type,
            data⟩).close)) := by
  unfold Segment.append at h
  split at h
  · cases h
  · rename_i hopen
    split at h
    · cases h
    · cases h
    · rename_i data hdata
      split at h
      · rename_i hfit
        simp only [Option.some.injEq, Prod.mk.injEq, and_true] at h
        refine ⟨by simpa using hopen, data, hdata, hfit.1, hfit.2, ?_⟩
        split at h
        · rename_i hfull
          exact .inr ⟨hfull.1, hfull.2, h.symm⟩
        · exact .inl h.symm
      · cases h

theorem append_refused (h : seg.append codec entry = some (seg', false)) :
    seg' = seg ∧ (seg.isOpen = true → dataOf codec entry = some none) := by
  unfold Segment.append at h
  split at h
  · rename_i hclosed
    cases h
    refine ⟨rfl, fun hopen => ?_⟩
    rw [hopen] at hclosed
    cases hclosed
  · split at h
    · cases h
    · rename_i hdata
      cases h
      exact ⟨rfl, fun _ => hdata⟩
    · split at h
      · cases h
      · cases h

theorem isOpen_append (hopen : seg.isOpen = true)
    (hpending : seg.pendingForClosing = true)
    (happend : seg.append codec entry = some (seg', true)) :
    seg'.isOpen = false ↔ seg'.isFullfilled = true := by
  rw [Segment.append, hopen] at happend
  simp only [Bool.not_true, Bool.false_eq_true, if_false] at happend
  split at happend
  · cases happend
  · cases happend
  · split at happend
    · cases happend
      split
      · rename_i hfull
        exact iff_of_true rfl hfull.2
      · rename_i hnot
        refine iff_of_false (by simp [Segment.write, hopen]) fun hfull => hnot ⟨hpending, hfull⟩
    · cases happend

theorem append_succeeds (hopen : seg.isOpen = true) (hdata : dataOf codec entry = some (some data))
    (hlow : 0 ≤ entry.id.index - seg.firstIndex)
    (hhigh : entry.id.index - seg.firstIndex < arraySize) :
    ∃ seg', seg.append codec entry = some (seg', true) := by
  simp only [Segment.append, hopen, Bool.not_true, Bool.false_eq_true, if_false, hdata]
  rw [if_pos ⟨hlow, hhigh⟩]
  exact ⟨_, rfl⟩

end Append

theorem sameContents_close (seg : Segment) : SameContents seg seg.close :=
  ⟨rfl, rfl, rfl, rfl, rfl⟩

theorem sameContents_prepareToClose (seg : Segment) : SameContents seg seg.prepareToClose :=
  ⟨rfl, rfl, rfl, rfl, rfl⟩

theorem sound_append {entry : LogEntry} (hsound : Sound codec seg)
    (h : seg.append codec entry = some (seg', true)) :
    Sound codec seg' ∧ seg'.firstIndex = seg.firstIndex ∧
      seg'.lastIndex = max seg.lastIndex entry.id.index ∧
      ∀ i, seg'.getTerm i = if i = entry.id.index then entry.id.term else seg.getTerm i := by
  obtain ⟨-, data, hdata, hlow, -, hcases⟩ := append_cases h
  have hr := toEntry_isSome hdata
  have hwrite := sound_write hsound hlow hr
  have hterm := getTerm_write hsound hlow hr
  rcases hcases with rfl | ⟨-, -, rfl⟩
  · exact ⟨hwrite, rfl, rfl, hterm⟩
  · have hsame := sameContents_close
      (seg.write ⟨entry.id.term, entry.id.index, entry.dependency, entry.type, data⟩)
    exact ⟨hsame.sound hwrite, rfl, rfl, fun i => (congrFun hsame.getTerm i).trans (hterm i)⟩

theorem get_append {entry : LogEntry} (hsound : Sound codec seg) (hstorable : Storable entry)
    (hterm : entry.id.term ≠ 0) (h : seg.append codec entry = some (seg', true)) (i : Int) :
    seg'.get codec i = if i = entry.id.index then some entry else seg.get codec i := by
  obtain ⟨-, data, hdata, hlow, -, hcases⟩ := append_cases h
  obtain ⟨data', hdata', hread⟩ := hstorable.toEntry_dataOf codec
  cases hdata.symm.trans hdata'
  have hget := get_write hsound hlow (toEntry_isSome hdata) hterm i
  rw [hread] at hget
  rcases hcases with rfl | ⟨-, -, rfl⟩
  · exact hget
  · exact (congrFun (sameContents_close _).get i).trans hget

section Truncate

theorem sound_dropEntry (hsound : Sound codec seg) (i : Int) :
    Sound codec (seg.dropEntry i) ∧ (seg.dropEntry i).firstIndex = seg.firstIndex ∧
      (seg.dropEntry i).lastIndex = seg.lastIndex ∧
      (∀ j, (seg.dropEntry i).getTerm j = if j = i then 0 else seg.getTerm j) ∧
      ∀ j, (seg.dropEntry i).get codec j = if j = i then none else seg.get codec j := by
  by_cases hterm : (seg.offsetAndTermArray (i - seg.firstIndex)).2 = 0
  · have hsame : seg.dropEntry i = seg := by simp [Segment.dropEntry, hterm]
    have hnone : seg.getTerm i = 0 := by rw [hsound.getTerm_eq, hterm]
    have hget : seg.get codec i = none := by
      rcases hsound.get_cases i with ⟨-, hget⟩ | ⟨-, hne, -, -⟩
      · exact hget
      · exact absurd hnone hne
    rw [hsame]
    refine ⟨hsound, rfl, rfl, ?_, ?_⟩
    · intro j
      split
      · rename_i hj
        rw [hj, hnone]
      · rfl
    · intro j
      split
      · rename_i hj
        rw [hj, hget]
      · rfl
  · -- Two indexes never share an offset: the record there carries its own index.
    have hoffset : ∀ k, k ≠ i - seg.firstIndex → (seg.offsetAndTermArray k).2 ≠ 0 →
        recordAt EntryRecord.size (seg.dropEntry i).file (seg.offsetAndTermArray k).1.toNat =
          recordAt EntryRecord.size seg.file (seg.offsetAndTermArray k).1.toNat := by
      intro k hk hne
      obtain ⟨r, hr, -, hindex, -⟩ := hsound.points k hne
      obtain ⟨r', hr', -, hindex', -⟩ := hsound.points _ hterm
      have hother : (seg.offsetAndTermArray k).1.toNat ≠
          (seg.offsetAndTermArray (i - seg.firstIndex)).1.toNat := by
        intro heq
        rw [heq, hr'] at hr
        cases hr
        omega
      simp only [Segment.dropEntry, ne_eq, hterm, not_false_eq_true, if_true]
      rw [recordAt_rewriteAt EntryRecord.size_invalidate, if_neg hother]
    have harray : ∀ k, (seg.dropEntry i).offsetAndTermArray k =
        if k = i - seg.firstIndex then ((seg.offsetAndTermArray (i - seg.firstIndex)).1, 0)
        else seg.offsetAndTermArray k := by
      intro k
      simp only [Segment.dropEntry, ne_eq, hterm, not_false_eq_true, if_true,
        Function.update_apply]
    have hfirst : (seg.dropEntry i).firstIndex = seg.firstIndex := by
      simp [Segment.dropEntry, hterm]
    have hlast : (seg.dropEntry i).lastIndex = seg.lastIndex := by
      simp [Segment.dropEntry, hterm]
    have hkept : ∀ k, ((seg.dropEntry i).offsetAndTermArray k).2 ≠ 0 → k ≠ i - seg.firstIndex ∧
        (seg.offsetAndTermArray k).2 ≠ 0 := by
      intro k hne
      rw [harray] at hne
      split at hne
      · exact absurd rfl hne
      · rename_i hk
        exact ⟨hk, hne⟩
    have hdropped : Sound codec (seg.dropEntry i) := by
      refine ⟨by rw [hfirst, hlast]; exact hsound.range, ?_, ?_, ?_⟩
      · intro k hne
        rw [hfirst, hlast]
        exact hsound.inside k (hkept k hne).2
      · intro k hne
        obtain ⟨hk, hold⟩ := hkept k hne
        rw [harray, if_neg hk, hoffset k hk hold, hfirst]
        exact hsound.points k hold
      · simp [Segment.dropEntry, hterm, fileSize_rewriteAt EntryRecord.size_invalidate,
          hsound.bytes_eq]
    refine ⟨hdropped, hfirst, hlast, ?_, ?_⟩
    · intro j
      rw [hdropped.getTerm_eq, hsound.getTerm_eq, hfirst, harray]
      by_cases hj : j = i
      · simp [hj]
      · rw [if_neg (by omega), if_neg hj]
    · intro j
      rw [Segment.get, Segment.get, hdropped.getMeta_eq, hsound.getMeta_eq, hfirst, harray]
      by_cases hj : j = i
      · simp [hj]
      · have hk : j - seg.firstIndex ≠ i - seg.firstIndex := by omega
        rw [if_neg hk, if_neg hj]
        by_cases hold : (seg.offsetAndTermArray (j - seg.firstIndex)).2 = 0
        · simp [hold]
        · simp [hold, hoffset _ hk hold]

theorem sound_dropEntries (n : Nat) (i : Int) (hsound : Sound codec seg) :
    Sound codec (Segment.dropEntries n i seg) ∧
      (Segment.dropEntries n i seg).firstIndex = seg.firstIndex ∧
      (Segment.dropEntries n i seg).lastIndex = seg.lastIndex ∧
      (∀ j, (Segment.dropEntries n i seg).getTerm j =
        if i ≤ j ∧ j < i + n then 0 else seg.getTerm j) ∧
      ∀ j, (Segment.dropEntries n i seg).get codec j =
        if i ≤ j ∧ j < i + n then none else seg.get codec j := by
  induction n generalizing i seg with
  | zero =>
    refine ⟨hsound, rfl, rfl, ?_, ?_⟩
    · intro j
      rw [if_neg (by omega)]
      rfl
    · intro j
      rw [if_neg (by omega)]
      rfl
  | succ n ih =>
    obtain ⟨hdrop, hfirst, hlast, hterm, hget⟩ := sound_dropEntry hsound i
    obtain ⟨hdrops, hfirst', hlast', hterm', hget'⟩ := ih (i + 1) hdrop
    refine ⟨hdrops, hfirst'.trans hfirst, hlast'.trans hlast, ?_, ?_⟩
    · intro j
      rw [Segment.dropEntries, hterm', hterm]
      split_ifs
      all_goals first | rfl | omega
    · intro j
      rw [Segment.dropEntries, hget', hget]
      split_ifs
      all_goals first | rfl | omega

private theorem sound_shorten (hsound : Sound codec seg) (kept : Int)
    (hfirst : seg.firstIndex ≤ kept + 1) (habove : ∀ i, kept < i → seg.getTerm i = 0) :
    Sound codec { seg with isOpen := true, lastIndex := kept } ∧
      Segment.getTerm { seg with isOpen := true, lastIndex := kept } = seg.getTerm ∧
      Segment.get codec { seg with isOpen := true, lastIndex := kept } = seg.get codec := by
  have hshort : Sound codec { seg with isOpen := true, lastIndex := kept } := by
    refine ⟨hfirst, ?_, hsound.points, hsound.bytes_eq⟩
    intro k hne
    refine ⟨(hsound.inside k hne).1, ?_⟩
    by_contra hlt
    have hzero := habove (seg.firstIndex + k) (by simpa using hlt)
    rw [hsound.getTerm_eq, add_sub_cancel_left] at hzero
    exact hne hzero
  refine ⟨hshort, ?_, ?_⟩
  · funext i
    rw [hshort.getTerm_eq, hsound.getTerm_eq]
  · funext i
    rw [Segment.get, Segment.get, hshort.getMeta_eq, hsound.getMeta_eq]

theorem sound_truncate {kept : Int} (hsound : Sound codec seg) (hfirst : seg.firstIndex ≤ kept + 1)
    (hkept : kept < seg.lastIndex) :
    ∃ seg', seg.truncate kept = some seg' ∧ Sound codec seg' ∧
      seg'.firstIndex = seg.firstIndex ∧ seg'.lastIndex = kept ∧ seg'.isOpen = true ∧
      (∀ i, seg'.getTerm i = if i ≤ kept then seg.getTerm i else 0) ∧
      ∀ i, seg'.get codec i = if i ≤ kept then seg.get codec i else none := by
  obtain ⟨hdrops, hfirst', hlast', hterm, hget⟩ :=
    sound_dropEntries (seg.lastIndex - kept).toNat (kept + 1) hsound
  -- Above the old range nothing was held, so the loop reaches everything above the kept index.
  have hterm' : ∀ i, (Segment.dropEntries (seg.lastIndex - kept).toNat (kept + 1) seg).getTerm i =
      if i ≤ kept then seg.getTerm i else 0 := by
    intro i
    rw [hterm]
    by_cases hi : i ≤ kept
    · rw [if_neg (by omega), if_pos hi]
    · rw [if_neg hi]
      split
      · rfl
      · by_contra hne
        have hrange := hsound.getTerm_range hne
        omega
  have hget' : ∀ i, (Segment.dropEntries (seg.lastIndex - kept).toNat (kept + 1) seg).get codec i =
      if i ≤ kept then seg.get codec i else none := by
    intro i
    rw [hget]
    by_cases hi : i ≤ kept
    · rw [if_neg (by omega), if_pos hi]
    · rw [if_neg hi]
      split
      · rfl
      · by_contra hne
        obtain ⟨entry, hentry⟩ := Option.ne_none_iff_exists'.mp hne
        have hrange := hsound.get_range hentry
        omega
  obtain ⟨hshort, hsameTerm, hsameGet⟩ := sound_shorten hdrops kept
    (by rw [hfirst']; exact hfirst) (fun i hi => by rw [hterm', if_neg (by omega)])
  refine ⟨_, ?_, hshort, hfirst', rfl, rfl, ?_, ?_⟩
  · unfold Segment.truncate
    rw [if_neg (by omega), if_neg (by omega)]
  · intro i
    rw [hsameTerm, hterm']
  · intro i
    rw [hsameGet, hget']

theorem pendingForClosing_dropEntries (n : Nat) (i : Int) (seg : Segment) :
    (Segment.dropEntries n i seg).pendingForClosing = seg.pendingForClosing := by
  induction n generalizing i seg with
  | zero => rfl
  | succ n ih =>
    rw [Segment.dropEntries, ih, Segment.dropEntry]
    split
    · rfl
    · rfl

theorem truncate_spec {kept : Int} (hsound : Sound codec seg) (hfirst : seg.firstIndex ≤ kept + 1)
    (hkept : kept ≤ seg.lastIndex) :
    ∃ seg', seg.truncate kept = some seg' ∧ Sound codec seg' ∧
      seg'.firstIndex = seg.firstIndex ∧ seg'.lastIndex = kept ∧
      seg'.pendingForClosing = seg.pendingForClosing ∧
      (seg' = seg ∨ kept < seg.lastIndex ∧ seg'.isOpen = true) ∧
      ∀ i, seg'.get codec i = if i ≤ kept then seg.get codec i else none := by
  by_cases hlt : kept < seg.lastIndex
  · obtain ⟨seg', htruncate, hsound', hfirst', hlast', hopen, -, hget⟩ :=
      sound_truncate hsound hfirst hlt
    refine ⟨seg', htruncate, hsound', hfirst', hlast', ?_, .inr ⟨hlt, hopen⟩, hget⟩
    rw [Segment.truncate, if_neg (by omega), if_neg (by omega)] at htruncate
    cases htruncate
    exact pendingForClosing_dropEntries _ _ seg
  · have hend : seg.lastIndex = kept := by omega
    refine ⟨seg, ?_, hsound, rfl, hend, rfl, .inl rfl, ?_⟩
    · rw [Segment.truncate, if_pos (by omega)]
    · intro i
      split
      · rfl
      · by_contra hne
        obtain ⟨entry, hget⟩ := Option.ne_none_iff_exists'.mp hne
        have hrange := hsound.get_range hget
        omega

end Truncate

section Counter

def rangeIndexes (seg : Segment) : Finset Int :=
  (Finset.range (seg.lastIndex + 1 - seg.firstIndex).toNat).image fun k : Nat => seg.firstIndex + k

theorem mem_rangeIndexes {i : Int} :
    i ∈ rangeIndexes seg ↔ seg.firstIndex ≤ i ∧ i ≤ seg.lastIndex := by
  simp only [rangeIndexes, Finset.mem_image, Finset.mem_range]
  constructor
  · rintro ⟨k, hk, rfl⟩
    omega
  · rintro ⟨hlow, hhigh⟩
    exact ⟨(i - seg.firstIndex).toNat, by omega, by omega⟩

theorem card_rangeIndexes (seg : Segment) :
    (rangeIndexes seg).card = (seg.lastIndex + 1 - seg.firstIndex).toNat := by
  rw [rangeIndexes, Finset.card_image_of_injective, Finset.card_range]
  intro j k hjk
  dsimp only at hjk
  omega

def heldIndexes (seg : Segment) : Finset Int :=
  (rangeIndexes seg).filter fun i => seg.getTerm i ≠ 0

theorem Sound.mem_heldIndexes (hsound : Sound codec seg) {i : Int} :
    i ∈ heldIndexes seg ↔ seg.getTerm i ≠ 0 := by
  simp only [heldIndexes, Finset.mem_filter, mem_rangeIndexes, and_iff_right_iff_imp]
  exact hsound.getTerm_range

/-- The counter of a segment whose entries were all written once. -/
def Counted (seg : Segment) : Prop := seg.vaildEntriesCounter = (heldIndexes seg).card

theorem Counted.full (hcount : Counted seg) (hfull : seg.isFullfilled = true) {i : Int}
    (hlow : seg.firstIndex ≤ i) (hhigh : i ≤ seg.lastIndex) : seg.getTerm i ≠ 0 := by
  have hcard : (rangeIndexes seg).card ≤ (heldIndexes seg).card := by
    simp only [Segment.isFullfilled, decide_eq_true_eq] at hfull
    rw [card_rangeIndexes]
    unfold Counted at hcount
    omega
  have hall : heldIndexes seg = rangeIndexes seg :=
    Finset.eq_of_subset_of_card_le (Finset.filter_subset _ _) hcard
  have hmem : i ∈ heldIndexes seg := by
    rw [hall, mem_rangeIndexes]
    exact ⟨hlow, hhigh⟩
  exact (Finset.mem_filter.mp hmem).2

theorem counted_new (first : Int) : Counted (.new first) := by
  simp [Counted, heldIndexes, rangeIndexes, Segment.new]

theorem SameContents.counted (h : SameContents seg seg') (hcounter :
    seg'.vaildEntriesCounter = seg.vaildEntriesCounter) (hcount : Counted seg) :
    Counted seg' := by
  unfold Counted heldIndexes rangeIndexes at *
  rw [hcounter, h.first, h.last, h.getTerm]
  exact hcount

theorem counted_append {entry : LogEntry} (hsound : Sound codec seg) (hcount : Counted seg)
    (hnew : seg.getTerm entry.id.index = 0) (hterm : entry.id.term ≠ 0)
    (h : seg.append codec entry = some (seg', true)) : Counted seg' := by
  obtain ⟨hsound', -, -, hterms⟩ := sound_append hsound h
  have hheld : heldIndexes seg' = insert entry.id.index (heldIndexes seg) := by
    ext i
    rw [hsound'.mem_heldIndexes, Finset.mem_insert, hsound.mem_heldIndexes, hterms]
    by_cases hi : i = entry.id.index
    · simp [hi, hterm]
    · simp [hi]
  have hcounter : seg'.vaildEntriesCounter = seg.vaildEntriesCounter + 1 := by
    obtain ⟨-, data, -, -, -, rfl | ⟨-, -, rfl⟩⟩ := append_cases h
    · rfl
    · rfl
  have hnot : entry.id.index ∉ heldIndexes seg := by
    rw [hsound.mem_heldIndexes]
    exact not_not.mpr hnew
  unfold Counted at *
  rw [hheld, Finset.card_insert_of_notMem hnot, hcounter, hcount]
  rfl

private theorem counted_dropEntry (hsound : Sound codec seg) (hcount : Counted seg) (i : Int) :
    Counted (seg.dropEntry i) := by
  obtain ⟨hsound', -, -, hterms, -⟩ := sound_dropEntry hsound i
  by_cases hterm : seg.getTerm i = 0
  · have hsame : seg.dropEntry i = seg := by
      rw [hsound.getTerm_eq] at hterm
      simp [Segment.dropEntry, hterm]
    rw [hsame]
    exact hcount
  · have hheld : heldIndexes (seg.dropEntry i) = (heldIndexes seg).erase i := by
      ext j
      rw [hsound'.mem_heldIndexes, Finset.mem_erase, hsound.mem_heldIndexes, hterms]
      by_cases hj : j = i
      · simp [hj]
      · simp [hj]
    have hmem : i ∈ heldIndexes seg := hsound.mem_heldIndexes.mpr hterm
    have hpos := Finset.card_pos.mpr ⟨i, hmem⟩
    have hcounter : (seg.dropEntry i).vaildEntriesCounter = seg.vaildEntriesCounter - 1 := by
      rw [hsound.getTerm_eq] at hterm
      simp [Segment.dropEntry, hterm]
    unfold Counted at *
    rw [hheld, Finset.card_erase_of_mem hmem, hcounter, hcount]
    omega

private theorem counted_dropEntries (n : Nat) (i : Int) (hsound : Sound codec seg)
    (hcount : Counted seg) :
    Counted (Segment.dropEntries n i seg) := by
  induction n generalizing i seg with
  | zero => exact hcount
  | succ n ih => exact ih (i + 1) (sound_dropEntry hsound i).1 (counted_dropEntry hsound hcount i)

theorem counted_truncate {kept : Int} (hsound : Sound codec seg) (hcount : Counted seg)
    (hkept : kept < seg.lastIndex) (h : seg.truncate kept = some seg') : Counted seg' := by
  unfold Segment.truncate at h
  rw [if_neg (by omega)] at h
  split at h
  · cases h
  · rename_i hfirst
    obtain ⟨seg', htruncate, hsound', -, -, -, hterms, -⟩ :=
      sound_truncate hsound (by omega) hkept
    obtain ⟨hdrops, -, -, hterms', -⟩ :=
      sound_dropEntries (seg.lastIndex - kept).toNat (kept + 1) hsound
    have hcounted := counted_dropEntries (seg.lastIndex - kept).toNat (kept + 1) hsound hcount
    rw [Segment.truncate, if_neg (by omega), if_neg hfirst] at htruncate
    cases htruncate
    cases h
    have hheld : heldIndexes
        { Segment.dropEntries (seg.lastIndex - kept).toNat (kept + 1) seg with
          isOpen := true
          lastIndex := kept } =
        heldIndexes (Segment.dropEntries (seg.lastIndex - kept).toNat (kept + 1) seg) := by
      ext j
      rw [hsound'.mem_heldIndexes, hdrops.mem_heldIndexes, hterms, hterms']
      by_cases hj : j ≤ kept
      · rw [if_pos hj, if_neg (by omega)]
      · rw [if_neg hj]
        split
        · rfl
        · have hout : seg.getTerm j = 0 := by
            by_contra hne
            have hrange := hsound.getTerm_range hne
            omega
          rw [hout]
    unfold Counted at *
    rw [hheld]
    exact hcounted

end Counter

end HitConsistency.Log.SegmentContents
