/- GID: HitConsistency/Log/SegmentReload
   digest: A segment loaded from its file is the segment that wrote it, if nothing was truncated. -/

import HitConsistency.Log.SegmentContents

set_option autoImplicit false
set_option relaxedAutoImplicit false

namespace HitConsistency.Log.SegmentReload

open HitConsistency.Base.RecordFile
open HitConsistency.Log.Entry
open HitConsistency.Log.MemoryLog
open HitConsistency.Log.SegmentFile
open HitConsistency.Log.SegmentContents

variable {codec : ConfigurationCodec} {seg seg' : Segment} {first : Int} {file : List EntryRecord}

def Intact (file : List EntryRecord) : Prop := ∀ r ∈ file, r.term ≠ 0

instance intactDecidable (file : List EntryRecord) : Decidable (Intact file) :=
  inferInstanceAs (Decidable (∀ r ∈ file, _))

/-- What the loop of `load` has entered once it is through a file. -/
def scanned (first : Int) (file : List EntryRecord) : Loading :=
  file.foldl (Loading.enter first) (.start first .new)

theorem scanned_push (first : Int) (file : List EntryRecord) (r : EntryRecord) :
    scanned first (file ++ [r]) = (scanned first file).enter first r := by
  simp [scanned]

/-- The file of a segment: every entry is within the arrays, every configuration can be
parsed, and without a truncation a scan finds what the segment has in memory. -/
structure Filed (codec : ConfigurationCodec) (seg : Segment) : Prop where
  fits : ∀ r ∈ seg.file, 0 ≤ r.index - seg.firstIndex ∧ r.index - seg.firstIndex < arraySize
  parses : ∀ r ∈ seg.file, r.type = .configuration →
    (parseConfigurationMeta codec r.data).isSome
  array : Intact seg.file →
    seg.offsetAndTermArray = (scanned seg.firstIndex seg.file).offsetAndTermArray
  last : Intact seg.file → seg.lastIndex = (scanned seg.firstIndex seg.file).actualLastIndex
  entryOff : Intact seg.file → seg.bytes = (scanned seg.firstIndex seg.file).entryOff

theorem SameContents.filed (h : SameContents seg seg') (hfiled : Filed codec seg) :
    Filed codec seg' := by
  obtain ⟨hfits, hparses, harray, hlast, hoff⟩ := hfiled
  constructor
  · rw [h.file, h.first]
    exact hfits
  · rw [h.file]
    exact hparses
  · rw [h.file, h.first, h.array]
    exact harray
  · rw [h.file, h.first, h.last]
    exact hlast
  · rw [h.file, h.first, h.bytes]
    exact hoff

theorem filed_new (codec : ConfigurationCodec) (first : Int) : Filed codec (.new first) := by
  refine ⟨?_, ?_, fun _ => rfl, fun _ => rfl, fun _ => rfl⟩
  · intro r hr
    cases hr
  · intro r hr
    cases hr

private theorem filed_write {r : EntryRecord} (hfiled : Filed codec seg)
    (hfits : 0 ≤ r.index - seg.firstIndex ∧ r.index - seg.firstIndex < arraySize)
    (hparses : r.type = .configuration → (parseConfigurationMeta codec r.data).isSome) :
    Filed codec (seg.write r) := by
  have hold : Intact (seg.file ++ [r]) → Intact seg.file :=
    fun h r' hr' => h r' (List.mem_append_left _ hr')
  constructor
  · intro r' hr'
    rcases List.mem_append.mp hr' with hr' | hr'
    · exact hfiled.fits r' hr'
    · cases List.mem_singleton.mp hr'
      exact hfits
  · intro r' hr'
    rcases List.mem_append.mp hr' with hr' | hr'
    · exact hfiled.parses r' hr'
    · cases List.mem_singleton.mp hr'
      exact hparses
  · intro hintact
    simp only [Segment.write, scanned_push, Loading.enter, hfiled.array (hold hintact),
      hfiled.entryOff (hold hintact)]
  · intro hintact
    simp only [Segment.write, scanned_push, Loading.enter, hfiled.last (hold hintact)]
    exact max_comm _ _
  · intro hintact
    simp only [Segment.write, scanned_push, Loading.enter, hfiled.entryOff (hold hintact)]

theorem filed_append {entry : LogEntry} (hfiled : Filed codec seg)
    (h : seg.append codec entry = some (seg', true)) : Filed codec seg' := by
  obtain ⟨-, data, hdata, hlow, hhigh, hcases⟩ := append_cases h
  have hwrite := filed_write (r := ⟨entry.id.term, entry.id.index, entry.dependency, entry.type,
    data⟩) hfiled ⟨hlow, hhigh⟩ (by
      intro htype
      simp only at htype
      obtain ⟨peers, -, rfl⟩ := dataOf_configuration codec htype hdata
      simp [parseConfigurationMeta, codec.parse_serialize])
  rcases hcases with rfl | ⟨-, -, rfl⟩
  · exact hwrite
  · exact SameContents.filed (sameContents_close _) hwrite

section Truncate

private theorem mem_rewriteAt_invalidate {r : EntryRecord} {offset : Nat}
    (h : r ∈ rewriteAt EntryRecord.size EntryRecord.invalidate file offset) :
    r ∈ file ∨ ∃ r0 ∈ file, r = r0.invalidate := by
  induction file generalizing offset with
  | nil => cases h
  | cons head rest ih =>
    simp only [rewriteAt] at h
    split at h
    · rcases List.mem_cons.mp h with rfl | h
      · exact .inr ⟨head, by simp, rfl⟩
      · exact .inl (List.mem_cons_of_mem _ h)
    · split at h
      · exact .inl h
      · rcases List.mem_cons.mp h with rfl | h
        · exact .inl (by simp)
        · rcases ih h with hmem | ⟨r0, hr0, rfl⟩
          · exact .inl (List.mem_cons_of_mem _ hmem)
          · exact .inr ⟨r0, List.mem_cons_of_mem _ hr0, rfl⟩

theorem intact_of_rewriteAt {offset : Nat}
    (h : Intact (rewriteAt EntryRecord.size EntryRecord.invalidate file offset)) :
    Intact file := by
  induction file generalizing offset with
  | nil => exact h
  | cons head rest ih =>
    simp only [rewriteAt] at h
    split at h
    · exact absurd rfl (h head.invalidate (by simp))
    · split at h
      · exact h
      · intro r hr
        rcases List.mem_cons.mp hr with rfl | hr
        · exact h r (by simp)
        · exact ih (fun r' hr' => h r' (List.mem_cons_of_mem _ hr')) r hr

private theorem dropEntry_file (seg : Segment) (i : Int) :
    (seg.dropEntry i).file = seg.file ∨ ∃ offset, (seg.dropEntry i).file =
      rewriteAt EntryRecord.size EntryRecord.invalidate seg.file offset := by
  simp only [Segment.dropEntry]
  split
  · exact .inr ⟨_, rfl⟩
  · exact .inl rfl

private theorem dropEntries_file (n : Nat) (i : Int) (seg : Segment) :
    (∀ r ∈ (Segment.dropEntries n i seg).file, r ∈ seg.file ∨ ∃ r0 ∈ seg.file, r = r0.invalidate) ∧
      (Intact (Segment.dropEntries n i seg).file → Intact seg.file) := by
  induction n generalizing i seg with
  | zero => exact ⟨fun r hr => .inl hr, fun h => h⟩
  | succ n ih =>
    obtain ⟨hmem, hintact⟩ := ih (i + 1) (seg.dropEntry i)
    rcases dropEntry_file seg i with hfile | ⟨offset, hfile⟩
    · rw [hfile] at hmem hintact
      exact ⟨hmem, hintact⟩
    · rw [hfile] at hmem hintact
      refine ⟨?_, fun h => intact_of_rewriteAt (hintact h)⟩
      intro r hr
      rcases hmem r hr with hold | ⟨r0, hr0, rfl⟩
      · exact mem_rewriteAt_invalidate hold
      · rcases mem_rewriteAt_invalidate hr0 with hold | ⟨r1, hr1, rfl⟩
        · exact .inr ⟨r0, hold, rfl⟩
        · exact .inr ⟨r1, hr1, rfl⟩

private theorem not_intact_dropEntries (n : Nat) (i j : Int) (hsound : Sound codec seg)
    (hlow : i ≤ j)
    (hhigh : j < i + n) (hterm : seg.getTerm j ≠ 0) :
    ¬ Intact (Segment.dropEntries n i seg).file := by
  induction n generalizing i seg with
  | zero => omega
  | succ n ih =>
    obtain ⟨hdrop, -, -, hterms, -⟩ := sound_dropEntry hsound i
    by_cases hj : j = i
    · subst hj
      intro hintact
      have hnext := (dropEntries_file n (j + 1) (seg.dropEntry j)).2 hintact
      rw [hsound.getTerm_eq] at hterm
      obtain ⟨r, hr, -⟩ := hsound.points _ hterm
      refine hnext r.invalidate ?_ rfl
      simp only [Segment.dropEntry, ne_eq, hterm, not_false_eq_true, if_true]
      exact mem_rewriteAt hr
    · exact ih (i + 1) hdrop (by omega) (by omega) (by rw [hterms, if_neg hj]; exact hterm)

private theorem scanned_last (hfits : ∀ r ∈ file, 0 ≤ r.index - first) (hintact : Intact file)
    (hne : file ≠ []) :
    ((scanned first file).offsetAndTermArray
      ((scanned first file).actualLastIndex - first)).2 ≠ 0 := by
  induction file using List.reverseRecOn with
  | nil => exact absurd rfl hne
  | append_singleton file r ih =>
    have hr := hfits r (by simp)
    have hterm := hintact r (by simp)
    rw [scanned_push]
    simp only [Loading.enter, Function.update_apply]
    by_cases hback : (scanned first file).actualLastIndex ≤ r.index
    · rw [max_eq_left hback, if_pos rfl]
      exact hterm
    · have hfile : file ≠ [] := by
        rintro rfl
        simp only [scanned, List.foldl_nil, Loading.start] at hback
        omega
      rw [max_eq_right (by omega), if_neg (by omega)]
      exact ih (fun r' hr' => hfits r' (by simp [hr'])) (fun r' hr' => hintact r' (by simp [hr']))
        hfile

theorem getTerm_last (hsound : Sound codec seg) (hfiled : Filed codec seg)
    (hintact : Intact seg.file) (hrange : seg.firstIndex ≤ seg.lastIndex) :
    seg.getTerm seg.lastIndex ≠ 0 := by
  have hfile : seg.file ≠ [] := by
    intro hnil
    have hlast := hfiled.last hintact
    rw [hnil] at hlast
    simp only [scanned, List.foldl_nil, Loading.start] at hlast
    omega
  have hlast := scanned_last (fun r hr => (hfiled.fits r hr).1) hintact hfile
  rw [← hfiled.array hintact, ← hfiled.last hintact, ← hsound.getTerm_eq] at hlast
  exact hlast

theorem filed_truncate {kept : Int} (hsound : Sound codec seg) (hfiled : Filed codec seg)
    (hkept : kept < seg.lastIndex) (h : seg.truncate kept = some seg') :
    Filed codec seg' ∧ ¬ Intact seg'.file := by
  rw [Segment.truncate, if_neg (by omega)] at h
  split at h
  · cases h
  · rename_i hfirst
    cases h
    obtain ⟨hmem, hold⟩ := dropEntries_file (seg.lastIndex - kept).toNat (kept + 1) seg
    obtain ⟨-, hfirst', -⟩ := sound_dropEntries (seg.lastIndex - kept).toNat (kept + 1) hsound
    have hbroken :
        ¬ Intact (Segment.dropEntries (seg.lastIndex - kept).toNat (kept + 1) seg).file := by
      intro hintact
      by_cases hrange : seg.firstIndex ≤ seg.lastIndex
      · have hlast := getTerm_last hsound hfiled (hold hintact) hrange
        exact not_intact_dropEntries _ _ seg.lastIndex hsound (by omega) (by omega) hlast hintact
      · omega
    refine ⟨⟨?_, ?_, fun h => absurd h hbroken, fun h => absurd h hbroken,
      fun h => absurd h hbroken⟩, hbroken⟩
    · intro r hr
      dsimp only
      rw [hfirst']
      rcases hmem r hr with hold | ⟨r0, hr0, rfl⟩
      · exact hfiled.fits r hold
      · exact hfiled.fits r0 hr0
    · intro r hr
      rcases hmem r hr with hold | ⟨r0, hr0, rfl⟩
      · exact hfiled.parses r hold
      · exact hfiled.parses r0 hr0

end Truncate

section Load

private theorem foldl_enter_configurationManager (l : Loading) (cm : ConfigurationManager) :
    file.foldl (Loading.enter first) { l with configurationManager := cm } =
      { file.foldl (Loading.enter first) l with configurationManager := cm } := by
  induction file generalizing l with
  | nil => rfl
  | cons r rest ih => exact ih (l.enter first r)

theorem addConfiguration_eq {r : EntryRecord} (l : Loading) (i : Int)
    (hparses : r.type = .configuration → (parseConfigurationMeta codec r.data).isSome) :
    ∃ cm, l.addConfiguration codec i r = some { l with configurationManager := cm } := by
  unfold Loading.addConfiguration
  split
  · rename_i htype
    obtain ⟨⟨peers, oldPeers⟩, hparse⟩ := Option.isSome_iff_exists.mp (hparses htype)
    rw [hparse]
    exact ⟨_, rfl⟩
  · exact ⟨l.configurationManager, rfl⟩

private theorem records_intact (i : Int) (l : Loading)
    (hfits : ∀ r ∈ file, 0 ≤ r.index - first ∧ r.index - first < arraySize)
    (hparses : ∀ r ∈ file, r.type = .configuration → (parseConfigurationMeta codec r.data).isSome)
    (hintact : Intact file) :
    ∃ cm, Loading.records codec first i l file =
      some { file.foldl (Loading.enter first) l with configurationManager := cm } := by
  induction file generalizing i l with
  | nil => exact ⟨l.configurationManager, rfl⟩
  | cons r rest ih =>
    obtain ⟨cm, hcm⟩ := addConfiguration_eq l i (hparses r (by simp))
    obtain ⟨cm', hrest⟩ := ih (i + 1) ({ l with configurationManager := cm }.enter first r)
      (fun r' hr' => hfits r' (by simp [hr'])) (fun r' hr' => hparses r' (by simp [hr']))
      (fun r' hr' => hintact r' (by simp [hr']))
    refine ⟨cm', ?_⟩
    rw [Loading.records, if_neg (hintact r (by simp)), if_pos (hfits r (by simp)), hcm,
      Option.bind_some, hrest]
    have hmove : rest.foldl (Loading.enter first)
        { l.enter first r with configurationManager := cm } =
          { rest.foldl (Loading.enter first) (l.enter first r) with configurationManager := cm } :=
      foldl_enter_configurationManager (l.enter first r) cm
    rw [show ({ l with configurationManager := cm } : Loading).enter first r =
      { l.enter first r with configurationManager := cm } from rfl, hmove]
    rfl

private theorem records_truncated (i : Int) (l : Loading) (hbroken : ¬ Intact file) :
    Loading.records codec first i l file = none := by
  induction file generalizing i l with
  | nil => exact absurd (fun r hr => by cases hr) hbroken
  | cons r rest ih =>
    rw [Loading.records]
    by_cases hterm : r.term = 0
    · rw [if_pos hterm]
    · rw [if_neg hterm]
      have hrest : ¬ Intact rest := by
        intro hintact
        apply hbroken
        intro r' hr'
        rcases List.mem_cons.mp hr' with rfl | hr'
        · exact hterm
        · exact hintact r' hr'
      split
      · cases l.addConfiguration codec i r with
        | none => rfl
        | some l' => exact ih (i + 1) _ hrest
      · rfl

/-- The segment that `list_segments` makes of a file. -/
def refile (seg : Segment) : Segment :=
  if seg.isOpen then openFile seg.firstIndex seg.file
  else closedFile seg.firstIndex seg.lastIndex seg.file

@[simp] theorem refile_first (seg : Segment) : (refile seg).firstIndex = seg.firstIndex := by
  unfold refile
  split
  · rfl
  · rfl

@[simp] theorem refile_file (seg : Segment) : (refile seg).file = seg.file := by
  unfold refile
  split
  · rfl
  · rfl

@[simp] theorem refile_isOpen (seg : Segment) : (refile seg).isOpen = seg.isOpen := by
  unfold refile
  split
  · rename_i hopen
    exact hopen.symm
  · rename_i hclosed
    exact (Bool.eq_false_iff.mpr hclosed).symm

@[simp] theorem refile_pending (seg : Segment) : (refile seg).pendingForClosing = false := by
  unfold refile
  split
  · rfl
  · rfl

theorem refile_last (hclosed : seg.isOpen = false) : (refile seg).lastIndex = seg.lastIndex := by
  simp [refile, hclosed, closedFile]

/-- The segment that `load` makes of an intact file. -/
def reload (seg : Segment) : Segment :=
  { refile seg with
    offsetAndTermArray := (scanned seg.firstIndex seg.file).offsetAndTermArray
    endOffsetAndTermArray := (scanned seg.firstIndex seg.file).endOffsetAndTermArray
    lastIndex := seg.lastIndex
    bytes := (scanned seg.firstIndex seg.file).entryOff }

@[simp] theorem reload_isOpen (seg : Segment) : (reload seg).isOpen = seg.isOpen :=
  refile_isOpen seg

@[simp] theorem reload_pending (seg : Segment) : (reload seg).pendingForClosing = false :=
  refile_pending seg

theorem sameContents_reload (hfiled : Filed codec seg) (hintact : Intact seg.file) :
    SameContents seg (reload seg) :=
  ⟨refile_first seg, rfl, (hfiled.array hintact).symm, refile_file seg,
    (hfiled.entryOff hintact).symm⟩

theorem load_intact (hfiled : Filed codec seg) (hintact : Intact seg.file)
    (cm : ConfigurationManager) :
    ∃ cm', (refile seg).load codec cm = some (reload seg, cm') := by
  obtain ⟨cm', hrecords⟩ := records_intact seg.firstIndex (.start seg.firstIndex cm) hfiled.fits
    hfiled.parses hintact
  have hscan : seg.file.foldl (Loading.enter seg.firstIndex) (.start seg.firstIndex cm) =
      { scanned seg.firstIndex seg.file with configurationManager := cm } :=
    foldl_enter_configurationManager (.start seg.firstIndex .new) cm
  rw [hscan] at hrecords
  have hlast := hfiled.last hintact
  refine ⟨cm', ?_⟩
  rw [Segment.load, refile_first, refile_file, hrecords, Option.bind_some]
  cases hopen : seg.isOpen with
  | true => simp [reload, hlast, hopen]
  | false =>
    have hend := refile_last hopen
    rw [if_neg (by dsimp only; omega)]
    simp [reload, hend, hopen]

theorem load_truncated (hbroken : ¬ Intact seg.file) (cm : ConfigurationManager) :
    (refile seg).load codec cm = none := by
  rw [Segment.load, refile_file, records_truncated _ _ hbroken]
  rfl

end Load

end HitConsistency.Log.SegmentReload
