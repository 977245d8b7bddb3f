/- GID: HitConsistency/Log/LateEntry
   digest: When an entry at or below the largest index can be stored. -/

import HitConsistency.Log.PendingLog
import HitConsistency.Log.SuffixTruncation

set_option autoImplicit false
set_option relaxedAutoImplicit false

/-!
An entry that arrives late is written into its slot, and its bit is set. The slot is
gone when the memory begins behind it, as it does behind a restart; the bit is gone
when the index lies 1024 or more below the largest one.
-/

namespace HitConsistency.Log.LateEntry

open HitConsistency.Base.GuardedRuns
open HitConsistency.Base.IndexedDeque
open HitConsistency.Log.Entry
open HitConsistency.Log.KeptEntries (Consecutive)
open HitConsistency.Log.MemoryLog
open HitConsistency.Log.StoredBatches
open HitConsistency.Log.SuffixTruncation

variable {γ : Type}

/-- The append of one entry completes, and the entry is found in the memory behind it. -/
def Stored (m : LogManager γ) (entry : LogEntry) (done : γ) : Prop :=
  ∃ m', m.appendEntries [entry] done true = some (m', none) ∧
    m'.getEntryFromMemory entry.id.index = some (some entry)

/-- The log has another term at the index of the entry, at or below the last index, and is
truncated for it. -/
def Displaces (m : LogManager γ) (entry : LogEntry) (term : Int) : Prop :=
  term ≠ entry.id.term ∧ term ≠ 0 ∧ entry.id.index ≤ m.lastLogIndex

/-- The memory is looked up where the entry is written: the lookup counts from the entry at
the back, the write from the largest index. -/
def LooksUp (mem : Memory) (entry : LogEntry) : Prop :=
  entry.id.index = mem.maxLogIndex ∨
    (∃ back, mem.logsInMemory.getLast? = some (some back) ∧ back.id.index = mem.maxLogIndex) ∨
    mem.getEntryFromMemory entry.id.index = some (some entry)

/-- There is a slot for the entry. A truncation brings the largest index not back, so only
the entry of that index still has a slot behind it. -/
def HasSlot (m : LogManager γ) (entry : LogEntry) (term : Int) : Prop :=
  (¬ Displaces m entry term ∧ m.firstInMemory ≤ entry.id.index ∧
    (m.maxLogIndex ≤ m.lastLogIndex ∨ m.firstInMemory ≤ m.lastLogIndex + 1) ∧
    LooksUp m.toMemory entry) ∨
  (Displaces m entry term ∧ entry.id.index = m.maxLogIndex ∧
    ∃ kept, CutsTo (entry.id.index - 1) m.logsInMemory kept ∧ kept ≠ [])

variable {m : LogManager γ} {entry : LogEntry}

private theorem resolveOverlap_one (hlate : entry.id.index ≤ m.maxLogIndex)
    {r : LogManager.Resolution γ} :
    m.resolveOverlap [entry] true = some r ↔
      ∃ term, m.unsafeGetTerm entry.id.index = some term ∧
        ((¬ Displaces m entry term ∧ r = .proceed m [entry]) ∨
          (Displaces m entry term ∧ ∃ mid, m.unsafeTruncateSuffix (entry.id.index - 1) = some mid ∧
            r = .proceed { mid with maxLogIndex := max mid.maxLogIndex entry.id.index } [entry])) := by
  have hsame : ({ m with maxLogIndex := max m.maxLogIndex entry.id.index } : LogManager γ) = m := by
    rw [max_eq_left hlate]
  rw [resolveOverlap_eq]
  cases hterm : m.unsafeGetTerm entry.id.index with
  | none => simp [LogManager.findConflict, hterm]
  | some term =>
    have hfind : m.findConflict true [entry] =
        some (if term ≠ entry.id.term ∧ term ≠ 0 then 0 else 1) := by
      simp only [LogManager.findConflict, hterm]
      by_cases hdiffers : term ≠ entry.id.term ∧ term ≠ 0
      · simp [hdiffers]
      · simp [hdiffers]
    rw [hfind, Option.bind_some]
    by_cases hdiffers : term ≠ entry.id.term ∧ term ≠ 0
    · rw [if_pos hdiffers]
      by_cases hle : entry.id.index ≤ m.lastLogIndex
      · have hdisplaces : Displaces m entry term := ⟨hdiffers.1, hdiffers.2, hle⟩
        simp [afterConflict, remaining, hle, hdisplaces, eq_comm]
      · have hnot : ¬ Displaces m entry term := fun h => hle h.2.2
        simp [afterConflict, remaining, hle, hnot, hsame, eq_comm]
    · rw [if_neg hdiffers]
      have hnot : ¬ Displaces m entry term := fun h => hdiffers ⟨h.1, h.2.1⟩
      simp [afterConflict, remaining, hnot, hsame, eq_comm]

private theorem lookup_written {mem mem' : Memory} (hlate : entry.id.index ≤ mem.maxLogIndex)
    (hrun : mem.writeSlot entry = some mem') :
    mem'.getEntryFromMemory entry.id.index = some (some entry) ↔ LooksUp mem entry := by
  obtain ⟨hmax, hfirst, hslot, -⟩ := writeSlot_spec hrun
  obtain ⟨hlo, -, -⟩ := writeSlot_defined_iff.mp ⟨mem', hrun⟩
  have hfirstEq : mem.firstInMemory = mem.maxLogIndex - mem.logsInMemory.length + 1 := rfl
  have hlength : mem'.logsInMemory.length = mem.logsInMemory.length := by
    have hfirstEq' : mem'.firstInMemory = mem'.maxLogIndex - mem'.logsInMemory.length + 1 := rfl
    omega
  have hne : mem.logsInMemory ≠ [] := List.length_pos_iff.mp (by omega)
  have hne' : mem'.logsInMemory ≠ [] := List.length_pos_iff.mp (by omega)
  have hback' := getLast_eq_slot mem' hne'
  rw [hmax, hslot] at hback'
  have hown : item mem'.logsInMemory (entry.id.index - mem.firstInMemory) = some (some entry) := by
    have htaken := hslot entry.id.index
    rw [if_pos rfl] at htaken
    rw [← hfirst]
    exact htaken
  have hlookup : ∀ back : LogEntry, mem'.logsInMemory.getLast? = some (some back) →
      back.id.index = mem.maxLogIndex →
      mem'.getEntryFromMemory entry.id.index = some (some entry) := by
    intro back hback hindex
    have hbase : back.id.index - mem'.logsInMemory.length + 1 = mem.firstInMemory := by omega
    unfold Memory.getEntryFromMemory
    rw [hback]
    dsimp only
    rw [hbase, if_pos ⟨hlo, by omega⟩]
    exact hown
  unfold LooksUp
  by_cases htop : entry.id.index = mem.maxLogIndex
  · rw [if_pos htop.symm] at hback'
    exact iff_of_true (hlookup entry hback' htop) (.inl htop)
  · rw [if_neg (Ne.symm htop), ← getLast_eq_slot mem hne] at hback'
    cases hlast : mem.logsInMemory.getLast? with
    | none => exact absurd (List.getLast?_eq_none_iff.mp hlast) hne
    | some last =>
      rw [hlast] at hback'
      cases last with
      | none =>
        have hread : mem.getEntryFromMemory entry.id.index = none := by
          simp [Memory.getEntryFromMemory, hlast]
        have hread' : mem'.getEntryFromMemory entry.id.index = none := by
          simp [Memory.getEntryFromMemory, hback']
        simp [hread, hread', htop]
      | some back =>
        by_cases hindex : back.id.index = mem.maxLogIndex
        · exact iff_of_true (hlookup back hback' hindex) (.inr (.inl ⟨back, rfl, hindex⟩))
        · -- The lookup does not come upon the slot that was written.
          have hother : mem'.getEntryFromMemory entry.id.index =
              mem.getEntryFromMemory entry.id.index := by
            unfold Memory.getEntryFromMemory
            rw [hlast, hback', hlength]
            dsimp only
            split
            · have hunread := hslot (entry.id.index -
                (back.id.index - mem.logsInMemory.length + 1) + mem.firstInMemory)
              unfold slot at hunread
              rw [if_neg (by omega), hfirst, Int.add_sub_cancel] at hunread
              exact hunread
            · rfl
          rw [hother]
          simp [htop, hindex]

private theorem storeOne_iff (hlate : entry.id.index ≤ m.maxLogIndex) (done : γ) :
    (∃ m', m.storeEntries [entry] done = some m' ∧
      m'.getEntryFromMemory entry.id.index = some (some entry)) ↔
    m.firstInMemory ≤ entry.id.index ∧ m.maxLogIndex - entry.id.index < 1024 ∧
      (m.maxLogIndex ≤ m.lastLogIndex ∨ m.firstInMemory ≤ m.lastLogIndex + 1) ∧
      LooksUp m.toMemory entry := by
  have hone : Consecutive entry.id.index [entry] := ⟨rfl, trivial⟩
  have hend : entry.id.index + ([entry] : List LogEntry).length - 1 ≤ m.maxLogIndex := by
    simpa using hlate
  have hdefined := storeEntries_defined_iff done hone (by simp) hend
  have hlookup : ∀ m', m.storeEntries [entry] done = some m' →
      (m'.getEntryFromMemory entry.id.index = some (some entry) ↔ LooksUp m.toMemory entry) := by
    intro m' hrun
    obtain ⟨last, hwrite, -⟩ := storeEntries_spec hone (by simp) hend hrun
    have hwrite : m.toMemory.writeSlot entry = some m'.toMemory := by
      simpa [runEvents] using hwrite
    exact lookup_written hlate hwrite
  constructor
  · rintro ⟨m', hrun, hread⟩
    obtain ⟨hlo, hbit, hreach⟩ := hdefined.mp ⟨m', hrun⟩
    exact ⟨hlo, hbit, hreach, (hlookup m' hrun).mp hread⟩
  · rintro ⟨hlo, hbit, hreach, hlooks⟩
    obtain ⟨m', hrun⟩ := hdefined.mpr ⟨hlo, hbit, hreach⟩
    exact ⟨m', hrun, (hlookup m' hrun).mpr hlooks⟩

private theorem stored_iff_store (hpos : 0 ≤ m.appliedId.index)
    (habove : m.appliedId.index < entry.id.index) (hlate : entry.id.index ≤ m.maxLogIndex)
    (done : γ) : Stored m entry done ↔ m.hasError = false ∧
      ∃ mid, m.resolveOverlap [entry] true = some (.proceed mid [entry]) ∧
        ∃ m', mid.storeEntries [entry] done = some m' ∧
          m'.getEntryFromMemory entry.id.index = some (some entry) := by
  have hresolve : m.checkAndResolveConflict entry entry [entry] true =
      m.resolveOverlap [entry] true :=
    checkAndResolveConflict_overlap (by omega) (.inl rfl) habove (by omega) hlate
  unfold Stored
  cases herror : m.hasError with
  | true => simp [LogManager.appendEntries, herror]
  | false =>
    simp only [appendEntries_iff_resolve herror (List.head?_cons) (List.getLast?_singleton),
      hresolve, true_and]
    constructor
    · rintro ⟨m', ⟨mid, stored, hr, hstore⟩, hread⟩
      obtain ⟨term, -, ⟨-, heq⟩ | ⟨-, mid', -, heq⟩⟩ := (resolveOverlap_one hlate).mp hr
      · cases heq
        exact ⟨_, hr, m', hstore, hread⟩
      · cases heq
        exact ⟨_, hr, m', hstore, hread⟩
    · rintro ⟨mid, hr, m', hstore, hread⟩
      exact ⟨m', ⟨mid, _, hr, hstore⟩, hread⟩

/-- Behind a truncation for the entry its index is not looked up in the memory, unless it
is the largest one. -/
private theorem looksUp_cut {mem : Memory} {logs : List (Option LogEntry)}
    (hcuts : CutsTo (entry.id.index - 1) logs mem.logsInMemory)
    (hlate : entry.id.index ≤ mem.maxLogIndex) :
    LooksUp mem entry ↔ entry.id.index = mem.maxLogIndex := by
  constructor
  · rintro (htop | ⟨back, hback, hindex⟩ | hread)
    · exact htop
    · obtain ⟨e, he, hle⟩ := hcuts.back _ hback
      cases he
      omega
    · unfold Memory.getEntryFromMemory at hread
      cases hlast : mem.logsInMemory.getLast? with
      | none =>
        rw [hlast] at hread
        cases hread
      | some slot =>
        obtain ⟨back, rfl, hle⟩ := hcuts.back slot hlast
        rw [hlast] at hread
        dsimp only at hread
        rw [if_neg (by omega)] at hread
        cases hread
  · exact .inl

/-- A late entry is stored exactly when the storage works, the bitmap reaches down to its
index, the term at its index can be read, and the memory has a slot for it. -/
theorem late_entry_stored_iff (m : LogManager γ) (entry : LogEntry) (done : γ)
    (hpos : 0 ≤ m.appliedId.index) (habove : m.appliedId.index < entry.id.index)
    (hlate : entry.id.index ≤ m.maxLogIndex) :
    Stored m entry done ↔ m.hasError = false ∧ m.maxLogIndex - entry.id.index < 1024 ∧
      ∃ term, m.unsafeGetTerm entry.id.index = some term ∧ HasSlot m entry term := by
  obtain ⟨hcuts, hdefined⟩ := unsafeTruncateSuffix_iff (m := m)
    (show m.appliedId.index ≤ entry.id.index - 1 by omega)
  -- The writes behind a truncation that has left some slots.
  have hcut : ∀ mid kept, Truncated m (entry.id.index - 1) kept mid →
      CutsTo (entry.id.index - 1) m.logsInMemory kept →
      ((∃ m', { mid with maxLogIndex := max mid.maxLogIndex entry.id.index }.storeEntries
          [entry] done = some m' ∧ m'.getEntryFromMemory entry.id.index = some (some entry)) ↔
        m.maxLogIndex - entry.id.index < 1024 ∧ entry.id.index = m.maxLogIndex ∧ kept ≠ []) := by
    intro mid kept htruncated hkept
    have hmax := htruncated.maxLogIndex_eq
    have hlogs : mid.logsInMemory = kept := by rw [htruncated.memory]
    rw [max_eq_left (by omega), storeOne_iff (by rw [hmax]; exact hlate),
      looksUp_cut (by rw [hlogs]; exact hkept) (by rw [hmax]; exact hlate)]
    unfold Memory.firstInMemory
    rw [hmax, hlogs, htruncated.last, ← List.length_pos_iff]
    omega
  rw [stored_iff_store hpos habove hlate]
  refine and_congr_right fun _ => ?_
  constructor
  · rintro ⟨mid, hr, hstore⟩
    obtain ⟨term, hterm, ⟨hnot, heq⟩ | ⟨hdisplaces, mid', hmid, heq⟩⟩ :=
      (resolveOverlap_one hlate).mp hr
    · cases heq
      obtain ⟨hlo, hbit, hreach, hlooks⟩ := (storeOne_iff hlate done).mp hstore
      exact ⟨hbit, term, hterm, .inl ⟨hnot, hlo, hreach, hlooks⟩⟩
    · cases heq
      obtain ⟨kept, hkept, htruncated⟩ := hcuts mid' hmid
      obtain ⟨hbit, htop, hne⟩ := (hcut mid' kept htruncated hkept).mp hstore
      exact ⟨hbit, term, hterm, .inr ⟨hdisplaces, htop, kept, hkept, hne⟩⟩
  · rintro ⟨hbit, term, hterm, ⟨hnot, hlo, hreach, hlooks⟩ | ⟨hdisplaces, htop, kept, hkept, hne⟩⟩
    · exact ⟨m, (resolveOverlap_one hlate).mpr ⟨term, hterm, .inl ⟨hnot, rfl⟩⟩,
        (storeOne_iff hlate done).mpr ⟨hlo, hbit, hreach, hlooks⟩⟩
    · obtain ⟨mid, hmid⟩ := hdefined kept hkept
      obtain ⟨kept', hkept', htruncated⟩ := hcuts mid hmid
      have hsame : kept' = kept := hkept'.unique hkept
      exact ⟨_, (resolveOverlap_one hlate).mpr ⟨term, hterm, .inr ⟨hdisplaces, mid, hmid, rfl⟩⟩,
        (hcut mid kept (hsame ▸ htruncated) hkept).mpr ⟨hbit, htop, hne⟩⟩

private def gapAtTwo : LogManager Unit :=
  { (LogManager.fresh 63 : LogManager Unit) with
    maxLogIndex := 3
    dependencyBitmap := 5
    logsInMemory := [some (sampleEntry 1 1), none, some (sampleEntry 3 1)]
    lastLogIndex := 1 }

theorem late_entry_stored_iff_gap : Stored gapAtTwo (sampleEntry 2 1) () ∧
    (Stored gapAtTwo (sampleEntry 2 1) () ↔
      gapAtTwo.hasError = false ∧ gapAtTwo.maxLogIndex - (sampleEntry 2 1).id.index < 1024 ∧
      ∃ term, gapAtTwo.unsafeGetTerm (sampleEntry 2 1).id.index = some term ∧
        HasSlot gapAtTwo (sampleEntry 2 1) term) :=
  ⟨⟨_, rfl, by decide +kernel⟩,
    late_entry_stored_iff gapAtTwo (sampleEntry 2 1) () (by decide) (by decide) (by decide)⟩

private def restartEvents : List PendingLog.Event :=
  [.append [sampleEntry 1 1, sampleEntry 2 1, sampleEntry 3 1] true, .diskWrite, .restart]

private def farEvents : List PendingLog.Event :=
  [.append [sampleEntry 1 1] true, .append [sampleEntry 1026 1] true]

/-- Behind a restart the memory begins behind entry 2, and behind entry 1026 the bitmap does
not reach down to it; the dependency check lets it pass both times. -/
theorem late_entry_lost :
    (∃ m, runEvents PendingLog.step (LogManager.fresh 63) restartEvents = some m ∧
      m.appliedId.index < 2 ∧ 2 ≤ m.maxLogIndex ∧ m.checkDependency 2 0 = true ∧
      m.appendEntries [sampleEntry 2 1] () true = none ∧ ¬ Stored m (sampleEntry 2 1) ()) ∧
    ((runEvents PendingLog.step (LogManager.fresh 63) farEvents).map fun m =>
      (m.appliedId.index, m.maxLogIndex, m.checkDependency 2 0,
        (m.appendEntries [sampleEntry 2 1] () true).isNone)) = some (0, 1026, true, true) := by
  refine ⟨⟨_, rfl, by decide, by decide, by decide, rfl, ?_⟩, by decide +kernel⟩
  rintro ⟨m', hrun, -⟩
  cases hrun

end HitConsistency.Log.LateEntry
