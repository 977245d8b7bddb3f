/- GID: HitConsistency/Log/SuffixTruncation
   digest: What truncating a suffix leaves in memory, and when a batch can be written into it. -/

import HitConsistency.Log.StoredBatches

set_option autoImplicit false
set_option relaxedAutoImplicit false

namespace HitConsistency.Log.SuffixTruncation

open HitConsistency.Base.GuardedRuns
open HitConsistency.Base.IndexedDeque
open HitConsistency.Base.SlidingBitmap
open HitConsistency.Log.Entry
open HitConsistency.Log.KeptEntries
open HitConsistency.Log.MemoryLog
open HitConsistency.Log.OutOfOrderAppend
open HitConsistency.Log.StoredBatches

section Cut

/-- Popping from the back stops at an entry that is kept: everything behind it is filled
and lies above the kept index. -/
structure CutsTo (lastIndexKept : Int) (logs kept : List (Option LogEntry)) : Prop where
  cut : ∃ cut, logs = kept ++ cut ∧ ∀ slot ∈ cut, ∃ entry, slot = some entry ∧
    lastIndexKept < entry.id.index
  back : ∀ slot, kept.getLast? = some slot → ∃ entry, slot = some entry ∧
    entry.id.index ≤ lastIndexKept

private theorem dropAbove_iff {lastIndexKept : Int} {logs kept : List (Option LogEntry)} :
    LogManager.dropAbove lastIndexKept logs.reverse = some kept.reverse ↔
      CutsTo lastIndexKept logs kept := by
  induction logs using List.reverseRecOn with
  | nil =>
    constructor
    · intro h
      have hnil : kept = [] := by simpa [LogManager.dropAbove] using h.symm
      subst hnil
      exact ⟨⟨[], rfl, by simp⟩, by simp⟩
    · rintro ⟨⟨cut, hcut, -⟩, -⟩
      have hnil : kept = [] := (List.append_eq_nil_iff.mp hcut.symm).1
      subst hnil
      rfl
  | append_singleton logs slot ih =>
    rw [List.reverse_append, List.reverse_singleton, List.singleton_append]
    cases slot with
    | none =>
      constructor
      · intro h
        cases h
      · rintro ⟨⟨cut, hcut, hfilled⟩, hback⟩
        exfalso
        rcases List.eq_nil_or_concat cut with rfl | ⟨cut, last, rfl⟩
        · obtain ⟨entry, hentry, -⟩ := hback none (by rw [← List.append_nil kept, ← hcut]; simp)
          cases hentry
        · have hlast : last = none := by
            have heq := congrArg List.getLast? hcut
            simpa using heq.symm
          obtain ⟨entry, hentry, -⟩ := hfilled last (by simp)
          rw [hlast] at hentry
          cases hentry
    | some entry =>
      unfold LogManager.dropAbove
      by_cases habove : lastIndexKept < entry.id.index
      · rw [if_pos habove, ih]
        constructor
        · rintro ⟨⟨cut, rfl, hfilled⟩, hback⟩
          refine ⟨⟨cut ++ [some entry], by simp, ?_⟩, hback⟩
          intro slot hslot
          rcases List.mem_append.mp hslot with hslot | hslot
          · exact hfilled slot hslot
          · exact ⟨entry, List.mem_singleton.mp hslot, habove⟩
        · rintro ⟨⟨cut, hcut, hfilled⟩, hback⟩
          rcases List.eq_nil_or_concat cut with rfl | ⟨cut, last, rfl⟩
          · obtain ⟨e, he, hle⟩ := hback (some entry) (by
              rw [← List.append_nil kept, ← hcut]
              simp)
            cases he
            omega
          · rw [List.concat_eq_append, ← List.append_assoc] at hcut
            obtain ⟨rfl, -⟩ := List.append_inj' hcut rfl
            exact ⟨⟨cut, rfl, fun slot hslot => hfilled slot (by simp [hslot])⟩, hback⟩
      · rw [if_neg habove]
        have hself : some (some entry :: logs.reverse) = some kept.reverse ↔
            kept = logs ++ [some entry] := by
          rw [Option.some.injEq, ← List.reverse_inj]
          simp [eq_comm]
        rw [hself]
        constructor
        · rintro rfl
          refine ⟨⟨[], by simp, by simp⟩, ?_⟩
          intro slot hslot
          rw [List.getLast?_concat] at hslot
          cases hslot
          exact ⟨entry, rfl, by omega⟩
        · rintro ⟨⟨cut, hcut, hfilled⟩, hback⟩
          rcases List.eq_nil_or_concat cut with rfl | ⟨cut, last, rfl⟩
          · rw [List.append_nil] at hcut
            exact hcut.symm
          · exfalso
            have hlast : last = some entry := by
              have heq := congrArg List.getLast? hcut
              simpa using heq.symm
            obtain ⟨e, he, hlt⟩ := hfilled last (by simp)
            rw [hlast] at he
            cases he
            omega

theorem CutsTo.unique {k : Int} {logs kept kept' : List (Option LogEntry)}
    (h : CutsTo k logs kept) (h' : CutsTo k logs kept') : kept = kept' := by
  have heq := (dropAbove_iff.mpr h).symm.trans (dropAbove_iff.mpr h')
  exact List.reverse_injective (Option.some.inj heq)

end Cut

section Writes

variable {mem mem' : Memory} {first : Int} {entries : List LogEntry}

theorem writeSlot_defined_iff {entry : LogEntry} :
    (∃ mem', mem.writeSlot entry = some mem') ↔ mem.firstInMemory ≤ entry.id.index ∧
      entry.id.index ≤ mem.maxLogIndex ∧ mem.maxLogIndex - entry.id.index < 1024 := by
  have hlength : mem.firstInMemory = mem.maxLogIndex - mem.logsInMemory.length + 1 := rfl
  constructor
  · rintro ⟨mem', hrun⟩
    obtain ⟨logs, hstore, hrun⟩ := Option.bind_eq_some_iff.mp hrun
    obtain ⟨bitmap, hmark, -⟩ := Option.bind_eq_some_iff.mp hrun
    unfold store at hstore
    unfold mark at hmark
    split at hstore
    · split at hmark
      · omega
      · cases hmark
    · cases hstore
  · rintro ⟨hlo, hhi, hbit⟩
    obtain ⟨bitmap, hmark⟩ := mark_defined mem.dependencyBitmap
      (show 0 ≤ mem.maxLogIndex - entry.id.index by omega) hbit
    have hstore := store_defined (q := mem.logsInMemory) (d := entry.id.index - mem.firstInMemory)
      (some entry) (by omega) (by omega)
    unfold Memory.writeSlot
    rw [hstore, hmark]
    exact ⟨_, rfl⟩

/-- A batch can be written when the memory has the slots of its ends and the bitmap
reaches down to its first index. -/
private theorem writeSlots_defined_iff (hentries : Consecutive first entries) (hne : entries ≠ []) :
    (∃ mem', runEvents Memory.writeSlot mem entries = some mem') ↔ mem.firstInMemory ≤ first ∧
      first + entries.length - 1 ≤ mem.maxLogIndex ∧ mem.maxLogIndex - first < 1024 := by
  induction entries generalizing mem first with
  | nil => exact absurd rfl hne
  | cons entry rest ih =>
    obtain ⟨rfl, hrest⟩ := hentries
    rw [List.length_cons]
    push_cast
    by_cases hnil : rest = []
    · subst hnil
      have hone : (∃ mem', runEvents Memory.writeSlot mem [entry] = some mem') ↔
          ∃ mem', mem.writeSlot entry = some mem' := by
        simp [runEvents]
      rw [hone, writeSlot_defined_iff]
      simp only [List.length_nil, Nat.cast_zero]
      constructor
      · rintro ⟨hlo, hhi, hbit⟩
        exact ⟨hlo, by omega, hbit⟩
      · rintro ⟨hlo, hhi, hbit⟩
        exact ⟨hlo, by omega, hbit⟩
    · have hpos := List.length_pos_iff.mpr hnil
      constructor
      · rintro ⟨mem', hrun⟩
        obtain ⟨mid, hmid, hrun⟩ := runEvents_cons_eq_some.mp hrun
        obtain ⟨hlo, -, hbit⟩ := writeSlot_defined_iff.mp ⟨mid, hmid⟩
        obtain ⟨hmax, -, -, -⟩ := writeSlot_spec hmid
        obtain ⟨-, hhi, -⟩ := (ih hrest hnil).mp ⟨mem', hrun⟩
        exact ⟨hlo, by omega, hbit⟩
      · rintro ⟨hlo, hhi, hbit⟩
        obtain ⟨mid, hmid⟩ := writeSlot_defined_iff.mpr ⟨hlo, by omega, hbit⟩
        obtain ⟨hmax, hfirst, -, -⟩ := writeSlot_spec hmid
        obtain ⟨mem', hrun⟩ : ∃ mem', runEvents Memory.writeSlot mid rest = some mem' :=
          (ih hrest hnil).mpr ⟨by omega, by omega, by omega⟩
        exact ⟨mem', runEvents_cons_eq_some.mpr ⟨mid, hmid, hrun⟩⟩

private theorem advanceLast_defined_iff (mem : Memory) (last : Int) :
    (∃ last', mem.advanceLast (mem.maxLogIndex - last).toNat last = some last') ↔
      mem.maxLogIndex ≤ last ∨ mem.firstInMemory ≤ last + 1 := by
  have hlength : mem.firstInMemory = mem.maxLogIndex - mem.logsInMemory.length + 1 := rfl
  have hdefined : ∀ (n : Nat) (last : Int), last + n ≤ mem.maxLogIndex →
      mem.firstInMemory ≤ last + 1 → ∃ last', mem.advanceLast n last = some last' := by
    intro n
    induction n with
    | zero => exact fun last _ _ => ⟨last, rfl⟩
    | succ n ih =>
      intro last hhi hlo
      obtain ⟨slot, hslot⟩ : ∃ slot, item mem.logsInMemory (last - mem.firstInMemory + 1) =
        some slot := exists_item (by omega) (by push_cast at hhi; omega)
      obtain ⟨last', hlast'⟩ := ih (last + 1) (by push_cast at hhi; omega) (by omega)
      unfold Memory.advanceLast
      rw [hslot]
      cases slot with
      | none => exact ⟨last, rfl⟩
      | some entry => exact ⟨last', hlast'⟩
  constructor
  · rintro ⟨last', hrun⟩
    by_contra hnot
    rw [not_or] at hnot
    obtain ⟨n, hn⟩ : ∃ n, (mem.maxLogIndex - last).toNat = n + 1 :=
      ⟨(mem.maxLogIndex - last).toNat - 1, by omega⟩
    rw [hn] at hrun
    obtain ⟨slot, hslot, -⟩ := Option.bind_eq_some_iff.mp hrun
    have hbounds := item_eq_some_bounds hslot
    omega
  · rintro (hall | hlo)
    · rw [show (mem.maxLogIndex - last).toNat = 0 by omega]
      exact ⟨last, rfl⟩
    · by_cases hall : mem.maxLogIndex ≤ last
      · rw [show (mem.maxLogIndex - last).toNat = 0 by omega]
        exact ⟨last, rfl⟩
      · exact hdefined _ last (by omega) hlo

end Writes

section Manager

variable {γ : Type} {m : LogManager γ}

theorem unsafeGetTerm_defined (h : ∀ slot, m.logsInMemory.getLast? = some slot → slot.isSome)
    (index : Int) : ∃ term, m.unsafeGetTerm index = some term := by
  unfold LogManager.unsafeGetTerm Memory.getEntryFromMemory
  split
  · exact ⟨_, rfl⟩
  · split
    · exact ⟨_, rfl⟩
    · cases hlast : m.logsInMemory.getLast? with
      | none => exact ⟨_, rfl⟩
      | some slot =>
        obtain ⟨back, rfl⟩ := Option.isSome_iff_exists.mp (h slot hlast)
        dsimp only
        split
        · rename_i hrange
          obtain ⟨v, hv⟩ : ∃ v, item m.logsInMemory
              (index - (back.id.index - m.logsInMemory.length + 1)) = some v :=
            exists_item (by omega) (by omega)
          rw [hv]
          exact ⟨_, rfl⟩
        · exact ⟨_, rfl⟩

/-- The manager that a truncation leaves, up to its configurations and the disk queue. -/
structure Truncated (m : LogManager γ) (lastIndexKept : Int) (kept : List (Option LogEntry))
    (m' : LogManager γ) : Prop where
  memory : m'.toMemory = ⟨m.maxLogIndex, m.dependencyBitmap, kept⟩
  last : m'.lastLogIndex = lastIndexKept
  rest : m'.hasError = m.hasError ∧ m'.firstLogIndex = m.firstLogIndex ∧
    m'.storage = m.storage ∧ m'.appliedId = m.appliedId

theorem Truncated.maxLogIndex_eq {lastIndexKept : Int} {kept : List (Option LogEntry)}
    {m' : LogManager γ} (h : Truncated m lastIndexKept kept m') : m'.maxLogIndex = m.maxLogIndex := by
  rw [h.memory]

theorem unsafeTruncateSuffix_iff {lastIndexKept : Int} (happlied : m.appliedId.index ≤ lastIndexKept) :
    (∀ m', m.unsafeTruncateSuffix lastIndexKept = some m' →
      ∃ kept, CutsTo lastIndexKept m.logsInMemory kept ∧ Truncated m lastIndexKept kept m') ∧
    ∀ kept, CutsTo lastIndexKept m.logsInMemory kept →
      ∃ m', m.unsafeTruncateSuffix lastIndexKept = some m' := by
  unfold LogManager.unsafeTruncateSuffix
  rw [if_neg (by omega)]
  constructor
  · intro m' hrun
    obtain ⟨logs, hdrop, hrun⟩ := Option.bind_eq_some_iff.mp hrun
    obtain ⟨term, -, hrun⟩ := Option.bind_eq_some_iff.mp hrun
    cases hrun
    refine ⟨logs.reverse, dropAbove_iff.mp (by rw [List.reverse_reverse]; exact hdrop), ?_⟩
    exact ⟨rfl, rfl, rfl, rfl, rfl, rfl⟩
  · intro kept hcuts
    have hdrop := dropAbove_iff.mpr hcuts
    obtain ⟨term, hterm⟩ : ∃ term, { m with
        logsInMemory := kept.reverse.reverse
        lastLogIndex := lastIndexKept }.unsafeGetTerm lastIndexKept = some term := by
      apply unsafeGetTerm_defined
      intro slot hslot
      rw [List.reverse_reverse] at hslot
      obtain ⟨entry, rfl, -⟩ := hcuts.back slot hslot
      rfl
    exact ⟨_, Option.bind_eq_some_iff.mpr ⟨_, hdrop,
      Option.bind_eq_some_iff.mpr ⟨_, hterm, rfl⟩⟩⟩

theorem storeEntries_spec {first : Int} {entries : List LogEntry} {done : γ}
    (hentries : Consecutive first entries) (hne : entries ≠ [])
    (hend : first + entries.length - 1 ≤ m.maxLogIndex) {m' : LogManager γ}
    (hrun : m.storeEntries entries done = some m') :
    ∃ last, runEvents Memory.writeSlot m.toMemory entries = some m'.toMemory ∧
      m'.toMemory.advanceLast (m.maxLogIndex - m.lastLogIndex).toNat m.lastLogIndex = some last ∧
      m'.lastLogIndex = last ∧ m'.storage = m.storage ∧ m'.firstLogIndex = m.firstLogIndex := by
  rcases LogManager.storeEntries_cases hrun with
    ⟨rfl, -⟩ | ⟨front, back, mem, last, hfront, hback, hwrite, hadvance, rfl⟩
  · exact absurd rfl hne
  · have hbackIndex := hentries.back hback
    rw [fillTo_of_le (by omega)] at hwrite
    obtain ⟨hmax, -, -, -, -⟩ := writeSlots_spec hentries hwrite
    rw [hmax] at hadvance
    exact ⟨last, hwrite, hadvance, rfl, rfl, rfl⟩

theorem storeEntries_defined_iff {first : Int} {entries : List LogEntry} (done : γ)
    (hentries : Consecutive first entries) (hne : entries ≠ [])
    (hend : first + entries.length - 1 ≤ m.maxLogIndex) :
    (∃ m', m.storeEntries entries done = some m') ↔
      m.firstInMemory ≤ first ∧ m.maxLogIndex - first < 1024 ∧
        (m.maxLogIndex ≤ m.lastLogIndex ∨ m.firstInMemory ≤ m.lastLogIndex + 1) := by
  constructor
  · rintro ⟨m', hrun⟩
    obtain ⟨last, hwrite, hadvance, -, -, -⟩ := storeEntries_spec hentries hne hend hrun
    obtain ⟨hmax, hfirst, -, -, -⟩ := writeSlots_spec hentries hwrite
    obtain ⟨hlo, -, hbit⟩ := (writeSlots_defined_iff hentries hne).mp ⟨_, hwrite⟩
    rw [← hmax] at hadvance
    have hreach := (advanceLast_defined_iff m'.toMemory m.lastLogIndex).mp ⟨last, hadvance⟩
    rw [hmax, hfirst] at hreach
    exact ⟨hlo, hbit, hreach⟩
  · rintro ⟨hlo, hbit, hreach⟩
    obtain ⟨mem, hwrite⟩ := (writeSlots_defined_iff hentries hne).mpr ⟨hlo, hend, hbit⟩
    obtain ⟨hmax, hfirst, -, -, -⟩ := writeSlots_spec hentries hwrite
    obtain ⟨last, hadvance⟩ := (advanceLast_defined_iff mem m.lastLogIndex).mpr
      (by rw [hmax, hfirst]; exact hreach)
    cases entries with
    | nil => exact absurd rfl hne
    | cons front rest =>
      obtain ⟨back, hback⟩ : ∃ back, (front :: rest).getLast? = some back :=
        ⟨_, List.getLast?_eq_getLast_of_ne_nil (by simp)⟩
      have hbackIndex := hentries.back hback
      unfold LogManager.storeEntries
      rw [hback]
      refine ⟨_, Option.bind_eq_some_iff.mpr ⟨mem, ?_,
        Option.bind_eq_some_iff.mpr ⟨last, hadvance, rfl⟩⟩⟩
      show runEvents Memory.writeSlot (m.toMemory.fillTo back.id.index) (front :: rest) = _
      rw [fillTo_of_le (by omega)]
      exact hwrite

section Branches

variable {entries : List LogEntry} {front back : LogEntry} {ooRep : Bool} {done : γ}

theorem appendEntries_iff_resolve (herror : m.hasError = false)
    (hfront : entries.head? = some front) (hback : entries.getLast? = some back)
    {m' : LogManager γ} : m.appendEntries entries done ooRep = some (m', none) ↔
      ∃ mid stored, m.checkAndResolveConflict front back entries ooRep =
        some (.proceed mid stored) ∧ mid.storeEntries stored done = some m' := by
  unfold LogManager.appendEntries
  rw [if_neg (by simp [herror]), hfront, hback]
  constructor
  · intro hrun
    obtain ⟨r, hr, hrun⟩ := Option.bind_eq_some_iff.mp hrun
    cases r with
    | stop status => cases hrun
    | proceed mid stored =>
      obtain ⟨m'', hstore, heq⟩ := Option.map_eq_some_iff.mp hrun
      cases heq
      exact ⟨mid, stored, hr, hstore⟩
  · rintro ⟨mid, stored, hr, hstore⟩
    show (m.checkAndResolveConflict front back entries ooRep).bind _ = _
    rw [hr]
    show (mid.storeEntries stored done).map (·, none) = _
    rw [hstore]
    rfl

theorem checkAndResolveConflict_overlap (hzero : front.id.index ≠ 0)
    (hgap : ooRep = true ∨ front.id.index ≤ m.lastLogIndex + 1)
    (happlied : m.appliedId.index < back.id.index) (hnext : front.id.index ≠ m.maxLogIndex + 1)
    (hend : back.id.index ≤ m.maxLogIndex) :
    m.checkAndResolveConflict front back entries ooRep = m.resolveOverlap entries ooRep := by
  have hnogap : ¬ ((!ooRep) = true ∧ m.lastLogIndex + 1 < front.id.index) := by
    rintro ⟨hoff, hlt⟩
    rcases hgap with hon | hle
    · rw [hon] at hoff
      cases hoff
    · omega
  unfold LogManager.checkAndResolveConflict
  rw [if_neg hzero, if_neg hnogap, if_neg (by omega), if_neg hnext, if_neg (by omega)]

end Branches

end Manager

end HitConsistency.Log.SuffixTruncation
