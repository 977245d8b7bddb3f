/- GID: HitConsistency/Log/CrashRefinement
   digest: The segmented storage, over runs with crashes inside its operations, is a map from
   indexes to entries. -/

import HitConsistency.Log.CrashedAppend

set_option autoImplicit false
set_option relaxedAutoImplicit false

/-!
A crash leaves the directory behind the first actions of an operation, and a new storage
is constructed on it. The storage then reads as if the operation had been a smaller one:
fewer entries appended, fewer of the newest entries removed, or nothing done at all.
-/

namespace HitConsistency.Log.CrashRefinement

open HitConsistency.Base.GuardedRuns
open HitConsistency.Log.CrashedAppend (append_points appendActions reopened_view)
open HitConsistency.Log.CrashedTruncation
open HitConsistency.Log.Entry
open HitConsistency.Log.MemoryLog
open HitConsistency.Log.SegmentFile
open HitConsistency.Log.SegmentContents
open HitConsistency.Log.SegmentStorage
open HitConsistency.Log.StorageContents
open HitConsistency.Log.StorageRefinement (IndexedMap Operation Refines contents_written execute)
open HitConsistency.Log.StorageRestart (SameView Tidy init_tidy)

/-- An operation that returns, or one that a crash stops behind its first actions. A crash
behind none of them is a plain restart. -/
inductive Event
  | perform (flags : Flags) (op : Operation)
  | crash (flags : Flags) (op : Operation) (count : Nat) (cm : ConfigurationManager)

/-- What the first actions of an operation leave in the directory. -/
def crashed (flags : Flags) (codec : ConfigurationCodec) (s : SegmentLogStorage) :
    Operation → Nat → Directory
  | .append entries, count =>
      CrashedAppend.actAll s.directory ((appendActions flags codec s entries).take count)
  | .truncatePrefix k, count => actAll s.directory ((truncatePrefixActions s k).take count)
  | .truncateSuffix k, count => actAll s.directory ((truncateSuffixActions s k).take count)
  | .reset n, count => actAll s.directory ((resetActions s n).take count)

/-- A restart that fails ends the run. -/
def step (codec : ConfigurationCodec) (s : SegmentLogStorage) : Event → Option SegmentLogStorage
  | .perform flags op => execute flags codec s op
  | .crash flags op count cm => reopened codec cm (crashed flags codec s op count)

/-- Entries are complete, and a suffix is truncated within the log. -/
def Asked (s : SegmentLogStorage) : Operation → Prop
  | .append entries => ∀ entry ∈ entries, Storable entry ∧ entry.id.term ≠ 0
  | .truncateSuffix k => s.firstLogIndex - 1 ≤ k ∧ k ≤ s.lastLogIndex
  | .truncatePrefix _ | .reset _ => True

/-- A storage that loses files to a crash is one that would restart without. Inside a reset
no old entry may reach the new first index. -/
def Removable (s : SegmentLogStorage) (count : Nat) : Operation → Prop
  | .append _ => True
  | .truncatePrefix _ | .truncateSuffix _ => Tidy s
  | .reset n => Tidy s ∧ (count = 0 ∨ (resetActions s n).length ≤ count ∨ s.lastLogIndex < n)

def Permitted (s : SegmentLogStorage) : Event → Prop
  | .perform _ op => Asked s op
  | .crash _ op count _ => Asked s op ∧ Removable s count op

inductive Part : Operation → Operation → Prop
  | lost (op : Operation) : Part op (.append [])
  | whole (op : Operation) : Part op op
  | append {entries taken : List LogEntry} (h : taken <+: entries) :
      Part (.append entries) (.append taken)
  | truncateSuffix {k j : Int} (h : k ≤ j) : Part (.truncateSuffix k) (.truncateSuffix j)

inductive Became : Event → Operation → Prop
  | performed (flags : Flags) (op : Operation) : Became (.perform flags op) op
  | crashed {op part : Operation} (flags : Flags) (count : Nat) (cm : ConfigurationManager)
      (h : Part op part) : Became (.crash flags op count cm) part

section Decidable

instance askedDecidable (s : SegmentLogStorage) : ∀ op, Decidable (Asked s op)
  | .append entries =>
      inferInstanceAs (Decidable (∀ entry ∈ entries, Storable entry ∧ entry.id.term ≠ 0))
  | .truncateSuffix _ => inferInstanceAs (Decidable (_ ∧ _))
  | .truncatePrefix _ | .reset _ => inferInstanceAs (Decidable True)

instance removableDecidable (s : SegmentLogStorage) (count : Nat) :
    ∀ op, Decidable (Removable s count op)
  | .append _ => inferInstanceAs (Decidable True)
  | .truncatePrefix _ | .truncateSuffix _ => inferInstanceAs (Decidable (Tidy s))
  | .reset _ => inferInstanceAs (Decidable (Tidy s ∧ (_ ∨ _ ∨ _)))

instance permittedDecidable (s : SegmentLogStorage) : ∀ event, Decidable (Permitted s event)
  | .perform _ op => inferInstanceAs (Decidable (Asked s op))
  | .crash _ op count _ => inferInstanceAs (Decidable (Asked s op ∧ Removable s count op))

end Decidable

/-- The storage is fit for a restart and holds what the map holds. -/
structure Stands (codec : ConfigurationCodec) (s : SegmentLogStorage) (m : IndexedMap) :
    Prop where
  inv : StorageRestart.Inv codec s
  first : s.firstLogIndex = m.first
  last : s.lastLogIndex = m.last
  held : ∀ i, m.first ≤ i → contents codec s.live i = m.entries i

variable {flags : Flags} {codec : ConfigurationCodec} {cm : ConfigurationManager}
  {s s' : SegmentLogStorage} {m : IndexedMap} {entry : LogEntry} {entries : List LogEntry}

private theorem stands_fresh : Stands codec .fresh .fresh :=
  ⟨StorageRestart.inv_fresh, rfl, rfl, fun _ _ => rfl⟩

theorem Stands.getEntry (h : Stands codec s m) (i : Int) : s.getEntry codec i = some (m.get i) := by
  rw [h.inv.wellFormed.getEntry_eq, h.first, h.last, IndexedMap.get]
  split
  · rename_i hrange
    rw [h.held i hrange.1]
  · rfl

theorem Stands.refines (h : Stands codec s m) : Refines codec s m := by
  refine ⟨h.first, h.last, h.getEntry, fun i => ?_⟩
  rw [h.inv.wellFormed.getTerm_eq, h.getEntry, Option.map_some]

theorem Stands.above (h : Stands codec s m) {i : Int} (hlow : m.first ≤ i) (hi : m.last < i) :
    m.entries i = none := by
  rw [← h.held i hlow]
  exact h.inv.wellFormed.contents_above (by rw [h.last]; exact hi)

private theorem stands_of_getEntry (hinv : StorageRestart.Inv codec s)
    (hfirst : s.firstLogIndex = m.first) (hlast : s.lastLogIndex = m.last)
    (habove : ∀ i, m.first ≤ i → m.last < i → m.entries i = none)
    (hget : ∀ i, m.first ≤ i → i ≤ m.last → s.getEntry codec i = some (m.entries i)) :
    Stands codec s m := by
  refine ⟨hinv, hfirst, hlast, fun i hi => ?_⟩
  by_cases hi' : i ≤ m.last
  · have hread := hget i hi hi'
    rw [hinv.wellFormed.getEntry_eq, if_pos (by omega)] at hread
    exact Option.some.inj hread
  · rw [habove i hi (by omega)]
    exact hinv.wellFormed.contents_above (by omega)

private theorem Stands.of_view (h : Stands codec s m) (hinv : StorageRestart.Inv codec s')
    (hview : SameView codec s s') : Stands codec s' m := by
  refine stands_of_getEntry hinv (hview.first.trans h.first) (hview.last.trans h.last)
    (fun i => h.above) fun i hlow hhigh => ?_
  rw [hview.getEntry, h.getEntry, IndexedMap.get, if_pos ⟨hlow, hhigh⟩]

private theorem Stands.of_cutBack {k : Int} (h : Stands codec s m)
    (hinv : StorageRestart.Inv codec s')
    (hcut : CutBack codec s k s') : Stands codec s' (m.truncateSuffix s'.lastLogIndex) := by
  have hlast := hcut.last
  refine stands_of_getEntry hinv (hcut.first.trans h.first) rfl (fun i _ hi => ?_)
    fun i hlow hhigh => ?_
  · exact if_neg (by simpa [IndexedMap.truncateSuffix] using hi)
  · simp only [IndexedMap.truncateSuffix] at hlow hhigh ⊢
    rw [hcut.getEntry i hhigh, h.getEntry, IndexedMap.get, if_pos ⟨hlow, by rw [← h.last]; omega⟩,
      if_pos hhigh]

section Operations

theorem Stands.appendOne (h : Stands codec s m) (hstorable : Storable entry)
    (hterm : entry.id.term ≠ 0) (hstep : s.appendOne flags codec entry = some (s', true)) :
    Stands codec s' (m.appendOne entry) := by
  have hwf := h.inv.wellFormed
  obtain ⟨s1, o, before, behind, seg, seg', hroom, hwritten, hwf'⟩ := hwf.appendOne hstep
  obtain ⟨hwf1, -, hfirst1, hlast1, hcontents1⟩ := hwf.openSegment hroom
  have hcontents := contents_written hwf1 hwf' hwritten hstorable hterm
  refine ⟨h.inv.appendOne hstep, ?_, ?_, fun i hi => ?_⟩
  · rw [hwritten.first, hfirst1, h.first]
    rfl
  · rw [hwritten.last, hlast1, h.last]
    rfl
  · rw [hcontents, hcontents1, h.held i hi]
    simp only [IndexedMap.appendOne, Function.update_apply]

theorem Stands.appendEntries (h : Stands codec s m)
    (hasked : ∀ entry ∈ entries, Storable entry ∧ entry.id.term ≠ 0)
    (hstep : s.appendEntries flags codec entries = some (s', entries.length)) :
    Stands codec s' (m.apply (.append entries)) := by
  induction entries generalizing s m with
  | nil =>
    cases hstep
    exact h
  | cons entry rest ih =>
    simp only [SegmentLogStorage.appendEntries, Option.bind_eq_bind,
      Option.bind_eq_some_iff] at hstep
    obtain ⟨⟨s1, written⟩, hone, hstep⟩ := hstep
    cases written with
    | false => cases hstep
    | true =>
      obtain ⟨⟨s2, n⟩, hrest, heq⟩ := Option.map_eq_some_iff.mp hstep
      cases heq
      obtain ⟨hstorable, hterm⟩ := hasked entry (by simp)
      exact ih (h.appendOne hstorable hterm hone)
        (fun other hother => hasked other (by simp [hother])) hrest

theorem Stands.truncatePrefix (h : Stands codec s m) (k : Int) :
    Stands codec (s.truncatePrefix k) (m.truncatePrefix k) := by
  have hinv := h.inv.truncatePrefix k
  by_cases hk : k ≤ m.first
  · have hs : s.truncatePrefix k = s := by
      rw [SegmentLogStorage.truncatePrefix, if_pos (by rw [h.first]; exact hk)]
    rw [hs, IndexedMap.truncatePrefix, if_pos hk]
    exact h
  · obtain ⟨-, hfirst, hlast, -, hcontents⟩ := h.inv.wellFormed.truncatePrefix k
    have hfirst' := h.first
    have hlast' := h.last
    rw [IndexedMap.truncatePrefix, if_neg hk]
    refine ⟨hinv, by dsimp only; omega, by dsimp only; omega, fun i hi => ?_⟩
    dsimp only at hi ⊢
    rw [hcontents i hi, h.held i (by omega), if_pos hi]

theorem Stands.truncateSuffix {k : Int} (h : Stands codec s m) (hlow : s.firstLogIndex - 1 ≤ k)
    (hhigh : k ≤ s.lastLogIndex) (hstep : s.truncateSuffix k = some s') :
    Stands codec s' (m.truncateSuffix k) := by
  obtain ⟨s'', hs'', hwf', hfirst, hlast, -, -, hcontents⟩ :=
    h.inv.wellFormed.truncateSuffix hlow hhigh
  cases hs''.symm.trans hstep
  refine ⟨h.inv.truncateSuffix hlow hhigh hstep, hfirst.trans h.first, hlast, fun i hi => ?_⟩
  simp only [IndexedMap.truncateSuffix] at hi ⊢
  by_cases hik : i ≤ k
  · rw [if_pos hik, hcontents i (by rw [h.first]; exact hi) hik, h.held i hi]
  · rw [if_neg hik]
    exact hwf'.contents_above (by omega)

theorem Stands.reset (h : Stands codec s m) (n : Int) :
    Stands codec (s.reset n) (m.reset n) := by
  have hinv := h.inv.reset n
  unfold SegmentLogStorage.reset IndexedMap.reset at *
  split
  · exact h
  · rename_i hn
    rw [if_neg hn] at hinv
    exact ⟨hinv, rfl, rfl, fun _ _ => rfl⟩

theorem Stands.execute {op : Operation} (h : Stands codec s m) (hasked : Asked s op)
    (hstep : execute flags codec s op = some s') : Stands codec s' (m.apply op) := by
  cases op with
  | append entries =>
    simp only [StorageRefinement.execute, Option.bind_eq_bind, Option.bind_eq_some_iff] at hstep
    obtain ⟨⟨s1, count⟩, happend, hstep⟩ := hstep
    split at hstep
    · rename_i hcount
      cases hstep
      cases hcount
      exact h.appendEntries hasked happend
    · cases hstep
  | truncatePrefix k =>
    cases hstep
    exact h.truncatePrefix k
  | truncateSuffix k => exact h.truncateSuffix hasked.1 hasked.2 hstep
  | reset n =>
    cases hstep
    exact h.reset n

end Operations

section Crashes

private theorem Stands.crashAppend {count : Nat} (h : Stands codec s m)
    (hasked : ∀ entry ∈ entries, Storable entry ∧ entry.id.term ≠ 0)
    (hstep : reopened codec cm (crashed flags codec s (.append entries) count) = some s') :
    ∃ taken, taken <+: entries ∧ Stands codec s' (m.apply (.append taken)) := by
  obtain ⟨hcount, t, u, happended, hdirectory, hinvu, hview⟩ :=
    append_points h.inv (List.take_prefix count (appendActions flags codec s entries))
  generalize hk : ((appendActions flags codec s entries).take count).countP CrashedAppend.Writes = k
    at hcount happended
  rw [crashed, ← hdirectory] at hstep
  obtain ⟨hinv', hview'⟩ := reopened_view hinvu hstep
  have hall : s.appendEntries flags codec (entries.take k) =
      some (t, (entries.take k).length) := by
    rw [happended, List.length_take_of_le hcount]
  have hstands := h.appendEntries (fun other hother => hasked other (List.mem_of_mem_take hother))
    hall
  exact ⟨entries.take k, List.take_prefix k entries,
    (hstands.of_view hinvu hview).of_view hinv' hview'⟩

theorem Stands.restart (h : Stands codec s m) (hstep : reopened codec cm s.directory = some s') :
    Stands codec s' m := by
  obtain ⟨hinv', hview⟩ := reopened_view h.inv hstep
  exact h.of_view hinv' hview

private theorem Stands.crashPrefix {k : Int} {count : Nat} (h : Stands codec s m) (htidy : Tidy s)
    (hstep : reopened codec cm (crashed flags codec s (.truncatePrefix k) count) = some s') :
    Stands codec s' m ∨ Stands codec s' (m.truncatePrefix k) := by
  rw [crashed] at hstep
  by_cases hne : (truncatePrefixActions s k).take count = []
  · rw [hne] at hstep
    exact .inl (h.restart hstep)
  · rw [reopened_popped h.inv htidy (List.take_prefix count _) hne] at hstep
    exact .inr ((h.truncatePrefix k).restart hstep)

private theorem Stands.crashSuffix {k : Int} {count : Nat} (h : Stands codec s m) (htidy : Tidy s)
    (hlow : s.firstLogIndex - 1 ≤ k) (hhigh : k ≤ s.lastLogIndex)
    (hstep : reopened codec cm (crashed flags codec s (.truncateSuffix k) count) = some s') :
    ∃ j, k ≤ j ∧ Stands codec s' (m.truncateSuffix j) := by
  rw [crashed] at hstep
  rcases reopened_suffix h.inv htidy hlow hhigh
    (List.take_prefix count (truncateSuffixActions s k)) with
    ⟨-, hnone⟩ | ⟨-, t, hopen, hinv', hcut⟩
  · cases hnone.symm.trans hstep
  · cases hopen.symm.trans hstep
    exact ⟨s'.lastLogIndex, hcut.kept, h.of_cutBack hinv' hcut⟩

private theorem Stands.crashReset {n : Int} {count : Nat} (h : Stands codec s m)
    (hremovable : Removable s count (.reset n))
    (hstep : reopened codec cm (crashed flags codec s (.reset n) count) = some s') :
    Stands codec s' m ∨ Stands codec s' (m.reset n) := by
  obtain ⟨htidy, hcases⟩ := hremovable
  rw [crashed] at hstep
  by_cases hne : (resetActions s n).take count = []
  · rw [hne] at hstep
    exact .inl (h.restart hstep)
  · have hharmless : (resetActions s n).take count = resetActions s n ∨ s.lastLogIndex < n := by
      rcases hcases with rfl | hall | hbelow
      · exact absurd List.take_zero hne
      · exact .inl (List.take_of_length_le hall)
      · exact .inr hbelow
    have hdone : reopened codec cm (actAll s.directory ((resetActions s n).take count)) =
        some (s.reset n) :=
      (reopened_reset h.inv htidy (List.take_prefix count _) hne).mpr hharmless
    cases hdone.symm.trans hstep
    exact .inr (h.reset n)

end Crashes

private theorem stands_step (s : SegmentLogStorage) (m : IndexedMap) (event : Event)
    (s' : SegmentLogStorage) (h : Stands codec s m) (hpermitted : Permitted s event)
    (hstep : step codec s event = some s') :
    ∃ op, Became event op ∧ Stands codec s' (m.apply op) := by
  cases event with
  | perform flags op => exact ⟨op, .performed flags op, h.execute hpermitted hstep⟩
  | crash flags op count cm =>
    obtain ⟨hasked, hremovable⟩ := hpermitted
    have hpart : ∃ part, Part op part ∧ Stands codec s' (m.apply part) := by
      cases op with
      | append entries =>
        obtain ⟨taken, htaken, hstands⟩ := h.crashAppend hasked hstep
        exact ⟨_, .append htaken, hstands⟩
      | truncatePrefix k =>
        rcases h.crashPrefix hremovable hstep with hlost | hwhole
        · exact ⟨_, .lost _, hlost⟩
        · exact ⟨_, .whole _, hwhole⟩
      | truncateSuffix k =>
        obtain ⟨j, hj, hstands⟩ := h.crashSuffix hremovable hasked.1 hasked.2 hstep
        exact ⟨_, .truncateSuffix hj, hstands⟩
      | reset n =>
        rcases h.crashReset hremovable hstep with hlost | hwhole
        · exact ⟨_, .lost _, hlost⟩
        · exact ⟨_, .whole _, hwhole⟩
    obtain ⟨part, hpart, hstands⟩ := hpart
    exact ⟨part, .crashed flags count cm hpart, hstands⟩

/-- In every run with crashes inside operations, the storage reads as a map to which the same
operations were applied, each stopped one cut down to a part of it. -/
theorem crash_run_refines (codec : ConfigurationCodec) (events : List Event)
    (s : SegmentLogStorage) (hpermitted : Guarded (step codec) Permitted .fresh events)
    (hrun : runEvents (step codec) .fresh events = some s) :
    ∃ ops, List.Forall₂ Became events ops ∧
      Refines codec s (ops.foldl IndexedMap.apply .fresh) := by
  obtain ⟨ops, hbecame, hstands⟩ := matched_of_step stands_step stands_fresh hpermitted hrun
  exact ⟨ops, hbecame, hstands.refines⟩

/-- One entry fills a segment. -/
private def oneEach : Flags := ⟨40, 100⟩

private def stored (index : Int) : LogEntry := ⟨.data, ⟨index, 1⟩, 0, none, none, [9]⟩

/-- A record is lost, a segment below the first index is still there, one of two segments is
gone from the back, and every file is left behind a reset. -/
private def crashRun : List Event :=
  [.perform oneEach (.append [stored 1, stored 2, stored 3]),
    .crash oneEach (.append [stored 4, stored 5]) 5 .new,
    .perform oneEach (.append [stored 5, stored 6, stored 7]),
    .crash oneEach (.truncatePrefix 3) 2 .new, .crash oneEach (.truncateSuffix 4) 2 .new,
    .crash oneEach (.reset 9) 1 .new]

theorem crash_run_refines_everywhere : ∃ s ops, runEvents (step .unary) .fresh crashRun = some s ∧
    List.Forall₂ Became crashRun ops ∧
    Refines .unary s (ops.foldl IndexedMap.apply .fresh) := by
  obtain ⟨s, hrun⟩ := Option.isSome_iff_exists.mp
    (show (runEvents (step .unary) .fresh crashRun).isSome by decide +kernel)
  obtain ⟨ops, hbecame, hrefines⟩ := crash_run_refines .unary crashRun s (by decide +kernel) hrun
  exact ⟨s, ops, hrun, hbecame, hrefines⟩

section Durability

def operationOf : Event → Operation
  | .perform _ op => op
  | .crash _ op _ _ => op

/-- An operation does not remove an entry or put another in its place. -/
def Spares (entry : LogEntry) : Operation → Prop
  | .append entries => ∀ other ∈ entries, other.id.index = entry.id.index → other = entry
  | .truncatePrefix k => k ≤ entry.id.index
  | .truncateSuffix k => entry.id.index ≤ k
  | .reset n => n ≤ 0

instance sparesDecidable (entry : LogEntry) : ∀ op, Decidable (Spares entry op)
  | .append entries => inferInstanceAs
      (Decidable (∀ other ∈ entries, other.id.index = entry.id.index → other = entry))
  | .truncatePrefix _ | .truncateSuffix _ | .reset _ => inferInstanceAs (Decidable (_ ≤ _))

structure Holds (m : IndexedMap) (entry : LogEntry) : Prop where
  first : m.first ≤ entry.id.index
  last : entry.id.index ≤ m.last
  entries : m.entries entry.id.index = some entry

private theorem Part.spares {op part : Operation} (h : Part op part) (hspares : Spares entry op) :
    Spares entry part := by
  cases h with
  | lost => exact fun other hother => nomatch hother
  | whole => exact hspares
  | append htaken => exact fun other hother => hspares other (htaken.subset hother)
  | truncateSuffix hle => exact le_trans hspares hle

private theorem Became.spares {event : Event} {op : Operation} (h : Became event op)
    (hspares : Spares entry (operationOf event)) : Spares entry op := by
  cases h with
  | performed => exact hspares
  | crashed _ _ _ hpart => exact hpart.spares hspares

theorem Holds.appendOne {other : LogEntry} (h : Holds m entry)
    (hother : other.id.index = entry.id.index → other = entry) :
    Holds (m.appendOne other) entry := by
  refine ⟨h.first, le_max_of_le_left h.last, ?_⟩
  simp only [IndexedMap.appendOne, Function.update_apply]
  split
  · rename_i hindex
    rw [hother hindex.symm]
  · exact h.entries

theorem Holds.apply {op : Operation} (h : Holds m entry) (hspares : Spares entry op) :
    Holds (m.apply op) entry := by
  cases op with
  | append entries =>
    rw [IndexedMap.apply]
    induction entries generalizing m with
    | nil => exact h
    | cons other rest ih =>
      exact ih (h.appendOne (hspares other (by simp)))
        fun later hlater => hspares later (by simp [hlater])
  | truncatePrefix k =>
    rw [IndexedMap.apply, IndexedMap.truncatePrefix]
    split
    · exact h
    · exact ⟨hspares, le_max_of_le_left h.last, (if_pos hspares).trans h.entries⟩
  | truncateSuffix k => exact ⟨h.first, hspares, (if_pos hspares).trans h.entries⟩
  | reset n =>
    have hnone : n ≤ 0 := hspares
    rw [IndexedMap.apply, IndexedMap.reset, if_pos hnone]
    exact h

theorem holds_append (hfirst : m.first ≤ entry.id.index) (hmem : entry ∈ entries)
    (hspares : Spares entry (.append entries)) : Holds (m.apply (.append entries)) entry := by
  rw [IndexedMap.apply]
  induction entries generalizing m with
  | nil => cases hmem
  | cons head rest ih =>
    have hrest : Spares entry (.append rest) := fun other hother => hspares other (by simp [hother])
    by_cases hhead : head = entry
    · have hheld : Holds (m.appendOne head) entry := by
        refine ⟨hfirst, ?_, ?_⟩
        · rw [hhead]
          exact le_max_right _ _
        · rw [hhead]
          exact Function.update_self _ _ _
      exact hheld.apply hrest
    · exact ih hfirst ((List.mem_cons.mp hmem).resolve_left (Ne.symm hhead)) hrest

/-- The map stands for the storage, and the entry is in it. -/
structure Carries (codec : ConfigurationCodec) (entry : LogEntry) (s : SegmentLogStorage)
    (m : IndexedMap) : Prop where
  stands : Stands codec s m
  holds : Holds m entry

private theorem carries_step (s : SegmentLogStorage) (m : IndexedMap) (event : Event)
    (s' : SegmentLogStorage) (h : Carries codec entry s m)
    (hguard : Permitted s event ∧ Spares entry (operationOf event))
    (hstep : step codec s event = some s') :
    ∃ op, Became event op ∧ Carries codec entry s' (m.apply op) := by
  obtain ⟨op, hbecame, hstands⟩ := stands_step s m event s' h.stands hguard.1 hstep
  exact ⟨op, hbecame, hstands, h.holds.apply (hbecame.spares hguard.2)⟩

/-- An entry whose append has returned is read at the end of every later run, whatever
crashes there are in it, unless the entry is truncated, reset or written over. -/
theorem acknowledged_survives (codec : ConfigurationCodec) (events later : List Event)
    (flags : Flags) (entries : List LogEntry) (entry : LogEntry) (s : SegmentLogStorage)
    (hpermitted : Guarded (step codec) Permitted .fresh
      (events ++ .perform flags (.append entries) :: later))
    (hrun : runEvents (step codec) .fresh
      (events ++ .perform flags (.append entries) :: later) = some s)
    (hmem : entry ∈ entries)
    (hfirst : ∀ t ∈ runEvents (step codec) .fresh events, t.firstLogIndex ≤ entry.id.index)
    (hspares : ∀ event ∈ Event.perform flags (.append entries) :: later,
      Spares entry (operationOf event)) :
    s.getEntry codec entry.id.index = some (some entry) := by
  obtain ⟨t, hbefore, hbehind⟩ := runEvents_append_eq_some.mp hrun
  obtain ⟨u, hperform, hlater⟩ := runEvents_cons_eq_some.mp hbehind
  obtain ⟨hperformed, hpermittedLater⟩ := guarded_append_right hpermitted hbefore
  obtain ⟨ops, -, hstands⟩ :=
    matched_of_step stands_step stands_fresh (guarded_append_left hpermitted) hbefore
  have hbatch : Spares entry (.append entries) :=
    hspares (.perform flags (.append entries)) (by simp)
  have hheld := holds_append (hstands.first ▸ hfirst t hbefore) hmem hbatch
  have hasked : Asked t (.append entries) := hperformed
  have hbegin : Carries codec entry u _ := ⟨hstands.execute hasked hperform, hheld⟩
  have hspared : Guarded (step codec) (fun _ event => Spares entry (operationOf event)) u later :=
    guarded_of_forall fun event hevent => hspares event (List.mem_cons_of_mem _ hevent)
  obtain ⟨more, -, hend⟩ := matched_of_step carries_step hbegin
    (guarded_and.mpr ⟨hpermittedLater u hperform, hspared⟩) hlater
  rw [hend.stands.getEntry, IndexedMap.get, if_pos ⟨hend.holds.first, hend.holds.last⟩,
    hend.holds.entries]

/-- A crash inside an append, one inside a prefix truncation and one inside a suffix
truncation. -/
private def crashesBehind : List Event :=
  [.crash oneEach (.append [stored 4, stored 5]) 5 .new,
    .crash oneEach (.truncatePrefix 3) 2 .new, .crash oneEach (.truncateSuffix 3) 1 .new]

theorem acknowledged_survives_crashes : ∃ s, runEvents (step .unary) .fresh
      ([] ++ .perform oneEach (.append [stored 1, stored 2, stored 3]) :: crashesBehind) = some s ∧
    s.getEntry .unary 3 = some (some (stored 3)) := by
  obtain ⟨s, hrun⟩ := Option.isSome_iff_exists.mp (show (runEvents (step .unary) .fresh
    ([] ++ .perform oneEach (.append [stored 1, stored 2, stored 3]) :: crashesBehind)).isSome by
      decide +kernel)
  exact ⟨s, hrun, acknowledged_survives .unary [] crashesBehind oneEach
    [stored 1, stored 2, stored 3] (stored 3) s (by decide +kernel) hrun (by simp)
    (by decide +kernel) (by decide +kernel)⟩

end Durability

end HitConsistency.Log.CrashRefinement
