/- GID: HitConsistency/Log/StoredBatches
   digest: What an append that truncates nothing does to every slot and every bit. -/

import HitConsistency.Log.KeptEntries
import HitConsistency.Log.OutOfOrderAppend

set_option autoImplicit false
set_option relaxedAutoImplicit false

/-!
The branches of an append prepare the memory in different ways: slots are pushed
empty, or already with entries of the batch. Behind the writes the difference is gone.
-/

namespace HitConsistency.Log.StoredBatches

open HitConsistency.Base.GuardedRuns
open HitConsistency.Base.IndexedDeque
open HitConsistency.Base.SlidingBitmap
open HitConsistency.Log.Entry
open HitConsistency.Log.KeptEntries
open HitConsistency.Log.MemoryLog
open HitConsistency.Log.OutOfOrderAppend

/-- The slot of an index; the outer `none` is a subscript out of range. -/
def slot (mem : Memory) (i : Int) : Option (Option LogEntry) :=
  item mem.logsInMemory (i - mem.firstInMemory)

def bit (mem : Memory) (i : Int) : Bool := present mem.dependencyBitmap mem.maxLogIndex i

theorem getLast_eq_slot (mem : Memory) (hne : mem.logsInMemory ≠ []) :
    mem.logsInMemory.getLast? = slot mem mem.maxLogIndex := by
  have hpos := List.length_pos_iff.mpr hne
  rw [List.getLast?_eq_getElem?]
  unfold slot item Memory.firstInMemory
  rw [if_pos (by omega)]
  congr 1
  omega

theorem getEntryFromMemory_eq {mem : Memory}
    (hback : mem.logsInMemory ≠ [] → ∃ entry, slot mem mem.maxLogIndex = some (some entry) ∧
      entry.id.index = mem.maxLogIndex) {i : Int} (hhi : i ≤ mem.maxLogIndex) :
    mem.getEntryFromMemory i = if mem.firstInMemory ≤ i then slot mem i else some none := by
  unfold Memory.getEntryFromMemory
  by_cases hne : mem.logsInMemory = []
  · have hfirst : mem.firstInMemory = mem.maxLogIndex + 1 := by
      unfold Memory.firstInMemory
      rw [hne]
      simp
    rw [hne, if_neg (by omega)]
    rfl
  · obtain ⟨back, hslot, hindex⟩ := hback hne
    rw [getLast_eq_slot _ hne, hslot]
    dsimp only
    have hfirst : back.id.index - mem.logsInMemory.length + 1 = mem.firstInMemory := by
      rw [hindex]
      rfl
    rw [hfirst, hindex]
    by_cases hlo : mem.firstInMemory ≤ i
    · rw [if_pos ⟨hlo, hhi⟩, if_pos hlo]
      rfl
    · rw [if_neg (fun hboth => hlo hboth.1), if_neg hlo]

/-- Slots were pushed behind the largest index, empty or with entries of the batch. -/
structure Prepared (entries : List LogEntry) (mem mem' : Memory) : Prop where
  first : mem'.firstInMemory = mem.firstInMemory
  grows : mem.maxLogIndex ≤ mem'.maxLogIndex
  below : ∀ i, i ≤ mem.maxLogIndex → slot mem' i = slot mem i
  above : ∀ i, mem.maxLogIndex < i → i ≤ mem'.maxLogIndex → ¬ Has entries i →
    slot mem' i = some none
  bits : ∀ i, mem'.maxLogIndex - i < 1024 → ¬ Has entries i → bit mem' i = bit mem i

namespace Prepared

variable {entries : List LogEntry} {mem mid mem' : Memory}

theorem refl (entries : List LogEntry) (mem : Memory) : Prepared entries mem mem where
  first := rfl
  grows := le_refl _
  below := fun _ _ => rfl
  above := fun i hlo hhi => by omega
  bits := fun _ _ _ => rfl

theorem trans (h : Prepared entries mem mid) (h' : Prepared entries mid mem') :
    Prepared entries mem mem' := by
  have hgrows := h.grows
  have hgrows' := h'.grows
  refine ⟨h'.first.trans h.first, le_trans hgrows hgrows', ?_, ?_, ?_⟩
  · intro i hi
    exact (h'.below i (by omega)).trans (h.below i hi)
  · intro i hlo hhi hnot
    by_cases hmid : i ≤ mid.maxLogIndex
    · exact (h'.below i hmid).trans (h.above i hlo hmid hnot)
    · exact h'.above i (by omega) hhi hnot
  · intro i hi hnot
    exact (h'.bits i hi hnot).trans (h.bits i (by omega) hnot)

theorem pushSlot (mem : Memory) {pushed : Option LogEntry}
    (hpushed : ∀ entry ∈ pushed, entry ∈ entries ∧ entry.id.index = mem.maxLogIndex + 1) :
    Prepared entries mem (mem.pushSlot pushed) := by
  have htop : (mem.pushSlot pushed).maxLogIndex = mem.maxLogIndex + 1 := rfl
  have hslot : ∀ i, slot (mem.pushSlot pushed) i =
      if i = mem.maxLogIndex + 1 then some pushed else slot mem i := item_pushSlot mem pushed
  refine ⟨firstInMemory_pushSlot mem pushed, by omega, ?_, ?_, ?_⟩
  · intro i hi
    rw [hslot, if_neg (by omega)]
  · intro i hlo hhi hnot
    rw [hslot, if_pos (by omega)]
    cases pushed with
    | none => rfl
    | some entry =>
      obtain ⟨hmem, hindex⟩ := hpushed entry rfl
      exact absurd ⟨entry, hmem, by omega⟩ hnot
  · intro i hi hnot
    rcases lt_trichotomy i (mem.maxLogIndex + 1) with hlt | rfl | hgt
    · exact present_shiftIn_below _ _ (by omega) (by omega)
    · have hnew : bit (mem.pushSlot pushed) (mem.maxLogIndex + 1) = pushed.isSome :=
        present_shiftIn_top (by decide) _ _ _
      have hold : bit mem (mem.maxLogIndex + 1) = false := present_of_top_lt _ (by omega)
      rw [hnew, hold]
      cases pushed with
      | none => rfl
      | some entry =>
        obtain ⟨hmem, hindex⟩ := hpushed entry rfl
        exact absurd ⟨entry, hmem, hindex⟩ hnot
    · have hnew : bit (mem.pushSlot pushed) i = false := present_of_top_lt _ (by omega)
      have hold : bit mem i = false := present_of_top_lt _ (by omega)
      rw [hnew, hold]

theorem fillTo (entries : List LogEntry) (mem : Memory) (index : Int) :
    Prepared entries mem (mem.fillTo index) := by
  unfold Memory.fillTo
  induction (index - mem.maxLogIndex).toNat generalizing mem with
  | zero => exact .refl entries mem
  | succ n ih =>
    rw [Function.iterate_succ_apply]
    exact trans (pushSlot mem (by rintro _ ⟨⟩)) (ih _)

private theorem maxLogIndex_fillTo (mem : Memory) (index : Int) :
    (mem.fillTo index).maxLogIndex = max mem.maxLogIndex index := by
  have hfill := maxLogIndex_fill (index - mem.maxLogIndex).toNat mem
  unfold Memory.fillTo
  omega

theorem extend {batch : List LogEntry} {n : Nat} (hsub : ∀ entry ∈ batch, entry ∈ entries)
    (hrun : Memory.extend n mem batch = some mem') : Prepared entries mem mem' := by
  induction n generalizing mem batch with
  | zero =>
    cases hrun
    exact .refl entries _
  | succ n ih =>
    cases batch with
    | nil => cases hrun
    | cons entry rest =>
      rw [Memory.extend] at hrun
      split at hrun
      · rename_i hindex
        refine trans (pushSlot mem ?_) (ih (fun e he => hsub e (by simp [he])) hrun)
        rintro _ ⟨⟩
        exact ⟨hsub entry (by simp), hindex⟩
      · exact trans (pushSlot mem (by rintro _ ⟨⟩)) (ih hsub hrun)

theorem pushAll {batch : List LogEntry} (hsub : ∀ entry ∈ batch, entry ∈ entries)
    (hbatch : Consecutive (mem.maxLogIndex + 1) batch) :
    Prepared entries mem (batch.foldl (fun mem entry => mem.pushSlot (some entry)) mem) ∧
      (batch.foldl (fun mem entry => mem.pushSlot (some entry)) mem).maxLogIndex =
        mem.maxLogIndex + batch.length := by
  induction batch generalizing mem with
  | nil => exact ⟨.refl entries mem, by simp⟩
  | cons entry rest ih =>
    obtain ⟨hindex, hrest⟩ := hbatch
    have hpush : Prepared entries mem (mem.pushSlot (some entry)) := by
      apply pushSlot
      rintro _ ⟨⟩
      exact ⟨hsub entry (by simp), hindex⟩
    have htop : (mem.pushSlot (some entry)).maxLogIndex = mem.maxLogIndex + 1 := rfl
    have hnext : Consecutive ((mem.pushSlot (some entry)).maxLogIndex + 1) rest := hrest
    obtain ⟨hprepared, hmax⟩ := ih (fun e he => hsub e (by simp [he])) hnext
    refine ⟨trans hpush hprepared, ?_⟩
    rw [List.foldl_cons, hmax, htop, List.length_cons]
    push_cast
    omega

end Prepared

/-- The entries of the batch are in their slots and have their bits; the slots that were
added for other indexes are empty. -/
structure Took (entries : List LogEntry) (mem mem' : Memory) : Prop where
  first : mem'.firstInMemory = mem.firstInMemory
  grows : mem.maxLogIndex ≤ mem'.maxLogIndex
  top : mem'.maxLogIndex = mem.maxLogIndex ∨ Has entries mem'.maxLogIndex
  taken : ∀ entry ∈ entries, slot mem' entry.id.index = some (some entry)
  below : ∀ i, i ≤ mem.maxLogIndex → ¬ Has entries i → slot mem' i = slot mem i
  above : ∀ i, mem.maxLogIndex < i → i ≤ mem'.maxLogIndex → ¬ Has entries i →
    slot mem' i = some none
  bits : ∀ i, mem'.maxLogIndex - i < 1024 →
    (bit mem' i = true ↔ Has entries i ∨ bit mem i = true)

theorem writeSlot_spec {mem mem' : Memory} {entry : LogEntry}
    (hrun : mem.writeSlot entry = some mem') :
    mem'.maxLogIndex = mem.maxLogIndex ∧ mem'.firstInMemory = mem.firstInMemory ∧
      (∀ i, slot mem' i = if i = entry.id.index then some (some entry) else slot mem i) ∧
      ∀ i, bit mem' i = (decide (i = entry.id.index) || bit mem i) := by
  obtain ⟨logs, hstore, hrun⟩ := Option.bind_eq_some_iff.mp hrun
  obtain ⟨bitmap, hmark, hrun⟩ := Option.bind_eq_some_iff.mp hrun
  cases hrun
  have hfirst : (⟨mem.maxLogIndex, bitmap, logs⟩ : Memory).firstInMemory = mem.firstInMemory := by
    simp [Memory.firstInMemory, store_length hstore]
  refine ⟨rfl, hfirst, ?_, present_mark hmark⟩
  intro i
  unfold slot
  rw [hfirst, item_store hstore]
  by_cases hi : i = entry.id.index
  · rw [if_pos (by omega), if_pos hi]
  · rw [if_neg (by omega), if_neg hi]

theorem writeSlots_spec {mem mem' : Memory} {first : Int} {entries : List LogEntry}
    (hentries : Consecutive first entries)
    (hrun : runEvents Memory.writeSlot mem entries = some mem') :
    mem'.maxLogIndex = mem.maxLogIndex ∧ mem'.firstInMemory = mem.firstInMemory ∧
      (∀ entry ∈ entries, slot mem' entry.id.index = some (some entry)) ∧
      (∀ i, ¬ Has entries i → slot mem' i = slot mem i) ∧
      ∀ i, bit mem' i = true ↔ Has entries i ∨ bit mem i = true := by
  induction entries generalizing mem first with
  | nil =>
    cases hrun
    exact ⟨rfl, rfl, by simp, fun _ _ => rfl, fun i => by simp [Has]⟩
  | cons entry rest ih =>
    obtain ⟨hindex, hrest⟩ := hentries
    obtain ⟨mid, hmid, hrun⟩ := runEvents_cons_eq_some.mp hrun
    obtain ⟨hmax, hfirst, hslot, hbit⟩ := writeSlot_spec hmid
    obtain ⟨hmax', hfirst', htaken, hother, hbits⟩ := ih hrest hrun
    have hhas : ∀ i, Has (entry :: rest) i ↔ entry.id.index = i ∨ Has rest i := by
      simp [Has]
    refine ⟨hmax'.trans hmax, hfirst'.trans hfirst, ?_, ?_, ?_⟩
    · intro e he
      rcases List.mem_cons.mp he with rfl | he
      · -- The indexes of the rest lie behind the head's.
        have hnot : ¬ Has rest e.id.index := by
          rw [hrest.has_iff]
          omega
        rw [hother _ hnot, hslot, if_pos rfl]
      · exact htaken e he
    · intro i hnot
      rw [hhas, not_or] at hnot
      rw [hother i hnot.2, hslot, if_neg (Ne.symm hnot.1)]
    · intro i
      rw [hbits, hbit, hhas, Bool.or_eq_true, decide_eq_true_eq]
      have hcomm : i = entry.id.index ↔ entry.id.index = i := eq_comm
      tauto

theorem Prepared.took {mem mid mem' : Memory} {first : Int} {entries : List LogEntry}
    (h : Prepared entries mem mid)
    (htop : mid.maxLogIndex = mem.maxLogIndex ∨ Has entries mid.maxLogIndex)
    (hentries : Consecutive first entries)
    (hrun : runEvents Memory.writeSlot mid entries = some mem') : Took entries mem mem' := by
  obtain ⟨hmax, hfirst, htaken, hother, hbits⟩ := writeSlots_spec hentries hrun
  have hgrows := h.grows
  refine ⟨hfirst.trans h.first, by omega, hmax ▸ htop, htaken, ?_, ?_, ?_⟩
  · intro i hi hnot
    exact (hother i hnot).trans (h.below i hi)
  · intro i hlo hhi hnot
    exact (hother i hnot).trans (h.above i hlo (by omega) hnot)
  · intro i hi
    rw [hbits]
    by_cases hhas : Has entries i
    · simp [hhas]
    · rw [h.bits i (by omega) hhas]

theorem Took.nothing (mem : Memory) : Took [] mem mem where
  first := rfl
  grows := le_refl _
  top := .inl rfl
  taken := by simp
  below := fun _ _ _ => rfl
  above := fun i hlo hhi => by omega
  bits := fun i _ => by simp [Has]

section Append

variable {γ : Type}

/-- The batch takes the branch that truncates the log: it ends at or below the largest
index, and an entry at or below the last index is the first in conflict. -/
def truncates (m : LogManager γ) (entries : List LogEntry) (ooRep : Bool) : Bool :=
  match entries.head?, entries.getLast?, m.findConflict ooRep entries with
  | some front, some back, some n =>
      !m.hasError && decide (front.id.index ≠ 0) && decide (m.appliedId.index < back.id.index) &&
        decide (back.id.index ≤ m.maxLogIndex) &&
        (entries[n]?).any fun entry => entry.id.index ≤ m.lastLogIndex
  | _, _, _ => false

/-- What the callers promise of a batch: consecutive indexes from 1 on, or none at all. -/
def Promised (entries : List LogEntry) : Prop :=
  ∀ front ∈ entries.head?, front.id.index = 0 ∨
    1 ≤ front.id.index ∧ Consecutive front.id.index entries

instance promisedDecidable (entries : List LogEntry) : Decidable (Promised entries) :=
  inferInstanceAs (Decidable (∀ front ∈ entries.head?, _))

/-- The manager behind an append: the batch that was stored, and what it did. -/
structure Appended (m : LogManager γ) (stored : List LogEntry) (done : γ) (m' : LogManager γ) :
    Prop where
  took : Took stored m.toMemory m'.toMemory
  indexes : ∃ first, Consecutive first stored
  positive : ∀ entry ∈ stored, 1 ≤ entry.id.index
  last : m.lastLogIndex ≤ m'.lastLogIndex
  queue : ∃ first, m'.diskQueue = m.diskQueue ++ [.append ⟨first, stored, done⟩]
  rest : m' = { m with
    toMemory := m'.toMemory
    lastLogIndex := m'.lastLogIndex
    configManager := m'.configManager
    diskQueue := m'.diskQueue }

variable {m m' : LogManager γ} {entries : List LogEntry} {done : γ} {ooRep : Bool}

private theorem appended_of_storeEntries {base mid : LogManager γ} {first : Int}
    (hbase : mid = { base with toMemory := mid.toMemory, lastLogIndex := mid.lastLogIndex })
    (hlast : base.lastLogIndex ≤ mid.lastLogIndex)
    (hprepared : Prepared entries base.toMemory mid.toMemory)
    (htop : mid.maxLogIndex = base.maxLogIndex ∨ Has entries mid.maxLogIndex)
    (hentries : Consecutive first entries) (hfirst : 1 ≤ first)
    (hrun : mid.storeEntries entries done = some m') : Appended base entries done m' := by
  have hpositive : ∀ entry ∈ entries, 1 ≤ entry.id.index := by
    intro entry hentry
    have hhas := (hentries.has_iff entry.id.index).mp ⟨entry, hentry, rfl⟩
    omega
  rcases LogManager.storeEntries_cases hrun with
    ⟨rfl, rfl⟩ | ⟨front, back, mem, last, hfront, hback, hwrite, hadvance, rfl⟩
  · refine ⟨hprepared.took htop hentries rfl, ⟨first, hentries⟩, hpositive, hlast, ⟨0, ?_⟩, ?_⟩
    · rw [hbase]
      rfl
    · rw [hbase]
      rfl
  · have hfill := hprepared.trans (.fillTo entries mid.toMemory back.id.index)
    have hmax := Prepared.maxLogIndex_fillTo mid.toMemory back.id.index
    have hfilled : (mid.toMemory.fillTo back.id.index).maxLogIndex = base.maxLogIndex ∨
        Has entries (mid.toMemory.fillTo back.id.index).maxLogIndex := by
      rw [hmax]
      rcases le_total mid.maxLogIndex back.id.index with hle | hle
      · rw [max_eq_right hle]
        exact .inr ⟨back, List.mem_of_getLast? hback, rfl⟩
      · rw [max_eq_left hle]
        exact htop
    refine ⟨hfill.took hfilled hentries hwrite, ⟨first, hentries⟩, hpositive,
      le_trans hlast (le_advanceLast hadvance), ⟨front.id.index, ?_⟩, ?_⟩
    · rw [hbase]
    · rw [hbase]
      rfl

/-- The manager that the overlapping branch goes on with, for a conflict at a position. -/
def afterConflict (m : LogManager γ) (entries : List LogEntry) (n : Nat) :
    Option (LogManager γ) :=
  match entries[n]? with
  | some entry =>
      if entry.id.index ≤ m.lastLogIndex then m.unsafeTruncateSuffix (entry.id.index - 1)
      else some m
  | none => some m

def remaining (entries : List LogEntry) (ooRep : Bool) (n : Nat) : List LogEntry :=
  if !ooRep ∨ n ≠ entries.length then entries.drop n else entries

theorem resolveOverlap_eq (m : LogManager γ) (entries : List LogEntry) (ooRep : Bool) :
    m.resolveOverlap entries ooRep = (m.findConflict ooRep entries).bind fun n =>
      (afterConflict m entries n).map fun mid =>
        .proceed { mid with maxLogIndex :=
          match (remaining entries ooRep n).getLast? with
          | some back => max mid.maxLogIndex back.id.index
          | none => mid.maxLogIndex } (remaining entries ooRep n) := by
  unfold LogManager.resolveOverlap afterConflict
  refine congrArg (Option.bind (m.findConflict ooRep entries)) (funext fun n => ?_)
  cases entries[n]? with
  | none => rfl
  | some entry =>
    dsimp only
    split
    · cases m.unsafeTruncateSuffix (entry.id.index - 1) <;> rfl
    · rfl

private theorem exists_remaining (entries : List LogEntry) (ooRep : Bool) (n : Nat) :
    ∃ k : Nat, remaining entries ooRep n = entries.drop k := by
  unfold remaining
  split
  · exact ⟨n, rfl⟩
  · exact ⟨0, rfl⟩

private theorem resolveOverlap_spec {first : Int} (hentries : Consecutive first entries)
    (hend : first + entries.length - 1 ≤ m.maxLogIndex)
    (hno : ∀ n entry, m.findConflict ooRep entries = some n → entries[n]? = some entry →
      m.lastLogIndex < entry.id.index) {r : LogManager.Resolution γ}
    (hrun : m.resolveOverlap entries ooRep = some r) :
    ∃ n : Nat, r = .proceed m (entries.drop n) := by
  rw [resolveOverlap_eq] at hrun
  obtain ⟨n, hconflict, hrun⟩ := Option.bind_eq_some_iff.mp hrun
  obtain ⟨mid, hmid, rfl⟩ := Option.map_eq_some_iff.mp hrun
  have hsame : mid = m := by
    unfold afterConflict at hmid
    cases hentry : entries[n]? with
    | none =>
      rw [hentry] at hmid
      exact (Option.some.inj hmid).symm
    | some entry =>
      rw [hentry] at hmid
      dsimp only at hmid
      rw [if_neg (not_le.mpr (hno n entry hconflict hentry))] at hmid
      exact (Option.some.inj hmid).symm
  obtain ⟨k, hk⟩ := exists_remaining entries ooRep n
  refine ⟨k, ?_⟩
  rw [hsame, hk]
  cases hback : (entries.drop k).getLast? with
  | none => rfl
  | some back =>
    have hindex := (hentries.drop k).back hback
    have hlen : entries.drop k ≠ [] := by
      intro hnil
      rw [hnil] at hback
      cases hback
    have hpos := List.length_pos_iff.mpr hlen
    rw [List.length_drop] at hindex hpos
    dsimp only
    rw [max_eq_left (by omega)]

structure Resolved (m : LogManager γ) (mid : LogManager γ) (stored : List LogEntry) : Prop where
  base : mid = { m with toMemory := mid.toMemory, lastLogIndex := mid.lastLogIndex }
  last : m.lastLogIndex ≤ mid.lastLogIndex
  prepared : Prepared stored m.toMemory mid.toMemory
  top : mid.maxLogIndex = m.maxLogIndex ∨ Has stored mid.maxLogIndex
  indexes : ∃ first, 1 ≤ first ∧ Consecutive first stored

private theorem resolve_spec {front back : LogEntry} (hfront : entries.head? = some front)
    (hback : entries.getLast? = some back) (herror : m.hasError = false)
    (hno : truncates m entries ooRep = false) (hpromised : Promised entries)
    (hlast : 0 ≤ m.lastLogIndex) {r : LogManager.Resolution γ}
    (hrun : m.checkAndResolveConflict front back entries ooRep = some r) :
    (∃ status, r = .stop status) ∨ ∃ mid stored, r = .proceed mid stored ∧ Resolved m mid stored := by
  have hmem : back ∈ entries := List.mem_of_getLast? hback
  unfold LogManager.checkAndResolveConflict at hrun
  by_cases hzero : front.id.index = 0
  · rw [if_pos hzero] at hrun
    cases hrun
    refine .inr ⟨_, _, rfl, rfl, ?_, .refl _ _, .inl rfl, m.lastLogIndex + 1, by omega,
      consecutive_assignIndexes _ _⟩
    dsimp only
    omega
  · rw [if_neg hzero] at hrun
    obtain ⟨hone, hentries⟩ := (hpromised front hfront).resolve_left hzero
    have hend := hentries.back hback
    have hindexes : ∀ n : Nat, ∃ first, 1 ≤ first ∧ Consecutive first (entries.drop n) :=
      fun n => ⟨front.id.index + n, by omega, hentries.drop n⟩
    by_cases hgap : !ooRep ∧ m.lastLogIndex + 1 < front.id.index
    · rw [if_pos hgap] at hrun
      cases hrun
      exact .inl ⟨_, rfl⟩
    rw [if_neg hgap] at hrun
    by_cases happlied : back.id.index ≤ m.appliedId.index
    · rw [if_pos happlied] at hrun
      cases hrun
      exact .inl ⟨_, rfl⟩
    rw [if_neg happlied] at hrun
    right
    by_cases hnext : front.id.index = m.maxLogIndex + 1
    · rw [if_pos hnext] at hrun
      obtain ⟨hprepared, hmax⟩ : Prepared entries m.toMemory
            (entries.foldl (fun mem entry => mem.pushSlot (some entry)) m.toMemory) ∧
          (entries.foldl (fun mem entry => mem.pushSlot (some entry)) m.toMemory).maxLogIndex =
            m.maxLogIndex + entries.length :=
        Prepared.pushAll (fun _ h => h) (hnext ▸ hentries)
      dsimp only at hrun
      rw [max_eq_left (by omega)] at hrun
      cases hrun
      exact ⟨_, _, rfl, rfl, le_refl _, hprepared,
        .inr ⟨back, hmem, by dsimp only; omega⟩, hindexes 0⟩
    rw [if_neg hnext] at hrun
    by_cases hover : m.maxLogIndex < back.id.index
    · rw [if_pos hover] at hrun
      obtain ⟨mem, hextend, heq⟩ := Option.map_eq_some_iff.mp hrun
      cases heq
      have hmax := maxLogIndex_extend hextend
      exact ⟨_, _, rfl, rfl, le_refl _, .extend (fun _ h => h) hextend,
        .inr ⟨back, hmem, by dsimp only; omega⟩, hindexes 0⟩
    rw [if_neg hover] at hrun
    have hkept : ∀ n entry, m.findConflict ooRep entries = some n → entries[n]? = some entry →
        m.lastLogIndex < entry.id.index := by
      intro n entry hconflict hentry
      by_contra hle
      unfold truncates at hno
      rw [hfront, hback, hconflict] at hno
      simp [herror, hzero, hentry] at hno
      omega
    obtain ⟨n, rfl⟩ := resolveOverlap_spec hentries (by omega) hkept hrun
    exact ⟨m, _, rfl, rfl, le_refl _, .refl _ _, .inl rfl, hindexes n⟩

/-- All that an append does when it does not truncate: it turns the batch away and changes
nothing, or it stores what is new of it. -/
theorem appendEntries_cases (hno : truncates m entries ooRep = false) (hpromised : Promised entries)
    (hlast : 0 ≤ m.lastLogIndex) {status : Option Status}
    (hrun : m.appendEntries entries done ooRep = some (m', status)) :
    (m' = m ∧ status ≠ none) ∨ status = none ∧ ∃ stored, Appended m stored done m' := by
  have hstored : ∀ {mid : LogManager γ} {stored : List LogEntry}, Resolved m mid stored →
      (mid.storeEntries stored done).map (·, none) = some (m', status) →
      status = none ∧ ∃ stored, Appended m stored done m' := by
    intro mid stored hspec h
    obtain ⟨m'', hm, heq⟩ := Option.map_eq_some_iff.mp h
    cases heq
    obtain ⟨first, hfirst, hconsecutive⟩ := hspec.indexes
    exact ⟨rfl, stored, appended_of_storeEntries hspec.base hspec.last hspec.prepared hspec.top
      hconsecutive hfirst hm⟩
  unfold LogManager.appendEntries at hrun
  split at hrun
  · cases hrun
    exact .inl ⟨rfl, Option.some_ne_none _⟩
  · rename_i herror
    split at hrun
    · rename_i front back hfront hback
      obtain ⟨r, hresolve, hrun⟩ := Option.bind_eq_some_iff.mp hrun
      rcases resolve_spec hfront hback (by simpa using herror) hno hpromised hlast hresolve with
        ⟨s, rfl⟩ | ⟨mid, stored, rfl, hresolved⟩
      · cases hrun
        exact .inl ⟨rfl, Option.some_ne_none _⟩
      · exact .inr (hstored hresolved hrun)
    · have hnothing : Resolved m m [] :=
        ⟨rfl, le_refl _, .refl _ _, .inl rfl, 1, le_refl _, trivial⟩
      exact .inr (hstored hnothing hrun)

end Append

end HitConsistency.Log.StoredBatches
