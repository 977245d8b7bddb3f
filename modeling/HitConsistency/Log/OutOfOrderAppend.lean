/- GID: HitConsistency/Log/OutOfOrderAppend
   digest: Out-of-order appends of one term leave a log that depends only on what arrived. -/

import HitConsistency.Log.MemoryLog
import Mathlib.Order.Bounds.Basic
import Mathlib.Logic.Function.Iterate

set_option autoImplicit false
set_option relaxedAutoImplicit false

/-!
All batches are drawn from one assignment `source` of entries to indexes. A memory
lies between two sets of indexes when everything of the first is in its slots and
bits and nothing outside the second is; the loops of an append only ever move the
first set towards the second.
-/

namespace HitConsistency.Log.OutOfOrderAppend

open HitConsistency.Base.GuardedRuns
open HitConsistency.Base.IndexedDeque
open HitConsistency.Base.SlidingBitmap
open HitConsistency.Log.Entry
open HitConsistency.Log.MemoryLog

/-- The entries of `count` consecutive indexes. -/
def batch (source : Int → LogEntry) (first : Int) : Nat → List LogEntry
  | 0 => []
  | count + 1 => source first :: batch source (first + 1) count

/-- An assignment of entries to indexes within one term. -/
def OneTerm (source : Int → LogEntry) (term : Int) : Prop := ∀ i, (source i).id = ⟨i, term⟩

private theorem OneTerm.injective {source : Int → LogEntry} {term : Int}
    (hsource : OneTerm source term) :
    Function.Injective source := by
  intro i j h
  have hi : (source i).id.index = i := by rw [hsource]
  have hj : (source j).id.index = j := by rw [hsource]
  rw [← hi, h, hj]

structure Between (source : Int → LogEntry) (got want : Int → Prop) (mem : Memory) : Prop where
  length_le : (mem.logsInMemory.length : Int) ≤ mem.maxLogIndex
  slotWant : ∀ i entry, item mem.logsInMemory (i - mem.firstInMemory) = some (some entry) →
    entry = source i ∧ want i
  slotGot : ∀ i, got i → mem.firstInMemory ≤ i → i ≤ mem.maxLogIndex →
    item mem.logsInMemory (i - mem.firstInMemory) = some (some (source i))
  bitWant : ∀ i, mem.maxLogIndex - i < 1024 →
    present mem.dependencyBitmap mem.maxLogIndex i = true → want i
  bitGot : ∀ i, got i → i ≤ mem.maxLogIndex → mem.maxLogIndex - i < 1024 →
    present mem.dependencyBitmap mem.maxLogIndex i = true

section Loops

variable {source : Int → LogEntry} {got want : Int → Prop} {mem : Memory}

theorem Between.weaken {more : Int → Prop} (h : Between source got want mem)
    (hsub : ∀ i, want i → more i) : Between source got more mem where
  length_le := h.length_le
  slotWant := fun i entry hi => ⟨(h.slotWant i entry hi).1, hsub i (h.slotWant i entry hi).2⟩
  slotGot := h.slotGot
  bitWant := fun i hi hp => hsub i (h.bitWant i hi hp)
  bitGot := h.bitGot

theorem firstInMemory_pushSlot (mem : Memory) (slot : Option LogEntry) :
    (mem.pushSlot slot).firstInMemory = mem.firstInMemory := by
  simp [Memory.pushSlot, Memory.firstInMemory]

theorem item_pushSlot (mem : Memory) (slot : Option LogEntry) (i : Int) :
    item (mem.pushSlot slot).logsInMemory (i - (mem.pushSlot slot).firstInMemory) =
      if i = mem.maxLogIndex + 1 then some slot
      else item mem.logsInMemory (i - mem.firstInMemory) := by
  rw [firstInMemory_pushSlot]
  show item (mem.logsInMemory ++ [slot]) _ = _
  rw [item_push]
  have hsame : i - mem.firstInMemory = mem.logsInMemory.length ↔ i = mem.maxLogIndex + 1 := by
    unfold Memory.firstInMemory
    omega
  by_cases hi : i = mem.maxLogIndex + 1
  · rw [if_pos hi, if_pos (hsame.mpr hi)]
  · rw [if_neg hi, if_neg fun h => hi (hsame.mp h)]

/-- A new slot may stay empty only when its index had not arrived, and may be filled
only with its own entry. -/
private theorem between_pushSlot (h : Between source got want mem) (slot : Option LogEntry)
    (hslot : slot = none ∧ ¬ got (mem.maxLogIndex + 1) ∨
      slot = some (source (mem.maxLogIndex + 1)) ∧ want (mem.maxLogIndex + 1)) :
    Between source got want (mem.pushSlot slot) := by
  have htop : (mem.pushSlot slot).maxLogIndex = mem.maxLogIndex + 1 := rfl
  have hbits : ∀ i, (mem.pushSlot slot).maxLogIndex - i < 1024 →
      present (mem.pushSlot slot).dependencyBitmap (mem.pushSlot slot).maxLogIndex i =
        if i = mem.maxLogIndex + 1 then slot.isSome
        else present mem.dependencyBitmap mem.maxLogIndex i := by
    intro i hi
    show present (shiftIn mem.dependencyBitmap slot.isSome) (mem.maxLogIndex + 1) i = _
    rw [htop] at hi
    rcases lt_trichotomy i (mem.maxLogIndex + 1) with hlt | rfl | hgt
    · rw [if_neg (by omega)]
      exact present_shiftIn_below _ _ (by omega) (by omega)
    · rw [if_pos rfl]
      exact present_shiftIn_top (by decide) _ _ _
    · rw [if_neg (by omega), present_of_top_lt _ hgt, present_of_top_lt _ (by omega)]
  refine ⟨?_, ?_, ?_, ?_, ?_⟩
  · have := h.length_le
    simp only [Memory.pushSlot, List.length_append, List.length_singleton]
    omega
  · intro i entry hi
    rw [item_pushSlot] at hi
    split at hi
    · rename_i htopi
      subst htopi
      rcases hslot with ⟨rfl, -⟩ | ⟨rfl, hw⟩
      · simp at hi
      · cases hi
        exact ⟨rfl, hw⟩
    · exact h.slotWant i entry hi
  · intro i hgot hlo hhi
    rw [firstInMemory_pushSlot] at hlo
    rw [item_pushSlot]
    split
    · rename_i htopi
      subst htopi
      rcases hslot with ⟨-, hnot⟩ | ⟨rfl, -⟩
      · exact absurd hgot hnot
      · rfl
    · exact h.slotGot i hgot hlo (by omega)
  · intro i hi hp
    rw [hbits i hi] at hp
    split at hp
    · rename_i htopi
      subst htopi
      rcases hslot with ⟨rfl, -⟩ | ⟨-, hw⟩
      · cases hp
      · exact hw
    · exact h.bitWant i (by omega) hp
  · intro i hgot hle hi
    rw [hbits i hi]
    split
    · rename_i htopi
      subst htopi
      rcases hslot with ⟨-, hnot⟩ | ⟨rfl, -⟩
      · exact absurd hgot hnot
      · rfl
    · exact h.bitGot i hgot (by omega) (by omega)

private theorem between_extend (first : Int) (count : Nat) {n : Nat} {term : Int}
    (hsource : OneTerm source term) (h : Between source got want mem)
    (habove : ∀ i, mem.maxLogIndex < i → ¬ got i)
    (hwant : ∀ i, first ≤ i → i < first + count → want i)
    (hn : n = 0 ∨ 0 < count)
    (hreach : mem.maxLogIndex < first → (mem.maxLogIndex + n : Int) < first + count) :
    ∃ mem', Memory.extend n mem (batch source first count) = some mem' ∧
      mem'.maxLogIndex = mem.maxLogIndex + n ∧ mem'.firstInMemory = mem.firstInMemory ∧
      Between source got want mem' := by
  induction n generalizing mem first count with
  | zero => exact ⟨mem, rfl, by simp, rfl, h⟩
  | succ n ih =>
    obtain ⟨count, rfl⟩ : ∃ k, count = k + 1 := ⟨count - 1, by omega⟩
    have hidx : (source first).id.index = first := by rw [hsource first]
    have hnext : ∀ (slot : Option LogEntry) i, (mem.pushSlot slot).maxLogIndex < i → ¬ got i :=
      fun slot i hi => habove i (by
        have : (mem.pushSlot slot).maxLogIndex = mem.maxLogIndex + 1 := rfl
        omega)
    simp only [batch, Memory.extend, hidx]
    by_cases heq : first = mem.maxLogIndex + 1
    · rw [if_pos heq]
      subst heq
      have hpush := between_pushSlot h (some (source (mem.maxLogIndex + 1)))
        (.inr ⟨rfl, hwant _ le_rfl (by omega)⟩)
      have htop : (mem.pushSlot (some (source (mem.maxLogIndex + 1)))).maxLogIndex =
        mem.maxLogIndex + 1 := rfl
      have hbound := hreach (by omega)
      obtain ⟨mem', hrun, hmax, hfirst, hb⟩ := ih (mem.maxLogIndex + 1 + 1) count
        hpush (hnext _) (fun i hlo hhi => hwant i (by omega) (by omega)) (by omega)
        (fun _ => by omega)
      refine ⟨mem', hrun, by omega, ?_, hb⟩
      rw [hfirst, firstInMemory_pushSlot]
    · rw [if_neg heq]
      have hpush := between_pushSlot h none (.inl ⟨rfl, habove _ (by omega)⟩)
      have htop : (mem.pushSlot none).maxLogIndex = mem.maxLogIndex + 1 := rfl
      obtain ⟨mem', hrun, hmax, hfirst, hb⟩ := ih first (count + 1) hpush
        (hnext _) hwant (.inr (by omega)) (fun hlt => by
          have := hreach (by omega)
          omega)
      refine ⟨mem', hrun, by omega, ?_, hb⟩
      rw [hfirst, firstInMemory_pushSlot]

private theorem between_pushAll (first : Int) (count : Nat) (h : Between source got want mem)
    (hfirst : first = mem.maxLogIndex + 1)
    (hwant : ∀ i, first ≤ i → i < first + count → want i) :
    ((batch source first count).foldl (fun mem entry => mem.pushSlot (some entry)) mem).maxLogIndex =
        mem.maxLogIndex + count ∧
      ((batch source first count).foldl (fun mem entry => mem.pushSlot (some entry))
        mem).firstInMemory = mem.firstInMemory ∧
      Between source got want
        ((batch source first count).foldl (fun mem entry => mem.pushSlot (some entry)) mem) := by
  induction count generalizing mem first with
  | zero => exact ⟨by simp [batch], rfl, h⟩
  | succ count ih =>
    subst hfirst
    have hpush := between_pushSlot h (some (source (mem.maxLogIndex + 1)))
      (.inr ⟨rfl, hwant _ le_rfl (by omega)⟩)
    have htop : (mem.pushSlot (some (source (mem.maxLogIndex + 1)))).maxLogIndex =
      mem.maxLogIndex + 1 := rfl
    obtain ⟨hmax, hfirst, hb⟩ := ih (mem.maxLogIndex + 1 + 1) hpush (by omega)
      (fun i hlo hhi => hwant i (by omega) (by omega))
    refine ⟨?_, ?_, hb⟩
    · simp only [batch, List.foldl_cons]
      omega
    · simp only [batch, List.foldl_cons]
      rw [hfirst, firstInMemory_pushSlot]

private theorem between_writeSlot {term : Int} (hsource : OneTerm source term)
    (h : Between source got want mem) {i : Int} (hlo : mem.firstInMemory ≤ i)
    (hhi : i ≤ mem.maxLogIndex) (hnear : mem.maxLogIndex - i < 1024) (hwant : want i) :
    ∃ mem', mem.writeSlot (source i) = some mem' ∧ mem'.maxLogIndex = mem.maxLogIndex ∧
      mem'.firstInMemory = mem.firstInMemory ∧
      Between source (fun j => j = i ∨ got j) want mem' := by
  have hidx : (source i).id.index = i := by rw [hsource i]
  obtain ⟨logs, hlogs⟩ : ∃ logs,
      store mem.logsInMemory (i - mem.firstInMemory) (some (source i)) = some logs :=
    ⟨_, store_defined _ (by omega) (by unfold Memory.firstInMemory; omega)⟩
  obtain ⟨bitmap, hbitmap⟩ := mark_defined mem.dependencyBitmap
    (show 0 ≤ mem.maxLogIndex - i by omega) (by omega)
  have hlen := store_length hlogs
  have hfirst : (Memory.mk mem.maxLogIndex bitmap logs).firstInMemory = mem.firstInMemory := by
    simp [Memory.firstInMemory, hlen]
  refine ⟨⟨mem.maxLogIndex, bitmap, logs⟩, ?_, rfl, hfirst, ⟨?_, ?_, ?_, ?_, ?_⟩⟩
  · simp [Memory.writeSlot, hidx, hlogs, hbitmap]
  · dsimp only
    rw [hlen]
    exact h.length_le
  · intro j entry hj
    rw [hfirst] at hj
    dsimp only at hj
    rw [item_store hlogs] at hj
    split at hj
    · have hji : j = i := by omega
      cases hj
      exact ⟨by rw [hji], hji ▸ hwant⟩
    · exact h.slotWant j entry hj
  · intro j hj hjlo hjhi
    rw [hfirst] at hjlo ⊢
    dsimp only at hjhi ⊢
    rw [item_store hlogs]
    split
    · have hji : j = i := by omega
      rw [hji]
    · rename_i hne
      rcases hj with rfl | hj
      · exact absurd rfl hne
      · exact h.slotGot j hj hjlo hjhi
  · intro j hj hp
    rw [present_mark hbitmap, Bool.or_eq_true, decide_eq_true_eq] at hp
    rcases hp with rfl | hp
    · exact hwant
    · exact h.bitWant j hj hp
  · intro j hj hjhi hjnear
    rw [present_mark hbitmap, Bool.or_eq_true, decide_eq_true_eq]
    rcases hj with rfl | hj
    · exact .inl rfl
    · exact .inr (h.bitGot j hj hjhi hjnear)

private theorem between_writeSlots {term : Int} (hsource : OneTerm source term) (first : Int)
    (count : Nat) (h : Between source got want mem) (hlo : mem.firstInMemory ≤ first)
    (hhi : first + count ≤ mem.maxLogIndex + 1) (hnear : mem.maxLogIndex - first < 1024)
    (hwant : ∀ i, first ≤ i → i < first + count → want i) :
    ∃ mem', runEvents Memory.writeSlot mem (batch source first count) = some mem' ∧
      mem'.maxLogIndex = mem.maxLogIndex ∧ mem'.firstInMemory = mem.firstInMemory ∧
      Between source (fun i => got i ∨ first ≤ i ∧ i < first + count) want mem' := by
  induction count generalizing mem first got with
  | zero =>
    refine ⟨mem, rfl, rfl, rfl, ⟨h.length_le, h.slotWant, ?_, h.bitWant, ?_⟩⟩
    · rintro i (hi | hi)
      · exact h.slotGot i hi
      · omega
    · rintro i (hi | hi)
      · exact h.bitGot i hi
      · omega
  | succ count ih =>
    obtain ⟨mid, hstep, hmax, hfirst, hmid⟩ :=
      between_writeSlot hsource h hlo (by omega) hnear (hwant first le_rfl (by omega))
    obtain ⟨mem', hrun, hmax', hfirst', hend⟩ := ih (first + 1) hmid (by omega) (by omega)
      (by omega) (fun i hi hi' => hwant i (by omega) (by omega))
    have hsame : ∀ i, (got i ∨ first ≤ i ∧ i < first + (count + 1 : Nat)) →
        ((i = first ∨ got i) ∨ first + 1 ≤ i ∧ i < first + 1 + count) := by
      rintro i (hi | hi)
      · exact .inl (.inr hi)
      · omega
    refine ⟨mem', runEvents_cons_eq_some.mpr ⟨mid, hstep, hrun⟩, by omega, by omega,
      ⟨hend.length_le, hend.slotWant, ?_, hend.bitWant, ?_⟩⟩
    · exact fun i hi => hend.slotGot i (hsame i hi)
    · exact fun i hi => hend.bitGot i (hsame i hi)

/-- The last index moves over everything that has arrived behind it, and stops at the
first index that has not. -/
private theorem advanceLast_spec (h : Between source got got mem) {n : Nat} (last : Int)
    (hlo : mem.firstInMemory ≤ last + 1) (hhi : last + n ≤ mem.maxLogIndex) :
    ∃ last', mem.advanceLast n last = some last' ∧ last ≤ last' ∧ last' ≤ last + n ∧
      (∀ i, last < i → i ≤ last' → got i) ∧ (last' < last + n → ¬ got (last' + 1)) := by
  induction n generalizing last with
  | zero => exact ⟨last, rfl, le_rfl, by omega, fun i h1 h2 => by omega, fun h => by omega⟩
  | succ n ih =>
    obtain ⟨slot, hslot⟩ := exists_item (q := mem.logsInMemory)
      (d := last - mem.firstInMemory + 1) (by omega) (by
        unfold Memory.firstInMemory
        omega)
    have hpos : last + 1 - mem.firstInMemory = last - mem.firstInMemory + 1 := by omega
    cases slot with
    | none =>
      refine ⟨last, by simp [Memory.advanceLast, hslot], le_rfl, by omega,
        fun i h1 h2 => by omega, fun _ hgot => ?_⟩
      have := h.slotGot (last + 1) hgot hlo (by omega)
      rw [hpos, hslot] at this
      simp at this
    | some entry =>
      have hgot := (h.slotWant (last + 1) entry (by rw [hpos]; exact hslot)).2
      obtain ⟨last', hrun, hle, hle', hall, hstop⟩ := ih (last + 1) (by omega) (by omega)
      refine ⟨last', by simpa [Memory.advanceLast, hslot] using hrun, by omega, by omega, ?_, ?_⟩
      · intro i h1 h2
        by_cases hi : i = last + 1
        · exact hi ▸ hgot
        · exact hall i (by omega) h2
      · exact fun hlt => hstop (by omega)

end Loops

section Batch

variable (source : Int → LogEntry) (first : Int)

private theorem batch_head {count : Nat} (h : 0 < count) :
    (batch source first count).head? = some (source first) := by
  cases count with
  | zero => omega
  | succ count => rfl

private theorem batch_getLast {count : Nat} (h : 0 < count) :
    (batch source first count).getLast? = some (source (first + count - 1)) := by
  induction count generalizing first with
  | zero => omega
  | succ count ih =>
    cases count with
    | zero => simp [batch]
    | succ count =>
      have := ih (first + 1) (by omega)
      rw [batch, List.getLast?_cons, this]
      simp only [Option.getD_some, Option.some.injEq]
      congr 1
      push_cast
      omega

private theorem source_mem_batch {count : Nat} {i : Int} (hlo : first ≤ i)
    (hhi : i < first + count) :
    source i ∈ batch source first count := by
  induction count generalizing first with
  | zero => omega
  | succ count ih =>
    by_cases hi : i = first
    · rw [hi]
      exact List.mem_cons_self
    · exact List.mem_cons_of_mem _ (ih (first + 1) (by omega) (by omega))

private theorem mem_batch {count : Nat} {entry : LogEntry} (h : entry ∈ batch source first count) :
    ∃ i, first ≤ i ∧ i < first + count ∧ entry = source i := by
  induction count generalizing first with
  | zero => simp [batch] at h
  | succ count ih =>
    rcases List.mem_cons.mp h with rfl | h
    · exact ⟨first, le_rfl, by omega, rfl⟩
    · obtain ⟨i, h1, h2, he⟩ := ih (first + 1) h
      exact ⟨i, by omega, by omega, he⟩

end Batch

/-- The entry is on disk, or on its way to the disk. -/
def Holds {γ : Type} (m : LogManager γ) (entry : LogEntry) : Prop :=
  m.storage.getEntry entry.id.index = some entry ∨
    ∃ closure, .append closure ∈ m.diskQueue ∧ entry ∈ closure.entries

/-- The manager holds exactly the entries of `got`, all of one term: in its slots as
far as they reach back, in its bits, counted by its two indexes, and on the way to disk. -/
structure Mirrors {γ : Type} (source : Int → LogEntry) (term : Int) (got : Int → Prop)
    (m : LogManager γ) : Prop where
  noError : m.hasError = false
  first : m.firstLogIndex = 1
  memory : Between source got got m.toMemory
  range : ∀ i, got i → 1 ≤ i ∧ i ≤ m.maxLogIndex
  top : m.maxLogIndex = 0 ∨ got m.maxLogIndex
  popped : ∀ i, 1 ≤ i → i < m.firstInMemory → got i
  applied : m.firstInMemory = 1 ∨
    m.appliedId.term = term ∧ m.firstInMemory ≤ m.appliedId.index + 1
  appliedTerm : m.appliedId.term ≤ term
  lastNonneg : 0 ≤ m.lastLogIndex
  lastGot : ∀ i, 1 ≤ i → i ≤ m.lastLogIndex → got i
  lastEnd : ¬ got (m.lastLogIndex + 1)
  storage : ∀ i entry, m.storage.getEntry i = some entry → entry = source i ∧ got i
  queue : ∀ task ∈ m.diskQueue, ∃ closure, task = .append closure ∧
    ∀ entry ∈ closure.entries, ∃ i, entry = source i ∧ got i
  held : ∀ i, got i → Holds m (source i)

section Manager

variable {γ : Type} {source : Int → LogEntry} {term : Int} {got : Int → Prop} {m : LogManager γ}

theorem mirrors_fresh (source : Int → LogEntry) {term : Int} (hterm : 0 ≤ term) (lookBack : Int) :
    Mirrors source term (fun _ => False) (LogManager.fresh lookBack : LogManager γ) where
  noError := rfl
  first := rfl
  memory :=
    { length_le := le_rfl
      slotWant := fun i entry h => by simp [LogManager.fresh, item] at h
      slotGot := fun i h => h.elim
      bitWant := fun i hi h => by simp [LogManager.fresh, present] at h
      bitGot := fun i h => h.elim }
  range := fun i h => h.elim
  top := .inl rfl
  popped := fun i h1 h2 => by
    simp only [LogManager.fresh, Memory.firstInMemory, List.length_nil] at h2
    omega
  applied := .inl (by simp [LogManager.fresh, Memory.firstInMemory])
  appliedTerm := hterm
  lastNonneg := le_rfl
  lastGot := fun i h1 h2 => by
    simp only [LogManager.fresh] at h2
    omega
  lastEnd := id
  storage := fun i entry h => by simp [LogManager.fresh, LogStorage.new] at h
  queue := fun task h => by simp [LogManager.fresh] at h
  held := fun i h => h.elim

private theorem Mirrors.maxNonneg (h : Mirrors source term got m) : 0 ≤ m.maxLogIndex := by
  have := h.memory.length_le
  omega

private theorem Mirrors.first_le_last (h : Mirrors source term got m) :
    m.firstInMemory ≤ m.lastLogIndex + 1 := by
  by_contra hlt
  have := h.lastNonneg
  exact h.lastEnd (h.popped _ (by omega) (by omega))

theorem Mirrors.back (h : Mirrors source term got m) {slot : Option LogEntry}
    (hlast : m.logsInMemory.getLast? = some slot) : slot = some (source m.maxLogIndex) := by
  have hlen := h.memory.length_le
  have hne : m.logsInMemory ≠ [] := by
    intro hnil
    simp [hnil] at hlast
  have hpos := List.length_pos_iff.mpr hne
  have hgot := h.top.resolve_left (by omega)
  have hslot := h.memory.slotGot m.maxLogIndex hgot
    (by unfold Memory.firstInMemory; omega) le_rfl
  rw [List.getLast?_eq_getElem?] at hlast
  have hd : m.maxLogIndex - m.firstInMemory = ((m.logsInMemory.length - 1 : Nat) : Int) := by
    unfold Memory.firstInMemory
    omega
  rw [hd, item, if_pos (by omega), Int.toNat_natCast, hlast] at hslot
  exact Option.some.inj hslot

theorem Mirrors.getTerm (h : Mirrors source term got m) (hsource : OneTerm source term) {i : Int}
    (hlo : 1 ≤ i) (hhi : i ≤ m.maxLogIndex) :
    ∃ t, m.unsafeGetTerm i = some t ∧ (t = 0 ∨ t = term) := by
  have hstore : m.storage.getTerm i = 0 ∨ m.storage.getTerm i = term := by
    cases hs : m.storage.getEntry i with
    | none => exact .inl (by simp [LogStorage.getTerm, hs])
    | some entry =>
      refine .inr ?_
      rw [LogStorage.getTerm, hs, (h.storage i entry hs).1, Option.map_some, hsource]
      rfl
  have hrange : ¬ (m.maxLogIndex < i ∨ i < m.firstLogIndex) := by
    rw [h.first]
    omega
  have hget : ∃ slot, m.getEntryFromMemory i = some slot ∧
      ∀ entry, slot = some entry → entry.id.term = term := by
    cases hlast : m.logsInMemory.getLast? with
    | none => exact ⟨none, by simp [Memory.getEntryFromMemory, hlast], by simp⟩
    | some back =>
      have hback := h.back hlast
      subst hback
      have hidx : (source m.maxLogIndex).id.index = m.maxLogIndex := by rw [hsource]
      simp only [Memory.getEntryFromMemory, hlast, hidx]
      by_cases hin : m.maxLogIndex - m.logsInMemory.length + 1 ≤ i ∧ i ≤ m.maxLogIndex
      · rw [if_pos hin]
        obtain ⟨slot, hslot⟩ := exists_item (q := m.logsInMemory)
          (d := i - (m.maxLogIndex - m.logsInMemory.length + 1)) (by omega) (by omega)
        refine ⟨slot, hslot, ?_⟩
        rintro entry rfl
        rw [(h.memory.slotWant i entry hslot).1, hsource]
      · rw [if_neg hin]
        exact ⟨none, rfl, by simp⟩
  obtain ⟨slot, hslot, hterm⟩ := hget
  refine ⟨_, by rw [LogManager.unsafeGetTerm, if_neg (by omega), if_neg hrange, hslot]; rfl, ?_⟩
  cases slot with
  | none => exact hstore
  | some entry => exact .inr (hterm entry rfl)

theorem Mirrors.findConflict (h : Mirrors source term got m) (hsource : OneTerm source term)
    (entries : List LogEntry)
    (hentries : ∀ entry ∈ entries, ∃ i, 1 ≤ i ∧ i ≤ m.maxLogIndex ∧ entry = source i) :
    m.findConflict true entries = some entries.length := by
  induction entries with
  | nil => rfl
  | cons entry rest ih =>
    obtain ⟨i, hlo, hhi, rfl⟩ := hentries entry (by simp)
    obtain ⟨t, ht, hor⟩ := h.getTerm hsource hlo hhi
    have hrest := ih fun e he => hentries e (by simp [he])
    have hid : (source i).id = ⟨i, term⟩ := hsource i
    have hno : ¬ (t ≠ term ∧ ((!true) = true ∨ t ≠ 0)) := by
      rcases hor with rfl | rfl <;> simp
    rw [LogManager.findConflict, hid]
    simp only [ht, Option.bind_eq_bind, Option.bind_some]
    rw [if_neg hno, hrest]
    simp

def WithBatch (got : Int → Prop) (first : Int) (count : Nat) (i : Int) : Prop :=
  got i ∨ first ≤ i ∧ i < first + count

/-- All four branches lead to a memory that reaches over the batch and lies between
the old log and the new one. -/
private theorem Mirrors.resolve (h : Mirrors source term got m) (hsource : OneTerm source term)
    {first : Int} {count : Nat} (hfirst : 1 ≤ first) (hcount : 0 < count)
    (happlied : m.appliedId.index < first + count - 1) :
    ∃ mem, m.checkAndResolveConflict (source first) (source (first + count - 1))
        (batch source first count) true =
          some (.proceed { m with toMemory := mem } (batch source first count)) ∧
      mem.maxLogIndex = max m.maxLogIndex (first + count - 1) ∧
      mem.firstInMemory = m.firstInMemory ∧
      Between source got (WithBatch got first count) mem := by
  have hf : (source first).id.index = first := by rw [hsource]
  have hb : (source (first + count - 1)).id.index = first + count - 1 := by rw [hsource]
  have hstart : Between source got (WithBatch got first count) m.toMemory :=
    h.memory.weaken fun i hi => .inl hi
  have hbatch : ∀ i, first ≤ i → i < first + count → WithBatch got first count i :=
    fun i h1 h2 => .inr ⟨h1, h2⟩
  have habove : ∀ i, m.maxLogIndex < i → ¬ got i := fun i hi hgot => by
    have := (h.range i hgot).2
    omega
  unfold LogManager.checkAndResolveConflict
  rw [hf, hb, if_neg (by omega), if_neg (by simp), if_neg (by omega)]
  by_cases hfast : first = m.maxLogIndex + 1
  · rw [if_pos hfast]
    obtain ⟨hmax, hmem, hbetween⟩ := between_pushAll first count hstart hfast hbatch
    have htop : max ((batch source first count).foldl
        (fun mem entry => mem.pushSlot (some entry)) m.toMemory).maxLogIndex
        (first + count - 1) = ((batch source first count).foldl
        (fun mem entry => mem.pushSlot (some entry)) m.toMemory).maxLogIndex := by
      omega
    refine ⟨_, by dsimp only; rw [htop], ?_, hmem, hbetween⟩
    omega
  · rw [if_neg hfast]
    by_cases hpast : m.maxLogIndex < first + count - 1
    · rw [if_pos hpast]
      obtain ⟨mem, hrun, hmax, hmem, hbetween⟩ := between_extend first count
        (n := (first + count - 1 - m.maxLogIndex).toNat)
        hsource hstart habove hbatch
        (.inr hcount) (fun _ => by omega)
      exact ⟨mem, by rw [hrun]; rfl, by omega, hmem, hbetween⟩
    · rw [if_neg hpast]
      -- A batch inside the log: no conflict within one term, so it is written again.
      have hconf := h.findConflict hsource (batch source first count) fun e he => by
        obtain ⟨i, h1, h2, rfl⟩ := mem_batch source first he
        exact ⟨i, by omega, by omega, rfl⟩
      refine ⟨m.toMemory, ?_, by omega, rfl, hstart⟩
      rw [LogManager.resolveOverlap, hconf]
      have hsame : max m.maxLogIndex (first + count - 1) = m.maxLogIndex := by omega
      simp [batch_getLast source first hcount, hb, hsame]

theorem Mirrors.store (h : Mirrors source term got m) (hsource : OneTerm source term)
    {first : Int} {count : Nat} (hfirst : 1 ≤ first) (hcount : 0 < count)
    (happlied : m.appliedId.index < first)
    (hnear : max m.maxLogIndex (first + count - 1) - first < 1024) {mem : Memory}
    (hmax : mem.maxLogIndex = max m.maxLogIndex (first + count - 1))
    (hmem : mem.firstInMemory = m.firstInMemory)
    (hbetween : Between source got (WithBatch got first count) mem) (done : γ) :
    ∃ m', ({ m with toMemory := mem } : LogManager γ).storeEntries (batch source first count) done =
        some m' ∧ Mirrors source term (WithBatch got first count) m' ∧
      m'.maxLogIndex = max m.maxLogIndex (first + count - 1) ∧ m'.appliedId = m.appliedId ∧
      m'.dependencyLookBack = m.dependencyLookBack ∧
      m'.diskQueue = m.diskQueue ++ [.append ⟨first, batch source first count, done⟩] := by
  have hb : (source (first + count - 1)).id.index = first + count - 1 := by rw [hsource]
  have hlow : mem.firstInMemory ≤ first := by
    have := h.applied
    omega
  obtain ⟨mem', hwrite, hmax', hmem', hexact⟩ := between_writeSlots hsource first count hbetween
    hlow (by omega) (by omega) fun i h1 h2 => .inr ⟨h1, h2⟩
  have hlast := h.first_le_last
  have hlastNonneg := h.lastNonneg
  have hlastMax : m.lastLogIndex ≤ m.maxLogIndex := by
    by_contra hlt
    have hgot := h.lastGot m.lastLogIndex (by have := h.maxNonneg; omega) le_rfl
    have := (h.range _ hgot).2
    omega
  obtain ⟨last', hadvance, hle, hle', hall, hstop⟩ := advanceLast_spec hexact
    (n := (mem'.maxLogIndex - m.lastLogIndex).toNat) m.lastLogIndex (by omega) (by omega)
  have hrange : ∀ i, WithBatch got first count i → 1 ≤ i ∧ i ≤ mem'.maxLogIndex := by
    rintro i (hi | hi)
    · have := h.range i hi
      omega
    · omega
  have hf : (source first).id.index = first := by rw [hsource]
  have hfill : mem.fillTo (first + count - 1) = mem := by
    have hzero : (first + count - 1 - mem.maxLogIndex).toNat = 0 := by omega
    rw [Memory.fillTo, hzero, Function.iterate_zero, id]
  have hrun : ({ m with toMemory := mem } : LogManager γ).storeEntries
      (batch source first count) done =
        some ({ ({ m with toMemory := mem } : LogManager γ).addConfigurations
          (batch source first count) with toMemory := mem', lastLogIndex := last' }.enqueue
            (.append ⟨first, batch source first count, done⟩)) := by
    unfold LogManager.storeEntries
    simp only [batch_head source first hcount, batch_getLast source first hcount, hb, hf,
      LogManager.addConfigurations, hfill, hwrite, hadvance, Option.bind_eq_bind,
      Option.bind_some]
  refine ⟨_, hrun, ?_, ?_, rfl, rfl, rfl⟩
  · refine
      { noError := h.noError
        first := h.first
        memory := hexact
        range := hrange
        top := ?_
        popped := fun i h1 h2 => .inl (h.popped i h1 ?_)
        applied := ?_
        appliedTerm := h.appliedTerm
        lastNonneg := by show 0 ≤ last'; omega
        lastGot := ?_
        lastEnd := ?_
        storage := fun i entry hi => ⟨(h.storage i entry hi).1, .inl (h.storage i entry hi).2⟩
        queue := ?_
        held := ?_ }
    · show mem'.maxLogIndex = 0 ∨ WithBatch got first count mem'.maxLogIndex
      rcases le_total m.maxLogIndex (first + count - 1) with hle | hle
      · exact .inr (.inr (by omega))
      · rcases h.top with h0 | hgot
        · omega
        · refine .inr (.inl ?_)
          rw [hmax', hmax, max_eq_left hle]
          exact hgot
    · change i < mem'.firstInMemory at h2
      omega
    · show mem'.firstInMemory = 1 ∨
        m.appliedId.term = term ∧ mem'.firstInMemory ≤ m.appliedId.index + 1
      rw [hmem', hmem]
      exact h.applied
    · intro i h1 h2
      by_cases hi : i ≤ m.lastLogIndex
      · exact .inl (h.lastGot i h1 hi)
      · exact hall i (by omega) h2
    · show ¬ WithBatch got first count (last' + 1)
      intro hgot
      by_cases hend : last' < m.lastLogIndex + (mem'.maxLogIndex - m.lastLogIndex).toNat
      · exact hstop hend hgot
      · have := hrange _ hgot
        omega
    · intro task htask
      rcases List.mem_append.mp htask with htask | htask
      · obtain ⟨closure, hc, hentries⟩ := h.queue task htask
        refine ⟨closure, hc, fun entry he => ?_⟩
        obtain ⟨i, hi, hgot⟩ := hentries entry he
        exact ⟨i, hi, .inl hgot⟩
      · cases List.mem_singleton.mp htask
        refine ⟨_, rfl, fun entry he => ?_⟩
        obtain ⟨i, h1, h2, rfl⟩ := mem_batch source first he
        exact ⟨i, rfl, .inr ⟨h1, h2⟩⟩
    · rintro i (hi | ⟨h1, h2⟩)
      · rcases h.held i hi with hs | ⟨closure, hc, he⟩
        · exact .inl hs
        · exact .inr ⟨closure, List.mem_append_left _ hc, he⟩
      · exact .inr ⟨_, List.mem_append_right _ (List.mem_singleton.mpr rfl),
          source_mem_batch source first h1 h2⟩
  · show mem'.maxLogIndex = _
    omega

theorem mirrors_append (h : Mirrors source term got m) (hsource : OneTerm source term)
    {first : Int} {count : Nat} (hfirst : 1 ≤ first) (hcount : 0 < count)
    (happlied : m.appliedId.index < first)
    (hnear : max m.maxLogIndex (first + count - 1) - first < 1024) (done : γ) :
    ∃ m', m.appendEntries (batch source first count) done true = some (m', none) ∧
      Mirrors source term (WithBatch got first count) m' ∧
      m'.maxLogIndex = max m.maxLogIndex (first + count - 1) ∧ m'.appliedId = m.appliedId ∧
      m'.dependencyLookBack = m.dependencyLookBack ∧
      m'.diskQueue = m.diskQueue ++ [.append ⟨first, batch source first count, done⟩] := by
  obtain ⟨mem, hcheck, hmax, hmem, hbetween⟩ := h.resolve hsource hfirst hcount (by omega)
  obtain ⟨m', hstore, hrest⟩ := h.store hsource hfirst hcount happlied hnear hmax hmem hbetween done
  refine ⟨m', ?_, hrest⟩
  rw [LogManager.appendEntries, h.noError, batch_head source first hcount,
    batch_getLast source first hcount]
  simp [hcheck, hstore]

theorem getEntry_appendEntries (hsource : OneTerm source term) {storage : LogStorage}
    {entries : List LogEntry} (hentries : ∀ entry ∈ entries, ∃ i, entry = source i) (j : Int) :
    (storage.appendEntries entries).getEntry j =
      if source j ∈ entries then some (source j) else storage.getEntry j := by
  induction entries generalizing storage with
  | nil => simp [LogStorage.appendEntries]
  | cons entry rest ih =>
    obtain ⟨i, rfl⟩ := hentries entry (by simp)
    show ((storage.appendEntry (source i)).appendEntries rest).getEntry j = _
    rw [ih fun entry he => hentries entry (by simp [he]), LogStorage.getEntry_appendEntry, hsource i]
    have hinj : source j = source i ↔ j = i := hsource.injective.eq_iff
    by_cases hrest : source j ∈ rest
    · simp [hrest]
    · by_cases hj : j = i
      · simp [hj]
      · simp [hrest, hj, hinj]

theorem mirrors_diskWrite (h : Mirrors source term got m) (hsource : OneTerm source term)
    {m' : LogManager γ} {task : DiskTask γ} {status : Status}
    (hw : m.diskWrite = some (m', task, status)) :
    Mirrors source term got m' ∧ m'.appliedId = m.appliedId ∧
      m'.dependencyLookBack = m.dependencyLookBack := by
  cases hq : m.diskQueue with
  | nil => simp [LogManager.diskWrite, hq] at hw
  | cons front rest =>
    obtain ⟨closure, rfl, hclosure⟩ := h.queue front (by simp [hq])
    have hrest : ∀ task ∈ rest, ∃ closure, task = .append closure ∧
        ∀ entry ∈ closure.entries, ∃ i, entry = source i ∧ got i :=
      fun task ht => h.queue task (by simp [hq, ht])
    have hfrom : ∀ entry ∈ closure.entries, ∃ i, entry = source i := by
      intro entry he
      obtain ⟨i, hi, -⟩ := hclosure entry he
      exact ⟨i, hi⟩
    simp only [LogManager.diskWrite, hq, h.noError, Bool.false_eq_true, if_false,
      Option.some.injEq, Prod.mk.injEq] at hw
    obtain ⟨rfl, -, -⟩ := hw
    have hstored : ∀ j, (m.storage.appendEntries closure.entries).getEntry j =
        if source j ∈ closure.entries then some (source j) else m.storage.getEntry j :=
      getEntry_appendEntries hsource hfrom
    refine ⟨{ h with noError := rfl, queue := hrest, storage := ?_, held := ?_ }, rfl, rfl⟩
    · intro i entry hi
      rw [hstored] at hi
      split at hi
      · rename_i hmem
        cases hi
        obtain ⟨j, hj, hgot⟩ := hclosure _ hmem
        exact ⟨rfl, hsource.injective hj ▸ hgot⟩
      · exact h.storage i entry hi
    · intro i hgot
      have hindex : (source i).id.index = i := by rw [hsource]
      by_cases hmem : source i ∈ closure.entries
      · refine .inl ?_
        rw [hindex, hstored, if_pos hmem]
      · rcases h.held i hgot with hs | ⟨other, hother, he⟩
        · refine .inl ?_
          rw [hindex] at hs ⊢
          rw [hstored, if_neg hmem, hs]
        · rw [hq] at hother
          rcases List.mem_cons.mp hother with heq | hother
          · cases heq
            exact absurd he hmem
          · exact .inr ⟨other, hother, he⟩

private theorem dropWhile_slots {p : Option LogEntry → Bool} {logs rest : List (Option LogEntry)}
    (h : logs.dropWhile p = rest) : ∃ k ≤ logs.length, rest = logs.drop k ∧
      ∀ j < k, ∃ slot, logs[j]? = some slot ∧ p slot = true := by
  subst h
  induction logs with
  | nil => exact ⟨0, le_rfl, rfl, by simp⟩
  | cons slot logs ih =>
    by_cases hp : p slot = true
    · obtain ⟨k, hk, hdrop, hall⟩ := ih
      refine ⟨k + 1, by simpa using hk, by simpa [hp] using hdrop, ?_⟩
      intro j hj
      cases j with
      | zero => exact ⟨slot, rfl, hp⟩
      | succ j => exact hall j (by omega)
    · exact ⟨0, by simp, by simp [hp], by simp⟩

theorem clearMemoryLogs_slots (m : LogManager γ) (id : LogId) :
    ∃ k ≤ m.logsInMemory.length,
      (m.clearMemoryLogs id).logsInMemory = m.logsInMemory.drop k ∧
      ∀ j < k, ∃ entry, m.logsInMemory[j]? = some (some entry) ∧ ¬ id.Before entry.id := by
  obtain ⟨k, hk, hdrop, hall⟩ := dropWhile_slots (show m.logsInMemory.dropWhile _ =
    (m.clearMemoryLogs id).logsInMemory from rfl)
  refine ⟨k, hk, hdrop, fun j hj => ?_⟩
  obtain ⟨slot, hslot, hp⟩ := hall j hj
  cases slot with
  | none => exact absurd hp Bool.false_ne_true
  | some entry => exact ⟨entry, hslot, of_decide_eq_true hp⟩

private theorem mirrors_clear (h : Mirrors source term got m) (hsource : OneTerm source term)
    {id : LogId}
    (hid : ¬ m.appliedId.Before id) : Mirrors source term got (m.clearMemoryLogs id) := by
  obtain ⟨k, hk, hlogs, hall⟩ := clearMemoryLogs_slots m id
  have hmax : (m.clearMemoryLogs id).maxLogIndex = m.maxLogIndex := rfl
  have hbits : (m.clearMemoryLogs id).dependencyBitmap = m.dependencyBitmap := rfl
  have hfirst : (m.clearMemoryLogs id).firstInMemory = m.firstInMemory + k := by
    simp only [Memory.firstInMemory, hlogs, hmax, List.length_drop]
    omega
  have hitem : ∀ i, m.firstInMemory + k ≤ i →
      item (m.clearMemoryLogs id).logsInMemory (i - (m.clearMemoryLogs id).firstInMemory) =
        item m.logsInMemory (i - m.firstInMemory) := by
    intro i hi
    rw [hlogs, hfirst, item_drop _ _ (by omega)]
    congr 1
    omega
  -- A dropped slot holds the entry of its index, and that entry is applied.
  have hpop : ∀ i, m.firstInMemory ≤ i → i < m.firstInMemory + k →
      got i ∧ m.appliedId.term = term ∧ i ≤ m.appliedId.index := by
    intro i h1 h2
    obtain ⟨entry, hslot, hbefore⟩ := hall (i - m.firstInMemory).toNat (by omega)
    have hi : item m.logsInMemory (i - m.firstInMemory) = some (some entry) := by
      rw [item, if_pos (by omega), hslot]
    obtain ⟨rfl, hgot⟩ := h.memory.slotWant i entry hi
    rw [LogId.before_iff] at hid hbefore
    rw [hsource i] at hbefore
    dsimp only at hbefore
    have := h.appliedTerm
    exact ⟨hgot, by omega, by omega⟩
  refine { h with memory := ⟨?_, ?_, ?_, ?_, ?_⟩, popped := ?_, applied := ?_ }
  · have := h.memory.length_le
    rw [hlogs, hmax, List.length_drop]
    omega
  · intro i entry hi
    have hb := item_eq_some_bounds hi
    rw [hitem i (by omega)] at hi
    exact h.memory.slotWant i entry hi
  · intro i hgot hlo hhi
    rw [hitem i (by omega)]
    exact h.memory.slotGot i hgot (by omega) hhi
  · exact h.memory.bitWant
  · exact h.memory.bitGot
  · intro i h1 h2
    by_cases hi : i < m.firstInMemory
    · exact h.popped i h1 hi
    · exact (hpop i (by omega) (by omega)).1
  · rw [hfirst]
    by_cases hk0 : k = 0
    · have := h.applied
      subst hk0
      simpa [LogManager.clearMemoryLogs] using this
    · have hlast := (hpop (m.firstInMemory + k - 1) (by omega) (by omega)).2
      exact .inr ⟨hlast.1, by show m.firstInMemory + k ≤ m.appliedId.index + 1; omega⟩

private theorem not_before_minId (a b : LogId) : ¬ b.Before (LogManager.minId a b) := by
  unfold LogManager.minId
  split
  · rw [LogId.before_iff]
    omega
  · rename_i h
    exact h

theorem setDiskId_settings (m : LogManager γ) (id : LogId) :
    (m.setDiskId id).appliedId = m.appliedId ∧
      (m.setDiskId id).dependencyLookBack = m.dependencyLookBack := by
  unfold LogManager.setDiskId
  split <;> exact ⟨rfl, rfl⟩

theorem setAppliedId_lookBack (m : LogManager γ) (id : LogId) :
    (m.setAppliedId id).dependencyLookBack = m.dependencyLookBack := by
  unfold LogManager.setAppliedId
  split <;> rfl

private theorem mirrors_setDiskId (h : Mirrors source term got m) (hsource : OneTerm source term)
    (id : LogId) : Mirrors source term got (m.setDiskId id) := by
  unfold LogManager.setDiskId
  split
  · exact h
  · refine mirrors_clear (m := { m with diskId := id }) { h with } hsource ?_
    exact not_before_minId id m.appliedId

theorem mirrors_diskBatchEnd (h : Mirrors source term got m) (hsource : OneTerm source term) :
    Mirrors source term got m.diskBatchEnd :=
  { mirrors_setDiskId h hsource m.lastId with }

theorem mirrors_setAppliedId (h : Mirrors source term got m) (hsource : OneTerm source term)
    {id : LogId} (hid : id.term ≤ term) : Mirrors source term got (m.setAppliedId id) := by
  unfold LogManager.setAppliedId
  split
  · exact h
  · rename_i hbefore
    rw [LogId.before_iff] at hbefore
    refine mirrors_clear (m := { m with appliedId := id })
      { h with applied := ?_, appliedTerm := hid } hsource ?_
    · show m.firstInMemory = 1 ∨ id.term = term ∧ m.firstInMemory ≤ id.index + 1
      have := h.appliedTerm
      rcases h.applied with hone | ⟨hterm, hle⟩
      · exact .inl hone
      · exact .inr ⟨by omega, by omega⟩
    · exact not_before_minId m.diskId id

end Manager

end HitConsistency.Log.OutOfOrderAppend
