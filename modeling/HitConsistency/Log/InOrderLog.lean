/- GID: HitConsistency/Log/InOrderLog
   digest: A log manager that takes its entries one behind the other, and what its disk thread writes. -/

import HitConsistency.Log.KeptEntries
import HitConsistency.Log.OutOfOrderAppend

set_option autoImplicit false
set_option relaxedAutoImplicit false

/-!
When every batch begins right behind the last entry, the manager holds one list of
entries. The memory has its end, the storage has the part that is written, and the
disk queue has the rest, in order.
-/

namespace HitConsistency.Log.InOrderLog

open HitConsistency.Base.GuardedRuns
open HitConsistency.Base.IndexedDeque
open HitConsistency.Base.SlidingBitmap
open HitConsistency.Log.Entry
open HitConsistency.Log.KeptEntries
open HitConsistency.Log.MemoryLog
open HitConsistency.Log.OutOfOrderAppend (clearMemoryLogs_slots)

/-- The indexes count up from 1 and the terms never fall. -/
structure Numbered (log : List LogEntry) : Prop where
  index : ∀ (k : Nat) (e : LogEntry), log[k]? = some e → e.id.index = k + 1
  term : ∀ e ∈ log, 0 < e.id.term
  sorted : log.Pairwise fun a b => a.id.term ≤ b.id.term

def lastIdOf (log : List LogEntry) : LogId := (log.getLast?.map LogEntry.id).getD .zero

section Lists

variable {log more : List LogEntry}

theorem Numbered.nil : Numbered [] :=
  ⟨by simp, by simp, List.Pairwise.nil⟩

theorem Numbered.isPrefix (h : Numbered log) (hsub : more <+: log) : Numbered more := by
  obtain ⟨rest, rfl⟩ := hsub
  refine ⟨fun k e he => h.index k e ?_, fun e he => h.term e (List.mem_append_left _ he),
    (List.pairwise_append.mp h.sorted).1⟩
  rw [List.getElem?_append_left (List.getElem?_eq_some_iff.mp he).1]
  exact he

theorem Numbered.take (h : Numbered log) (n : Nat) : Numbered (log.take n) :=
  h.isPrefix (List.take_prefix n log)

theorem Numbered.append (h : Numbered log) {term : Int} (hterm : 0 < term)
    (hbelow : ∀ e ∈ log, e.id.term ≤ term) (hmore : ∀ e ∈ more, e.id.term = term)
    (hindex : ∀ (k : Nat) (e : LogEntry), more[k]? = some e → e.id.index = log.length + k + 1) :
    Numbered (log ++ more) := by
  refine ⟨fun k e he => ?_, fun e he => ?_, ?_⟩
  · rcases lt_or_ge k log.length with hk | hk
    · rw [List.getElem?_append_left hk] at he
      exact h.index k e he
    · rw [List.getElem?_append_right hk] at he
      rw [hindex _ e he]
      omega
  · rcases List.mem_append.mp he with he | he
    · exact h.term e he
    · rw [hmore e he]
      exact hterm
  · refine List.pairwise_append.mpr ⟨h.sorted, ?_, fun a ha b hb => ?_⟩
    · refine List.pairwise_of_forall_mem_list fun a ha b hb => ?_
      rw [hmore a ha, hmore b hb]
    · rw [hmore b hb]
      exact hbelow a ha

private theorem lastIdOf_nil : lastIdOf [] = .zero := rfl

theorem lastIdOf_take_succ {k : Nat} {e : LogEntry} (he : log[k]? = some e) :
    lastIdOf (log.take (k + 1)) = e.id := by
  unfold lastIdOf
  rw [List.take_add_one, he]
  simp

private theorem lastIdOf_append (hne : more ≠ []) : lastIdOf (log ++ more) = lastIdOf more := by
  unfold lastIdOf
  rw [List.getLast?_append_of_ne_nil _ hne]

theorem Numbered.lastIdOf_index (h : Numbered log) : (lastIdOf log).index = log.length := by
  rcases List.eq_nil_or_concat log with rfl | ⟨front, e, rfl⟩
  · rfl
  · have hid := h.index front.length e (by simp)
    simp [lastIdOf, hid]

theorem Numbered.before (h : Numbered log) {j k : Nat} {a b : LogEntry} (ha : log[j]? = some a)
    (hb : log[k]? = some b) (hjk : j < k) : a.id.Before b.id := by
  have hterm : a.id.term ≤ b.id.term := by
    obtain ⟨hj, rfl⟩ := List.getElem?_eq_some_iff.mp ha
    obtain ⟨hk, rfl⟩ := List.getElem?_eq_some_iff.mp hb
    exact List.pairwise_iff_getElem.mp h.sorted j k hj hk hjk
  have hja := h.index j a ha
  have hkb := h.index k b hb
  rw [LogId.before_iff]
  omega

private theorem Numbered.lt_of_not_before (h : Numbered log) {j k : Nat} {e : LogEntry}
    (he : log[j]? = some e) (hbefore : ¬ (lastIdOf (log.take k)).Before e.id) : j < k := by
  by_contra hge
  apply hbefore
  cases k with
  | zero =>
    have := h.term e (List.mem_of_getElem? he)
    rw [List.take_zero, lastIdOf_nil, LogId.before_iff]
    exact .inl this
  | succ i =>
    have hi : i < log.length := by
      have := (List.getElem?_eq_some_iff.mp he).1
      omega
    have hget : log[i]? = some log[i] := List.getElem?_eq_getElem hi
    rw [lastIdOf_take_succ hget]
    exact h.before hget he (by omega)

private theorem Numbered.not_before_take (h : Numbered log) {k n : Nat} (hkn : k ≤ n)
    (hn : n ≤ log.length) :
    ¬ (lastIdOf (log.take n)).Before (lastIdOf (log.take k)) := by
  cases n with
  | zero =>
    rw [Nat.le_zero.mp hkn, LogId.before_iff]
    omega
  | succ n =>
    have hlast : log[n]? = some log[n] := List.getElem?_eq_getElem hn
    rw [lastIdOf_take_succ hlast]
    cases k with
    | zero =>
      have hterm := h.term _ (List.mem_of_getElem? hlast)
      rw [List.take_zero, lastIdOf_nil, LogId.before_iff]
      dsimp only [LogId.zero]
      omega
    | succ k =>
      have hget : log[k]? = some log[k] := List.getElem?_eq_getElem (by omega)
      rw [lastIdOf_take_succ hget, LogId.before_iff]
      rcases Nat.lt_or_ge k n with hlt | hge
      · have hbefore := h.before hget hlast hlt
        rw [LogId.before_iff] at hbefore
        omega
      · obtain rfl : k = n := by omega
        omega

end Lists

section Manager

variable {γ : Type}

/-- The entries that a task of the disk thread writes. -/
def batch : DiskTask γ → List LogEntry
  | .append closure => closure.entries
  | .lastLogId _ | .truncateSuffix _ _ => []

def Truncates : DiskTask γ → Prop
  | .truncateSuffix _ _ => True
  | .append _ | .lastLogId _ => False

/-- The manager holds these entries, and the disk thread has written the first of them. -/
structure InOrder (log : List LogEntry) (written : Nat) (m : LogManager γ) : Prop where
  numbered : Numbered log
  noError : m.hasError = false
  first : m.firstLogIndex = 1
  last : m.lastLogIndex = log.length
  largest : m.maxLogIndex = log.length
  memory : ∃ d ≤ written, m.logsInMemory = (log.drop d).map some
  bounded : written ≤ log.length
  storage : ∀ i, m.storage.getEntry i = item (log.take written) (i - 1)
  queue : m.diskQueue.flatMap batch = log.drop written
  kept : ∀ task ∈ m.diskQueue, ¬ Truncates task
  lastId : m.lastId = lastIdOf (log.take written)
  diskId : ∃ k ≤ written, m.diskId = lastIdOf (log.take k)

variable {log : List LogEntry} {written : Nat} {m m' : LogManager γ}

theorem InOrder.getEntry_storage (h : InOrder log written m) (k : Nat) :
    m.storage.getEntry (k + 1) = (log.take written)[k]? := by
  rw [h.storage, Int.add_sub_cancel, item, if_pos (Int.natCast_nonneg k), Int.toNat_natCast]

theorem inOrder_fresh (lookBack : Int) : InOrder [] 0 (.fresh lookBack : LogManager γ) where
  numbered := .nil
  noError := rfl
  first := rfl
  last := rfl
  largest := rfl
  memory := ⟨0, le_rfl, rfl⟩
  bounded := le_rfl
  storage := fun i => by
    rw [item]
    split <;> rfl
  queue := rfl
  kept := fun _ ht => (List.not_mem_nil ht).elim
  lastId := rfl
  diskId := ⟨0, le_rfl, rfl⟩

theorem InOrder.getEntryFromMemory (h : InOrder log written m) {k : Nat} {e : LogEntry}
    (he : log[k]? = some e) :
    ∃ entry, m.getEntryFromMemory (k + 1) = some entry ∧
      (entry = some e ∨ entry = none ∧ m.storage.getEntry (k + 1) = some e) := by
  have hk : k < log.length := (List.getElem?_eq_some_iff.mp he).1
  have hbounded := h.bounded
  obtain ⟨d, hd, hmemory⟩ := h.memory
  have hstored : k < d → m.storage.getEntry (k + 1) = some e := by
    intro hlow
    rw [h.getEntry_storage, List.getElem?_take_of_lt (by omega), he]
  unfold Memory.getEntryFromMemory
  rw [hmemory]
  rcases Nat.lt_or_ge d log.length with hlt | hge
  · have hback : ((log.drop d).map some).getLast? = some (some log[log.length - 1]) := by
      rw [List.getLast?_eq_getElem?, List.getElem?_map, List.getElem?_drop, List.length_map,
        List.length_drop, show d + (log.length - d - 1) = log.length - 1 by omega,
        List.getElem?_eq_getElem (by omega)]
      rfl
    have hindex := h.numbered.index (log.length - 1) _ (List.getElem?_eq_getElem (by omega))
    rw [hback]
    dsimp only
    rw [hindex]
    split
    · refine ⟨some e, ?_, .inl rfl⟩
      rename_i hin
      simp only [List.length_map, List.length_drop] at hin ⊢
      have hd' : d ≤ k := by omega
      have hpos : (k : Int) + 1 - (((log.length - 1 : Nat) : Int) + 1 -
          ((log.length - d : Nat) : Int) + 1) = ((k - d : Nat) : Int) := by omega
      rw [hpos, item, if_pos (by omega), Int.toNat_natCast, List.getElem?_map, List.getElem?_drop,
        Nat.add_sub_cancel' hd', he]
      rfl
    · refine ⟨none, rfl, .inr ⟨rfl, hstored ?_⟩⟩
      rename_i hout
      simp only [List.length_map, List.length_drop] at hout
      omega
  · have hempty : (log.drop d).map some = [] := by simp [hge]
    rw [hempty]
    exact ⟨none, rfl, .inr ⟨rfl, hstored (by omega)⟩⟩

theorem InOrder.unsafeGetTerm (h : InOrder log written m) {k : Nat} (hk : k ≤ log.length) :
    m.unsafeGetTerm k = some (lastIdOf (log.take k)).term := by
  cases k with
  | zero => rfl
  | succ k =>
    have he : log[k]? = some log[k] := List.getElem?_eq_getElem hk
    obtain ⟨entry, hmemory, hentry⟩ := h.getEntryFromMemory he
    rw [lastIdOf_take_succ he]
    unfold LogManager.unsafeGetTerm
    rw [h.largest, h.first, if_neg (by omega), if_neg (by omega), Nat.cast_succ, hmemory]
    rcases hentry with rfl | ⟨rfl, hstored⟩
    · rfl
    · simp [LogStorage.getTerm, hstored]

theorem InOrder.getEntry (h : InOrder log written m) {index : Int} {e : LogEntry}
    (hget : m.getEntry index = some (some e)) : ∃ k : Nat, index = k + 1 ∧ log[k]? = some e := by
  unfold LogManager.getEntry at hget
  rw [h.largest, h.first] at hget
  split at hget
  · cases hget
  · rename_i hrange
    obtain ⟨k, rfl⟩ : ∃ k : Nat, index = k + 1 := ⟨(index - 1).toNat, by omega⟩
    have hk : k < log.length := by omega
    have he : log[k]? = some log[k] := List.getElem?_eq_getElem hk
    obtain ⟨entry, hmemory, hentry⟩ := h.getEntryFromMemory he
    refine ⟨k, rfl, ?_⟩
    rw [hmemory] at hget
    rcases hentry with rfl | ⟨rfl, hstored⟩
    · rw [he]
      exact Option.some.inj hget
    · rw [he, ← hstored]
      exact Option.some.inj hget

theorem InOrder.enqueue (h : InOrder log written m) {task : DiskTask γ} (hbatch : batch task = [])
    (htask : ¬ Truncates task) : InOrder log written (m.enqueue task) :=
  { h with
    queue := by
      show (m.diskQueue ++ [task]).flatMap batch = _
      rw [List.flatMap_append, h.queue]
      simp [hbatch]
    kept := fun other ho => by
      rcases List.mem_append.mp ho with ho | ho
      · exact h.kept other ho
      · rw [List.mem_singleton.mp ho]
        exact htask }

section Append

variable {mem mem' : Memory}

private theorem writeSlots_last {entries : List LogEntry} {front old : List (Option LogEntry)}
    (hlength : old.length = entries.length) (hlogs : mem.logsInMemory = front ++ old)
    (hindex : ∀ (k : Nat) (e : LogEntry), entries[k]? = some e →
      e.id.index = mem.firstInMemory + front.length + k)
    (hrun : runEvents Memory.writeSlot mem entries = some mem') :
    mem'.logsInMemory = front ++ entries.map some ∧ mem'.maxLogIndex = mem.maxLogIndex := by
  induction entries generalizing mem front old with
  | nil =>
    cases hrun
    rw [List.length_eq_zero_iff.mp hlength] at hlogs
    exact ⟨hlogs, rfl⟩
  | cons e rest ih =>
    obtain ⟨slot, old, rfl⟩ := List.exists_cons_of_length_eq_add_one hlength
    obtain ⟨mid, hmid, hrest⟩ := runEvents_cons_eq_some.mp hrun
    obtain ⟨logs, hstore, hmid⟩ := Option.bind_eq_some_iff.mp hmid
    obtain ⟨bitmap, -, hmid⟩ := Option.bind_eq_some_iff.mp hmid
    cases hmid
    have hid := hindex 0 e rfl
    have hlength' := store_length hstore
    have hpos : e.id.index - mem.firstInMemory = (front.length : Int) := by
      push_cast at hid
      omega
    have hlogs' : logs = (front ++ [some e]) ++ old := by
      rw [hpos, store_defined _ (by omega) (by rw [hlogs, List.length_append]; simp)] at hstore
      rw [← Option.some.inj hstore, hlogs, Int.toNat_natCast, List.set_append_right _ _ le_rfl]
      simp
    have hfirst : Memory.firstInMemory ⟨mem.maxLogIndex, bitmap, logs⟩ = mem.firstInMemory := by
      simp [Memory.firstInMemory, hlength']
    have hrestIndex : ∀ (k : Nat) (e' : LogEntry), rest[k]? = some e' → e'.id.index =
        Memory.firstInMemory ⟨mem.maxLogIndex, bitmap, logs⟩ + (front ++ [some e]).length + k := by
      intro k e' he
      have := hindex (k + 1) e' (by simpa using he)
      rw [hfirst, List.length_append, List.length_singleton]
      push_cast at this ⊢
      omega
    obtain ⟨hlast, hmax⟩ := ih (by simpa using hlength) hlogs' hrestIndex hrest
    exact ⟨by simpa using hlast, hmax⟩

private theorem advanceLast_le {n : Nat} {last last' : Int}
    (hrun : mem.advanceLast n last = some last') :
    last' ≤ last + n := by
  induction n generalizing last with
  | zero =>
    cases hrun
    omega
  | succ n ih =>
    obtain ⟨slot, -, hrun⟩ := Option.bind_eq_some_iff.mp hrun
    split at hrun
    · have := ih hrun
      omega
    · cases hrun
      omega

private theorem advanceLast_max {logs : List LogEntry} {last last' : Int}
    (hlogs : mem.logsInMemory = logs.map some) (hlo : mem.firstInMemory ≤ last + 1)
    (hhi : last ≤ mem.maxLogIndex)
    (hrun : mem.advanceLast (mem.maxLogIndex - last).toNat last = some last') :
    last' = mem.maxLogIndex := by
  have hle := advanceLast_le hrun
  have hge : mem.maxLogIndex ≤ last' := by
    refine advanceLast_reaches hrun (by omega) fun i hi hmax => ?_
    have hrange : 0 ≤ i - mem.firstInMemory ∧ i - mem.firstInMemory < mem.logsInMemory.length := by
      unfold Memory.firstInMemory at hlo ⊢
      omega
    obtain ⟨slot, hslot⟩ := exists_item hrange.1 hrange.2
    rw [hslot]
    unfold item at hslot
    rw [if_pos hrange.1, hlogs, List.getElem?_map] at hslot
    obtain ⟨entry, -, rfl⟩ := Option.map_eq_some_iff.mp hslot
    exact ⟨entry, rfl⟩
  omega

theorem InOrder.store (h : InOrder log written m) {m₁ : LogManager γ} {entries : List LogEntry}
    {done : γ} (hne : entries ≠ []) (hnumbered : Numbered (log ++ entries))
    (old : List (Option LogEntry)) (hold : old.length = entries.length)
    (hlogs : (m₁.fillTo (log.length + entries.length)).logsInMemory = m.logsInMemory ++ old)
    (hmax : (m₁.fillTo (log.length + entries.length)).maxLogIndex = log.length + entries.length)
    (hlast : log.length ≤ m₁.lastLogIndex ∧ m₁.lastLogIndex ≤ log.length + entries.length)
    (hsame : m₁ = { m with toMemory := m₁.toMemory, lastLogIndex := m₁.lastLogIndex })
    (hstore : m₁.storeEntries entries done = some m') :
    InOrder (log ++ entries) written m' ∧
      ∃ front, m'.diskQueue = m.diskQueue ++ [.append ⟨front, entries, done⟩] := by
  have hbounded := h.bounded
  rcases LogManager.storeEntries_cases hstore with
    ⟨hnil, -⟩ | ⟨front, back, mem, last, -, hback, hwrite, hadvance, rfl⟩
  · exact absurd hnil hne
  · obtain ⟨d, hd, hmemory⟩ := h.memory
    have hbackId : back.id.index = log.length + entries.length := by
      have hget : (log ++ entries)[log.length + (entries.length - 1)]? = some back := by
        rw [List.getElem?_append_right (by omega), Nat.add_sub_cancel_left,
          ← List.getLast?_eq_getElem?, hback]
      have hlength := List.length_pos_of_ne_nil hne
      rw [hnumbered.index _ back hget]
      omega
    rw [hbackId] at hwrite
    have hfirst : (m₁.fillTo (log.length + entries.length)).firstInMemory +
        m.logsInMemory.length = log.length + 1 := by
      unfold Memory.firstInMemory
      rw [hmax, hlogs, List.length_append]
      push_cast
      omega
    have hindex : ∀ (k : Nat) (e : LogEntry), entries[k]? = some e → e.id.index =
        (m₁.fillTo (log.length + entries.length)).firstInMemory + m.logsInMemory.length + k := by
      intro k e he
      have hget : (log ++ entries)[log.length + k]? = some e := by
        rw [List.getElem?_append_right (by omega), Nat.add_sub_cancel_left, he]
      rw [hfirst, hnumbered.index _ e hget]
      push_cast
      omega
    obtain ⟨hmem, hmax'⟩ := writeSlots_last hold hlogs hindex hwrite
    have hfilled : mem.logsInMemory = ((log ++ entries).drop d).map some := by
      rw [hmem, hmemory, List.drop_append_of_le_length (by omega), List.map_append]
    have hlargest : mem.maxLogIndex = log.length + entries.length := hmax'.trans hmax
    have hend : last = log.length + entries.length := by
      rw [← hlargest]
      refine advanceLast_max hfilled ?_ (by omega) hadvance
      unfold Memory.firstInMemory
      rw [hlargest, hfilled, List.length_map, List.length_drop, List.length_append]
      omega
    have htake : ∀ k ≤ written, (log ++ entries).take k = log.take k :=
      fun k hk => List.take_append_of_le_length (by omega)
    rw [hsame]
    refine ⟨?_, front.id.index, rfl⟩
    exact
      { numbered := hnumbered
        noError := h.noError
        first := h.first
        last := by rw [List.length_append]; exact_mod_cast hend
        largest := by rw [List.length_append]; exact_mod_cast hlargest
        memory := ⟨d, hd, hfilled⟩
        bounded := by rw [List.length_append]; omega
        storage := fun k => by rw [htake written le_rfl]; exact h.storage k
        queue := by
          show (m.diskQueue ++ [_]).flatMap batch = _
          rw [List.flatMap_append, h.queue, List.drop_append_of_le_length hbounded]
          simp [batch]
        kept := fun task ht => by
          rcases List.mem_append.mp ht with ht | ht
          · exact h.kept task ht
          · rw [List.mem_singleton.mp ht]
            exact id
        lastId := by rw [htake written le_rfl]; exact h.lastId
        diskId := by
          obtain ⟨k, hk, hid⟩ := h.diskId
          exact ⟨k, hk, by rw [htake k hk]; exact hid⟩ }

theorem InOrder.appendNext (h : InOrder log written m) {entry : LogEntry} {done : γ}
    (hnumbered : Numbered (log ++ [entry])) {status : Option Status}
    (happend : m.appendEntries [entry] done true = some (m', status)) :
    m' = m ∨ InOrder (log ++ [entry]) written m' ∧
      ∃ front, m'.diskQueue = m.diskQueue ++ [.append ⟨front, [entry], done⟩] := by
  have hindex : entry.id.index = log.length + 1 := hnumbered.index log.length entry (by simp)
  unfold LogManager.appendEntries at happend
  rw [h.noError] at happend
  obtain ⟨resolution, hresolve, happend⟩ := Option.bind_eq_some_iff.mp happend
  unfold LogManager.checkAndResolveConflict at hresolve
  rw [if_neg (by omega), if_neg (by simp)] at hresolve
  split at hresolve
  · cases hresolve
    cases happend
    exact .inl rfl
  · rw [if_pos (by rw [h.largest]; exact hindex)] at hresolve
    cases hresolve
    obtain ⟨m₁, hstore, heq⟩ := Option.map_eq_some_iff.mp happend
    cases heq
    have hmax : max (m.maxLogIndex + 1) entry.id.index = log.length + 1 := by
      rw [h.largest, hindex, max_self]
    have hfill : ∀ mem : Memory, mem.maxLogIndex = log.length + 1 →
        mem.fillTo (log.length + ([entry] : List LogEntry).length) = mem :=
      fun mem hmem => fillTo_of_le (by rw [hmem]; simp)
    refine .inr (h.store (by simp) hnumbered [some entry] rfl ?_ ?_ ?_ rfl hstore)
    · rw [hfill _ hmax]
      rfl
    · rw [hfill _ hmax]
      exact hmax
    · show (log.length : Int) ≤ m.lastLogIndex ∧ m.lastLogIndex ≤ log.length + (1 : Nat)
      rw [h.last]
      omega

theorem getElem?_assignIndexes (last : Int) (entries : List LogEntry) (k : Nat) :
    (LogManager.assignIndexes last entries)[k]? =
      entries[k]?.map fun entry => { entry with id := ⟨last + k + 1, entry.id.term⟩ } := by
  induction entries generalizing last k with
  | nil => rfl
  | cons entry rest ih =>
    cases k with
    | zero => simp [LogManager.assignIndexes]
    | succ k =>
      rw [LogManager.assignIndexes, List.getElem?_cons_succ, List.getElem?_cons_succ, ih]
      rw [show last + 1 + (k : Int) + 1 = last + ((k + 1 : Nat) : Int) + 1 by push_cast; omega]

private theorem logsInMemory_fill (n : Nat) (mem : Memory) :
    ((fun mem : Memory => mem.pushSlot none)^[n] mem).logsInMemory =
      mem.logsInMemory ++ List.replicate n none := by
  induction n generalizing mem with
  | zero => simp
  | succ n ih =>
    rw [Function.iterate_succ_apply, ih]
    simp [Memory.pushSlot, List.replicate_succ]

theorem InOrder.appendOwn (h : InOrder log written m) {entries : List LogEntry} {done : γ}
    (hnew : ∀ entry ∈ entries, entry.id.index = 0)
    (hnumbered : Numbered (log ++ LogManager.assignIndexes log.length entries))
    {status : Option Status} (happend : m.appendEntries entries done false = some (m', status)) :
    InOrder (log ++ LogManager.assignIndexes log.length entries) written m' ∧
      ∃ front, m'.diskQueue = m.diskQueue ++
        [.append ⟨front, LogManager.assignIndexes log.length entries, done⟩] := by
  unfold LogManager.appendEntries at happend
  rw [h.noError] at happend
  cases entries with
  | nil =>
    change (m.storeEntries [] done).map (·, none) = some (m', status) at happend
    obtain ⟨m₁, hstore, heq⟩ := Option.map_eq_some_iff.mp happend
    cases heq
    cases hstore
    rw [LogManager.assignIndexes, List.append_nil]
    exact ⟨h.enqueue rfl id, 0, rfl⟩
  | cons front rest =>
    obtain ⟨back, hback⟩ : ∃ back, (front :: rest).getLast? = some back :=
      ⟨_, List.getLast?_eq_getLast_of_ne_nil (by simp)⟩
    rw [hback] at happend
    obtain ⟨resolution, hresolve, happend⟩ := Option.bind_eq_some_iff.mp happend
    unfold LogManager.checkAndResolveConflict at hresolve
    rw [if_pos (hnew front (by simp)), h.last] at hresolve
    cases hresolve
    obtain ⟨m₁, hstore, heq⟩ := Option.map_eq_some_iff.mp happend
    cases heq
    have hlength := length_assignIndexes log.length (front :: rest)
    have hcount : (log.length + ((front :: rest).length : Int) - m.maxLogIndex).toNat =
        (front :: rest).length := by
      rw [h.largest]
      omega
    refine h.store (by simp [LogManager.assignIndexes]) hnumbered
      (List.replicate (front :: rest).length none) (by rw [hlength, List.length_replicate])
      ?_ ?_ ?_ rfl hstore
    · rw [hlength, Memory.fillTo, hcount, logsInMemory_fill]
    · rw [hlength, Memory.fillTo, hcount, maxLogIndex_fill, h.largest]
    · rw [hlength]
      show (log.length : Int) ≤ log.length + ((front :: rest).length : Nat) ∧
        (log.length : Int) + ((front :: rest).length : Nat) ≤ log.length + (front :: rest).length
      omega

end Append

theorem getEntry_appendEntries {storage : LogStorage} (hnumbered : Numbered log)
    (hstorage : ∀ i, storage.getEntry i = item (log.take written) (i - 1)) {entries : List LogEntry}
    (hentries : entries <+: log.drop written) (i : Int) :
    (storage.appendEntries entries).getEntry i =
      item (log.take (written + entries.length)) (i - 1) := by
  induction entries generalizing storage written with
  | nil => exact hstorage i
  | cons entry rest ih =>
    have hget : log[written]? = some entry := by
      obtain ⟨more, hmore⟩ := hentries
      rw [← Nat.add_zero written, ← List.getElem?_drop, ← hmore]
      rfl
    have hone : ∀ j, (storage.appendEntry entry).getEntry j =
        item (log.take (written + 1)) (j - 1) := by
      intro j
      have hlength : (log.take written).length = written :=
        List.length_take_of_le (List.getElem?_eq_some_iff.mp hget).1.le
      rw [LogStorage.getEntry_appendEntry, hnumbered.index written entry hget, hstorage,
        List.take_add_one, hget, Option.toList_some, item_push, hlength]
      split
      · rw [if_pos (by omega)]
      · rw [if_neg (by omega)]
    have hrest : rest <+: log.drop (written + 1) := by
      obtain ⟨more, hmore⟩ := hentries
      refine ⟨more, ?_⟩
      rw [← List.tail_drop, ← hmore]
      rfl
    rw [List.length_cons, show written + (rest.length + 1) = written + 1 + rest.length by omega]
    exact ih hone hrest

theorem InOrder.diskWrite (h : InOrder log written m) {task : DiskTask γ} {status : Status}
    (hwrite : m.diskWrite = some (m', task, status)) :
    m.diskQueue = task :: m'.diskQueue ∧ ¬ Truncates task ∧ batch task <+: log.drop written ∧
      InOrder log (written + (batch task).length) m' := by
  unfold LogManager.diskWrite at hwrite
  have hqueue := h.queue
  have hkept := h.kept
  split at hwrite
  · cases hwrite
  · rename_i closure rest hhead
    rw [h.noError] at hwrite
    cases hwrite
    rw [hhead] at hqueue hkept
    have hbatch : closure.entries <+: log.drop written := ⟨_, hqueue⟩
    have htake : log.take (written + closure.entries.length) =
        log.take written ++ closure.entries := by
      rw [List.take_add, ← hqueue, List.flatMap_cons]
      exact congrArg _ List.take_left
    refine ⟨hhead, id, hbatch, ?_⟩
    obtain ⟨d, hd, hmemory⟩ := h.memory
    obtain ⟨k, hk, hid⟩ := h.diskId
    have hlength := hbatch.length_le
    have hbounded := h.bounded
    rw [List.length_drop] at hlength
    exact
      { h with
        noError := rfl
        memory := ⟨d, hd.trans (Nat.le_add_right _ _), hmemory⟩
        bounded := by show written + closure.entries.length ≤ log.length; omega
        storage := getEntry_appendEntries h.numbered h.storage hbatch
        queue := by
          rw [← List.drop_drop, ← hqueue]
          exact List.drop_left.symm
        kept := fun task ht => hkept task (List.mem_cons_of_mem _ ht)
        lastId := by
          show (closure.entries.getLast?.map LogEntry.id).getD m.lastId = lastIdOf (log.take _)
          rw [batch, htake, h.lastId]
          rcases List.eq_nil_or_concat closure.entries with hnil | ⟨front, e, hlast⟩
          · rw [hnil]
            simp
          · rw [lastIdOf_append (by simp [hlast]), hlast]
            simp [lastIdOf]
        diskId := ⟨k, hk.trans (Nat.le_add_right _ _), hid⟩ }
  · rename_i waiter rest hhead
    cases hwrite
    rw [hhead] at hqueue hkept
    exact ⟨hhead, id, List.nil_prefix,
      { h with queue := hqueue, kept := fun task ht => hkept task (List.mem_cons_of_mem _ ht) }⟩
  · rename_i rest hhead
    rw [hhead] at hkept
    exact (hkept _ (List.mem_cons_self ..) trivial).elim

private theorem not_before_minId_left (a b : LogId) : ¬ a.Before (LogManager.minId a b) := by
  unfold LogManager.minId
  split
  · rename_i h
    rw [LogId.before_iff] at h ⊢
    omega
  · rw [LogId.before_iff]
    omega

theorem InOrder.clear (h : InOrder log written m) {id : LogId} (hid : ¬ m.diskId.Before id) :
    InOrder log written (m.clearMemoryLogs id) := by
  obtain ⟨d, hd, hmemory⟩ := h.memory
  obtain ⟨k, hk, hdisk⟩ := h.diskId
  obtain ⟨j, hj, hlogs, hpassed⟩ := clearMemoryLogs_slots m id
  refine { h with memory := ⟨d + j, ?_, ?_⟩ }
  · rcases Nat.eq_zero_or_pos j with rfl | hpos
    · exact hd
    · obtain ⟨entry, hslot, hpass⟩ := hpassed (j - 1) (by omega)
      rw [hmemory, List.getElem?_map, List.getElem?_drop] at hslot
      obtain ⟨entry, hentry, hsame⟩ := Option.map_eq_some_iff.mp hslot
      cases hsame
      have hbefore : ¬ m.diskId.Before entry.id := by
        rw [LogId.before_iff] at hpass hid ⊢
        omega
      rw [hdisk] at hbefore
      have := h.numbered.lt_of_not_before hentry hbefore
      omega
  · rw [hlogs, hmemory, ← List.map_drop, List.drop_drop]

theorem InOrder.diskBatchEnd (h : InOrder log written m) :
    InOrder log written m.diskBatchEnd ∧ m.diskBatchEnd.diskQueue = m.diskQueue := by
  have hnot : ¬ m.lastId.Before m.diskId := by
    obtain ⟨k, hk, hdisk⟩ := h.diskId
    rw [h.lastId, hdisk]
    exact h.numbered.not_before_take hk h.bounded
  have hset : m.setDiskId m.lastId =
      { m with diskId := m.lastId }.clearMemoryLogs (LogManager.minId m.lastId m.appliedId) :=
    if_neg hnot
  have hmoved : InOrder log written { m with diskId := m.lastId } :=
    { h with diskId := ⟨written, le_rfl, h.lastId⟩ }
  have hclear := hmoved.clear (not_before_minId_left m.lastId m.appliedId)
  unfold LogManager.diskBatchEnd
  rw [hset]
  exact ⟨{ hclear with lastId := h.lastId }, rfl⟩

theorem InOrder.setAppliedId (h : InOrder log written m) (id : LogId) :
    InOrder log written (m.setAppliedId id) ∧ (m.setAppliedId id).diskQueue = m.diskQueue := by
  unfold LogManager.setAppliedId
  split
  · exact ⟨h, rfl⟩
  · have hmoved : InOrder log written { m with appliedId := id } := { h with }
    exact ⟨hmoved.clear (not_before_minId_left m.diskId id), rfl⟩

private theorem lastLogIndex_stored {storage : LogStorage} (hbounded : written ≤ log.length)
    (hstorage : ∀ i, storage.getEntry i = item (log.take written) (i - 1)) {bound : Nat}
    (hbound : written ≤ bound) : storage.lastLogIndex bound = written := by
  induction bound with
  | zero => exact (Nat.le_zero.mp hbound).symm
  | succ bound ih =>
    unfold LogStorage.lastLogIndex
    rw [hstorage, Int.add_sub_cancel, item, if_pos (Int.natCast_nonneg bound), Int.toNat_natCast]
    rcases Nat.lt_or_ge bound written with hlt | hge
    · rw [List.getElem?_take_of_lt hlt, List.getElem?_eq_getElem (by omega)]
      exact le_antisymm hlt hbound
    · rw [List.getElem?_eq_none (by rw [List.length_take]; omega)]
      exact ih hge

private theorem InOrder.storedId (h : InOrder log written m) :
    (⟨written, m.storage.getTerm written⟩ : LogId) = lastIdOf (log.take written) := by
  unfold LogStorage.getTerm
  cases written with
  | zero =>
    rw [h.storage, item_none_of_neg _ (by simp)]
    rfl
  | succ k =>
    have hk : k < log.length := h.bounded
    have he : log[k]? = some log[k] := List.getElem?_eq_getElem hk
    have hindex := h.numbered.index k _ he
    rw [lastIdOf_take_succ he, Nat.cast_succ, h.getEntry_storage,
      List.getElem?_take_of_lt (Nat.lt_succ_self k), he, ← hindex]
    rfl

theorem InOrder.restart (h : InOrder log written m) :
    InOrder (log.take written) written m.restart ∧ m.restart.diskQueue = [] := by
  have hbounded := h.bounded
  have hlast : m.storage.lastLogIndex m.maxLogIndex.toNat = written := by
    rw [h.largest, Int.toNat_natCast]
    exact lastLogIndex_stored h.bounded h.storage h.bounded
  have hlength : (log.take written).length = written := List.length_take_of_le h.bounded
  have hid := h.storedId
  unfold LogManager.restart
  rw [hlast]
  dsimp only
  rw [hid]
  refine ⟨?_, rfl⟩
  exact
    { numbered := h.numbered.take written
      noError := rfl
      first := rfl
      last := by rw [hlength]
      largest := by rw [hlength]
      memory := ⟨written, le_rfl, by rw [List.drop_take, Nat.sub_self]; rfl⟩
      bounded := hlength.ge
      storage := by rw [List.take_take, min_self]; exact h.storage
      queue := by rw [List.drop_take, Nat.sub_self]; rfl
      kept := fun _ ht => (List.not_mem_nil ht).elim
      lastId := by rw [List.take_take, min_self]
      diskId := ⟨written, le_rfl, by rw [List.take_take, min_self]⟩ }

end Manager

end HitConsistency.Log.InOrderLog
