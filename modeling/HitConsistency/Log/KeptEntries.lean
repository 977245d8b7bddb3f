/- GID: HitConsistency/Log/KeptEntries
   digest: Without conflicts, what the log manager has accepted is on disk or queued for it. -/

import HitConsistency.Log.MemoryLog

set_option autoImplicit false
set_option relaxedAutoImplicit false

/-!
The entries come from one log that gives every index its term. As long as no arriving
entry conflicts with the local log there is no truncation, and every slot of the
memory, every index up to the last one and every batch that was found present
already can be traced to the storage or to the disk queue.
-/

namespace HitConsistency.Log.KeptEntries

open HitConsistency.Base.GuardedRuns
open HitConsistency.Base.IndexedDeque
open HitConsistency.Log.Entry
open HitConsistency.Log.MemoryLog

def Consecutive : Int → List LogEntry → Prop
  | _, [] => True
  | first, entry :: rest => entry.id.index = first ∧ Consecutive (first + 1) rest

instance consecutiveDecidable : ∀ first entries, Decidable (Consecutive first entries)
  | _, [] => inferInstanceAs (Decidable True)
  | first, entry :: rest =>
      have := consecutiveDecidable (first + 1) rest
      inferInstanceAs (Decidable (entry.id.index = first ∧ Consecutive (first + 1) rest))

def Has (entries : List LogEntry) (i : Int) : Prop := ∃ entry ∈ entries, entry.id.index = i

section Batches

variable {first : Int} {entries : List LogEntry}

theorem Consecutive.index (h : Consecutive first entries) {k : Nat} {entry : LogEntry}
    (hk : entries[k]? = some entry) : entry.id.index = first + k := by
  induction entries generalizing first k with
  | nil => simp at hk
  | cons head rest ih =>
    obtain ⟨hhead, hrest⟩ := h
    cases k with
    | zero =>
      cases hk
      simpa using hhead
    | succ k =>
      have := ih hrest (by simpa using hk)
      push_cast
      omega

theorem Consecutive.drop (h : Consecutive first entries) (n : Nat) :
    Consecutive (first + n) (entries.drop n) := by
  induction n generalizing first entries with
  | zero => simpa using h
  | succ n ih =>
    cases entries with
    | nil => trivial
    | cons head rest =>
      have := ih h.2
      rw [List.drop_succ_cons]
      push_cast
      rwa [show first + ((n : Int) + 1) = first + 1 + n by omega]

theorem Consecutive.has_iff (h : Consecutive first entries) (i : Int) :
    Has entries i ↔ first ≤ i ∧ i < first + entries.length := by
  constructor
  · rintro ⟨entry, hentry, rfl⟩
    obtain ⟨k, hk⟩ := List.mem_iff_getElem?.mp hentry
    have hlt := (List.getElem?_eq_some_iff.mp hk).1
    rw [h.index hk]
    omega
  · rintro ⟨hlo, hhi⟩
    have hlt : (i - first).toNat < entries.length := by omega
    refine ⟨entries[(i - first).toNat], List.getElem_mem hlt, ?_⟩
    rw [h.index (List.getElem?_eq_getElem hlt)]
    omega

theorem Consecutive.back (h : Consecutive first entries) {back : LogEntry}
    (hback : entries.getLast? = some back) : back.id.index = first + entries.length - 1 := by
  rw [List.getLast?_eq_getElem?] at hback
  have hlen := (List.getElem?_eq_some_iff.mp hback).1
  rw [h.index hback]
  omega

theorem Consecutive.le (h : Consecutive first entries) {entry : LogEntry} (he : entry ∈ entries) :
    first ≤ entry.id.index := by
  induction entries generalizing first with
  | nil => cases he
  | cons head rest ih =>
    rcases List.mem_cons.mp he with rfl | he
    · exact h.1.ge
    · have hle := ih h.2 he
      omega

theorem Consecutive.le_back (h : Consecutive first entries) {entry back : LogEntry}
    (he : entry ∈ entries) (hback : entries.getLast? = some back) :
    entry.id.index ≤ back.id.index := by
  have hhas := (h.has_iff entry.id.index).mp ⟨entry, he, rfl⟩
  rw [h.back hback]
  omega

theorem consecutive_assignIndexes (last : Int) (entries : List LogEntry) :
    Consecutive (last + 1) (LogManager.assignIndexes last entries) := by
  induction entries generalizing last with
  | nil => trivial
  | cons entry rest ih => exact ⟨rfl, ih (last + 1)⟩

theorem length_assignIndexes (last : Int) (entries : List LogEntry) :
    (LogManager.assignIndexes last entries).length = entries.length := by
  induction entries generalizing last with
  | nil => rfl
  | cons entry rest ih => rw [LogManager.assignIndexes, List.length_cons, List.length_cons, ih]

end Batches

section Definitions

variable {γ : Type} (terms : Int → Int)

/-- The storage has the entry of the index, with its term. -/
def OnDisk (storage : LogStorage) (i : Int) : Prop :=
  ∃ entry, storage.getEntry i = some entry ∧ entry.id = ⟨i, terms i⟩

instance onDiskDecidable (storage : LogStorage) (i : Int) : Decidable (OnDisk terms storage i) :=
  decidable_of_iff (∃ entry ∈ storage.getEntry i, entry.id = ⟨i, terms i⟩) Iff.rfl

/-- The entry is on disk, or one of the tasks will write it. -/
def KeptBy (storage : LogStorage) (tasks : List (DiskTask γ)) (i : Int) : Prop :=
  OnDisk terms storage i ∨
    ∃ closure, .append closure ∈ tasks ∧ ∃ entry ∈ closure.entries, entry.id = ⟨i, terms i⟩

def Follows : Int → List LogEntry → Prop
  | _, [] => True
  | first, entry :: rest => entry.id = ⟨first, terms first⟩ ∧ Follows (first + 1) rest

/-- Every filled slot holds the entry of its index, and the index is known. -/
def Aligned (known : Int → Prop) (mem : Memory) : Prop :=
  ∀ i entry, item mem.logsInMemory (i - mem.firstInMemory) = some (some entry) →
    entry.id = ⟨i, terms i⟩ ∧ known i

/-- The local log has the entry's term at its index, or nothing. Only an out-of-order
append may find nothing at or below the last index. -/
def Agrees (m : LogManager γ) (ooRep : Bool) (entry : LogEntry) : Prop :=
  ∀ t ∈ m.unsafeGetTerm entry.id.index,
    t = entry.id.term ∨ t = 0 ∧ (ooRep = true ∨ m.lastLogIndex < entry.id.index)

instance agreesDecidable (m : LogManager γ) (ooRep : Bool) (entry : LogEntry) :
    Decidable (Agrees m ooRep entry) :=
  inferInstanceAs (Decidable (∀ t ∈ m.unsafeGetTerm entry.id.index, _))

structure Keeps (m : LogManager γ) : Prop where
  noError : m.hasError = false
  memory : Aligned terms (KeptBy terms m.storage m.diskQueue) m.toMemory
  stored : ∀ i entry, m.storage.getEntry i = some entry → entry.id = ⟨i, terms i⟩
  queue : ∀ task ∈ m.diskQueue, ∃ closure, task = .append closure ∧
    ∀ entry ∈ closure.entries, entry.id = ⟨entry.id.index, terms entry.id.index⟩
  last : ∀ i, 1 ≤ i → i ≤ m.lastLogIndex → KeptBy terms m.storage m.diskQueue i

end Definitions

section Follows

variable {terms : Int → Int} {first : Int} {entries : List LogEntry}

theorem Follows.id (h : Follows terms first entries) {k : Nat} {entry : LogEntry}
    (hk : entries[k]? = some entry) : entry.id = ⟨first + k, terms (first + k)⟩ := by
  induction entries generalizing first k with
  | nil => simp at hk
  | cons head rest ih =>
    obtain ⟨hhead, hrest⟩ := h
    cases k with
    | zero =>
      cases hk
      simpa using hhead
    | succ k =>
      have := ih hrest (by simpa using hk)
      rw [this]
      push_cast
      rw [show first + 1 + (k : Int) = first + (k + 1) by omega]

theorem Follows.mem (h : Follows terms first entries) {entry : LogEntry} (he : entry ∈ entries) :
    entry.id = ⟨entry.id.index, terms entry.id.index⟩ ∧ first ≤ entry.id.index := by
  obtain ⟨k, hk⟩ := List.mem_iff_getElem?.mp he
  have := h.id hk
  rw [this]
  exact ⟨rfl, by dsimp only; omega⟩

theorem Follows.drop (h : Follows terms first entries) (n : Nat) :
    Follows terms (first + n) (entries.drop n) := by
  induction n generalizing first entries with
  | zero => simpa using h
  | succ n ih =>
    cases entries with
    | nil => trivial
    | cons head rest =>
      have := ih h.2
      rw [List.drop_succ_cons]
      push_cast
      rwa [show first + ((n : Int) + 1) = first + 1 + n by omega]

theorem Follows.get (h : Follows terms first entries) {i : Int} (hlo : first ≤ i)
    (hhi : i < first + entries.length) : ∃ entry ∈ entries, entry.id = ⟨i, terms i⟩ := by
  have hlt : (i - first).toNat < entries.length := by omega
  obtain ⟨entry, hk⟩ : ∃ entry, entries[(i - first).toNat]? = some entry :=
    ⟨_, List.getElem?_eq_getElem hlt⟩
  refine ⟨entry, List.mem_of_getElem? hk, ?_⟩
  have hid := h.id hk
  rwa [show first + ((i - first).toNat : Int) = i by omega] at hid

theorem Follows.back (h : Follows terms first entries) {back : LogEntry}
    (hback : entries.getLast? = some back) : back.id.index = first + entries.length - 1 := by
  rw [List.getLast?_eq_getElem?] at hback
  have hid := h.id hback
  have hlen := (List.getElem?_eq_some_iff.mp hback).1
  rw [hid]
  dsimp only
  omega

end Follows

section Terms

variable {first : Int} {entries : List LogEntry}

theorem Consecutive.exists_terms (h : Consecutive first entries) (terms : Int → Int) :
    ∃ terms', Follows terms' first entries ∧
      ∀ i, (∀ entry ∈ entries, entry.id.index = i → entry.id.term = terms i) →
        terms' i = terms i := by
  have hexists : ∃ terms' : Int → Int, (∀ entry ∈ entries, terms' entry.id.index = entry.id.term) ∧
      ∀ i, (∀ entry ∈ entries, entry.id.index = i → entry.id.term = terms i) →
        terms' i = terms i := by
    induction entries generalizing first with
    | nil => exact ⟨terms, by simp, by simp⟩
    | cons head rest ih =>
      obtain ⟨terms', hrest, hother⟩ := ih h.2
      refine ⟨Function.update terms' head.id.index head.id.term, ?_, ?_⟩
      · intro entry he
        rcases List.mem_cons.mp he with rfl | he
        · exact Function.update_self _ _ _
        · have hle := h.2.le he
          have hne : entry.id.index ≠ head.id.index := by
            have hhead := h.1
            omega
          rw [Function.update_of_ne hne]
          exact hrest entry he
      · intro i hi
        by_cases hhead : i = head.id.index
        · subst hhead
          rw [Function.update_self]
          exact hi head (by simp) rfl
        · rw [Function.update_of_ne hhead]
          exact hother i fun entry he => hi entry (by simp [he])
  obtain ⟨terms', hentries, hother⟩ := hexists
  refine ⟨terms', ?_, hother⟩
  clear hother
  induction entries generalizing first with
  | nil => trivial
  | cons head rest ih =>
    refine ⟨?_, ih h.2 fun entry he => hentries entry (by simp [he])⟩
    have hhead := hentries head (by simp)
    rw [← h.1, hhead]

end Terms

section Memory

variable {terms : Int → Int} {known : Int → Prop} {mem : Memory}

theorem Aligned.imp {more : Int → Prop} (h : Aligned terms known mem)
    (himp : ∀ i, known i → more i) : Aligned terms more mem :=
  fun i entry hi => ⟨(h i entry hi).1, himp i (h i entry hi).2⟩

private theorem aligned_pushSlot (h : Aligned terms known mem) {slot : Option LogEntry}
    (hslot : ∀ entry ∈ slot,
      entry.id = ⟨mem.maxLogIndex + 1, terms (mem.maxLogIndex + 1)⟩ ∧
        known (mem.maxLogIndex + 1)) : Aligned terms known (mem.pushSlot slot) := by
  intro i entry hi
  have hfirst : (mem.pushSlot slot).firstInMemory = mem.firstInMemory := by
    simp [Memory.pushSlot, Memory.firstInMemory]
  rw [hfirst] at hi
  change item (mem.logsInMemory ++ [slot]) _ = _ at hi
  rw [item_push] at hi
  split at hi
  · rename_i hnew
    have htop : i = mem.maxLogIndex + 1 := by
      unfold Memory.firstInMemory at hnew
      omega
    subst htop
    exact hslot entry (Option.some.inj hi)
  · exact h i entry hi

private theorem aligned_fillTo (h : Aligned terms known mem) (index : Int) :
    Aligned terms known (mem.fillTo index) := by
  unfold Memory.fillTo
  induction (index - mem.maxLogIndex).toNat generalizing mem with
  | zero => exact h
  | succ n ih =>
    rw [Function.iterate_succ_apply]
    exact ih (aligned_pushSlot h (by simp))

private theorem aligned_pushAll (h : Aligned terms known mem) {entries : List LogEntry}
    (hentries : Follows terms (mem.maxLogIndex + 1) entries)
    (hknown : ∀ entry ∈ entries, known entry.id.index) :
    Aligned terms known (entries.foldl (fun mem entry => mem.pushSlot (some entry)) mem) ∧
      (entries.foldl (fun mem entry => mem.pushSlot (some entry)) mem).maxLogIndex =
        mem.maxLogIndex + entries.length := by
  induction entries generalizing mem with
  | nil => exact ⟨h, by simp⟩
  | cons entry rest ih =>
    obtain ⟨hid, hrest⟩ := hentries
    have hpush : Aligned terms known (mem.pushSlot (some entry)) := by
      apply aligned_pushSlot h
      intro e he
      cases Option.mem_some_iff.mp he
      have := hknown entry (by simp)
      rw [hid] at this
      exact ⟨hid, this⟩
    obtain ⟨haligned, hmax⟩ := ih hpush hrest fun e he => hknown e (by simp [he])
    refine ⟨haligned, ?_⟩
    rw [List.foldl_cons, hmax]
    simp only [Memory.pushSlot, List.length_cons]
    push_cast
    omega

private theorem aligned_extend {n : Nat} {entries : List LogEntry} {mem' : Memory}
    (h : Aligned terms known mem)
    (hentries : ∀ entry ∈ entries,
      entry.id = ⟨entry.id.index, terms entry.id.index⟩ ∧ known entry.id.index)
    (hrun : Memory.extend n mem entries = some mem') : Aligned terms known mem' := by
  induction n generalizing mem entries with
  | zero =>
    cases hrun
    exact h
  | succ n ih =>
    cases entries with
    | nil => cases hrun
    | cons entry rest =>
      rw [Memory.extend] at hrun
      split at hrun
      · rename_i hindex
        refine ih (aligned_pushSlot h ?_) (fun e he => hentries e (by simp [he])) hrun
        intro e he
        cases Option.mem_some_iff.mp he
        have := hentries entry (by simp)
        rwa [hindex] at this
      · exact ih (aligned_pushSlot h (by simp)) hentries hrun

private theorem aligned_writeSlot {entry : LogEntry} {mem' : Memory} (h : Aligned terms known mem)
    (hid : entry.id = ⟨entry.id.index, terms entry.id.index⟩) (hknown : known entry.id.index)
    (hrun : mem.writeSlot entry = some mem') : Aligned terms known mem' := by
  obtain ⟨logs, hstore, hrun⟩ := Option.bind_eq_some_iff.mp hrun
  obtain ⟨bitmap, -, hrun⟩ := Option.bind_eq_some_iff.mp hrun
  cases hrun
  intro i e hi
  have hfirst : (⟨mem.maxLogIndex, bitmap, logs⟩ : Memory).firstInMemory = mem.firstInMemory := by
    simp [Memory.firstInMemory, store_length hstore]
  rw [hfirst] at hi
  change item logs _ = _ at hi
  rw [item_store hstore] at hi
  split at hi
  · rename_i hindex
    have hii : i = entry.id.index := by omega
    cases hi
    rw [hii]
    exact ⟨hid, hknown⟩
  · exact h i e hi

private theorem aligned_writeSlots {entries : List LogEntry} {mem' : Memory}
    (h : Aligned terms known mem)
    (hentries : ∀ entry ∈ entries,
      entry.id = ⟨entry.id.index, terms entry.id.index⟩ ∧ known entry.id.index)
    (hrun : runEvents Memory.writeSlot mem entries = some mem') : Aligned terms known mem' := by
  induction entries generalizing mem with
  | nil =>
    cases hrun
    exact h
  | cons entry rest ih =>
    obtain ⟨mid, hmid, hrest⟩ := runEvents_cons_eq_some.mp hrun
    obtain ⟨hid, hknown⟩ := hentries entry (by simp)
    exact ih (aligned_writeSlot h hid hknown hmid) (fun e he => hentries e (by simp [he])) hrest

theorem advanceLast_filled {n : Nat} {last last' : Int} (hrun : mem.advanceLast n last = some last')
    {i : Int} (hlo : last < i) (hhi : i ≤ last') :
    ∃ entry, item mem.logsInMemory (i - mem.firstInMemory) = some (some entry) := by
  induction n generalizing last with
  | zero =>
    cases hrun
    omega
  | succ n ih =>
    obtain ⟨slot, hslot, hrun⟩ := Option.bind_eq_some_iff.mp hrun
    split at hrun
    · rename_i hfilled
      by_cases hi : i = last + 1
      · obtain ⟨entry, rfl⟩ := Option.isSome_iff_exists.mp hfilled
        refine ⟨entry, ?_⟩
        rw [hi, show last + 1 - mem.firstInMemory = last - mem.firstInMemory + 1 by omega]
        exact hslot
      · exact ih hrun (by omega)
    · cases hrun
      omega

theorem fillTo_of_le {index : Int} (h : index ≤ mem.maxLogIndex) : mem.fillTo index = mem := by
  unfold Memory.fillTo
  rw [show (index - mem.maxLogIndex).toNat = 0 by omega]
  rfl

theorem maxLogIndex_fill (n : Nat) (mem : Memory) :
    ((fun mem : Memory => mem.pushSlot none)^[n] mem).maxLogIndex = mem.maxLogIndex + n := by
  induction n generalizing mem with
  | zero => simp
  | succ n ih =>
    rw [Function.iterate_succ_apply, ih]
    simp only [Memory.pushSlot]
    omega

theorem le_advanceLast {n : Nat} {last last' : Int} (hrun : mem.advanceLast n last = some last') :
    last ≤ last' := by
  induction n generalizing last with
  | zero =>
    cases hrun
    exact le_rfl
  | succ n ih =>
    obtain ⟨slot, -, hrun⟩ := Option.bind_eq_some_iff.mp hrun
    split at hrun
    · have := ih hrun
      omega
    · cases hrun
      exact le_rfl

theorem advanceLast_reaches {n : Nat} {last last' target : Int}
    (hrun : mem.advanceLast n last = some last') (hcount : target ≤ last + n)
    (hfilled : ∀ i, last < i → i ≤ target →
      ∃ entry, item mem.logsInMemory (i - mem.firstInMemory) = some (some entry)) :
    target ≤ last' := by
  induction n generalizing last with
  | zero =>
    cases hrun
    omega
  | succ n ih =>
    rcases le_or_gt target last with hle | hgt
    · exact hle.trans (le_advanceLast hrun)
    · obtain ⟨slot, hslot, hrun⟩ := Option.bind_eq_some_iff.mp hrun
      obtain ⟨entry, hentry⟩ := hfilled (last + 1) (by omega) (by omega)
      rw [show last + 1 - mem.firstInMemory = last - mem.firstInMemory + 1 by omega] at hentry
      cases hslot.symm.trans hentry
      rw [if_pos (Option.isSome_some)] at hrun
      refine ih hrun (by omega) fun i hlo hhi => hfilled i (by omega) hhi

private theorem writeSlot_filled {entry : LogEntry} {mem' : Memory}
    (hrun : mem.writeSlot entry = some mem') :
    mem'.maxLogIndex = mem.maxLogIndex ∧ mem'.firstInMemory = mem.firstInMemory ∧
      ∀ i, (i = entry.id.index ∨
          ∃ e, item mem.logsInMemory (i - mem.firstInMemory) = some (some e)) →
        ∃ e, item mem'.logsInMemory (i - mem.firstInMemory) = some (some e) := by
  obtain ⟨logs, hstore, hrun⟩ := Option.bind_eq_some_iff.mp hrun
  obtain ⟨bitmap, -, hrun⟩ := Option.bind_eq_some_iff.mp hrun
  cases hrun
  refine ⟨rfl, by simp [Memory.firstInMemory, store_length hstore], ?_⟩
  intro i hi
  show ∃ e, item logs (i - mem.firstInMemory) = some (some e)
  rw [item_store hstore]
  split
  · exact ⟨entry, rfl⟩
  · rename_i hne
    exact hi.resolve_left fun heq => hne (by rw [heq])

private theorem writeSlots_filled {entries : List LogEntry} {mem' : Memory}
    (hrun : runEvents Memory.writeSlot mem entries = some mem') :
    mem'.maxLogIndex = mem.maxLogIndex ∧ mem'.firstInMemory = mem.firstInMemory ∧
      ∀ i, ((∃ entry ∈ entries, entry.id.index = i) ∨
          ∃ e, item mem.logsInMemory (i - mem.firstInMemory) = some (some e)) →
        ∃ e, item mem'.logsInMemory (i - mem.firstInMemory) = some (some e) := by
  induction entries generalizing mem with
  | nil =>
    cases hrun
    exact ⟨rfl, rfl, fun i hi => hi.resolve_left (by simp)⟩
  | cons entry rest ih =>
    obtain ⟨mid, hmid, hrest⟩ := runEvents_cons_eq_some.mp hrun
    obtain ⟨hmax, hfirst, hone⟩ := writeSlot_filled hmid
    obtain ⟨hmax', hfirst', hmore⟩ := ih hrest
    refine ⟨hmax'.trans hmax, hfirst'.trans hfirst, fun i hi => ?_⟩
    rw [hfirst] at hmore
    apply hmore
    rcases hi with ⟨e, he, rfl⟩ | hold
    · rcases List.mem_cons.mp he with rfl | he
      · exact .inr (hone _ (.inl rfl))
      · exact .inl ⟨e, he, rfl⟩
    · exact .inr (hone i (.inr hold))

theorem maxLogIndex_extend {n : Nat} {entries : List LogEntry} {mem' : Memory}
    (hrun : Memory.extend n mem entries = some mem') :
    mem'.maxLogIndex = mem.maxLogIndex + n := by
  induction n generalizing mem entries with
  | zero =>
    cases hrun
    simp
  | succ n ih =>
    cases entries with
    | nil => cases hrun
    | cons entry rest =>
      rw [Memory.extend] at hrun
      split at hrun
      · rw [ih hrun]
        simp only [Memory.pushSlot]
        omega
      · rw [ih hrun]
        simp only [Memory.pushSlot]
        omega

end Memory

section Manager

variable {γ : Type} {terms : Int → Int} {m : LogManager γ}

theorem KeptBy.weaken {storage : LogStorage} {tasks more : List (DiskTask γ)} {i : Int}
    (h : KeptBy terms storage tasks i) (hsub : ∀ task ∈ tasks, task ∈ more) :
    KeptBy terms storage more i :=
  h.imp_right fun ⟨closure, hc, hentry⟩ => ⟨closure, hsub _ hc, hentry⟩

theorem Keeps.getTerm (h : Keeps terms m) {i t : Int} (hget : m.unsafeGetTerm i = some t)
    (ht : t ≠ 0) : KeptBy terms m.storage m.diskQueue i := by
  unfold LogManager.unsafeGetTerm at hget
  split_ifs at hget
  · cases hget
    exact absurd rfl ht
  · cases hget
    exact absurd rfl ht
  · obtain ⟨slot, hslot, rfl⟩ := Option.map_eq_some_iff.mp hget
    cases slot with
    | none =>
      -- Not in memory, so the term was read from the storage.
      cases hs : m.storage.getEntry i with
      | none => exact absurd (by simp [LogStorage.getTerm, hs]) ht
      | some entry => exact .inl ⟨entry, hs, h.stored i entry hs⟩
    | some entry =>
      unfold Memory.getEntryFromMemory at hslot
      split at hslot
      · cases hslot
      · cases hslot
      · rename_i back hback
        dsimp only at hslot
        split at hslot
        · -- The back slot is aligned, so the memory starts where its length says.
          have hne : m.logsInMemory ≠ [] := by
            intro hnil
            simp [hnil] at hback
          have hpos := List.length_pos_iff.mpr hne
          have htop : item m.logsInMemory (m.maxLogIndex - m.firstInMemory) = some (some back) := by
            rw [List.getLast?_eq_getElem?] at hback
            have hd : m.maxLogIndex - m.firstInMemory =
                ((m.logsInMemory.length - 1 : Nat) : Int) := by
              unfold Memory.firstInMemory
              omega
            rw [hd, item, if_pos (by omega), Int.toNat_natCast, hback]
          have hindex : back.id.index = m.maxLogIndex := by
            rw [(h.memory _ _ htop).1]
          rw [hindex] at hslot
          exact (h.memory i entry hslot).2
        · cases hslot

private theorem findConflict_spec {ooRep : Bool} {entries : List LogEntry} {n : Nat}
    (hrun : m.findConflict ooRep entries = some n) :
    (∀ k < n, ∀ entry, entries[k]? = some entry → ∃ t, m.unsafeGetTerm entry.id.index = some t ∧
      (t = entry.id.term ∨ ooRep = true)) ∧
    (∀ entry, entries[n]? = some entry → ∃ t, m.unsafeGetTerm entry.id.index = some t ∧
      t ≠ entry.id.term ∧ (ooRep = false ∨ t ≠ 0)) ∧ n ≤ entries.length := by
  induction entries generalizing n with
  | nil =>
    cases hrun
    exact ⟨fun k hk => absurd hk (Nat.not_lt_zero k), by simp, le_rfl⟩
  | cons head rest ih =>
    obtain ⟨t, ht, hrun⟩ := Option.bind_eq_some_iff.mp hrun
    split at hrun
    · rename_i hdiff
      cases hrun
      refine ⟨fun k hk => absurd hk (Nat.not_lt_zero k), ?_, Nat.zero_le _⟩
      intro entry hentry
      cases hentry
      exact ⟨t, ht, by simpa using hdiff⟩
    · rename_i hsame
      obtain ⟨n, hrest, rfl⟩ := Option.map_eq_some_iff.mp hrun
      obtain ⟨hbefore, hat, hle⟩ := ih hrest
      refine ⟨?_, ?_, by simpa using hle⟩
      · intro k hk entry hentry
        cases k with
        | zero =>
          cases hentry
          refine ⟨t, ht, ?_⟩
          cases ooRep with
          | true => exact .inr rfl
          | false =>
            refine .inl ?_
            by_contra hne
            exact hsame ⟨hne, by simp⟩
        | succ k => exact hbefore k (by omega) entry (by simpa using hentry)
      · intro entry hentry
        exact hat entry (by simpa using hentry)

/-- The second half of an append: what remains of the batch is queued, and memory that
was aligned up to the batch stays so. -/
theorem keeps_store {entries : List LogEntry} {done : γ} {m' : LogManager γ}
    (hnoError : m.hasError = false)
    (hmemory : Aligned terms (fun i => KeptBy terms m.storage m.diskQueue i ∨
      ∃ entry ∈ entries, entry.id = ⟨i, terms i⟩) m.toMemory)
    (hstored : ∀ i entry, m.storage.getEntry i = some entry → entry.id = ⟨i, terms i⟩)
    (hqueue : ∀ task ∈ m.diskQueue, ∃ closure, task = .append closure ∧
      ∀ entry ∈ closure.entries, entry.id = ⟨entry.id.index, terms entry.id.index⟩)
    (hlast : ∀ i, 1 ≤ i → i ≤ m.lastLogIndex → KeptBy terms m.storage m.diskQueue i ∨
      ∃ entry ∈ entries, entry.id = ⟨i, terms i⟩)
    (hentries : ∀ entry ∈ entries, entry.id = ⟨entry.id.index, terms entry.id.index⟩)
    (hrun : m.storeEntries entries done = some m') :
    Keeps terms m' ∧ m'.storage = m.storage ∧
      ∃ closure, m'.diskQueue = m.diskQueue ++ [.append closure] ∧ closure.done = done ∧
        closure.entries = entries := by
  -- Behind the call the batch itself is in the queue.
  have grown : ∀ (first : Int) (i : Int), (KeptBy terms m.storage m.diskQueue i ∨
      ∃ entry ∈ entries, entry.id = ⟨i, terms i⟩) →
      KeptBy terms m.storage (m.diskQueue ++ [.append ⟨first, entries, done⟩]) i := by
    rintro first i (hkept | hentry)
    · exact hkept.weaken fun task htask => List.mem_append_left _ htask
    · exact .inr ⟨⟨first, entries, done⟩, by simp, hentry⟩
  have hqueue' : ∀ first : Int, ∀ task ∈ m.diskQueue ++ [.append ⟨first, entries, done⟩],
      ∃ closure, task = .append closure ∧
        ∀ entry ∈ closure.entries, entry.id = ⟨entry.id.index, terms entry.id.index⟩ := by
    intro first task htask
    rcases List.mem_append.mp htask with htask | htask
    · exact hqueue task htask
    · cases List.mem_singleton.mp htask
      exact ⟨_, rfl, hentries⟩
  unfold LogManager.storeEntries at hrun
  dsimp only at hrun
  split at hrun
  · rename_i front back hfront hback
    obtain ⟨mem, hwrite, hrun⟩ := Option.bind_eq_some_iff.mp hrun
    obtain ⟨last, hadvance, hrun⟩ := Option.bind_eq_some_iff.mp hrun
    cases hrun
    have hmem := aligned_writeSlots (aligned_fillTo hmemory back.id.index)
      (fun entry he => ⟨hentries entry he, .inr ⟨entry, he, hentries entry he⟩⟩) hwrite
    refine ⟨⟨hnoError, hmem.imp (grown front.id.index), hstored, hqueue' front.id.index, ?_⟩, rfl,
      _, rfl, rfl, rfl⟩
    intro i hlo hhi
    apply grown front.id.index i
    by_cases hold : i ≤ m.lastLogIndex
    · exact hlast i hlo hold
    · obtain ⟨entry, hentry⟩ := advanceLast_filled hadvance (i := i) (by
        show m.lastLogIndex < i
        omega) hhi
      exact (hmem i entry hentry).2
  · rename_i hnone
    cases hrun
    have hnil : entries = [] := by
      cases entries with
      | nil => rfl
      | cons head rest =>
        exact (hnone head ((head :: rest).getLast (by simp)) rfl
          (List.getLast?_eq_getLast_of_ne_nil (by simp))).elim
    subst hnil
    refine ⟨⟨hnoError, hmemory.imp (grown 0), hstored, hqueue' 0, ?_⟩, rfl, _, rfl, rfl, rfl⟩
    intro i hlo hhi
    exact grown 0 i (hlast i hlo hhi)

section Append

variable {ooRep : Bool} {first : Int} {entries : List LogEntry}
  (h : Keeps terms m) (hfollows : Follows terms first entries)
  (hterms : ∀ entry ∈ entries, 0 < entry.id.term)
  (hagrees : ∀ entry ∈ entries, Agrees m ooRep entry)
include h hfollows hterms hagrees

/-- Without a conflict nothing is truncated, and what is cut off the front of the batch
is kept already. -/
private theorem resolveOverlap_keeps {r : LogManager.Resolution γ}
    (hhigh : first + entries.length - 1 ≤ m.maxLogIndex)
    (hrun : m.resolveOverlap entries ooRep = some r) :
    ∃ n, r = .proceed m (entries.drop n) ∧ (n = 0 ∨ ooRep = false) ∧
      ∀ k < n, ∀ entry, entries[k]? = some entry →
        KeptBy terms m.storage m.diskQueue entry.id.index := by
  obtain ⟨n, hconflict, hrun⟩ := Option.bind_eq_some_iff.mp hrun
  obtain ⟨hbefore, hat, hle⟩ := findConflict_spec hconflict
  -- The entry at the position is absent, and lies behind the last index.
  have habsent : ∀ entry, entries[n]? = some entry →
      ooRep = false ∧ m.lastLogIndex < entry.id.index := by
    intro entry hentry
    obtain ⟨t, ht, hdiff, hcase⟩ := hat entry hentry
    rcases hagrees entry (List.mem_of_getElem? hentry) t ht with hsame | ⟨hzero, hwhere⟩
    · exact absurd hsame hdiff
    · have hoff : ooRep = false := by
        rcases hcase with hoff | hne
        · exact hoff
        · exact absurd hzero hne
      refine ⟨hoff, ?_⟩
      rcases hwhere with hon | hlt
      · rw [hoff] at hon
        cases hon
      · exact hlt
  set rest := if (!ooRep) = true ∨ n ≠ entries.length then entries.drop n else entries with hrest
  obtain ⟨last, hsome, hnone, hdone⟩ : ∃ last,
      (∀ back, rest.getLast? = some back → last = max m.maxLogIndex back.id.index) ∧
      (rest.getLast? = none → last = m.maxLogIndex) ∧
      some (LogManager.Resolution.proceed { m with maxLogIndex := last } rest) = some r := by
    cases hentry : entries[n]? with
    | none =>
      rw [hentry] at hrun
      refine ⟨_, fun back hback => ?_, fun hback => ?_, hrun⟩
      · rw [hback]
      · rw [hback]
    | some entry =>
      have hbehind := (habsent entry hentry).2
      rw [hentry] at hrun
      dsimp only at hrun
      rw [if_neg (by omega)] at hrun
      refine ⟨_, fun back hback => ?_, fun hback => ?_, hrun⟩
      · rw [hback]
      · rw [hback]
  -- The entries that are left end at the last index at most.
  have hmax : ∀ k, rest = entries.drop k → last = m.maxLogIndex := by
    intro k hk
    cases hback : rest.getLast? with
    | none => exact hnone hback
    | some back =>
      rw [hsome back hback]
      rw [hk] at hback
      have hindex := (hfollows.drop k).back hback
      have hlen : 0 < (entries.drop k).length := by
        rw [List.length_pos_iff]
        intro hnil
        simp [hnil] at hback
      rw [List.length_drop] at hindex hlen
      exact max_eq_left (by omega)
  by_cases hcut : (!ooRep) = true ∨ n ≠ entries.length
  · rw [if_pos hcut] at hrest
    have hoff : ooRep = false := by
      rcases hcut with hoff | hlt
      · simpa using hoff
      · exact (habsent _ (List.getElem?_eq_getElem (by omega))).1
    refine ⟨n, ?_, .inr hoff, ?_⟩
    · rw [hmax n hrest, hrest] at hdone
      exact (Option.some.inj hdone).symm
    · intro k hk entry hentry
      obtain ⟨t, ht, hcase⟩ := hbefore k hk entry hentry
      have hpos := hterms entry (List.mem_of_getElem? hentry)
      rcases hcase with rfl | hon
      · exact h.getTerm ht (by omega)
      · rw [hoff] at hon
        cases hon
  · rw [if_neg hcut] at hrest
    refine ⟨0, ?_, .inl rfl, fun k hk => absurd hk (Nat.not_lt_zero k)⟩
    rw [List.drop_zero]
    rw [hmax 0 hrest, hrest] at hdone
    exact (Option.some.inj hdone).symm

private theorem resolve_keeps {front back : LogEntry} {r : LogManager.Resolution γ}
    (hfirst : 1 ≤ first) (hfront : entries.head? = some front)
    (hback : entries.getLast? = some back)
    (hrun : m.checkAndResolveConflict front back entries ooRep = some r) :
    (∃ status, r = .stop status ∧ (status = .ok → back.id.index ≤ m.appliedId.index)) ∨
    ∃ mem n, r = .proceed { m with toMemory := mem } (entries.drop n) ∧
      Aligned terms (fun i => KeptBy terms m.storage m.diskQueue i ∨
        ∃ entry ∈ entries.drop n, entry.id = ⟨i, terms i⟩) mem ∧
      mem.maxLogIndex = max m.maxLogIndex back.id.index ∧
      (n = 0 ∨ ooRep = false ∧ back.id.index ≤ m.maxLogIndex) ∧
      ∀ k < n, ∀ entry, entries[k]? = some entry →
        KeptBy terms m.storage m.diskQueue entry.id.index := by
  have hfrontIndex : front.id.index = first := by
    rw [List.head?_eq_getElem?] at hfront
    rw [hfollows.id hfront]
    simp
  have hbackIndex := hfollows.back hback
  have hmemory : Aligned terms (fun i => KeptBy terms m.storage m.diskQueue i ∨
      ∃ entry ∈ entries.drop 0, entry.id = ⟨i, terms i⟩) m.toMemory :=
    h.memory.imp fun i hi => .inl hi
  have hknown : ∀ entry ∈ entries, entry.id = ⟨entry.id.index, terms entry.id.index⟩ ∧
      (KeptBy terms m.storage m.diskQueue entry.id.index ∨
        ∃ e ∈ entries.drop 0, e.id = ⟨entry.id.index, terms entry.id.index⟩) :=
    fun entry he => ⟨(hfollows.mem he).1, .inr ⟨entry, by simpa using he, (hfollows.mem he).1⟩⟩
  have whole : ∀ k < 0, ∀ entry, entries[k]? = some entry →
      KeptBy terms m.storage m.diskQueue entry.id.index := fun k hk => absurd hk (Nat.not_lt_zero k)
  unfold LogManager.checkAndResolveConflict at hrun
  split_ifs at hrun with hzero hgap happlied hfast hpast
  · omega
  · cases hrun
    exact .inl ⟨_, rfl, fun hok => by cases hok⟩
  · cases hrun
    exact .inl ⟨_, rfl, fun _ => happlied⟩
  · cases hrun
    rw [hfrontIndex] at hfast
    obtain ⟨haligned, hmax⟩ := aligned_pushAll hmemory (hfast ▸ hfollows)
      fun entry he => (hknown entry he).2
    have htop : max (entries.foldl (fun mem entry => mem.pushSlot (some entry))
        m.toMemory).maxLogIndex back.id.index = (entries.foldl
          (fun mem entry => mem.pushSlot (some entry)) m.toMemory).maxLogIndex :=
      max_eq_left (by omega)
    refine .inr ⟨_, 0, rfl, ?_, ?_, .inl rfl, whole⟩
    · rw [htop]
      exact haligned
    · rw [htop, hmax]
      omega
  · obtain ⟨mem, hextend, rfl⟩ := Option.map_eq_some_iff.mp hrun
    refine .inr ⟨mem, 0, rfl, aligned_extend hmemory hknown hextend, ?_, .inl rfl, whole⟩
    rw [maxLogIndex_extend hextend]
    omega
  · obtain ⟨n, rfl, hcut, hkept⟩ :=
      resolveOverlap_keeps h hfollows hterms hagrees (by omega) hrun
    exact .inr ⟨m.toMemory, n, rfl, h.memory.imp fun i hi => .inl hi,
      (max_eq_left (by omega)).symm, hcut.imp_right fun hoff => ⟨hoff, by omega⟩, hkept⟩

/-- An append that meets no conflict: either the closure is run at once, and the log is
as before, or a batch is queued behind which every index of the request is kept. -/
theorem keeps_append (hfirst : 1 ≤ first) (hne : entries ≠ []) {done : γ} {m' : LogManager γ}
    {status : Option Status} (hrun : m.appendEntries entries done ooRep = some (m', status)) :
    (∃ s, status = some s ∧ m' = m ∧
      (s = .ok → first + entries.length - 1 ≤ m.appliedId.index)) ∨
    status = none ∧ Keeps terms m' ∧ m'.storage = m.storage ∧
      ∃ closure, m'.diskQueue = m.diskQueue ++ [.append closure] ∧ closure.done = done ∧
        ∀ i, first ≤ i → i < first + entries.length →
          KeptBy terms m'.storage m'.diskQueue i := by
  obtain ⟨front, hfront⟩ : ∃ front, entries.head? = some front :=
    ⟨_, List.head?_eq_some_head hne⟩
  obtain ⟨back, hback⟩ : ∃ back, entries.getLast? = some back :=
    ⟨_, List.getLast?_eq_getLast_of_ne_nil hne⟩
  rw [LogManager.appendEntries, if_neg (by simp [h.noError]), hfront, hback] at hrun
  dsimp only at hrun
  obtain ⟨r, hresolve, hrun⟩ := Option.bind_eq_some_iff.mp hrun
  rcases resolve_keeps h hfollows hterms hagrees hfirst hfront hback hresolve with
    ⟨s, rfl, hok⟩ | ⟨mem, n, rfl, hmemory, -, -, hcut⟩
  · cases hrun
    exact .inl ⟨s, rfl, rfl, fun hs => hfollows.back hback ▸ hok hs⟩
  · obtain ⟨stored, hstore, hpair⟩ := Option.map_eq_some_iff.mp hrun
    cases hpair
    have hrest := hfollows.drop n
    obtain ⟨hkeeps, hstorage, closure, hqueue, hdone, hbatch⟩ :=
      keeps_store (m := { m with toMemory := mem }) h.noError hmemory h.stored h.queue
        (fun i hlo hhi => .inl (h.last i hlo hhi)) (fun entry he => (hrest.mem he).1) hstore
    refine .inr ⟨rfl, hkeeps, hstorage, closure, hqueue, hdone, ?_⟩
    intro i hlo hhi
    rw [hstorage, hqueue]
    by_cases hi : i < first + n
    · obtain ⟨entry, hk⟩ : ∃ entry, entries[(i - first).toNat]? = some entry :=
        ⟨_, List.getElem?_eq_getElem (by omega)⟩
      have hkept := hcut (i - first).toNat (by omega) entry hk
      rw [hfollows.id hk] at hkept
      dsimp only at hkept
      rw [show first + ((i - first).toNat : Int) = i by omega] at hkept
      exact hkept.weaken fun task htask => List.mem_append_left _ htask
    · obtain ⟨entry, he, hid⟩ := hrest.get (i := i) (by omega) (by
        rw [List.length_drop]
        omega)
      exact .inr ⟨closure, by simp, entry, hbatch ▸ he, hid⟩

/-- An accepted append without a conflict moves the last index over the batch, unless the
batch starts behind a gap. -/
theorem last_append (hfirst : 1 ≤ first) (hne : entries ≠ []) {done : γ} {m' : LogManager γ}
    (hinOrder : ooRep = false → m.maxLogIndex ≤ m.lastLogIndex)
    (hrun : m.appendEntries entries done ooRep = some (m', none)) :
    m.lastLogIndex ≤ m'.lastLogIndex ∧
      (first ≤ m.lastLogIndex + 1 → first + entries.length - 1 ≤ m'.lastLogIndex) ∧
      (ooRep = false → m'.maxLogIndex ≤ m'.lastLogIndex) := by
  obtain ⟨front, hfront⟩ : ∃ front, entries.head? = some front :=
    ⟨_, List.head?_eq_some_head hne⟩
  obtain ⟨back, hback⟩ : ∃ back, entries.getLast? = some back :=
    ⟨_, List.getLast?_eq_getLast_of_ne_nil hne⟩
  have hbackIndex := hfollows.back hback
  have hfrontIndex : front.id.index = first := by
    rw [List.head?_eq_getElem?] at hfront
    rw [hfollows.id hfront]
    simp
  rw [LogManager.appendEntries, if_neg (by simp [h.noError]), hfront, hback] at hrun
  dsimp only at hrun
  obtain ⟨r, hresolve, hrun⟩ := Option.bind_eq_some_iff.mp hrun
  have hstarts : ooRep = false → (∃ mem rest, r = .proceed { m with toMemory := mem } rest) →
      first ≤ m.lastLogIndex + 1 := by
    rintro rfl ⟨mem, rest, rfl⟩
    by_contra hgap
    rw [LogManager.checkAndResolveConflict, if_neg (by omega),
      if_pos ⟨rfl, by omega⟩] at hresolve
    cases hresolve
  rcases resolve_keeps h hfollows hterms hagrees hfirst hfront hback hresolve with
    ⟨s, rfl, -⟩ | ⟨mem, n, rfl, -, hmax, hcut, -⟩
  · cases hrun
  · obtain ⟨stored, hstore, hpair⟩ := Option.map_eq_some_iff.mp hrun
    cases hpair
    have hstarts := fun hoff => hstarts hoff ⟨mem, _, rfl⟩
    rcases LogManager.storeEntries_cases hstore with
      ⟨hnil, rfl⟩ | ⟨front', back', mem', last, -, hback', hwrite, hadvance, rfl⟩
    · -- The whole batch was cut off, so the local log reaches as far.
      have hn : n ≠ 0 := by
        rintro rfl
        exact hne (by simpa using hnil)
      obtain ⟨hoff, hle⟩ := hcut.resolve_left hn
      have hlow := hinOrder hoff
      refine ⟨le_rfl, fun _ => ?_, fun _ => ?_⟩
      · show first + entries.length - 1 ≤ m.lastLogIndex
        omega
      · show mem.maxLogIndex ≤ m.lastLogIndex
        omega
    · obtain ⟨hmax', hfirst', hfilled⟩ := writeSlots_filled hwrite
      have hle := le_advanceLast hadvance
      have hrest := hfollows.drop n
      have hlength : n < entries.length := by
        by_contra hge
        rw [List.drop_eq_nil_of_le (by omega)] at hback'
        cases hback'
      have hback'Index : back'.id.index = back.id.index := by
        rw [hrest.back hback', List.length_drop, hbackIndex]
        omega
      have hfill : back.id.index ≤ mem.maxLogIndex := by
        rw [hmax]
        exact le_max_right _ _
      have hmem : (mem.fillTo back'.id.index) = mem := fillTo_of_le (by omega)
      rw [show ({ m with toMemory := mem } : LogManager γ).toMemory = mem from rfl, hmem]
        at hmax' hfirst' hfilled
      -- Every slot of what was written is filled.
      have hreach : first + n ≤ m.lastLogIndex + 1 → back.id.index ≤ last := by
        intro hstart
        refine advanceLast_reaches hadvance ?_ ?_
        · show back.id.index ≤ m.lastLogIndex + ((mem'.maxLogIndex - m.lastLogIndex).toNat : Int)
          rw [hmax']
          omega
        · intro i hlo hhi
          have hlo : m.lastLogIndex < i := hlo
          rw [hfirst']
          apply hfilled
          obtain ⟨entry, he, hid⟩ := hrest.get (i := i) (by omega) (by
            rw [List.length_drop]
            omega)
          exact .inl ⟨entry, he, by rw [hid]⟩
      have hover : ooRep = false → back.id.index ≤ m.maxLogIndex → back.id.index ≤ last := by
        intro hoff hback
        have := hinOrder hoff
        have hle : m.lastLogIndex ≤ last := hle
        omega
      have hwhole : first ≤ m.lastLogIndex + 1 → back.id.index ≤ last := by
        intro hstart
        rcases hcut with rfl | ⟨hoff, hback⟩
        · exact hreach (by simpa using hstart)
        · exact hover hoff hback
      refine ⟨hle, fun hstart => ?_, fun hoff => ?_⟩
      · have := hwhole hstart
        show first + entries.length - 1 ≤ last
        omega
      · have := hwhole (hstarts hoff)
        have := hinOrder hoff
        have hle : m.lastLogIndex ≤ last := hle
        show mem'.maxLogIndex ≤ last
        omega

end Append

theorem onDisk_appendEntries {storage : LogStorage} {entries : List LogEntry}
    (hentries : ∀ entry ∈ entries, entry.id = ⟨entry.id.index, terms entry.id.index⟩) (i : Int) :
    (OnDisk terms storage i ∨ ∃ entry ∈ entries, entry.id = ⟨i, terms i⟩) →
      OnDisk terms (storage.appendEntries entries) i := by
  induction entries generalizing storage with
  | nil => simp [LogStorage.appendEntries]
  | cons entry rest ih =>
    intro hcase
    show OnDisk terms ((storage.appendEntry entry).appendEntries rest) i
    apply ih fun e he => hentries e (by simp [he])
    have hid := hentries entry (by simp)
    have hget := storage.getEntry_appendEntry entry
    by_cases hi : i = entry.id.index
    · exact .inl ⟨entry, by rw [hget, if_pos hi], hi ▸ hid⟩
    · rcases hcase with ⟨old, hold, hoid⟩ | ⟨e, he, heid⟩
      · exact .inl ⟨old, by rw [hget, if_neg hi, hold], hoid⟩
      · rcases List.mem_cons.mp he with rfl | he
        · exact absurd (by rw [heid]) hi
        · exact .inr ⟨e, he, heid⟩

theorem stored_appendEntries {storage : LogStorage} {entries : List LogEntry}
    (hstored : ∀ i entry, storage.getEntry i = some entry → entry.id = ⟨i, terms i⟩)
    (hentries : ∀ entry ∈ entries, entry.id = ⟨entry.id.index, terms entry.id.index⟩)
    {i : Int} {entry : LogEntry}
    (hget : (storage.appendEntries entries).getEntry i = some entry) :
    entry.id = ⟨i, terms i⟩ := by
  induction entries generalizing storage with
  | nil => exact hstored i entry hget
  | cons head rest ih =>
    change ((storage.appendEntry head).appendEntries rest).getEntry i = some entry at hget
    refine ih ?_ (fun e he => hentries e (by simp [he])) hget
    intro j e he
    rw [LogStorage.getEntry_appendEntry] at he
    split at he
    · rename_i hj
      cases he
      rw [hj]
      exact hentries head (by simp)
    · exact hstored j e he

theorem keeps_diskWrite (h : Keeps terms m) {m' : LogManager γ} {task : DiskTask γ}
    {status : Status} (hw : m.diskWrite = some (m', task, status)) :
    Keeps terms m' ∧ ∃ closure, task = .append closure ∧ status = .ok ∧
      m.diskQueue = .append closure :: m'.diskQueue ∧
      (∀ i, OnDisk terms m.storage i → OnDisk terms m'.storage i) ∧
      ∀ tasks i, KeptBy terms m.storage (.append closure :: tasks) i →
        KeptBy terms m'.storage tasks i := by
  cases hq : m.diskQueue with
  | nil => simp [LogManager.diskWrite, hq] at hw
  | cons front rest =>
    obtain ⟨closure, rfl, hclosure⟩ := h.queue front (by simp [hq])
    simp only [LogManager.diskWrite, hq, h.noError, Bool.false_eq_true, if_false,
      Option.some.injEq, Prod.mk.injEq] at hw
    obtain ⟨rfl, rfl, rfl⟩ := hw
    have hwritten : ∀ i, (OnDisk terms m.storage i ∨
        ∃ entry ∈ closure.entries, entry.id = ⟨i, terms i⟩) →
        OnDisk terms (m.storage.appendEntries closure.entries) i := onDisk_appendEntries hclosure
    have hmoves : ∀ (tasks : List (DiskTask γ)) (i : Int),
        KeptBy terms m.storage (.append closure :: tasks) i →
        KeptBy terms (m.storage.appendEntries closure.entries) tasks i := by
      rintro tasks i (hdisk | ⟨other, hother, hentry⟩)
      · exact .inl (hwritten i (.inl hdisk))
      · rcases List.mem_cons.mp hother with heq | hother
        · cases heq
          exact .inl (hwritten i (.inr hentry))
        · exact .inr ⟨other, hother, hentry⟩
    refine ⟨⟨rfl, ?_, ?_, ?_, ?_⟩, closure, rfl, rfl, rfl, fun i hi => hwritten i (.inl hi), hmoves⟩
    · refine h.memory.imp fun i hi => hmoves rest i ?_
      rwa [hq] at hi
    · intro i entry hget
      exact stored_appendEntries h.stored hclosure hget
    · intro task htask
      exact h.queue task (by simp [hq, htask])
    · intro i hlo hhi
      have := h.last i hlo hhi
      rw [hq] at this
      exact hmoves rest i this

private theorem keeps_clear (h : Keeps terms m) (id : LogId) : Keeps terms
    (m.clearMemoryLogs id) := by
  refine { h with memory := ?_ }
  obtain ⟨dropped, hsplit⟩ : (m.clearMemoryLogs id).logsInMemory <:+ m.logsInMemory :=
    List.dropWhile_suffix _
  intro i entry hi
  apply h.memory i entry
  -- Dropping slots moves the first index by their number.
  have hlen : m.logsInMemory.length =
      dropped.length + (m.clearMemoryLogs id).logsInMemory.length := by
    rw [← List.length_append, hsplit]
  have hdrop : (m.clearMemoryLogs id).logsInMemory = m.logsInMemory.drop dropped.length := by
    have hbehind : (dropped ++ (m.clearMemoryLogs id).logsInMemory).drop dropped.length =
        (m.clearMemoryLogs id).logsInMemory := List.drop_left
    rw [← hbehind, hsplit]
  have hfirst : (m.clearMemoryLogs id).firstInMemory = m.firstInMemory + dropped.length := by
    show m.maxLogIndex - ((m.clearMemoryLogs id).logsInMemory.length : Int) + 1 = _
    unfold Memory.firstInMemory
    omega
  have hb := item_eq_some_bounds hi
  rw [hdrop, item_drop _ _ hb.1, hfirst] at hi
  rwa [show i - (m.firstInMemory + dropped.length) + dropped.length = i - m.firstInMemory by omega]
    at hi

private theorem keeps_setDiskId (h : Keeps terms m) (id : LogId) : Keeps terms
    (m.setDiskId id) := by
  unfold LogManager.setDiskId
  split
  · exact h
  · exact keeps_clear (m := { m with diskId := id }) { h with } _

theorem keeps_diskBatchEnd (h : Keeps terms m) : Keeps terms m.diskBatchEnd :=
  { keeps_setDiskId h m.lastId with }

theorem keeps_setAppliedId (h : Keeps terms m) (id : LogId) : Keeps terms (m.setAppliedId id) := by
  unfold LogManager.setAppliedId
  split
  · exact h
  · exact keeps_clear (m := { m with appliedId := id }) { h with } _

theorem keeps_fresh (terms : Int → Int) (lookBack : Int) :
    Keeps terms (LogManager.fresh lookBack : LogManager γ) where
  noError := rfl
  memory := fun i entry hi => by simp [LogManager.fresh, item] at hi
  stored := fun i entry hi => by simp [LogManager.fresh, LogStorage.new] at hi
  queue := fun task htask => by simp [LogManager.fresh] at htask
  last := fun i hlo hhi => by
    simp only [LogManager.fresh] at hhi
    omega

end Manager

end HitConsistency.Log.KeptEntries
