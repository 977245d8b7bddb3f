/- GID: HitConsistency/Log/StoredOnSuccess
   digest: When a stable closure that runs without an error has its entries in the storage. -/

import HitConsistency.Log.DiskThread
import HitConsistency.Log.KeptEntries

set_option autoImplicit false
set_option relaxedAutoImplicit false

/-!
A closure relies on its own entries and, for the entries that were found in memory, on
batches queued before it. The disk thread writes in the order of the queue, so when it
comes to a closure everything the closure relies on has been written; a write that fails
is the end of the process.
-/

namespace HitConsistency.Log.StoredOnSuccess

open HitConsistency.Base.GuardedRuns
open HitConsistency.Log.Entry
open HitConsistency.Log.MemoryLog
open HitConsistency.Log.KeptEntries
open HitConsistency.Log.DiskThread

/-- Every entry of the call is stored under its index and term, or was applied before. -/
def Stored (run : Run) : Prop :=
  ∀ entry ∈ run.call.passed,
    (∃ stored ∈ run.storage.getEntry entry.id.index, stored.id = entry.id) ∨
      entry.id.index ≤ run.call.appliedIndex

/-- What the callers promise: terms from 1 on, and indexes one behind the other from 1 on
or, from a leader, none yet. -/
structure Promised (entries : List LogEntry) : Prop where
  term_pos : ∀ entry ∈ entries, 1 ≤ entry.id.term
  indexes : ∀ front ∈ entries.head?,
    front.id.index = 0 ∨ 1 ≤ front.id.index ∧ Consecutive front.id.index entries

def waiting (sys : System) : List LogEntry :=
  sys.batcher.toAppend ++ sys.manager.diskQueue.flatMap fun task =>
    match task with
    | .append closure => closure.entries
    | _ => []

/-- No entry of another term is stored at the index or waits for the disk. -/
def Unopposed (sys : System) (entry : LogEntry) : Prop :=
  (∀ other ∈ sys.manager.storage.getEntry entry.id.index, other.id.term = entry.id.term) ∧
    ∀ other ∈ waiting sys, other.id.index = entry.id.index → other.id.term = entry.id.term

/-- The call is over at once: the log manager is in error, the entries come behind a gap,
or all of them are applied. -/
def AnsweredAtOnce (m : LogManager Call) (entries : List LogEntry) (ooRep : Bool) : Prop :=
  m.hasError = true ∨
    ∃ front ∈ entries.head?, ∃ back ∈ entries.getLast?, front.id.index ≠ 0 ∧
      (ooRep = false ∧ m.lastLogIndex + 1 < front.id.index ∨ back.id.index ≤ m.appliedId.index)

/-- The entries meet nothing of another term, and a batch that comes in order finds no entry
missing up to the last index. -/
def MeetsNoConflict (sys : System) (entries : List LogEntry) (ooRep : Bool) : Prop :=
  (∀ entry ∈ System.passedTo sys.manager entries, Unopposed sys entry) ∧
    ∀ front ∈ entries.head?, front.id.index ≠ 0 →
      ∀ entry ∈ entries, Agrees sys.manager ooRep entry

def Safe (sys : System) : Event → Prop
  | .call entries ooRep => Promised entries ∧
      (AnsweredAtOnce sys.manager entries ooRep ∨ MeetsNoConflict sys entries ooRep)
  | .take _ _ | .finish _ | .setAppliedId _ => True

section Decidable

instance storedDecidable (run : Run) : Decidable (Stored run) :=
  inferInstanceAs (Decidable (∀ entry ∈ run.call.passed,
    (∃ stored ∈ run.storage.getEntry entry.id.index, stored.id = entry.id) ∨
      entry.id.index ≤ run.call.appliedIndex))

instance promisedDecidable (entries : List LogEntry) : Decidable (Promised entries) :=
  decidable_of_iff ((∀ entry ∈ entries, 1 ≤ entry.id.term) ∧ ∀ front ∈ entries.head?,
      front.id.index = 0 ∨ 1 ≤ front.id.index ∧ Consecutive front.id.index entries)
    ⟨fun h => ⟨h.1, h.2⟩, fun h => ⟨h.term_pos, h.indexes⟩⟩

instance unopposedDecidable (sys : System) (entry : LogEntry) : Decidable (Unopposed sys entry) :=
  inferInstanceAs (Decidable (_ ∧ _))

instance answeredAtOnceDecidable (m : LogManager Call) (entries : List LogEntry) (ooRep : Bool) :
    Decidable (AnsweredAtOnce m entries ooRep) :=
  inferInstanceAs (Decidable (_ ∨ _))

instance meetsNoConflictDecidable (sys : System) (entries : List LogEntry) (ooRep : Bool) :
    Decidable (MeetsNoConflict sys entries ooRep) :=
  inferInstanceAs (Decidable (_ ∧ _))

instance safeDecidable (sys : System) : ∀ event, Decidable (Safe sys event)
  | .call _ _ => inferInstanceAs (Decidable (_ ∧ _))
  | .take _ _ | .finish _ | .setAppliedId _ => inferInstanceAs (Decidable True)

end Decidable

section Keeps

variable {terms terms' : Int → Int} {m : LogManager Call}

theorem KeptBy.congr {storage : LogStorage} {tasks : List (DiskTask Call)} {i : Int}
    (h : KeptBy terms storage tasks i) (hsame : terms' i = terms i) :
    KeptBy terms' storage tasks i := by
  rcases h with ⟨entry, hentry, hid⟩ | ⟨closure, hclosure, entry, hentry, hid⟩
  · exact .inl ⟨entry, hentry, by rw [hid, hsame]⟩
  · exact .inr ⟨closure, hclosure, entry, hentry, by rw [hid, hsame]⟩

theorem Keeps.congr (h : Keeps terms m)
    (hsame : ∀ i, KeptBy terms m.storage m.diskQueue i → terms' i = terms i) : Keeps terms' m := by
  refine ⟨h.noError, ?_, ?_, ?_, ?_⟩
  · intro i entry hi
    obtain ⟨hid, hkept⟩ := h.memory i entry hi
    exact ⟨by rw [hid, hsame i hkept], KeptBy.congr hkept (hsame i hkept)⟩
  · intro i entry hi
    have hid := h.stored i entry hi
    rw [hid, hsame i (.inl ⟨entry, hi, hid⟩)]
  · intro task htask
    obtain ⟨closure, rfl, hentries⟩ := h.queue task htask
    refine ⟨closure, rfl, fun entry he => ?_⟩
    have hid := hentries entry he
    rw [hsame _ (.inr ⟨closure, htask, entry, he, hid⟩)]
    exact hid
  · intro i hlo hhi
    have hkept := h.last i hlo hhi
    exact KeptBy.congr hkept (hsame i hkept)

def tasksOf (batch : List (StableClosure Call)) : List (DiskTask Call) := batch.map .append

theorem KeptBy.written {storage : LogStorage} {batch : List (StableClosure Call)}
    {tasks : List (DiskTask Call)} {i : Int} (h : KeptBy terms storage (tasksOf batch ++ tasks) i)
    (hbatch : ∀ closure ∈ batch, ∀ entry ∈ closure.entries,
      entry.id = ⟨entry.id.index, terms entry.id.index⟩) :
    KeptBy terms (storage.appendEntries (batch.flatMap StableClosure.entries)) tasks i := by
  have hentries : ∀ entry ∈ batch.flatMap StableClosure.entries,
      entry.id = ⟨entry.id.index, terms entry.id.index⟩ := by
    intro entry he
    obtain ⟨closure, hclosure, he⟩ := List.mem_flatMap.mp he
    exact hbatch closure hclosure entry he
  rcases h with hdisk | ⟨closure, hclosure, entry, he, hid⟩
  · exact .inl (onDisk_appendEntries hentries i (.inl hdisk))
  · rcases List.mem_append.mp hclosure with hmem | hmem
    · obtain ⟨closure', hmem, heq⟩ := List.mem_map.mp hmem
      cases heq
      exact .inl (onDisk_appendEntries hentries i
        (.inr ⟨entry, List.mem_flatMap.mpr ⟨closure, hmem, he⟩, hid⟩))
    · exact .inr ⟨closure, hmem, entry, he, hid⟩

theorem Keeps.batch {batch : List (StableClosure Call)} {tasks : List (DiskTask Call)}
    (h : Keeps terms m) (hqueue : m.diskQueue = tasksOf batch ++ tasks) :
    ∀ closure ∈ batch, ∀ entry ∈ closure.entries,
      entry.id = ⟨entry.id.index, terms entry.id.index⟩ := by
  intro closure hclosure
  obtain ⟨closure', heq, hentries⟩ := h.queue (.append closure) (by
    rw [hqueue]
    exact List.mem_append_left _ (List.mem_map_of_mem hclosure))
  cases heq
  exact hentries

private theorem keeps_written {batch : List (StableClosure Call)} {tasks : List (DiskTask Call)}
    (h : Keeps terms m) (hqueue : m.diskQueue = tasksOf batch ++ tasks) :
    Keeps terms { m with
      storage := m.storage.appendEntries (batch.flatMap StableClosure.entries)
      diskQueue := tasks } := by
  have hbatch := Keeps.batch h hqueue
  have hmove : ∀ i, KeptBy terms m.storage m.diskQueue i →
      KeptBy terms (m.storage.appendEntries (batch.flatMap StableClosure.entries)) tasks i := by
    intro i hi
    rw [hqueue] at hi
    exact KeptBy.written hi hbatch
  refine ⟨h.noError, ?_, ?_, ?_, ?_⟩
  · exact h.memory.imp hmove
  · intro i entry hi
    refine stored_appendEntries h.stored ?_ hi
    intro other hother
    obtain ⟨closure, hclosure, hother⟩ := List.mem_flatMap.mp hother
    exact hbatch closure hclosure other hother
  · intro task htask
    apply h.queue
    rw [hqueue]
    exact List.mem_append_right _ htask
  · intro i hlo hhi
    exact hmove i (h.last i hlo hhi)

/-- Every entry that a closure of the queue stands for is applied, on disk, or written by a
task up to the closure itself. -/
def Backed (terms : Int → Int) (storage : LogStorage) (tasks : List (DiskTask Call)) : Prop :=
  ∀ before closure after, tasks = before ++ .append closure :: after →
    ∀ entry ∈ closure.done.passed, entry.id.index ≤ closure.done.appliedIndex ∨
      entry.id = ⟨entry.id.index, terms entry.id.index⟩ ∧
        KeptBy terms storage (before ++ [.append closure]) entry.id.index

variable {storage : LogStorage} {batch : List (StableClosure Call)} {tasks : List (DiskTask Call)}

private theorem backed_written (h : Backed terms storage (tasksOf batch ++ tasks))
    (hbatch : ∀ closure ∈ batch, ∀ entry ∈ closure.entries,
      entry.id = ⟨entry.id.index, terms entry.id.index⟩) :
    Backed terms (storage.appendEntries (batch.flatMap StableClosure.entries)) tasks := by
  rintro before closure after rfl entry he
  rcases h (tasksOf batch ++ before) closure after (by simp) entry he with happlied | ⟨hid, hkept⟩
  · exact .inl happlied
  · rw [List.append_assoc] at hkept
    exact .inr ⟨hid, KeptBy.written hkept hbatch⟩

private theorem stored_written (h : Backed terms storage (tasksOf batch ++ tasks))
    (hbatch : ∀ closure ∈ batch, ∀ entry ∈ closure.entries,
      entry.id = ⟨entry.id.index, terms entry.id.index⟩)
    {closure : StableClosure Call} (hclosure : closure ∈ batch) (status : Status) :
    Stored ⟨closure.done, status,
      storage.appendEntries (batch.flatMap StableClosure.entries)⟩ := by
  intro entry he
  obtain ⟨before, after, rfl⟩ := List.append_of_mem hclosure
  rcases h (tasksOf before) closure (tasksOf after ++ tasks) (by simp [tasksOf]) entry he with
    happlied | ⟨hid, hkept⟩
  · exact .inr happlied
  · have hwhole : KeptBy terms storage (tasksOf (before ++ closure :: after) ++ [])
        entry.id.index := by
      apply hkept.weaken
      intro task htask
      simp only [tasksOf, List.map_append, List.map_cons, List.append_nil, List.mem_append,
        List.mem_cons, List.not_mem_nil, or_false] at htask ⊢
      rcases htask with htask | rfl
      · exact .inl htask
      · exact .inr (.inl rfl)
    rcases KeptBy.written hwhole hbatch with ⟨stored, hstored, hid'⟩ | ⟨closure', hmem, -⟩
    · exact .inl ⟨stored, hstored, by rw [hid', ← hid]⟩
    · cases hmem

end Keeps

section Invariant

/-- The manager with the closures of the batch back in its queue. -/
def whole (sys : System) : LogManager Call := behind (tasksOf sys.batcher.storage) sys.manager

structure Inv (sys : System) : Prop where
  batched : sys.batcher.toAppend = sys.batcher.storage.flatMap StableClosure.entries
  runs : ∀ run ∈ sys.runs, run.status = .ok → Stored run
  noError : sys.manager.hasError = false
  alive : ∃ terms, Keeps terms (whole sys) ∧
    Backed terms sys.manager.storage (tasksOf sys.batcher.storage ++ sys.manager.diskQueue)

variable {sys sys' : System}

theorem inv_fresh (lookBack : Int) : Inv (.fresh lookBack) := by
  refine ⟨rfl, ?_, rfl, ?_⟩
  · intro run hrun
    cases hrun
  · refine ⟨fun _ => 0, keeps_fresh _ lookBack, ?_⟩
    intro before closure after htasks
    simp [System.fresh, tasksOf, AppendBatcher.new, LogManager.fresh] at htasks

private theorem flush_cases {nappent : Nat} (hnoError : sys.manager.hasError = false)
    (hflush : sys.flush nappent = some sys') :
    (sys.batcher.storage = [] ∧
      sys' = { sys with batcher := { sys.batcher with bufferSize := 0 } }) ∨
    ∃ m : LogManager Call, (∃ lastId, m = { sys.manager with
        storage := sys.manager.storage.appendEntries sys.batcher.toAppend
        lastId := lastId }) ∧
      sys' = ⟨m, .new, sys.runs ++ sys.batcher.storage.map fun closure =>
        ⟨closure.done, .ok, m.storage⟩⟩ := by
  unfold System.flush at hflush
  split at hflush
  · rename_i hempty
    cases hflush
    exact .inl ⟨hempty, rfl⟩
  · obtain ⟨⟨taken, lastId⟩, happend, rfl⟩ := Option.map_eq_some_iff.mp hflush
    rw [appendToStorage, hnoError, if_neg (by simp)] at happend
    split at happend
    · cases happend
    · cases happend
      refine .inr ⟨_, ⟨(sys.batcher.toAppend.getLast?.map LogEntry.id).getD sys.manager.lastId,
        rfl⟩, ?_⟩
      simp [hnoError]

private theorem flush_frame {nappent : Nat} (hnoError : sys.manager.hasError = false)
    (hflush : sys.flush nappent = some sys') :
    sys'.batcher.storage = [] ∧ sys'.manager.diskQueue = sys.manager.diskQueue := by
  rcases flush_cases hnoError hflush with ⟨hempty, rfl⟩ | ⟨m, ⟨lastId, rfl⟩, rfl⟩
  · exact ⟨hempty, rfl⟩
  · exact ⟨rfl, rfl⟩

private theorem inv_flush (h : Inv sys) {nappent : Nat} (hflush : sys.flush nappent = some sys') :
    Inv sys' := by
  rcases flush_cases h.noError hflush with ⟨hempty, rfl⟩ | ⟨m, ⟨lastId, rfl⟩, rfl⟩
  · exact ⟨h.batched, h.runs, h.noError, h.alive⟩
  · obtain ⟨terms, hkeeps, hbacked⟩ := h.alive
    have hbatch := Keeps.batch hkeeps rfl
    rw [h.batched]
    refine ⟨rfl, ?_, h.noError, ?_⟩
    · intro run hrun hok
      rcases List.mem_append.mp hrun with hrun | hrun
      · exact h.runs run hrun hok
      · obtain ⟨closure, hclosure, rfl⟩ := List.mem_map.mp hrun
        exact stored_written hbacked hbatch hclosure _
    · exact ⟨terms, { keeps_written hkeeps rfl with }, backed_written hbacked hbatch⟩

private theorem flush_pop (sys : System) (nappent : Nat) (rest : List (DiskTask Call)) :
    System.flush { sys with manager := { sys.manager with diskQueue := rest } } nappent =
      (sys.flush nappent).map fun flushed =>
        { flushed with manager := { flushed.manager with diskQueue := rest } } := by
  unfold System.flush
  split
  · rfl
  · rw [Option.map_map]
    rfl

private theorem inv_push (h : Inv sys) {closure : StableClosure Call} {rest : List (DiskTask Call)}
    (hqueue : sys.manager.diskQueue = .append closure :: rest) (bufferSize : Nat) :
    Inv ⟨{ sys.manager with diskQueue := rest },
      ⟨sys.batcher.storage ++ [closure], sys.batcher.toAppend ++ closure.entries, bufferSize⟩,
      sys.runs⟩ := by
  refine ⟨by simp [h.batched], h.runs, h.noError, ?_⟩
  obtain ⟨terms, hkeeps, hbacked⟩ := h.alive
  have htasks : tasksOf (sys.batcher.storage ++ [closure]) ++ rest =
      tasksOf sys.batcher.storage ++ sys.manager.diskQueue := by
    rw [hqueue]
    simp [tasksOf]
  refine ⟨terms, ?_, ?_⟩
  · have hsame : whole ⟨{ sys.manager with diskQueue := rest },
        ⟨sys.batcher.storage ++ [closure], sys.batcher.toAppend ++ closure.entries, bufferSize⟩,
        sys.runs⟩ = whole sys := by
      simp only [whole, behind, htasks]
    rw [hsame]
    exact hkeeps
  · dsimp only
    rw [htasks]
    exact hbacked

private theorem inv_runEmpty (h : Inv sys) {closure : StableClosure Call}
    {rest : List (DiskTask Call)}
    (hbatch : sys.batcher.storage = []) (hqueue : sys.manager.diskQueue = .append closure :: rest)
    (hentries : closure.entries = []) :
    Inv ⟨{ sys.manager with diskQueue := rest }, sys.batcher,
      sys.runs ++ [⟨closure.done, .ok, sys.manager.storage⟩]⟩ := by
  have hnothing : sys.manager.storage.appendEntries ([closure].flatMap StableClosure.entries) =
      sys.manager.storage := by
    simp [hentries, LogStorage.appendEntries]
  have hwhole : whole sys = sys.manager := by
    simp [whole, behind, hbatch, tasksOf]
  have hqueue' : sys.manager.diskQueue = tasksOf [closure] ++ rest := hqueue
  obtain ⟨terms, hkeeps, hall⟩ := h.alive
  rw [hwhole] at hkeeps
  rw [hbatch, hqueue'] at hall
  have hbacked : Backed terms sys.manager.storage (tasksOf [closure] ++ rest) := hall
  have hids := Keeps.batch hkeeps hqueue'
  refine ⟨h.batched, ?_, h.noError, ?_⟩
  · intro run hrun hok
    rcases List.mem_append.mp hrun with hrun | hrun
    · exact h.runs run hrun hok
    · cases List.mem_singleton.mp hrun
      have hstored := stored_written hbacked hids (List.mem_singleton_self closure) .ok
      rwa [hnothing] at hstored
  · have hkeeps' := keeps_written hkeeps hqueue'
    have hbacked' := backed_written hbacked hids
    rw [hnothing] at hkeeps' hbacked'
    refine ⟨terms, ?_, ?_⟩
    · simp only [whole, behind, hbatch, tasksOf, List.map_nil, List.nil_append]
      exact hkeeps'
    · simp only [hbatch, tasksOf, List.map_nil, List.nil_append]
      exact hbacked'

private theorem inv_take {limit : Nat} {nappent : Nat} {truncates : Bool} (h : Inv sys)
    (hstep : sys.take limit nappent truncates = some sys') : Inv sys' := by
  unfold System.take at hstep
  split at hstep
  · cases hstep
  · rename_i task rest hqueue
    -- A safe run has put nothing but appends into the queue.
    obtain ⟨closure, rfl⟩ : ∃ closure, task = .append closure := by
      obtain ⟨terms, hkeeps, -⟩ := h.alive
      obtain ⟨closure, heq, -⟩ := hkeeps.queue task (List.mem_append_right _ (by
        rw [hqueue]
        exact List.mem_cons_self))
      exact ⟨closure, heq⟩
    dsimp only at hstep
    split at hstep
    · unfold System.append at hstep
      obtain ⟨flushed, hflush, rfl⟩ := Option.map_eq_some_iff.mp hstep
      split at hflush
      · rw [flush_pop] at hflush
        obtain ⟨before, hbefore, rfl⟩ := Option.map_eq_some_iff.mp hflush
        have hsameQueue := (flush_frame h.noError hbefore).2.trans hqueue
        exact inv_push (inv_flush h hbefore) hsameQueue _
      · cases hflush
        exact inv_push h hqueue _
    · rename_i hentries
      rw [flush_pop, Option.map_map] at hstep
      obtain ⟨flushed, hflush, rfl⟩ := Option.map_eq_some_iff.mp hstep
      obtain ⟨hempty, hsameQueue⟩ := flush_frame h.noError hflush
      exact inv_runEmpty (inv_flush h hflush) hempty (hsameQueue.trans hqueue) (not_not.mp hentries)

private theorem inv_finish (h : Inv sys) {nappent : Nat} (hstep : sys.finish nappent = some sys') :
    Inv sys' := by
  obtain ⟨flushed, hflush, rfl⟩ := Option.map_eq_some_iff.mp hstep
  have hflushed := inv_flush h hflush
  obtain ⟨hempty, -⟩ := flush_frame h.noError hflush
  have hdisk : flushed.manager.diskBatchEnd.storage = flushed.manager.storage ∧
      flushed.manager.diskBatchEnd.diskQueue = flushed.manager.diskQueue ∧
      flushed.manager.diskBatchEnd.hasError = flushed.manager.hasError := by
    unfold LogManager.diskBatchEnd LogManager.setDiskId
    split
    · exact ⟨rfl, rfl, rfl⟩
    · exact ⟨rfl, rfl, rfl⟩
  obtain ⟨hstorage, hqueue, herror⟩ := hdisk
  obtain ⟨terms, hkeeps, hbacked⟩ := hflushed.alive
  refine ⟨hflushed.batched, hflushed.runs, herror.trans hflushed.noError, terms, ?_, ?_⟩
  · simp only [whole, behind, hempty, tasksOf, List.map_nil, List.nil_append] at hkeeps ⊢
    exact keeps_diskBatchEnd hkeeps
  · rw [hstorage, hqueue]
    exact hbacked

private theorem inv_setAppliedId (h : Inv sys) (id : LogId) :
    Inv { sys with manager := sys.manager.setAppliedId id } := by
  have hbehind : ∀ pre : List (DiskTask Call), behind pre (sys.manager.setAppliedId id) =
      (behind pre sys.manager).setAppliedId id := by
    intro pre
    unfold LogManager.setAppliedId
    change _ = if id.Before sys.manager.appliedId then _ else _
    split
    · rfl
    · rfl
  have hsame : (sys.manager.setAppliedId id).storage = sys.manager.storage ∧
      (sys.manager.setAppliedId id).diskQueue = sys.manager.diskQueue ∧
      (sys.manager.setAppliedId id).hasError = sys.manager.hasError := by
    unfold LogManager.setAppliedId
    split
    · exact ⟨rfl, rfl, rfl⟩
    · exact ⟨rfl, rfl, rfl⟩
  obtain ⟨hstorage, hqueue, herror⟩ := hsame
  obtain ⟨terms, hkeeps, hbacked⟩ := h.alive
  refine ⟨h.batched, h.runs, herror.trans h.noError, terms, ?_, ?_⟩
  · rw [whole, hbehind]
    exact keeps_setAppliedId hkeeps id
  · rw [hstorage, hqueue]
    exact hbacked

end Invariant

section Calls

variable {m m' : LogManager Call} {entries : List LogEntry} {done : Call} {ooRep : Bool}

private theorem resolveOverlap_ne_stop (status : Status) :
    m.resolveOverlap entries ooRep ≠ some (.stop status) := by
  intro hresolve
  obtain ⟨n, -, hresolve⟩ := Option.bind_eq_some_iff.mp hresolve
  dsimp only at hresolve
  split at hresolve
  · split at hresolve
    · obtain ⟨m1, -, hresolve⟩ := Option.bind_eq_some_iff.mp hresolve
      cases hresolve
    · cases hresolve
  · cases hresolve

private theorem appendEntries_answered {status : Status}
    (h : m.appendEntries entries done ooRep = some (m', some status)) :
    m' = m ∧ (status = .ok → ∃ front ∈ entries.head?, ∃ back ∈ entries.getLast?,
      front.id.index ≠ 0 ∧ back.id.index ≤ m.appliedId.index) := by
  have hqueued : ∀ (m1 : LogManager Call) rest,
      (m1.storeEntries rest done).map (·, (none : Option Status)) ≠ some (m', some status) := by
    intro m1 rest heq
    obtain ⟨m2, -, hpair⟩ := Option.map_eq_some_iff.mp heq
    cases hpair
  unfold LogManager.appendEntries at h
  split at h
  · cases h
    exact ⟨rfl, fun hok => by cases hok⟩
  · split at h
    · rename_i front back hfront hback
      obtain ⟨resolution, hresolve, h⟩ := Option.bind_eq_some_iff.mp h
      cases resolution with
      | proceed m1 rest => exact absurd h (hqueued m1 rest)
      | stop stopped =>
        cases h
        refine ⟨rfl, ?_⟩
        rintro rfl
        refine ⟨front, hfront, back, hback, ?_⟩
        unfold LogManager.checkAndResolveConflict at hresolve
        split_ifs at hresolve with hzero hgap happlied hfast hpast
        · cases hresolve
        · cases hresolve
        · exact ⟨hzero, happlied⟩
        · cases hresolve
        · obtain ⟨mem, -, heq⟩ := Option.map_eq_some_iff.mp hresolve
          cases heq
        · exact absurd hresolve (resolveOverlap_ne_stop .ok)
    · exact absurd h (hqueued m [])

private theorem appendEntries_queued (h : m.appendEntries entries done ooRep = some (m', none)) :
    ¬ AnsweredAtOnce m entries ooRep := by
  rintro (herror | ⟨front, hfront, back, hback, hzero, hcase⟩)
  · rw [LogManager.appendEntries, if_pos herror] at h
    cases h
  · unfold LogManager.appendEntries at h
    split at h
    · cases h
    · rw [Option.mem_def.mp hfront, Option.mem_def.mp hback] at h
      dsimp only at h
      obtain ⟨resolution, hresolve, h⟩ := Option.bind_eq_some_iff.mp h
      have hstop : ∃ status, resolution = .stop status := by
        unfold LogManager.checkAndResolveConflict at hresolve
        rw [if_neg hzero] at hresolve
        split_ifs at hresolve with hgap happlied
        · cases hresolve
          exact ⟨_, rfl⟩
        · cases hresolve
          exact ⟨_, rfl⟩
        all_goals
          rcases hcase with ⟨hoff, hlt⟩ | hle
          · exact absurd ⟨by simp [hoff], hlt⟩ hgap
          · exact absurd hle happlied
      obtain ⟨status, rfl⟩ := hstop
      cases h

variable {terms : Int → Int} {sys : System}

private theorem term_of_unopposed (hbatched : sys.batcher.toAppend =
      sys.batcher.storage.flatMap StableClosure.entries)
    {entry : LogEntry} (hentry : Unopposed sys entry)
    (hkept : KeptBy terms sys.manager.storage
      (tasksOf sys.batcher.storage ++ sys.manager.diskQueue) entry.id.index) :
    entry.id.term = terms entry.id.index := by
  rcases hkept with ⟨stored, hstored, hid⟩ | ⟨closure, hclosure, other, hother, hid⟩
  · have hsame := hentry.1 stored hstored
    rw [hid] at hsame
    exact hsame.symm
  · have hwaiting : other ∈ waiting sys := by
      rw [waiting, hbatched]
      rcases List.mem_append.mp hclosure with hmem | hmem
      · obtain ⟨closure', hmem, heq⟩ := List.mem_map.mp hmem
        cases heq
        exact List.mem_append_left _ (List.mem_flatMap.mpr ⟨closure, hmem, hother⟩)
      · exact List.mem_append_right _ (List.mem_flatMap.mpr ⟨_, hmem, hother⟩)
    have hsame := hentry.2 other hwaiting (by rw [hid])
    rw [hid] at hsame
    exact hsame.symm

private theorem keeps_leader {first : Int} (h : Keeps terms m) (hfront : ∃ front ∈ entries.head?,
      front.id.index = 0) (hfirst : first = m.lastLogIndex + 1)
    (hfollows : Follows terms first (LogManager.assignIndexes m.lastLogIndex entries))
    (hrun : m.appendEntries entries done ooRep = some (m', none)) :
    Keeps terms m' ∧ m'.storage = m.storage ∧
      ∃ closure, m'.diskQueue = m.diskQueue ++ [.append closure] ∧ closure.done = done ∧
        closure.entries = LogManager.assignIndexes m.lastLogIndex entries := by
  obtain ⟨front, hfront, hzero⟩ := hfront
  obtain ⟨back, hback⟩ : ∃ back, entries.getLast? = some back := by
    refine ⟨_, List.getLast?_eq_getLast_of_ne_nil ?_⟩
    rintro rfl
    cases hfront
  have hresolve : m.checkAndResolveConflict front back entries ooRep =
      some (.proceed { m with lastLogIndex := m.lastLogIndex + entries.length }
        (LogManager.assignIndexes m.lastLogIndex entries)) := by
    rw [LogManager.checkAndResolveConflict, if_pos hzero]
  rw [LogManager.appendEntries, if_neg (by simp [h.noError]), Option.mem_def.mp hfront, hback] at hrun
  dsimp only at hrun
  rw [hresolve] at hrun
  obtain ⟨stored, hstore, hpair⟩ := Option.map_eq_some_iff.mp hrun
  cases hpair
  refine keeps_store (m := { m with lastLogIndex := m.lastLogIndex + entries.length }) h.noError
    (h.memory.imp fun i hi => .inl hi) h.stored h.queue ?_ (fun entry he => (hfollows.mem he).1)
    hstore
  intro i hlo hhi
  by_cases hold : i ≤ m.lastLogIndex
  · exact .inl (h.last i hlo hold)
  · refine .inr (hfollows.get (by omega) ?_)
    rw [length_assignIndexes]
    dsimp only at hhi
    omega

private theorem call_keeps (h : Keeps terms m) (hpromised : Promised entries)
    (hunopposed : ∀ entry ∈ System.passedTo m entries,
      KeptBy terms m.storage m.diskQueue entry.id.index → entry.id.term = terms entry.id.index)
    (hagrees : ∀ front ∈ entries.head?, front.id.index ≠ 0 →
      ∀ entry ∈ entries, Agrees m ooRep entry)
    (hrun : m.appendEntries entries done ooRep = some (m', none)) :
    ∃ terms', (∀ i, KeptBy terms m.storage m.diskQueue i → terms' i = terms i) ∧
      Keeps terms' m' ∧ m'.storage = m.storage ∧
      ∃ closure, m'.diskQueue = m.diskQueue ++ [.append closure] ∧ closure.done = done ∧
        ∀ entry ∈ System.passedTo m entries,
          entry.id = ⟨entry.id.index, terms' entry.id.index⟩ ∧
            KeptBy terms' m'.storage m'.diskQueue entry.id.index := by
  cases hhead : entries.head? with
  | none =>
    obtain rfl : entries = [] := List.head?_eq_none_iff.mp hhead
    rw [LogManager.appendEntries, if_neg (by simp [h.noError])] at hrun
    obtain ⟨stored, hstore, hpair⟩ := Option.map_eq_some_iff.mp hrun
    cases hpair
    obtain ⟨hkeeps, hstorage, closure, hqueue, hdone, -⟩ := keeps_store h.noError
      (h.memory.imp fun i hi => .inl hi) h.stored h.queue (fun i hlo hhi => .inl (h.last i hlo hhi))
      (by simp) hstore
    exact ⟨terms, fun i _ => rfl, hkeeps, hstorage, closure, hqueue, hdone, by simp [System.passedTo]⟩
  | some front =>
    -- The terms of the batch are those of what is kept, wherever the two meet.
    have hextend : ∀ first passed, Consecutive first passed →
        (∀ entry ∈ passed, KeptBy terms m.storage m.diskQueue entry.id.index →
          entry.id.term = terms entry.id.index) →
        ∃ terms', Follows terms' first passed ∧
          (∀ i, KeptBy terms m.storage m.diskQueue i → terms' i = terms i) ∧ Keeps terms' m := by
      intro first passed hconsecutive hmeets
      obtain ⟨terms', hfollows, hother⟩ := hconsecutive.exists_terms terms
      have hsame : ∀ i, KeptBy terms m.storage m.diskQueue i → terms' i = terms i := by
        intro i hi
        apply hother
        rintro entry he rfl
        exact hmeets entry he hi
      exact ⟨terms', hfollows, hsame, Keeps.congr h hsame⟩
    by_cases hzero : front.id.index = 0
    · have hpassed : System.passedTo m entries =
          LogManager.assignIndexes m.lastLogIndex entries := by
        simp [System.passedTo, hhead, hzero]
      rw [hpassed] at hunopposed ⊢
      obtain ⟨terms', hfollows, hsame, hkeeps⟩ :=
        hextend _ _ (consecutive_assignIndexes m.lastLogIndex entries) hunopposed
      obtain ⟨hkeeps', hstorage, closure, hqueue, hdone, hentries⟩ :=
        keeps_leader hkeeps ⟨front, hhead, hzero⟩ rfl hfollows hrun
      refine ⟨terms', hsame, hkeeps', hstorage, closure, hqueue, hdone, ?_⟩
      intro entry he
      have hid := (hfollows.mem he).1
      exact ⟨hid, .inr ⟨closure, by rw [hqueue]; simp, entry, by rw [hentries]; exact he, hid⟩⟩
    · have hpassed : System.passedTo m entries = entries := by
        simp [System.passedTo, hhead, hzero]
      rw [hpassed] at hunopposed ⊢
      obtain ⟨hpos, hconsecutive⟩ := (hpromised.indexes front hhead).resolve_left hzero
      obtain ⟨terms', hfollows, hsame, hkeeps⟩ := hextend _ _ hconsecutive hunopposed
      have hne : entries ≠ [] := by
        rintro rfl
        cases hhead
      rcases keeps_append hkeeps hfollows (fun entry he => by
          have hterm := hpromised.term_pos entry he
          omega) (hagrees front hhead hzero) hpos hne hrun with
        ⟨status, hstatus, -⟩ | ⟨-, hkeeps', hstorage, closure, hqueue, hdone, hrange⟩
      · cases hstatus
      · refine ⟨terms', hsame, hkeeps', hstorage, closure, hqueue, hdone, ?_⟩
        intro entry he
        refine ⟨(hfollows.mem he).1, ?_⟩
        obtain ⟨k, hk⟩ := List.mem_iff_getElem?.mp he
        have hlt := (List.getElem?_eq_some_iff.mp hk).1
        have hid := hfollows.id hk
        apply hrange
        · rw [hid]
          dsimp only
          omega
        · rw [hid]
          dsimp only
          omega

private theorem inv_call {sys' : System} (h : Inv sys) (hsafe : Safe sys (.call entries ooRep))
    (hstep : sys.call entries ooRep = some sys') : Inv sys' := by
  obtain ⟨hpromised, hconflict⟩ := hsafe
  obtain ⟨⟨manager, status⟩, happend, rfl⟩ := Option.map_eq_some_iff.mp hstep
  cases status with
  | some status =>
    obtain ⟨rfl, hok⟩ := appendEntries_answered happend
    refine ⟨h.batched, ?_, h.noError, h.alive⟩
    intro run hrun hstatus
    rcases List.mem_append.mp hrun with hrun | hrun
    · exact h.runs run hrun hstatus
    · cases List.mem_singleton.mp hrun
      obtain ⟨front, hfront, back, hback, hzero, happlied⟩ := hok hstatus
      intro entry he
      have hpassed : System.passedTo sys.manager entries = entries := by
        simp [System.passedTo, Option.mem_def.mp hfront, hzero]
      dsimp only at he ⊢
      rw [hpassed] at he
      have hle := ((hpromised.indexes front hfront).resolve_left hzero).2.le_back he hback
      exact .inr (by omega)
  | none =>
    have hmeets := hconflict.resolve_left (appendEntries_queued happend)
    have hsameError := (LogManager.appendEntries_frame happend).1
    refine ⟨h.batched, ?_, hsameError.trans h.noError, ?_⟩
    · intro run hrun
      dsimp only at hrun
      rw [Option.map_none, Option.toList_none, List.append_nil] at hrun
      exact h.runs run hrun
    · obtain ⟨terms, hkeeps, hbacked⟩ := h.alive
      have hwhole := appendEntries_behind (tasksOf sys.batcher.storage) sys.manager entries
        ⟨System.passedTo sys.manager entries, sys.manager.appliedId.index⟩ ooRep
      rw [happend, Option.map_some] at hwhole
      obtain ⟨terms', hsame, hkeeps', hstorage, closure, hqueue, hdone, hkept⟩ :=
        call_keeps hkeeps hpromised
          (fun entry he hk => term_of_unopposed h.batched (hmeets.1 entry he) hk) hmeets.2 hwhole
      have hstorage' : manager.storage = sys.manager.storage := hstorage
      have hqueue' : tasksOf sys.batcher.storage ++ manager.diskQueue =
          (tasksOf sys.batcher.storage ++ sys.manager.diskQueue) ++ [.append closure] := hqueue
      refine ⟨terms', hkeeps', ?_⟩
      dsimp only
      rw [hstorage', hqueue']
      intro before other after htasks entry he
      rcases List.eq_nil_or_concat' after with rfl | ⟨rest, last, rfl⟩
      · obtain ⟨rfl, hlast⟩ := List.append_inj' htasks rfl
        obtain rfl : closure = other := by simpa using hlast
        rw [hdone] at he
        obtain ⟨hid, hentry⟩ := hkept entry he
        refine .inr ⟨hid, ?_⟩
        rw [← hstorage', ← hqueue']
        exact hentry
      · rw [← List.cons_append, ← List.append_assoc] at htasks
        obtain ⟨hold, -⟩ := List.append_inj' htasks rfl
        rcases hbacked before other rest hold entry he with happlied | ⟨hid, hentry⟩
        · exact .inl happlied
        · have hkeptAll : KeptBy terms sys.manager.storage
              (tasksOf sys.batcher.storage ++ sys.manager.diskQueue) entry.id.index := by
            apply hentry.weaken
            intro task htask
            rw [hold]
            simp only [List.mem_append, List.mem_cons, List.not_mem_nil, or_false] at htask ⊢
            rcases htask with htask | rfl
            · exact .inl htask
            · exact .inr (.inl rfl)
          have hterm := hsame _ hkeptAll
          exact .inr ⟨by rw [hterm]; exact hid, KeptBy.congr hentry hterm⟩

end Calls

theorem inv_step {limit : Nat} (sys : System) (event : Event) (sys' : System) (h : Inv sys)
    (hsafe : Safe sys event) (hstep : step limit sys event = some sys') : Inv sys' := by
  cases event with
  | call entries ooRep => exact inv_call h hsafe hstep
  | take nappent truncates => exact inv_take h hstep
  | finish nappent => exact inv_finish h hstep
  | setAppliedId id =>
    cases hstep
    exact inv_setAppliedId h id

/-- In a safe run every closure that runs without an error has its entries stored. -/
theorem success_means_stored (maxAppendBufferSize : Nat) (lookBack : Int) (events : List Event)
    (sys : System)
    (hsafe : Guarded (step maxAppendBufferSize) Safe (.fresh lookBack) events)
    (hrun : runEvents (step maxAppendBufferSize) (.fresh lookBack) events = some sys) :
    ∀ run ∈ sys.runs, run.status = .ok → Stored run :=
  (invariant_of_step inv_step (inv_fresh lookBack) hsafe hrun).runs

/-- A duplicate is answered behind the write it relies on. -/
private def duplicateRun : List Event :=
  [.call [sampleEntry 1 1] false, .call [sampleEntry 1 1] false, .take 10 true, .take 10 true,
    .call [sampleEntry 3 1] true, .take 10 true, .finish 10]

theorem duplicate_run_stored :
    ∃ sys, runEvents (step 1024) (.fresh 8) duplicateRun = some sys ∧
      sys.runs.map Run.status = [.ok, .ok, .ok] ∧
      ∀ run ∈ sys.runs, run.status = .ok → Stored run := by
  have hrun : (runEvents (step 1024) (.fresh 8) duplicateRun).map
      (fun sys => sys.runs.map Run.status) = some [.ok, .ok, .ok] := by
    decide +kernel
  obtain ⟨sys, hsys, hstatus⟩ := Option.map_eq_some_iff.mp hrun
  exact ⟨sys, hsys, hstatus,
    success_means_stored 1024 8 duplicateRun sys (by decide +kernel) hsys⟩

/-- Index 3 arrives ahead of a gap in two terms before either is written. -/
private def overwrittenRun : List Event :=
  [.call [sampleEntry 1 1] true, .call [sampleEntry 3 1] true, .call [sampleEntry 3 2] true,
    .take 10 true, .take 10 true, .take 10 true, .finish 10]

/-- Some closure of the run was run without an error and without its entries. -/
def AnswersTooEarly (maxAppendBufferSize : Nat) (lookBack : Int) (events : List Event) : Prop :=
  ∃ sys, runEvents (step maxAppendBufferSize) (.fresh lookBack) events = some sys ∧
    ∃ run ∈ sys.runs, run.status = .ok ∧ ¬ Stored run

private theorem answersTooEarly_iff {limit : Nat} {lookBack : Int} {events : List Event} :
    AnswersTooEarly limit lookBack events ↔
      ((runEvents (step limit) (.fresh lookBack) events).map fun sys =>
        sys.runs.any fun run => decide (run.status = .ok ∧ ¬ Stored run)) = some true := by
  simp only [AnswersTooEarly, Option.map_eq_some_iff, List.any_eq_true, decide_eq_true_eq]

theorem success_without_entry : AnswersTooEarly 1024 8 overwrittenRun := by
  rw [answersTooEarly_iff]
  decide +kernel

end HitConsistency.Log.StoredOnSuccess
