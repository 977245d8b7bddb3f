/- GID: HitConsistency/Log/DiskBatches
   digest: The disk thread on any queue: each closure is run once, in order, behind its entries. -/

import HitConsistency.Log.DiskThread

set_option autoImplicit false
set_option relaxedAutoImplicit false

/-!
`disk_thread` on closures of every kind, with an array of any capacity. The queue is cut
into batches by the events: a batch ends where the thread finishes a round. What the
storage answers is decided from outside, and an error of it ends the process. The trace has
the calls of the storage that returned and the runs of the closures, in order.
-/

namespace HitConsistency.Log.DiskBatches

open HitConsistency.Base.GuardedRuns
open HitConsistency.Log.DiskThread (appendToStorage reportError)
open HitConsistency.Log.Entry
open HitConsistency.Log.MemoryLog

inductive Kind
  | append
  | lastLogId
  | truncatePrefix (firstIndexKept : Int)
  | truncateSuffix (lastIndexKept lastTermKept : Int)
  | reset (nextLogIndex : Int)

/-- The storage is called for the closure, and may fail. -/
def Kind.calls : Kind → Bool
  | .append | .lastLogId => false
  | .truncatePrefix _ | .truncateSuffix _ _ | .reset _ => true

structure DiskClosure (γ : Type) where
  done : γ
  kind : Kind
  entries : List LogEntry

/-- The array has at least one slot. -/
structure Limits where
  cap : Nat
  cap_pos : 0 < cap
  raftMaxAppendBufferSize : Nat

inductive Action (γ : Type)
  | appendEntries (taken : List LogEntry)
  | truncatePrefix (firstIndexKept : Int)
  | truncateSuffix (lastIndexKept : Int)
  | reset (nextLogIndex : Int)
  | setLastLogId (id : LogId)
  | run (closure : DiskClosure γ) (status : Status)

namespace Action

variable {γ : Type}

def stored : Action γ → List LogEntry
  | .appendEntries taken => taken
  | _ => []

def ran : Action γ → Option (DiskClosure γ)
  | .run closure _ => some closure
  | _ => none

end Action

/-- The thread between two closures. The first `_size` slots of the array are `slots`. -/
structure DiskThread (γ : Type) where
  queue : List (DiskClosure γ)
  slots : List (DiskClosure γ)
  bufferSize : Nat
  toAppend : List LogEntry
  lastId : LogId
  diskId : LogId
  hasError : Bool
  trace : List (Action γ)

inductive Event (γ : Type)
  | execute (closure : DiskClosure γ)
  | take (nappent ret : Int)
  | finish (nappent : Int)

namespace DiskThread

variable {γ : Type}

def fresh (diskId : LogId) : DiskThread γ := ⟨[], [], 0, [], diskId, diskId, false, []⟩

def record (t : DiskThread γ) (actions : List (Action γ)) : DiskThread γ :=
  { t with trace := t.trace ++ actions }

/-- `AppendBatcher::flush`, by a storage that takes `nappent` entries at most, or refuses with
a negative answer. -/
def flush (t : DiskThread γ) (nappent : Int) : Option (DiskThread γ) :=
  if t.slots = [] then some { t with bufferSize := 0 }
  else
    (appendToStorage t.hasError t.lastId t.toAppend nappent).map fun (taken, lastId) =>
      let status : Status := if t.hasError then .corruptedLogStorage else .ok
      { t.record (.appendEntries taken :: t.slots.map (.run · status)) with
        slots := []
        bufferSize := 0
        toAppend := []
        lastId := lastId }

/-- `_storage[_size++] = done`; behind the array there is no slot. -/
def storeSlot (limits : Limits) (t : DiskThread γ) (closure : DiskClosure γ) :
    Option (DiskThread γ) :=
  if t.slots.length < limits.cap then some { t with slots := t.slots ++ [closure] } else none

/-- The flush that comes first if the array or the buffer is full. -/
def Full (limits : Limits) (t : DiskThread γ) : Prop :=
  t.slots.length = limits.cap ∨ limits.raftMaxAppendBufferSize ≤ t.bufferSize

instance fullDecidable (limits : Limits) (t : DiskThread γ) : Decidable (t.Full limits) :=
  inferInstanceAs (Decidable (_ ∨ _))

/-- `AppendBatcher::append`. -/
def append (limits : Limits) (t : DiskThread γ) (nappent : Int) (closure : DiskClosure γ) :
    Option (DiskThread γ) := do
  let t ← if t.Full limits then t.flush nappent else some t
  let t ← t.storeSlot limits closure
  some { t with
    toAppend := t.toAppend ++ closure.entries
    bufferSize := t.bufferSize + (closure.entries.map fun entry => entry.data.length).sum }

/-- A closure without entries; `ret` is what the storage returns, if it is called. -/
def perform (t : DiskThread γ) (ret : Int) (kind : Kind) : Option (DiskThread γ) :=
  if kind.calls = true ∧ ret ≠ 0 then reportError
  else match kind with
  | .append => some t
  | .lastLogId => some (t.record [.setLastLogId t.lastId])
  | .truncatePrefix firstIndexKept => some (t.record [.truncatePrefix firstIndexKept])
  | .truncateSuffix lastIndexKept lastTermKept =>
      some { t.record [.truncateSuffix lastIndexKept] with
        lastId := ⟨lastIndexKept, lastTermKept⟩ }
  | .reset nextLogIndex => some (t.record [.reset nextLogIndex])

/-- One round of the loop. The closure is run with the status it has. -/
def take (limits : Limits) (t : DiskThread γ) (nappent ret : Int) : Option (DiskThread γ) :=
  match t.queue with
  | [] => some t
  | closure :: queue =>
      let t := { t with queue := queue }
      if closure.entries ≠ [] then t.append limits nappent closure
      else do
        let t ← t.flush nappent
        let t ← t.perform ret closure.kind
        some (t.record [.run closure .ok])

/-- The end of a batch, with the flush of the destructor; the next one begins with the disk
id as the last id. -/
def finish (t : DiskThread γ) (nappent : Int) : Option (DiskThread γ) := do
  let t ← t.flush nappent
  let diskId := if t.lastId.Before t.diskId then t.diskId else t.lastId
  let t ← { t with diskId := diskId }.flush nappent
  some { t with lastId := diskId }

def step (limits : Limits) (t : DiskThread γ) : Event γ → Option (DiskThread γ)
  | .execute closure => some { t with queue := t.queue ++ [closure] }
  | .take nappent ret => t.take limits nappent ret
  | .finish nappent => t.finish nappent

def Takes (t : DiskThread γ) (nappent : Int) : Prop :=
  t.slots ≠ [] → t.toAppend.length ≤ nappent

instance takesDecidable (t : DiskThread γ) (nappent : Int) : Decidable (t.Takes nappent) :=
  have : Decidable (t.slots ≠ []) := decidable_of_iff (t.slots.isEmpty = false) (by simp)
  inferInstanceAs (Decidable (_ → _))

/-- No call of the storage fails in the step. -/
def Succeeds (limits : Limits) (t : DiskThread γ) : Event γ → Prop
  | .execute _ => True
  | .take nappent ret => ∀ closure ∈ t.queue.head?,
      if closure.entries ≠ [] then t.Full limits → t.Takes nappent
      else t.Takes nappent ∧ (closure.kind.calls = true → ret = 0)
  | .finish nappent => t.Takes nappent

end DiskThread

variable {γ : Type}

def executed : Event γ → Option (DiskClosure γ)
  | .execute closure => some closure
  | _ => none

def entriesOf (closures : List (DiskClosure γ)) : List LogEntry :=
  closures.flatMap DiskClosure.entries

/-- A closure with entries that runs without an error finds them stored, behind all entries
of the closures that ran before it. -/
def StoredFirst (trace : List (Action γ)) : Prop :=
  ∀ pre closure post, trace = pre ++ .run closure .ok :: post → closure.entries ≠ [] →
    entriesOf (pre.filterMap Action.ran ++ [closure]) <+: pre.flatMap Action.stored

/-- The closures put into the queue are run in order, those of the batch and of the queue
excepted. The storage has taken their entries in order, none lost and none twice. -/
structure InOrder (enqueued : List (DiskClosure γ)) (t : DiskThread γ) : Prop where
  once : t.trace.filterMap Action.ran ++ t.slots ++ t.queue = enqueued
  stored : t.trace.flatMap Action.stored = entriesOf (t.trace.filterMap Action.ran)
  first : StoredFirst t.trace

/-- What the batcher keeps: `_to_append` has the entries of the closures in the array. -/
structure Batched (limits : Limits) (t : DiskThread γ) : Prop where
  room : t.slots.length ≤ limits.cap
  pending : t.toAppend = entriesOf t.slots
  noError : t.hasError = false
  stored : t.trace.flatMap Action.stored = entriesOf (t.trace.filterMap Action.ran)
  first : StoredFirst t.trace

section Traces

@[simp] theorem entriesOf_append (front back : List (DiskClosure γ)) :
    entriesOf (front ++ back) = entriesOf front ++ entriesOf back :=
  List.flatMap_append

@[simp] theorem ran_appendEntries (taken : List LogEntry) (trace : List (Action γ)) :
    (.appendEntries taken :: trace).filterMap Action.ran = trace.filterMap Action.ran :=
  List.filterMap_cons_none rfl

variable (slots : List (DiskClosure γ)) (status : Status)

@[simp] theorem ran_runs :
    (slots.map fun closure => Action.run closure status).filterMap Action.ran = slots := by
  induction slots with
  | nil => rfl
  | cons closure slots ih => rw [List.map_cons, List.filterMap_cons_some (f := Action.ran) rfl, ih]

@[simp] theorem stored_runs :
    (slots.map fun closure => Action.run closure status).flatMap Action.stored = [] := by
  induction slots with
  | nil => rfl
  | cons closure slots ih => rw [List.map_cons, List.flatMap_cons, ih]; rfl

theorem StoredFirst.append {trace actions : List (Action γ)} (h : StoredFirst trace)
    (hnew : ∀ pre closure post, actions = pre ++ .run closure .ok :: post →
      closure.entries ≠ [] → entriesOf ((trace ++ pre).filterMap Action.ran ++ [closure]) <+:
        (trace ++ pre).flatMap Action.stored) : StoredFirst (trace ++ actions) := by
  intro pre closure post hsplit hentries
  rcases List.append_eq_append_iff.mp hsplit with ⟨mid, rfl, hactions⟩ | ⟨mid, htrace, hmid⟩
  · exact hnew mid closure post hactions hentries
  · cases mid with
    | nil =>
      rw [List.append_nil] at htrace
      rw [← htrace]
      simpa using hnew [] closure post hmid.symm hentries
    | cons action mid =>
      cases hmid
      exact h pre closure mid htrace hentries

theorem StoredFirst.runs {trace : List (Action γ)} (h : StoredFirst trace)
    {slots : List (DiskClosure γ)} {status : Status}
    (hstored : status = .ok →
      trace.flatMap Action.stored = entriesOf (trace.filterMap Action.ran ++ slots)) :
    StoredFirst (trace ++ slots.map fun closure => .run closure status) := by
  refine h.append fun pre closure post hsplit _ => ?_
  obtain ⟨front, back, rfl, hfront, hback⟩ := List.map_eq_append_iff.mp hsplit
  obtain ⟨head, rest, rfl, hhead, -⟩ := List.map_eq_cons_iff.mp hback
  cases hhead
  rw [← hfront]
  simp only [List.filterMap_append, ran_runs, List.flatMap_append, stored_runs, List.append_nil,
    hstored rfl, entriesOf_append, List.append_assoc]
  exact List.prefix_append_right_inj _ |>.mpr ⟨entriesOf rest, by
    rw [← entriesOf_append, ← entriesOf_append, ← entriesOf_append]
    simp⟩

end Traces

namespace Batched

variable {limits : Limits} {t t' : DiskThread γ}

theorem start (limits : Limits) (diskId : LogId) : Batched limits (.fresh diskId : DiskThread γ) where
  room := Nat.zero_le _
  pending := rfl
  noError := rfl
  stored := rfl
  first pre closure post hsplit := by simp [DiskThread.fresh] at hsplit

/-- The thread behind a flush: the batch is written and its closures are run. -/
def flushed (t : DiskThread γ) : DiskThread γ :=
  if t.slots = [] then { t with bufferSize := 0 }
  else { t.record (.appendEntries t.toAppend :: t.slots.map (.run · .ok)) with
    slots := []
    bufferSize := 0
    toAppend := []
    lastId := (t.toAppend.getLast?.map LogEntry.id).getD t.lastId }

private theorem flush_eq (hnoError : t.hasError = false) (nappent : Int) :
    t.flush nappent = if t.Takes nappent then some (flushed t) else none := by
  unfold DiskThread.flush flushed
  by_cases hslots : t.slots = []
  · have htakes : t.Takes nappent := fun hne => absurd hslots hne
    rw [if_pos hslots, if_pos hslots, if_pos htakes]
  · rw [if_neg hslots, if_neg hslots, appendToStorage, hnoError, if_neg (by simp)]
    by_cases hall : (t.toAppend.length : Int) ≤ nappent
    · have htakes : t.Takes nappent := fun _ => hall
      rw [if_neg (not_lt.mpr hall), if_pos htakes]
      rfl
    · have hfails : ¬ t.Takes nappent := fun htakes => hall (htakes hslots)
      rw [if_pos (not_le.mp hall), if_neg hfails]
      rfl

private theorem flushed_slots (t : DiskThread γ) : (flushed t).slots = [] := by
  unfold flushed
  split_ifs with hslots
  · exact hslots
  · rfl

private theorem flushed_queue (t : DiskThread γ) : (flushed t).queue = t.queue := by
  unfold flushed
  split_ifs <;> rfl

private theorem flushed_ran (t : DiskThread γ) :
    (flushed t).trace.filterMap Action.ran = t.trace.filterMap Action.ran ++ t.slots := by
  unfold flushed
  split_ifs with hslots
  · rw [hslots, List.append_nil]
  · simp only [DiskThread.record, List.filterMap_append, ran_appendEntries, ran_runs]

private theorem flushed_batched (h : Batched limits t) : Batched limits (flushed t) := by
  unfold flushed
  split_ifs with hslots
  · exact ⟨h.room, h.pending, h.noError, h.stored, h.first⟩
  · have hwritten : (t.trace ++ [Action.appendEntries t.toAppend]).flatMap Action.stored =
        entriesOf ((t.trace ++ [Action.appendEntries t.toAppend]).filterMap Action.ran ++
          t.slots) := by
      simp [h.stored, h.pending, Action.stored]
    refine ⟨Nat.zero_le _, rfl, h.noError, ?_, ?_⟩
    · simp only [DiskThread.record, List.flatMap_append, List.flatMap_cons, stored_runs,
        List.filterMap_append, ran_appendEntries, ran_runs, entriesOf_append, h.stored, h.pending,
        Action.stored, List.append_nil]
    · simp only [DiskThread.record]
      rw [List.append_cons]
      refine (h.first.append fun pre closure post hsplit => ?_).runs fun _ => hwritten
      cases pre <;> simp at hsplit

theorem store (h : Batched limits t) (hroom : t.slots.length < limits.cap)
    (closure : DiskClosure γ) :
    ∃ t', (t.storeSlot limits closure).bind (fun t => some { t with
        toAppend := t.toAppend ++ closure.entries
        bufferSize := t.bufferSize +
          (closure.entries.map fun entry => entry.data.length).sum }) = some t' ∧
      Batched limits t' ∧ t'.queue = t.queue ∧
      t'.trace.filterMap Action.ran ++ t'.slots =
        t.trace.filterMap Action.ran ++ t.slots ++ [closure] := by
  rw [DiskThread.storeSlot, if_pos hroom, Option.bind_some]
  refine ⟨_, rfl, ⟨?_, ?_, h.noError, h.stored, h.first⟩, rfl, ?_⟩
  · rw [List.length_append]
    exact hroom
  · rw [entriesOf_append, ← h.pending]
    simp [entriesOf]
  · rw [← List.append_assoc]

theorem append (h : Batched limits t) {nappent : Int} (closure : DiskClosure γ)
    (hsucceeds : t.Full limits → t.Takes nappent) :
    ∃ t', t.append limits nappent closure = some t' ∧ Batched limits t' ∧ t'.queue = t.queue ∧
      t'.trace.filterMap Action.ran ++ t'.slots =
        t.trace.filterMap Action.ran ++ t.slots ++ [closure] := by
  unfold DiskThread.append
  by_cases hfull : t.Full limits
  · rw [if_pos hfull, flush_eq h.noError, if_pos (hsucceeds hfull)]
    have hroom : (flushed t).slots.length < limits.cap := by
      rw [flushed_slots]
      exact limits.cap_pos
    obtain ⟨t', ht', hbatched, hqueue, hran⟩ := (flushed_batched h).store hroom closure
    refine ⟨t', ht', hbatched, hqueue.trans (flushed_queue t), hran.trans ?_⟩
    rw [flushed_ran, flushed_slots, List.append_nil]
  · rw [if_neg hfull]
    have hroom := lt_of_le_of_ne h.room fun heq => hfull (.inl heq)
    obtain ⟨t', ht', hrest⟩ := h.store hroom closure
    exact ⟨t', ht', hrest⟩

theorem append_undefined (h : Batched limits t) {nappent : Int} (closure : DiskClosure γ)
    (hfails : ¬ (t.Full limits → t.Takes nappent)) : t.append limits nappent closure = none := by
  obtain ⟨hfull, htakes⟩ := Classical.not_imp.mp hfails
  rw [DiskThread.append, if_pos hfull, flush_eq h.noError, if_neg htakes]
  rfl

private theorem runEmpty (h : Batched limits t) {closure : DiskClosure γ}
    (hempty : closure.entries = [])
    {ret : Int} (hret : closure.kind.calls = true → ret = 0) :
    ∃ t', t.perform ret closure.kind = some t' ∧ Batched limits (t'.record [.run closure .ok]) ∧
      t'.slots = t.slots ∧ t'.queue = t.queue ∧
      (t'.record [.run closure .ok]).trace.filterMap Action.ran =
        t.trace.filterMap Action.ran ++ [closure] := by
  obtain ⟨t', actions, ht', hslots, hqueue, hpending, herror, htrace, hran, hstored⟩ :
      ∃ t' actions, t.perform ret closure.kind = some t' ∧ t'.slots = t.slots ∧
        t'.queue = t.queue ∧ t'.toAppend = t.toAppend ∧ t'.hasError = t.hasError ∧
        t'.trace = t.trace ++ actions ∧ actions.filterMap Action.ran = [] ∧
        actions.flatMap Action.stored = [] := by
    unfold DiskThread.perform
    rw [if_neg fun hfails => hfails.2 (hret hfails.1)]
    cases closure.kind with
    | append => exact ⟨_, [], rfl, rfl, rfl, rfl, rfl, (List.append_nil _).symm, rfl, rfl⟩
    | lastLogId => exact ⟨_, [.setLastLogId t.lastId], rfl, rfl, rfl, rfl, rfl, rfl, rfl, rfl⟩
    | truncatePrefix k => exact ⟨_, [.truncatePrefix k], rfl, rfl, rfl, rfl, rfl, rfl, rfl, rfl⟩
    | truncateSuffix k i => exact ⟨_, [.truncateSuffix k], rfl, rfl, rfl, rfl, rfl, rfl, rfl, rfl⟩
    | reset n => exact ⟨_, [.reset n], rfl, rfl, rfl, rfl, rfl, rfl, rfl, rfl⟩
  have hranAll : (t'.record [.run closure .ok]).trace.filterMap Action.ran =
      t.trace.filterMap Action.ran ++ [closure] := by
    simp [DiskThread.record, htrace, hran, Action.ran]
  refine ⟨t', ht', ⟨hslots ▸ h.room, ?_, herror.trans h.noError, ?_, ?_⟩, hslots, hqueue, hranAll⟩
  · rw [DiskThread.record, hpending, hslots, h.pending]
  · rw [hranAll]
    simp [DiskThread.record, htrace, hstored, h.stored, entriesOf, hempty, Action.stored]
  · rw [DiskThread.record, htrace, List.append_assoc]
    refine h.first.append fun pre other post hsplit hentries => ?_
    rcases List.append_eq_append_iff.mp hsplit with ⟨mid, -, hlast⟩ |
      ⟨mid, hactions, hsplitTail⟩
    · cases mid with
      | nil =>
        cases hlast
        exact absurd hempty hentries
      | cons head mid => simp at hlast
    · cases mid with
      | nil =>
        cases hsplitTail
        exact absurd hempty hentries
      | cons head mid =>
        cases hsplitTail
        rw [hactions] at hran
        simp [Action.ran] at hran

theorem take (h : Batched limits t) {nappent ret : Int}
    (hsucceeds : t.Succeeds limits (.take nappent ret)) :
    ∃ t', t.take limits nappent ret = some t' ∧ Batched limits t' ∧
      t'.trace.filterMap Action.ran ++ t'.slots ++ t'.queue =
        t.trace.filterMap Action.ran ++ t.slots ++ t.queue := by
  cases hqueue : t.queue with
  | nil => exact ⟨t, by rw [DiskThread.take, hqueue], h, by rw [hqueue]⟩
  | cons closure queue =>
    have hpopped : Batched limits { t with queue := queue } :=
      ⟨h.room, h.pending, h.noError, h.stored, h.first⟩
    have hhead := hsucceeds closure (by rw [hqueue]; rfl)
    rw [DiskThread.take, hqueue]
    dsimp only
    split_ifs at hhead ⊢ with hentries
    · obtain ⟨t', ht', hbatched, hrest, hran⟩ := hpopped.append closure hhead
      refine ⟨t', ht', hbatched, ?_⟩
      rw [hran, hrest, List.append_assoc _ [closure]]
      rfl
    · have htakes : DiskThread.Takes { t with queue := queue } nappent := hhead.1
      obtain ⟨t', ht', hbatched, hslots, hrest, hran⟩ :=
        (flushed_batched hpopped).runEmpty (not_not.mp hentries) hhead.2
      refine ⟨t'.record [.run closure .ok], ?_, hbatched, ?_⟩
      · rw [flush_eq hpopped.noError, if_pos htakes]
        dsimp only [Option.bind_eq_bind, Option.bind_some]
        rw [ht']
        rfl
      · rw [hran, flushed_ran]
        simp only [DiskThread.record, hslots, hrest, flushed_slots, flushed_queue, List.append_nil,
          List.append_assoc]
        rfl

private theorem take_undefined (h : Batched limits t) {nappent ret : Int}
    (hfails : ¬ t.Succeeds limits (.take nappent ret)) : t.take limits nappent ret = none := by
  cases hqueue : t.queue with
  | nil => exact absurd (fun closure hclosure => by rw [hqueue] at hclosure; cases hclosure) hfails
  | cons closure queue =>
    have hpopped : Batched limits { t with queue := queue } :=
      ⟨h.room, h.pending, h.noError, h.stored, h.first⟩
    have hhead : ¬ (if closure.entries ≠ [] then t.Full limits → t.Takes nappent
        else t.Takes nappent ∧ (closure.kind.calls = true → ret = 0)) := by
      intro hholds
      refine hfails fun other hother => ?_
      rw [hqueue] at hother
      cases hother
      exact hholds
    rw [DiskThread.take, hqueue]
    dsimp only
    split_ifs at hhead ⊢ with hentries
    · exact hpopped.append_undefined closure hhead
    · rw [flush_eq hpopped.noError]
      split_ifs with htakes
      · have hret : closure.kind.calls = true ∧ ret ≠ 0 :=
          Classical.not_imp.mp fun hret => hhead ⟨htakes, hret⟩
        dsimp only [Option.bind_eq_bind, Option.bind_some]
        unfold DiskThread.perform
        rw [if_pos hret]
        rfl
      · rfl

private theorem finish_eq (h : Batched limits t) (nappent : Int) :
    t.finish nappent =
      if t.Takes nappent then
        let diskId :=
          if (flushed t).lastId.Before (flushed t).diskId then (flushed t).diskId
          else (flushed t).lastId
        some { flushed t with diskId := diskId, lastId := diskId, bufferSize := 0 }
      else none := by
  rw [DiskThread.finish, flush_eq h.noError]
  by_cases htakes : t.Takes nappent
  · rw [if_pos htakes, if_pos htakes]
    dsimp only [Option.bind_eq_bind, Option.bind_some]
    rw [DiskThread.flush, if_pos (flushed_slots t)]
    rfl
  · rw [if_neg htakes, if_neg htakes]
    rfl

theorem finish (h : Batched limits t) {nappent : Int} (hsucceeds : t.Takes nappent) :
    ∃ t', t.finish nappent = some t' ∧ Batched limits t' ∧ t'.slots = [] ∧
      t'.trace.filterMap Action.ran ++ t'.slots ++ t'.queue =
        t.trace.filterMap Action.ran ++ t.slots ++ t.queue := by
  have hflushed := flushed_batched h
  refine ⟨_, (h.finish_eq nappent).trans (if_pos hsucceeds), ?_, flushed_slots t, ?_⟩
  · exact ⟨hflushed.room, hflushed.pending, hflushed.noError, hflushed.stored, hflushed.first⟩
  · dsimp only
    rw [flushed_ran, flushed_slots, flushed_queue, List.append_nil]

theorem step (h : Batched limits t) {event : Event γ} (hsucceeds : t.Succeeds limits event) :
    ∃ t', t.step limits event = some t' ∧ Batched limits t' ∧
      t'.trace.filterMap Action.ran ++ t'.slots ++ t'.queue =
        t.trace.filterMap Action.ran ++ t.slots ++ t.queue ++ (executed event).toList := by
  cases event with
  | execute closure =>
    refine ⟨_, rfl, ⟨h.room, h.pending, h.noError, h.stored, h.first⟩, ?_⟩
    exact (List.append_assoc _ _ _).symm
  | take nappent ret =>
    obtain ⟨t', ht', hbatched, honce⟩ := h.take hsucceeds
    exact ⟨t', ht', hbatched, by simpa [executed] using honce⟩
  | finish nappent =>
    obtain ⟨t', ht', hbatched, -, honce⟩ := h.finish hsucceeds
    exact ⟨t', ht', hbatched, by simpa [executed] using honce⟩

private theorem step_undefined (h : Batched limits t) {event : Event γ}
    (hfails : ¬ t.Succeeds limits event) : t.step limits event = none := by
  cases event with
  | execute closure => exact absurd trivial hfails
  | take nappent ret => exact h.take_undefined hfails
  | finish nappent => exact (h.finish_eq nappent).trans (if_neg hfails)

theorem run (h : Batched limits t) {events : List (Event γ)}
    (hguard : Guarded (DiskThread.step limits) (DiskThread.Succeeds limits) t events) :
    ∃ t', runEvents (DiskThread.step limits) t events = some t' ∧ Batched limits t' ∧
      t'.trace.filterMap Action.ran ++ t'.slots ++ t'.queue =
        t.trace.filterMap Action.ran ++ t.slots ++ t.queue ++ events.filterMap executed := by
  induction events generalizing t with
  | nil => exact ⟨t, rfl, h, (List.append_nil _).symm⟩
  | cons event events ih =>
    obtain ⟨u, hu, hbatched, honce⟩ := h.step hguard.1
    obtain ⟨t', ht', hbatched', honce'⟩ := ih hbatched (hguard.2 u hu)
    refine ⟨t', runEvents_cons_eq_some.mpr ⟨u, hu, ht'⟩, hbatched', ?_⟩
    rw [honce', honce, List.append_assoc _ (executed event).toList]
    cases hexecuted : executed event with
    | none => rw [List.filterMap_cons_none hexecuted]; rfl
    | some closure => rw [List.filterMap_cons_some hexecuted]; rfl

private theorem succeeds_of_run (h : Batched limits t) {events : List (Event γ)}
    (hrun : runEvents (DiskThread.step limits) t events = some t') :
    Guarded (DiskThread.step limits) (DiskThread.Succeeds limits) t events := by
  refine @guarded_of_run _ _ _ _ (Batched limits) (fun s event s' hs hstep => ?_) _ _ _ h hrun
  have hsucceeds : s.Succeeds limits event := by
    by_contra hfails
    rw [hs.step_undefined hfails] at hstep
    cases hstep
  obtain ⟨u, hu, hbatched, -⟩ := hs.step hsucceeds
  cases hu.symm.trans hstep
  exact ⟨hsucceeds, hbatched⟩

end Batched

/-- The thread gets to the end of the run, its closures run once and in order behind their
entries, and none is left of a batch that is over. -/
def Completes (limits : Limits) (diskId : LogId) (events : List (Event γ)) : Prop :=
  ∃ t, runEvents (DiskThread.step limits) (.fresh diskId) events = some t ∧
    InOrder (events.filterMap executed) t ∧
    ∀ nappent, events.getLast? = some (.finish nappent) → t.slots = []

/-- However the queue is cut into batches, all closures are run in order, with their entries
stored, exactly if no call of the storage fails. -/
theorem disk_thread_in_order (limits : Limits) (diskId : LogId) (events : List (Event γ)) :
    Completes limits diskId events ↔
      Guarded (DiskThread.step limits) (DiskThread.Succeeds limits) (.fresh diskId) events := by
  have hstart := @Batched.start γ limits diskId
  constructor
  · rintro ⟨t, hrun, -⟩
    exact hstart.succeeds_of_run hrun
  · intro hguard
    obtain ⟨t, hrun, hbatched, honce⟩ := hstart.run hguard
    refine ⟨t, hrun, ⟨honce, hbatched.stored, hbatched.first⟩, fun nappent hlast => ?_⟩
    obtain ⟨before, rfl⟩ := List.getLast?_eq_some_iff.mp hlast
    obtain ⟨u, hu, hut⟩ := runEvents_append_eq_some.mp hrun
    obtain ⟨v, hv, hvt⟩ := runEvents_cons_eq_some.mp hut
    cases hvt
    obtain ⟨u', hu', hbefore, -⟩ := hstart.run (guarded_append_left hguard)
    cases hu'.symm.trans hu
    obtain ⟨t', ht', -, hslots, -⟩ := hbefore.finish (guarded_append_right hguard hu).1
    cases ht'.symm.trans hv
    exact hslots

/-- The storage takes nothing of the first batch. -/
theorem disk_thread_dies : ¬ Completes ⟨256, by decide, 262144⟩ ⟨0, 0⟩
    ([.execute ⟨(), .append, [⟨.data, ⟨1, 1⟩, 0, none, none, [7]⟩]⟩, .take 0 0, .finish 0] :
      List (Event Unit)) := by
  rintro ⟨t, hrun, -⟩
  cases hrun

section LogManager

open HitConsistency.Log.DiskThread (AppendBatcher Call System cap)

/-- The closures that the log manager puts into its queue. -/
def ofTask : DiskTask Call → DiskClosure (Option Call)
  | .append closure => ⟨some closure.done, .append, closure.entries⟩
  | .lastLogId waiter => ⟨some waiter, .lastLogId, []⟩
  | .truncateSuffix lastIndexKept lastTermKept =>
      ⟨none, .truncateSuffix lastIndexKept lastTermKept, []⟩

/-- The array of `disk_thread`. -/
def limitsOf (maxAppendBufferSize : Nat) : Limits := ⟨cap, by decide, maxAppendBufferSize⟩

/-- The thread has the queue, the batch and the ids of the log manager. -/
structure Simulates (sys : System) (t : DiskThread (Option Call)) : Prop where
  queue : t.queue = sys.manager.diskQueue.map ofTask
  slots : t.slots = sys.batcher.storage.map fun closure => ofTask (.append closure)
  bufferSize : t.bufferSize = sys.batcher.bufferSize
  toAppend : t.toAppend = sys.batcher.toAppend
  lastId : t.lastId = sys.manager.lastId
  diskId : t.diskId = sys.manager.diskId
  hasError : t.hasError = sys.manager.hasError

namespace Simulates

variable {sys sys' : System} {t : DiskThread (Option Call)}

private theorem flush_emptied {t' : DiskThread (Option Call)} {nappent : Int}
    (hflush : t.flush nappent = some t') : t'.slots = [] ∧ t'.bufferSize = 0 := by
  unfold DiskThread.flush at hflush
  split at hflush
  · rename_i hslots
    cases hflush
    exact ⟨hslots, rfl⟩
  · obtain ⟨written, -, rfl⟩ := Option.map_eq_some_iff.mp hflush
    exact ⟨rfl, rfl⟩

theorem flush (h : Simulates sys t) {nappent : Nat} (hflush : sys.flush nappent = some sys') :
    ∃ t', t.flush nappent = some t' ∧ Simulates sys' t' := by
  unfold System.flush at hflush
  unfold DiskThread.flush
  by_cases hslots : sys.batcher.storage = []
  · have hnone : t.slots = [] := by rw [h.slots, hslots]; rfl
    rw [if_pos hslots] at hflush
    cases hflush
    exact ⟨_, if_pos hnone, h.queue, h.slots, rfl, h.toAppend, h.lastId, h.diskId, h.hasError⟩
  · have hsome : t.slots ≠ [] := by simpa [h.slots] using hslots
    rw [if_neg hslots] at hflush
    obtain ⟨⟨taken, lastId⟩, happend, rfl⟩ := Option.map_eq_some_iff.mp hflush
    rw [if_neg hsome, h.hasError, h.lastId, h.toAppend, happend]
    exact ⟨_, rfl, h.queue, rfl, rfl, rfl, rfl, h.diskId, h.hasError⟩

theorem store (h : Simulates sys t) (hroom : t.slots.length < cap) (maxAppendBufferSize : Nat)
    (closure : StableClosure Call) :
    ∃ t', (t.storeSlot (limitsOf maxAppendBufferSize) (ofTask (.append closure))).bind
        (fun t => some { t with
          toAppend := t.toAppend ++ closure.entries
          bufferSize := t.bufferSize +
            (closure.entries.map fun entry => entry.data.length).sum }) = some t' ∧
      Simulates { sys with batcher :=
          ⟨sys.batcher.storage ++ [closure], sys.batcher.toAppend ++ closure.entries,
            sys.batcher.bufferSize + (closure.entries.map fun entry => entry.data.length).sum⟩ }
        t' := by
  have hslot : t.slots.length < (limitsOf maxAppendBufferSize).cap := hroom
  rw [DiskThread.storeSlot, if_pos hslot, Option.bind_some]
  refine ⟨_, rfl, h.queue, ?_, ?_, ?_, h.lastId, h.diskId, h.hasError⟩
  · rw [h.slots, List.map_append]
    rfl
  · rw [h.bufferSize]
  · rw [h.toAppend]

theorem append (h : Simulates sys t) (hroom : t.slots.length ≤ cap) {maxAppendBufferSize : Nat}
    {nappent : Nat} {closure : StableClosure Call}
    (happend : sys.append maxAppendBufferSize nappent closure = some sys') :
    ∃ t', t.append (limitsOf maxAppendBufferSize) nappent (ofTask (.append closure)) = some t' ∧
      Simulates sys' t' := by
  obtain ⟨before, hbefore, rfl⟩ := Option.map_eq_some_iff.mp happend
  have hfull : t.Full (limitsOf maxAppendBufferSize) ↔
      (sys.batcher.storage.length = cap ∨ maxAppendBufferSize ≤ sys.batcher.bufferSize) := by
    rw [DiskThread.Full, h.slots, List.length_map, h.bufferSize]
    rfl
  rw [DiskThread.append]
  split at hbefore
  · rename_i hflush
    obtain ⟨u, hu, hsim⟩ := h.flush hbefore
    have hroomBehind : u.slots.length < cap := by
      rw [(flush_emptied hu).1]
      decide
    obtain ⟨t', ht', hstored⟩ := hsim.store hroomBehind maxAppendBufferSize closure
    refine ⟨t', ?_, hstored⟩
    rw [if_pos (hfull.mpr hflush), hu]
    exact ht'
  · rename_i hflush
    cases hbefore
    have hopen := lt_of_le_of_ne hroom fun heq => hflush (hfull.mp (.inl heq))
    obtain ⟨t', ht', hstored⟩ := h.store hopen maxAppendBufferSize closure
    refine ⟨t', ?_, hstored⟩
    rw [if_neg fun hnot => hflush (hfull.mp hnot)]
    exact ht'

theorem take (h : Simulates sys t) {maxAppendBufferSize nappent : Nat} {truncates : Bool}
    (hroom : t.slots.length ≤ cap)
    (htake : sys.take maxAppendBufferSize nappent truncates = some sys') :
    ∃ t', t.take (limitsOf maxAppendBufferSize) nappent (if truncates then 0 else -1) = some t' ∧
      Simulates sys' t' := by
  cases hqueue : sys.manager.diskQueue with
  | nil => simp [System.take, hqueue] at htake
  | cons task rest =>
    have hpopped : Simulates { sys with manager := { sys.manager with diskQueue := rest } }
        { t with queue := rest.map ofTask } :=
      ⟨rfl, h.slots, h.bufferSize, h.toAppend, h.lastId, h.diskId, h.hasError⟩
    unfold System.take at htake
    rw [hqueue] at htake
    rw [DiskThread.take, h.queue, hqueue, List.map_cons]
    dsimp only at htake ⊢
    cases task with
    | append closure =>
      dsimp only at htake
      split at htake
      · rename_i hentries
        obtain ⟨t', ht', hsim⟩ := hpopped.append hroom htake
        exact ⟨t', (if_pos hentries).trans ht', hsim⟩
      · rename_i hentries
        obtain ⟨flushed, hflush, rfl⟩ := Option.map_eq_some_iff.mp htake
        obtain ⟨u, hu, hsim⟩ := hpopped.flush hflush
        refine ⟨u.record [.run (ofTask (.append closure)) .ok], (if_neg hentries).trans ?_,
          ⟨hsim.queue, hsim.slots, hsim.bufferSize, hsim.toAppend, hsim.lastId, hsim.diskId,
            hsim.hasError⟩⟩
        rw [hu]
        rfl
    | lastLogId waiter =>
      obtain ⟨u, hu, hsim⟩ := hpopped.flush htake
      refine ⟨(u.record [.setLastLogId u.lastId]).record [.run (ofTask (.lastLogId waiter)) .ok],
        (if_neg (by simp [ofTask])).trans ?_, ⟨hsim.queue, hsim.slots, hsim.bufferSize,
          hsim.toAppend, hsim.lastId, hsim.diskId, hsim.hasError⟩⟩
      rw [hu]
      rfl
    | truncateSuffix lastIndexKept lastTermKept =>
      obtain ⟨flushed, hflush, htruncate⟩ := Option.bind_eq_some_iff.mp htake
      obtain ⟨u, hu, hsim⟩ := hpopped.flush hflush
      cases truncates with
      | false => cases htruncate
      | true =>
        cases htruncate
        refine ⟨DiskThread.record { u.record [.truncateSuffix lastIndexKept] with
            lastId := ⟨lastIndexKept, lastTermKept⟩ }
          [.run (ofTask (.truncateSuffix lastIndexKept lastTermKept)) .ok],
          (if_neg (by simp [ofTask])).trans ?_, ⟨hsim.queue, hsim.slots, hsim.bufferSize,
          hsim.toAppend, rfl, hsim.diskId, hsim.hasError⟩⟩
        rw [hu]
        rfl

theorem finish (h : Simulates sys t) {nappent : Nat} (hfinish : sys.finish nappent = some sys') :
    ∃ t', t.finish nappent = some t' ∧ Simulates sys' t' := by
  obtain ⟨flushed, hflush, rfl⟩ := Option.map_eq_some_iff.mp hfinish
  obtain ⟨u, hu, hsim⟩ := h.flush hflush
  obtain ⟨hslots, hbuffer⟩ := flush_emptied hu
  rw [DiskThread.finish, hu]
  dsimp only [Option.bind_eq_bind, Option.bind_some]
  rw [DiskThread.flush, if_pos hslots, LogManager.diskBatchEnd, LogManager.setDiskId,
    hsim.lastId, hsim.diskId]
  refine ⟨_, rfl, ?_⟩
  split_ifs with hbefore
  · exact ⟨hsim.queue, hsim.slots, hbuffer.symm.trans hsim.bufferSize, hsim.toAppend, rfl, rfl,
      hsim.hasError⟩
  · exact ⟨hsim.queue, hsim.slots, hbuffer.symm.trans hsim.bufferSize, hsim.toAppend, rfl, rfl,
      hsim.hasError⟩

end Simulates

end LogManager

end HitConsistency.Log.DiskBatches
