/- GID: HitConsistency/Commit/TaskBatches
   digest: One batch of the execution queue: commits are merged up to the next task of another type. -/

import HitConsistency.Commit.ApplyPipeline

set_option autoImplicit false
set_option relaxedAutoImplicit false

/-!
The calls that `FSMCaller::run` makes are listed as tasks again, each with the
arguments it was made with, so that a batch and what becomes of it can be read
the same way.
-/

namespace HitConsistency.Commit.TaskBatches

open HitConsistency.Group.Peers
open HitConsistency.Commit.PendingQueues

/-- The tasks of other types. A status or an error is known by its code. The switch of
`run` has nothing to do for the last three. -/
inductive OtherTask
  | leaderStop (status : Int)
  | leaderStart (term : Int)
  | startFollowing (leaderId : PeerId) (term : Int)
  | stopFollowing (leaderId : PeerId) (term : Int)
  | error (code : Int)
  | idle
  | snapshotSave
  | snapshotLoad
  deriving DecidableEq

inductive ApplyTask
  | committed (task : Committed)
  | other (task : OtherTask)
  deriving DecidableEq

/-- Only `on_committed` fills the list of a task. -/
def ApplyTask.ooCommittedEntries : ApplyTask → List Int
  | .committed task => task.ooCommittedEntries
  | .other _ => []

/-- One call of `do_committed`, made only when some index was committed. -/
def flush (maxCommittedIndex : Int) (ooCommittedEntries : List Int) : List ApplyTask :=
  if 0 ≤ maxCommittedIndex then [.committed ⟨maxCommittedIndex, ooCommittedEntries⟩] else []

/-- The loop of `FSMCaller::run`. In front of a task of another type the list of that
task is passed, not the list collected so far. -/
def runFrom (ooCommittedEntries : List Int) (maxCommittedIndex : Int) :
    List ApplyTask → List ApplyTask
  | [] => flush maxCommittedIndex ooCommittedEntries
  | .committed task :: rest =>
      runFrom (ooCommittedEntries ++ task.ooCommittedEntries)
        (if maxCommittedIndex < task.committedIndex then task.committedIndex
          else maxCommittedIndex) rest
  | .other task :: rest =>
      flush maxCommittedIndex (ApplyTask.other task).ooCommittedEntries ++ .other task ::
        runFrom ooCommittedEntries (if 0 ≤ maxCommittedIndex then -1 else maxCommittedIndex) rest

def run (batch : List ApplyTask) : List ApplyTask := runFrom [] (-1) batch

def oneAtATime (batch : List ApplyTask) : List ApplyTask := batch.flatMap fun task => run [task]

def otherTasks : List ApplyTask → List OtherTask
  | [] => []
  | .committed _ :: rest => otherTasks rest
  | .other task :: rest => task :: otherTasks rest

/-- The commits in front of the `k`-th task of another type, all of them when there are
not that many. -/
def committedBefore : Nat → List ApplyTask → List Committed
  | _, [] => []
  | k, .committed task :: rest => task :: committedBefore k rest
  | 0, .other _ :: _ => []
  | k + 1, .other _ :: rest => committedBefore k rest

/-- One of the commits carries the index in its list. -/
def Carried (commits : List Committed) (i : Int) : Prop :=
  ∃ task ∈ commits, i ∈ task.ooCommittedEntries

/-- The commit of a task is covered by the calls; a negative index commits nothing. -/
structure TakesEffect (task : Committed) (calls : List Committed) : Prop where
  committedIndex : 0 ≤ task.committedIndex →
    ∃ call ∈ calls, task.committedIndex ≤ call.committedIndex
  ooCommittedEntries : ∀ i ∈ task.ooCommittedEntries, Carried calls i

def largestIndex (calls : List Committed) : Option Int := (calls.map Committed.committedIndex).max?

/-- What batching owes: nothing carried is lost, everything is there in time, and at
every task of another type and at the end the state machine was given the same. -/
structure Lossless (batch : List ApplyTask) : Prop where
  passed : ∀ task, .committed task ∈ batch → ∀ i ∈ task.ooCommittedEntries,
    ∃ call, .committed call ∈ run batch ∧ i ∈ call.ooCommittedEntries
  inTime : ∀ k, k < (otherTasks batch).length → ∀ task ∈ committedBefore k batch,
    TakesEffect task (committedBefore k (run batch))
  sameIndexes : ∀ k i, Carried (committedBefore k (run batch)) i ↔
    Carried (committedBefore k (oneAtATime batch)) i
  sameLargest : ∀ k, largestIndex (committedBefore k (run batch)) =
    largestIndex (committedBefore k (oneAtATime batch))

/-- Nothing in front of a task of another type carries an index, and what a task
without a committed index carries is carried by one with a committed index too. -/
structure ListsAtEnd (batch : List ApplyTask) : Prop where
  nothingBefore : ∀ k, k < (otherTasks batch).length → ∀ task ∈ committedBefore k batch,
    task.ooCommittedEntries = []
  withCommit : ∀ task, .committed task ∈ batch → task.committedIndex < 0 →
    ∀ i ∈ task.ooCommittedEntries, ∃ other, .committed other ∈ batch ∧
      0 ≤ other.committedIndex ∧ i ∈ other.ooCommittedEntries

private theorem otherTasks_run (batch : List ApplyTask) : otherTasks
    (run batch) = otherTasks batch := by
  have hflush : ∀ (max : Int) (oo : List Int) (rest : List ApplyTask),
      otherTasks (flush max oo ++ rest) = otherTasks rest := by
    intro max oo rest
    unfold flush
    split <;> rfl
  have hloop : ∀ (oo : List Int) (max : Int), otherTasks (runFrom oo max batch) =
      otherTasks batch := by
    induction batch with
    | nil =>
      intro oo max
      simpa [runFrom] using hflush max oo []
    | cons task rest ih =>
      intro oo max
      cases task with
      | committed task => exact ih _ _
      | other task => rw [runFrom, hflush, otherTasks, otherTasks, ih]
  exact hloop [] (-1)

private theorem mem_committedBefore {batch : List ApplyTask} {task : Committed} {k : Nat}
    (h : task ∈ committedBefore k batch) : .committed task ∈ batch := by
  induction batch generalizing k with
  | nil => simp [committedBefore] at h
  | cons head rest ih =>
    cases head with
    | committed head =>
      rcases List.mem_cons.mp h with rfl | hrest
      · exact List.mem_cons_self
      · exact List.mem_cons_of_mem _ (ih hrest)
    | other head =>
      cases k with
      | zero => simp [committedBefore] at h
      | succ k => exact List.mem_cons_of_mem _ (ih h)

private theorem mem_committedBefore_end {batch : List ApplyTask} {task : Committed} {k : Nat}
    (hk : (otherTasks batch).length ≤ k) (h : .committed task ∈ batch) :
    task ∈ committedBefore k batch := by
  induction batch generalizing k with
  | nil => simp at h
  | cons head rest ih =>
    cases head with
    | committed head =>
      rcases List.mem_cons.mp h with heq | hrest
      · cases heq
        exact List.mem_cons_self
      · exact List.mem_cons_of_mem _ (ih hk hrest)
    | other head =>
      have hrest : .committed task ∈ rest := by simpa using h
      cases k with
      | zero => simp [otherTasks] at hk
      | succ k => exact ih (by simpa [otherTasks] using hk) hrest

private theorem committedBefore_flush (k : Nat) (max : Int) (oo : List Int)
    (rest : List ApplyTask) :
    committedBefore k (flush max oo ++ rest) =
      (if 0 ≤ max then [⟨max, oo⟩] else []) ++ committedBefore k rest := by
  unfold flush
  split <;> rfl

private theorem committedBefore_oneAtATime (k : Nat) (batch : List ApplyTask) :
    committedBefore k (oneAtATime batch) =
      (committedBefore k batch).filter fun task => 0 ≤ task.committedIndex := by
  induction batch generalizing k with
  | nil => rfl
  | cons task rest ih =>
    rw [oneAtATime, List.flatMap_cons, ← oneAtATime]
    cases task with
    | committed task =>
      have hsingle : run [.committed task] = flush task.committedIndex task.ooCommittedEntries := by
        by_cases hneg : task.committedIndex < 0
        · simp [run, runFrom, flush, show ¬ -1 < task.committedIndex by omega, hneg]
        · simp [run, runFrom, show -1 < task.committedIndex by omega]
      rw [hsingle, committedBefore_flush, committedBefore, ih]
      by_cases hneg : 0 ≤ task.committedIndex <;> simp [hneg]
    | other task =>
      have hsingle : run [.other task] = [.other task] := rfl
      rw [hsingle]
      cases k with
      | zero => rfl
      | succ k => exact ih k

private theorem reaches_runFrom (k : Nat) (n : Int) (batch : List ApplyTask) (oo : List Int)
    (max : Int) :
    (∃ call ∈ committedBefore k (runFrom oo max batch), n ≤ call.committedIndex) ↔
      (0 ≤ max ∧ n ≤ max) ∨
        ∃ task ∈ committedBefore k batch, 0 ≤ task.committedIndex ∧ n ≤ task.committedIndex := by
  induction batch generalizing k oo max with
  | nil =>
    have hend := committedBefore_flush k max oo []
    rw [List.append_nil] at hend
    rw [runFrom, hend]
    by_cases hmax : 0 ≤ max <;> simp [committedBefore, hmax]
  | cons task rest ih =>
    cases task with
    | committed task =>
      rw [runFrom, ih, committedBefore, List.exists_mem_cons_iff]
      split <;> grind
    | other task =>
      rw [runFrom, committedBefore_flush]
      cases k with
      | zero => by_cases hmax : 0 ≤ max <;> simp [committedBefore, hmax]
      | succ k =>
        rw [committedBefore, committedBefore]
        by_cases hmax : 0 ≤ max
        · rw [if_pos hmax, List.singleton_append, List.exists_mem_cons_iff, ih]
          simp [hmax]
        · simp only [if_neg hmax, List.nil_append, ih]

private theorem not_carried_runFrom {k : Nat} {batch : List ApplyTask}
    (hk : k < (otherTasks batch).length) (oo : List Int) (max : Int) (i : Int) :
    ¬ Carried (committedBefore k (runFrom oo max batch)) i := by
  induction batch generalizing k oo max with
  | nil => simp [otherTasks] at hk
  | cons task rest ih =>
    cases task with
    | committed task => exact ih hk _ _
    | other task =>
      have hflushed : ¬ Carried (if 0 ≤ max then
          [⟨max, (ApplyTask.other task).ooCommittedEntries⟩] else []) i := by
        split <;> simp [Carried, ApplyTask.ooCommittedEntries]
      rw [runFrom, committedBefore_flush]
      rintro ⟨call, hcall, hi⟩
      rcases List.mem_append.mp hcall with hcall | hcall
      · exact hflushed ⟨call, hcall, hi⟩
      · cases k with
        | zero => simp [committedBefore] at hcall
        | succ k => exact ih (by simpa [otherTasks] using hk) _ _ ⟨call, hcall, hi⟩

private theorem carried_of_runFrom {k : Nat} {batch : List ApplyTask} {oo : List Int} {max i : Int}
    (h : Carried (committedBefore k (runFrom oo max batch)) i) :
    i ∈ oo ∨ Carried (committedBefore k batch) i := by
  induction batch generalizing k oo max with
  | nil =>
    have hend := committedBefore_flush k max oo []
    rw [List.append_nil] at hend
    rw [runFrom, hend] at h
    obtain ⟨call, hcall, hi⟩ := h
    split at hcall
    · simp only [committedBefore, List.append_nil, List.mem_singleton] at hcall
      subst hcall
      exact .inl hi
    · simp [committedBefore] at hcall
  | cons task rest ih =>
    cases task with
    | committed task =>
      rcases ih h with hoo | ⟨other, hother, hi⟩
      · rcases List.mem_append.mp hoo with hoo | htask
        · exact .inl hoo
        · exact .inr ⟨task, List.mem_cons_self, htask⟩
      · exact .inr ⟨other, List.mem_cons_of_mem _ hother, hi⟩
    | other task =>
      rw [runFrom, committedBefore_flush] at h
      obtain ⟨call, hcall, hi⟩ := h
      rcases List.mem_append.mp hcall with hcall | hcall
      · split at hcall
        · simp only [List.mem_singleton] at hcall
          subst hcall
          simp [ApplyTask.ooCommittedEntries] at hi
        · simp at hcall
      · cases k with
        | zero => simp [committedBefore] at hcall
        | succ k => exact ih ⟨call, hcall, hi⟩

/-- Behind the last task of another type a committed index is still to be flushed. -/
def EndsWithCommit (max : Int) (batch : List ApplyTask) : Prop :=
  otherTasks batch = [] ∧ 0 ≤ max ∨
    ∃ task, .committed task ∈ batch ∧ 0 ≤ task.committedIndex ∧
      ∀ k, k < (otherTasks batch).length → task ∉ committedBefore k batch

private theorem last_call {max : Int} {batch : List ApplyTask} (h : EndsWithCommit max batch)
    (oo : List Int) : ∃ call, .committed call ∈ runFrom oo max batch ∧
      (∀ i ∈ oo, i ∈ call.ooCommittedEntries) ∧
      ∀ task, .committed task ∈ batch → ∀ i ∈ task.ooCommittedEntries,
        i ∈ call.ooCommittedEntries := by
  induction batch generalizing max oo with
  | nil =>
    rcases h with ⟨-, hmax⟩ | ⟨task, htask, -⟩
    · exact ⟨⟨max, oo⟩, by simp [runFrom, flush, hmax], fun i hi => hi, by simp⟩
    · simp at htask
  | cons head rest ih =>
    cases head with
    | committed head =>
      have hrest : EndsWithCommit
          (if max < head.committedIndex then head.committedIndex else max) rest := by
        rcases h with ⟨hnone, hmax⟩ | ⟨task, htask, hindex, hbehind⟩
        · exact .inl ⟨hnone, by split <;> omega⟩
        · rcases List.mem_cons.mp htask with heq | hin
          · cases heq
            have hnone : otherTasks rest = [] := by
              by_contra hsome
              exact hbehind 0 (List.length_pos_iff.mpr hsome) List.mem_cons_self
            exact .inl ⟨hnone, by split <;> omega⟩
          · exact .inr ⟨task, hin, hindex, fun k hk hmem =>
              hbehind k hk (List.mem_cons_of_mem _ hmem)⟩
      obtain ⟨call, hcall, hoo, hall⟩ := ih hrest (oo ++ head.ooCommittedEntries)
      refine ⟨call, hcall, fun i hi => hoo i (List.mem_append_left _ hi), ?_⟩
      intro task htask i hi
      rcases List.mem_cons.mp htask with heq | hin
      · cases heq
        exact hoo i (List.mem_append_right _ hi)
      · exact hall task hin i hi
    | other head =>
      have hrest : EndsWithCommit (if 0 ≤ max then -1 else max) rest := by
        rcases h with ⟨hnone, -⟩ | ⟨task, htask, hindex, hbehind⟩
        · simp [otherTasks] at hnone
        · exact .inr ⟨task, by simpa using htask, hindex, fun k hk hmem =>
            hbehind (k + 1) (by simpa [otherTasks] using hk) hmem⟩
      obtain ⟨call, hcall, hoo, hall⟩ := ih hrest oo
      refine ⟨call, ?_, hoo, fun task htask => hall task (by simpa using htask)⟩
      exact List.mem_append_right _ (List.mem_cons_of_mem _ hcall)

private theorem max_eq_of_reaches {l m : List Int} (h : ∀ n, (∃ a ∈ l, n ≤ a) ↔ ∃ b ∈ m, n ≤ b) :
    l.max? = m.max? := by
  cases hl : l.max? with
  | none =>
    have hempty : l = [] := List.max?_eq_none_iff.mp hl
    cases hm : m.max? with
    | none => rfl
    | some b =>
      have hb := (List.max?_eq_some_iff.mp hm).1
      obtain ⟨a, ha, -⟩ := (h b).mpr ⟨b, hb, le_refl b⟩
      simp [hempty] at ha
  | some a =>
    obtain ⟨ha, hamax⟩ := List.max?_eq_some_iff.mp hl
    obtain ⟨b, hb, hab⟩ := (h a).mp ⟨a, ha, le_refl a⟩
    symm
    refine List.max?_eq_some_iff.mpr ⟨?_, fun c hc => ?_⟩
    · obtain ⟨d, hd, hbd⟩ := (h b).mpr ⟨b, hb, le_refl b⟩
      have heq : b = a := le_antisymm (le_trans hbd (hamax d hd)) hab
      exact heq ▸ hb
    · obtain ⟨d, hd, hcd⟩ := (h c).mpr ⟨c, hc, le_refl c⟩
      exact le_trans hcd (hamax d hd)

private theorem largestIndex_run (k : Nat) (batch : List ApplyTask) :
    largestIndex (committedBefore k (run batch)) =
      largestIndex (committedBefore k (oneAtATime batch)) := by
  apply max_eq_of_reaches
  intro n
  have hrun := reaches_runFrom k n batch [] (-1)
  rw [committedBefore_oneAtATime]
  simp only [List.mem_map, exists_exists_and_eq_and, List.mem_filter, decide_eq_true_eq]
  rw [run, hrun]
  constructor
  · rintro (⟨hneg, -⟩ | ⟨task, htask, hindex, hn⟩)
    · omega
    · exact ⟨task, ⟨htask, hindex⟩, hn⟩
  · rintro ⟨task, ⟨htask, hindex⟩, hn⟩
    exact .inr ⟨task, htask, hindex, hn⟩

/-- Behind a committed index that follows every task of another type, each carried
index is passed. -/
private theorem passed_of_listsAtEnd {batch : List ApplyTask} (h : ListsAtEnd batch)
    {task : Committed}
    (htask : .committed task ∈ batch) {i : Int} (hi : i ∈ task.ooCommittedEntries) :
    ∃ call, .committed call ∈ run batch ∧ i ∈ call.ooCommittedEntries := by
  have hcommit : ∃ other, .committed other ∈ batch ∧ 0 ≤ other.committedIndex ∧
      i ∈ other.ooCommittedEntries := by
    by_cases hneg : task.committedIndex < 0
    · exact h.withCommit task htask hneg i hi
    · exact ⟨task, htask, by omega, hi⟩
  obtain ⟨other, hother, hindex, hcarries⟩ := hcommit
  have hend : EndsWithCommit (-1) batch :=
    .inr ⟨other, hother, hindex, fun k hk hmem => by
      rw [h.nothingBefore k hk other hmem] at hcarries
      simp at hcarries⟩
  obtain ⟨call, hcall, -, hall⟩ := last_call hend []
  exact ⟨call, hcall, hall task htask i hi⟩

/-- A batch loses nothing exactly when its lists come at its end. -/
theorem lossless_iff (batch : List ApplyTask) : Lossless batch ↔ ListsAtEnd batch := by
  constructor
  · intro h
    refine ⟨fun k hk task htask => ?_, fun task htask hneg i hi => ?_⟩
    · apply List.eq_nil_iff_forall_not_mem.mpr
      intro i hi
      exact not_carried_runFrom hk [] (-1) i ((h.inTime k hk task htask).ooCommittedEntries i hi)
    · obtain ⟨call, hcall, hcarries⟩ := h.passed task htask i hi
      have hatEnd : call ∈ committedBefore (otherTasks batch).length (run batch) :=
        mem_committedBefore_end (by rw [otherTasks_run]) hcall
      obtain ⟨other, hother, hin⟩ := (h.sameIndexes _ i).mp ⟨call, hatEnd, hcarries⟩
      rw [committedBefore_oneAtATime, List.mem_filter, decide_eq_true_eq] at hother
      exact ⟨other, mem_committedBefore hother.1, hother.2, hin⟩
  · intro h
    refine ⟨fun task htask i hi => passed_of_listsAtEnd h htask hi, ?_, ?_, ?_⟩
    · intro k hk task htask
      refine ⟨fun hindex => ?_, fun i hi => ?_⟩
      · exact (reaches_runFrom k _ batch [] (-1)).mpr
          (.inr ⟨task, htask, hindex, le_refl _⟩)
      · rw [h.nothingBefore k hk task htask] at hi
        simp at hi
    · intro k i
      rw [committedBefore_oneAtATime]
      by_cases hk : k < (otherTasks batch).length
      · refine iff_of_false (not_carried_runFrom hk [] (-1) i) ?_
        rintro ⟨task, htask, hi⟩
        rw [h.nothingBefore k hk task (List.mem_filter.mp htask).1] at hi
        simp at hi
      · constructor
        · intro hcarried
          rcases carried_of_runFrom hcarried with hnil | ⟨task, htask, hi⟩
          · simp at hnil
          · by_cases hneg : task.committedIndex < 0
            · obtain ⟨other, hother, hindex, hin⟩ :=
                h.withCommit task (mem_committedBefore htask) hneg i hi
              exact ⟨other, List.mem_filter.mpr
                ⟨mem_committedBefore_end (by omega) hother, by simpa using hindex⟩, hin⟩
            · exact ⟨task, List.mem_filter.mpr ⟨htask, by simpa using hneg⟩, hi⟩
        · rintro ⟨task, htask, hi⟩
          have hmem := mem_committedBefore (List.mem_filter.mp htask).1
          obtain ⟨call, hcall, hin⟩ := passed_of_listsAtEnd h hmem hi
          exact ⟨call, mem_committedBefore_end (by rw [otherTasks_run]; omega) hcall, hin⟩
    · intro k
      exact largestIndex_run k batch

/-- Index 3 is committed out of order in front of a stop of the leader. -/
theorem leaderStop_not_lossless :
    ¬ Lossless [.committed ⟨1, [3]⟩, .other (.leaderStop 0)] := by
  intro h
  obtain ⟨call, hcall, hi⟩ := h.passed ⟨1, [3]⟩ (by decide) 3 (by decide)
  have hrun : run [.committed ⟨1, [3]⟩, .other (.leaderStop 0)] =
      [.committed ⟨1, []⟩, .other (.leaderStop 0)] := by decide
  rw [hrun] at hcall
  simp only [List.mem_cons, ApplyTask.committed.injEq, reduceCtorEq, List.not_mem_nil,
    or_false] at hcall
  subst hcall
  simp at hi

end HitConsistency.Commit.TaskBatches
