/- GID: HitConsistency/Commit/ApplyOrder
   digest: Entries reach the state machine behind their conflicts when their quorums come in order. -/

import HitConsistency.Base.SuppliedOrder
import HitConsistency.Commit.ApplyPipeline

set_option autoImplicit false
set_option relaxedAutoImplicit false

/-!
Nothing between the ballots and the state machine looks at dependency masks. What
is left to keep conflicting entries in order is the order of the quorums and of the
`on_committed` calls. The invariant follows a granted index from its report to the
execution queue and says which earlier indexes each list can rely on.
-/

namespace HitConsistency.Commit.ApplyOrder

open HitConsistency.Base.GuardedRuns
open HitConsistency.Base.IndexedDeque
open HitConsistency.Base.SuppliedOrder
open HitConsistency.Group.Peers
open HitConsistency.Commit.PendingQueues
open HitConsistency.Commit.QuorumLedger
open HitConsistency.Commit.ApplyPipeline
open HitConsistency.Replication.PeerSender (mem_indexRange indexRange_ascending)
open HitConsistency.Replication.PeerSender.Replicator (indexRange)
open Replication.DependencyMask (checkDependency scanQueue shorten)

def HandedOut (q : ClosureQueue) (i : Int) : Prop :=
  i < q.firstIndex ∨ item q.hasCommittedQueue (i - q.firstIndex) = some true

/-- Both deques cover the indexes from the first one up to the bound. -/
structure Spans (q : ClosureQueue) (bound : Int) : Prop where
  flags : q.firstIndex + q.hasCommittedQueue.length = bound
  queue : q.queue.length = q.hasCommittedQueue.length

section Closures

variable {q : ClosureQueue} {bound : Int}

theorem spans_append (h : Spans q bound) (closure : Option Nat) :
    Spans (q.appendPendingClosure closure) (bound + 1) := by
  obtain ⟨hflags, hqueue⟩ := h
  constructor
  · simp only [ClosureQueue.appendPendingClosure, List.length_append, List.length_singleton]
    omega
  · simp [ClosureQueue.appendPendingClosure, hqueue]

theorem handedOut_append (q : ClosureQueue) (closure : Option Nat) (i : Int) :
    HandedOut (q.appendPendingClosure closure) i ↔ HandedOut q i := by
  show i < q.firstIndex ∨ item (q.hasCommittedQueue ++ [false]) (i - q.firstIndex) = some true ↔ _
  rw [item_push]
  split
  · rename_i hnew
    have hout : item q.hasCommittedQueue (i - q.firstIndex) = none := item_none_of_le (by omega)
    simp [HandedOut, hout]
  · rfl

theorem not_handedOut_bounds (h : Spans q bound) {i : Int} (hi : i < bound)
    (hnot : ¬ HandedOut q i) :
    q.firstIndex ≤ i ∧ item q.hasCommittedQueue (i - q.firstIndex) = some false := by
  have hlo : q.firstIndex ≤ i := by
    by_contra hlt
    exact hnot (.inl (by omega))
  obtain ⟨f, hf⟩ := exists_item (q := q.hasCommittedQueue) (d := i - q.firstIndex)
    (by omega) (by have := h.flags; omega)
  refine ⟨hlo, ?_⟩
  cases f with
  | false => exact hf
  | true => exact absurd (.inr hf) hnot

/-- From one state of the first loop to a later one: the indexes `xs` were visited, and
`fresh` were handed out by it. -/
structure Hands (bound : Int) (before after : Popped) (xs fresh : List Int) : Prop where
  spans : Spans after.queue bound
  firstIndex : after.queue.firstIndex = before.queue.firstIndex
  outIndexes : after.outIndexes = before.outIndexes ++ fresh
  out : after.out.length = before.out.length + fresh.length
  handedOut : ∀ i, HandedOut after.queue i ↔ HandedOut before.queue i ∨ i ∈ xs
  fresh : ∀ i, i ∈ fresh ↔ i ∈ xs ∧ ¬ HandedOut before.queue i

theorem Hands.trans {before mid after : Popped} {xs ys fresh more : List Int}
    (h : Hands bound before mid xs fresh) (h' : Hands bound mid after ys more) :
    Hands bound before after (xs ++ ys) (fresh ++ more) := by
  refine ⟨h'.spans, h'.firstIndex.trans h.firstIndex, ?_, ?_, fun i => ?_, fun i => ?_⟩
  · rw [h'.outIndexes, h.outIndexes, List.append_assoc]
  · rw [h'.out, h.out, List.length_append, Nat.add_assoc]
  · rw [h'.handedOut, h.handedOut, List.mem_append, or_assoc]
  · rw [List.mem_append, List.mem_append, h.fresh, h'.fresh, h.handedOut]
    by_cases hx : i ∈ xs <;> simp [hx]

theorem popOne_hands {popped : Popped} (h : Spans popped.queue bound) {x : Int}
    (hlo : popped.queue.firstIndex ≤ x) (hhi : x < bound) :
    ∃ popped' fresh, ClosureQueue.popOne popped x = some popped' ∧
      Hands bound popped popped' [x] fresh ∧
      (HandedOut popped.queue x ∧ fresh = [] ∨ fresh = [x]) := by
  obtain ⟨hflags, hqueue⟩ := h
  obtain ⟨f, hf⟩ := exists_item (q := popped.queue.hasCommittedQueue)
    (d := x - popped.queue.firstIndex) (by omega) (by omega)
  cases f with
  | true =>
    have hout : HandedOut popped.queue x := .inr hf
    refine ⟨popped, [], by simp [ClosureQueue.popOne, hf], ?_, .inl ⟨hout, rfl⟩⟩
    refine ⟨⟨hflags, hqueue⟩, rfl, by simp, rfl, fun i => ?_, fun i => ?_⟩
    · rw [List.mem_singleton]
      constructor
      · exact .inl
      · rintro (hi | rfl)
        · exact hi
        · exact hout
    · rw [List.mem_singleton]
      constructor
      · intro hi
        cases hi
      · rintro ⟨rfl, hnot⟩
        exact absurd hout hnot
  | false =>
    obtain ⟨closure, hclosure⟩ := exists_item (q := popped.queue.queue)
      (d := x - popped.queue.firstIndex) (by omega) (by omega)
    obtain ⟨flags, hstore⟩ : ∃ flags, store popped.queue.hasCommittedQueue
        (x - popped.queue.firstIndex) true = some flags :=
      ⟨_, store_defined _ (by omega) (by omega)⟩
    have hlen := store_length hstore
    have hnot : ¬ HandedOut popped.queue x := by
      rintro (hlt | hset)
      · omega
      · rw [hf] at hset
        cases hset
    refine ⟨⟨{ popped.queue with hasCommittedQueue := flags }, popped.out ++ [closure],
      popped.outIndexes ++ [x]⟩, [x], by simp [ClosureQueue.popOne, hf, hclosure, hstore], ?_,
      .inr rfl⟩
    refine ⟨⟨?_, hqueue.trans hlen.symm⟩, rfl, rfl, by simp, fun i => ?_, fun i => ?_⟩
    · show popped.queue.firstIndex + (flags.length : Int) = bound
      rw [hlen]
      exact hflags
    · show i < popped.queue.firstIndex ∨ item flags (i - popped.queue.firstIndex) = _ ↔ _
      rw [item_store hstore, List.mem_singleton]
      by_cases hix : i = x
      · simp [hix]
      · rw [if_neg (by omega)]
        simp [HandedOut, hix]
    · rw [List.mem_singleton]
      constructor
      · rintro rfl
        exact ⟨rfl, hnot⟩
      · exact And.left

/-- The first loop is defined on indexes within the queue, and behind a supplied
sequence that has everything handed out it continues this sequence. -/
theorem popLoop (xs : List Int) (popped : Popped) (h : Spans popped.queue bound)
    (hrange : ∀ i ∈ xs, popped.queue.firstIndex ≤ i ∧ i < bound) :
    ∃ popped' fresh, runEvents ClosureQueue.popOne popped xs = some popped' ∧
      Hands bound popped popped' xs fresh ∧
      ∀ (dep : Int → Int → Prop) (done : List Int),
        (∀ i ∈ xs, HandedOut popped.queue i → i ∈ done) → Supplied dep (fun _ => False) done →
        Supplied dep (· ∈ done) xs → Supplied dep (fun _ => False) (done ++ fresh) := by
  induction xs generalizing popped with
  | nil =>
    refine ⟨popped, [], rfl, ⟨h, rfl, by simp, rfl, by simp, by simp⟩, ?_⟩
    intro dep done _ hdone _
    simpa using hdone
  | cons x xs ih =>
    obtain ⟨hlo, hhi⟩ := hrange x (by simp)
    obtain ⟨mid, one, hstep, hone, hcase⟩ := popOne_hands h hlo hhi
    obtain ⟨popped', fresh, hrun, hrest, hsup⟩ := ih mid hone.spans fun i hi => by
      rw [hone.firstIndex]
      exact hrange i (by simp [hi])
    refine ⟨popped', one ++ fresh, runEvents_cons_eq_some.mpr ⟨mid, hstep, hrun⟩,
      hone.trans hrest, ?_⟩
    intro dep done hcovers hdone hxs
    obtain ⟨hx, hbehind⟩ := supplied_cons.mp hxs
    have hmem : x ∈ done ++ one := by
      rcases hcase with ⟨hout, -⟩ | rfl
      · exact List.mem_append_left _ (hcovers x (by simp) hout)
      · simp
    have hdone' : Supplied dep (fun _ => False) (done ++ one) := by
      rcases hcase with ⟨-, rfl⟩ | rfl
      · simpa using hdone
      · exact supplied_of_known hdone (supplied_cons.mpr ⟨hx, supplied_nil⟩)
    rw [← List.append_assoc]
    apply hsup dep (done ++ one) _ hdone'
    · refine hbehind.mono ?_
      rintro y (hy | rfl)
      · exact List.mem_append_left _ hy
      · exact hmem
    · intro i hi hout
      rcases (hone.handedOut i).mp hout with hold | hnew
      · exact List.mem_append_left _ (hcovers i (by simp [hi]) hold)
      · cases List.mem_singleton.mp hnew
        exact hmem

theorem popFront_spans (first : Int) (queue : List (Option Nat)) (flags : List Bool)
    (h : Spans ⟨first, queue, flags⟩ bound) :
    ∃ q', ClosureQueue.popFront first queue flags = some q' ∧ Spans q' bound ∧
      first ≤ q'.firstIndex ∧ ∀ i, HandedOut q' i ↔ HandedOut ⟨first, queue, flags⟩ i := by
  induction flags generalizing first queue with
  | nil =>
    have : ClosureQueue.popFront first queue [] = some ⟨first, queue, []⟩ := by
      cases queue <;> rfl
    exact ⟨_, this, h, le_rfl, fun _ => Iff.rfl⟩
  | cons f flags ih =>
    cases f with
    | false =>
      have : ClosureQueue.popFront first queue (false :: flags) =
          some ⟨first, queue, false :: flags⟩ := by
        cases queue <;> rfl
      exact ⟨_, this, h, le_rfl, fun _ => Iff.rfl⟩
    | true =>
      obtain ⟨hflags, hqueue⟩ := h
      cases queue with
      | nil => simp at hqueue
      | cons closure queue =>
        have hrest : Spans ⟨first + 1, queue, flags⟩ bound := by
          constructor
          · simp only [List.length_cons] at hflags ⊢
            omega
          · simpa using hqueue
        obtain ⟨q', hpop, hspans, hle, hsame⟩ := ih (first + 1) queue hrest
        refine ⟨q', hpop, hspans, by omega, fun i => ?_⟩
        rw [hsame i]
        show i < first + 1 ∨ item flags (i - (first + 1)) = some true ↔
          i < first ∨ item (true :: flags) (i - first) = some true
        rcases lt_trichotomy i first with hlt | rfl | hgt
        · simp [hlt, show i < first + 1 by omega]
        · simp [item_cons_zero]
        · rw [item_cons_pos true flags (by omega), show i - first - 1 = i - (first + 1) by omega]
          have h1 : ¬ i < first := by omega
          have h2 : ¬ i < first + 1 := by omega
          simp [h1, h2]

end Closures

/-- The index is applied no later than the task is processed. -/
def Covers (task : Committed) (i : Int) : Prop :=
  i ≤ task.committedIndex ∨ i ∈ task.ooCommittedEntries

/-- Every index that a task lists out of order finds what it depends on known, covered
by an earlier task, or covered by the same one. -/
def Backed (dep : Int → Int → Prop) : (Int → Prop) → List Committed → Prop
  | _, [] => True
  | known, task :: tasks =>
      (∀ i ∈ task.ooCommittedEntries, ∀ j, dep i j → known j ∨ Covers task j) ∧
        Backed dep (fun j => known j ∨ Covers task j) tasks

section BackedLaws

variable {dep : Int → Int → Prop} {known : Int → Prop} {tasks more : List Committed}

theorem Backed.mono {known' : Int → Prop} (h : Backed dep known tasks)
    (himp : ∀ i j, dep i j → known j → known' j) : Backed dep known' tasks := by
  induction tasks generalizing known known' with
  | nil => trivial
  | cons task tasks ih =>
    obtain ⟨hhead, htail⟩ := h
    refine ⟨fun i hi j hj => (hhead i hi j hj).imp_left (himp i j hj), ?_⟩
    exact ih htail fun i j hj => Or.imp_left (himp i j hj)

theorem Backed.congr {dep' : Int → Int → Prop} (h : Backed dep known tasks)
    (himp : ∀ task ∈ tasks, ∀ i ∈ task.ooCommittedEntries, ∀ j, dep' i j → dep i j) :
    Backed dep' known tasks := by
  induction tasks generalizing known with
  | nil => trivial
  | cons task tasks ih =>
    obtain ⟨hhead, htail⟩ := h
    refine ⟨fun i hi j hj => hhead i hi j (himp task (by simp) i hi j hj), ?_⟩
    exact ih htail fun task' htask' => himp task' (by simp [htask'])

private theorem backed_append :
    Backed dep known (tasks ++ more) ↔ Backed dep known tasks ∧
      Backed dep (fun j => known j ∨ ∃ task ∈ tasks, Covers task j) more := by
  induction tasks generalizing known with
  | nil => simp [Backed]
  | cons task tasks ih =>
    rw [List.cons_append, Backed, Backed, ih, and_assoc]
    simp only [List.exists_mem_cons_iff, or_assoc]

private theorem Backed.absorb {m : Int} (h : Backed dep (fun j => known j ∨ j ≤ m) tasks)
    (hle : ∀ task ∈ tasks, m ≤ task.committedIndex) : Backed dep known tasks := by
  induction tasks generalizing known with
  | nil => trivial
  | cons task tasks ih =>
    obtain ⟨hhead, htail⟩ := h
    have hm := hle task (by simp)
    have low : ∀ j, j ≤ m → Covers task j := fun j hj => .inl (hj.trans hm)
    constructor
    · intro i hi j hj
      rcases hhead i hi j hj with (hk | hlow) | hc
      · exact .inl hk
      · exact .inr (low j hlow)
      · exact .inr hc
    · refine ih (htail.mono ?_) fun task' htask' => hle task' (by simp [htask'])
      rintro - j - ((hk | hlow) | hc)
      · exact .inl (.inl hk)
      · exact .inr hlow
      · exact .inl (.inr hc)

theorem Backed.replace {task task' : Committed} (h : Backed dep known (task :: tasks))
    (hlists : ∀ i ∈ task'.ooCommittedEntries, i ∈ task.ooCommittedEntries)
    (hcovers : ∀ j, Covers task j → Covers task' j) : Backed dep known (task' :: tasks) := by
  obtain ⟨hhead, htail⟩ := h
  constructor
  · intro i hi j hj
    exact (hhead i (hlists i hi) j hj).imp_right (hcovers j)
  · exact htail.mono fun _ j _ => Or.imp_right (hcovers j)

theorem Backed.raise {c c' : Int} (hle : c ≤ c') {reports : List (List Int)}
    (h : Backed dep known (reports.map (Committed.mk c))) :
    Backed dep known (reports.map (Committed.mk c')) := by
  induction reports generalizing known with
  | nil => trivial
  | cons report reports ih =>
    have hcovers : ∀ j, Covers ⟨c, report⟩ j → Covers ⟨c', report⟩ j :=
      fun j => Or.imp_left fun hj => hj.trans hle
    have hraised : Backed dep known (⟨c', report⟩ :: reports.map (Committed.mk c)) :=
      Backed.replace h (fun i hi => hi) hcovers
    exact ⟨hraised.1, ih hraised.2⟩

/-- The lists of a batch, one behind the other, are supplied once everything up to the
batch's committed index is known. -/
theorem Backed.supplied {m : Int} {known' : Int → Prop} (h : Backed dep known tasks)
    (hle : ∀ task ∈ tasks, task.committedIndex ≤ m)
    (hasc : ∀ task ∈ tasks, task.ooCommittedEntries.Pairwise (· < ·))
    (hlt : ∀ task ∈ tasks, ∀ i ∈ task.ooCommittedEntries, ∀ j, dep i j → j < i)
    (hknown : ∀ i j, dep i j → known j ∨ j ≤ m → known' j) :
    Supplied dep known' (tasks.flatMap Committed.ooCommittedEntries) := by
  induction tasks generalizing known known' with
  | nil => exact supplied_nil
  | cons task tasks ih =>
    obtain ⟨hhead, htail⟩ := h
    have hm := hle task (by simp)
    rw [List.flatMap_cons]
    refine supplied_append.mpr ⟨?_, ?_⟩
    · intro pre i post hsplit j hj
      have hi : i ∈ task.ooCommittedEntries := by simp [hsplit]
      rcases hhead i hi j hj with hk | hlow | hmem
      · exact .inl (hknown i j hj (.inl hk))
      · exact .inl (hknown i j hj (.inr (hlow.trans hm)))
      · -- The list is ascending, so a smaller index of it stands before.
        have hji := hlt task (by simp) i hi j hj
        have hsorted := hasc task (by simp)
        rw [hsplit] at hmem hsorted
        rcases List.mem_append.mp hmem with hpre | hpost
        · exact .inr hpre
        · have hbehind := (List.pairwise_append.mp hsorted).2.1
          rcases List.mem_cons.mp hpost with rfl | hpost
          · omega
          · have := (List.pairwise_cons.mp hbehind).1 j hpost
            omega
    · refine ih htail (fun t ht => hle t (by simp [ht])) (fun t ht => hasc t (by simp [ht]))
        (fun t ht => hlt t (by simp [ht])) ?_
      rintro i j hj ((hk | hlow | hmem) | hjm)
      · exact .inl (hknown i j hj (.inl hk))
      · exact .inl (hknown i j hj (.inr (hlow.trans hm)))
      · exact .inr hmem
      · exact .inl (hknown i j hj (.inr hjm))

end BackedLaws

/-- Lists on their way to the state machine: granted, ascending, without repetition,
and not handed out beyond the committed index they travel with. -/
structure Queued (L : Ledger) (q : ClosureQueue) (committed : Int) (tasks : List Committed) :
    Prop where
  sorted : tasks.Pairwise fun task later => task.committedIndex ≤ later.committedIndex
  latest : ∀ task ∈ tasks, L.first - 1 ≤ task.committedIndex ∧ task.committedIndex ≤ committed
  reached : ∀ task ∈ tasks, ∀ i ∈ task.ooCommittedEntries, L.Reached i
  ascending : ∀ task ∈ tasks, task.ooCommittedEntries.Pairwise (· < ·)
  distinct : (tasks.flatMap Committed.ooCommittedEntries).Nodup
  waiting : ∀ task ∈ tasks, ∀ i ∈ task.ooCommittedEntries, task.committedIndex < i →
    ¬ HandedOut q i

/-- The lists between the ballots and the state machine, oldest first. A report that is
not loaded yet will carry at least today's committed index. -/
def schedule (s : Pipeline) : List Committed :=
  s.tasks ++ s.calls ++ s.reports.map (Committed.mk s.box.lastCommittedIndex)

structure Inv (s : Pipeline) : Prop where
  tracks : Tracks s.ledger s.box
  positive : 0 < s.ledger.first
  bound : s.ledger.bound = s.log.length + 1
  committed : s.box.lastCommittedIndex = s.box.pendingIndex - 1
  backwards : ∀ i j, s.ledger.first ≤ i → Depends s.log i j → j < i
  spans : Spans s.closures s.ledger.bound
  firstIndex : s.ledger.first ≤ s.closures.firstIndex
  granted : ∀ i, s.ledger.first ≤ i → HandedOut s.closures i → s.ledger.Reached i
  queued : Queued s.ledger s.closures s.box.lastCommittedIndex (schedule s)
  above : ∀ task ∈ s.tasks, ∀ i ∈ task.ooCommittedEntries, task.committedIndex < i
  lastApplied : s.ledger.first ≤ s.lastAppliedIndex + 1
  within : ∀ i ∈ s.applied, i ≤ s.log.length
  ordered : Supplied (Depends s.log) (fun _ => False) s.applied
  handed : s.error = false → ∀ i, 1 ≤ i → HandedOut s.closures i → i ∈ s.applied
  backed : s.error = false → Backed (Depends s.log) (· ∈ s.applied) (schedule s)
  complete : s.error = false → ∀ j, s.ledger.Reached j → j ≤ s.box.lastCommittedIndex ∨
    j ∈ s.applied ∨ ∃ task ∈ schedule s, j ∈ task.ooCommittedEntries

private theorem depends_bounds {log : List TaskEntry} {i j : Int} (h : Depends log i j) :
    i ≤ log.length ∧ 1 ≤ j := by
  obtain ⟨k, rfl, entry, hentry, other, hother, -⟩ := h
  have hi := item_eq_some_bounds hentry
  have hj := item_eq_some_bounds hother
  omega

private theorem depends_push {log : List TaskEntry} {entry : TaskEntry} {i j : Int}
    (hi : i ≤ log.length) (h : Depends (log ++ [entry]) i j) : Depends log i j := by
  obtain ⟨k, rfl, hconf⟩ := h
  refine ⟨k, rfl, ?_⟩
  unfold Conflicts at hconf
  rw [item_push, item_push, if_neg (by omega), if_neg (by omega)] at hconf
  exact hconf

theorem inv_apply (currentTerm : Int) (lookBack : Nat) {s : Pipeline} (h : Inv s)
    (task : Replication.DependencyMask.Task) (done : Option Nat) (ballot : QuorumLedger.Task) :
    Inv (s.appendTask currentTerm lookBack task done ballot) := by
  unfold Pipeline.appendTask
  split
  · exact h
  · have hreach := reached_append ballot (h.tracks.fresh s.ledger.bound le_rfl)
    have hout := handedOut_append s.closures done
    have hbound : (s.ledger.append ballot).bound = s.ledger.bound + 1 := by
      simp [Ledger.bound, Ledger.append]
      omega
    have hold : ∀ i, s.ledger.Reached i → i ≤ s.log.length := fun i hi => by
      have hb := reached_bounds hi
      have := h.bound
      omega
    refine
      { tracks := tracks_append h.tracks ballot
        positive := h.positive
        bound := by
          rw [hbound, h.bound]
          simp
        committed := h.committed
        backwards := ?_
        spans := by
          rw [hbound]
          exact spans_append h.spans done
        firstIndex := h.firstIndex
        granted := fun i hi hc => (hreach i).mpr (h.granted i hi ((hout i).mp hc))
        queued :=
          { h.queued with
            reached := fun t ht i hi => (hreach i).mpr (h.queued.reached t ht i hi)
            waiting := fun t ht i hi hlt hc => h.queued.waiting t ht i hi hlt ((hout i).mp hc) }
        above := h.above
        lastApplied := h.lastApplied
        within := ?_
        ordered := h.ordered.congr fun i hi j hj => depends_push (h.within i hi) hj
        handed := fun hok i hi hc => h.handed hok i hi ((hout i).mp hc)
        backed := fun hok => (h.backed hok).congr fun t ht i hi j hj =>
          depends_push (hold i (h.queued.reached t ht i hi)) hj
        complete := fun hok j hj => h.complete hok j ((hreach j).mp hj) }
    · intro i j hfirst hdep
      by_cases hi : i ≤ s.log.length
      · exact h.backwards i j hfirst (depends_push hi hdep)
      · -- The new entry: bit 0 of its mask is never set.
        have hlen := (depends_bounds hdep).1
        obtain ⟨k, rfl, entry, hentry, -, -, hbit, -⟩ := hdep
        have hk : k ≠ 0 := by
          rintro rfl
          simp only [List.length_append, List.length_singleton] at hlen
          rw [item_push, if_pos (by push_cast at hlen; omega)] at hentry
          cases hentry
          rw [Replication.DependencyMask.checkDependency_bit_zero] at hbit
          cases hbit
        omega
    · intro i hi
      have := h.within i hi
      simp only [List.length_append, List.length_singleton]
      push_cast
      omega

section QueuedLaws

variable {L : Ledger} {q : ClosureQueue} {c c' : Int}

theorem Queued.imp {L' : Ledger} {tasks : List Committed} (h : Queued L q c tasks)
    (hfirst : L'.first = L.first) (himp : ∀ i, L.Reached i → L'.Reached i) :
    Queued L' q c tasks :=
  { h with
    latest := hfirst ▸ h.latest
    reached := fun task htask i hi => himp i (h.reached task htask i hi) }

theorem Queued.raise {settled : List Committed} {reports : List (List Int)}
    (h : Queued L q c (settled ++ reports.map (Committed.mk c))) (hle : c ≤ c') :
    Queued L q c' (settled ++ reports.map (Committed.mk c')) := by
  -- A task of the raised list has its old self behind it, with the same indexes.
  have old : ∀ task ∈ settled ++ reports.map (Committed.mk c'),
      ∃ task' ∈ settled ++ reports.map (Committed.mk c),
        task'.ooCommittedEntries = task.ooCommittedEntries ∧
        task'.committedIndex ≤ task.committedIndex ∧ task.committedIndex ≤ c' := by
    intro task htask
    rcases List.mem_append.mp htask with hmem | hmem
    · have := (h.latest task (List.mem_append_left _ hmem)).2
      exact ⟨task, List.mem_append_left _ hmem, rfl, le_rfl, this.trans hle⟩
    · obtain ⟨report, hreport, rfl⟩ := List.mem_map.mp hmem
      exact ⟨⟨c, report⟩, List.mem_append_right _ (List.mem_map_of_mem hreport), rfl, hle, le_rfl⟩
  have lists : ∀ b, (reports.map (Committed.mk b)).flatMap Committed.ooCommittedEntries =
      reports.flatten := by
    intro b
    rw [List.flatMap_map]
    exact List.flatMap_id'
  obtain ⟨hsorted, hlatest, hreached, hasc, hdistinct, hwaiting⟩ := h
  refine ⟨?_, ?_, ?_, ?_, ?_, ?_⟩
  · refine List.pairwise_append.mpr ⟨(List.pairwise_append.mp hsorted).1, ?_, ?_⟩
    · exact List.pairwise_map.mpr (List.pairwise_of_forall fun _ _ => le_rfl)
    · intro task htask later hlater
      obtain ⟨report, -, rfl⟩ := List.mem_map.mp hlater
      exact (hlatest task (List.mem_append_left _ htask)).2.trans hle
  · intro task htask
    obtain ⟨task', htask', -, hindex, hc⟩ := old task htask
    exact ⟨(hlatest task' htask').1.trans hindex, hc⟩
  · intro task htask i hi
    obtain ⟨task', htask', hlist, -⟩ := old task htask
    exact hreached task' htask' i (hlist ▸ hi)
  · intro task htask
    obtain ⟨task', htask', hlist, -⟩ := old task htask
    exact hlist ▸ hasc task' htask'
  · rw [List.flatMap_append, lists] at hdistinct ⊢
    exact hdistinct
  · intro task htask i hi hlt
    obtain ⟨task', htask', hlist, hindex, -⟩ := old task htask
    exact hwaiting task' htask' i (hlist ▸ hi) (hindex.trans_lt hlt)

theorem Queued.push {tasks : List Committed} (h : Queued L q c tasks) (hc : L.first - 1 ≤ c)
    {report : List Int} (hreached : ∀ i ∈ report, L.Reached i)
    (hasc : report.Pairwise (· < ·))
    (hnew : ∀ task ∈ tasks, ∀ i ∈ task.ooCommittedEntries, i ∉ report)
    (hwaiting : ∀ i ∈ report, ¬ HandedOut q i) :
    Queued L q c (tasks ++ [⟨c, report⟩]) := by
  have every : ∀ {P : Committed → Prop}, (∀ task ∈ tasks, P task) → P ⟨c, report⟩ →
      ∀ task ∈ tasks ++ [⟨c, report⟩], P task := by
    intro P hold hlast task htask
    rcases List.mem_append.mp htask with hmem | hmem
    · exact hold task hmem
    · cases List.mem_singleton.mp hmem
      exact hlast
  refine ⟨?_, every h.latest ⟨hc, le_rfl⟩, every h.reached hreached, every h.ascending hasc, ?_,
    every h.waiting fun i hi _ => hwaiting i hi⟩
  · refine List.pairwise_append.mpr ⟨h.sorted, List.pairwise_singleton _ _, ?_⟩
    intro task htask later hlater
    cases List.mem_singleton.mp hlater
    exact (h.latest task htask).2
  · rw [List.flatMap_append, List.flatMap_singleton]
    refine List.nodup_append.mpr ⟨h.distinct, hasc.imp ne_of_lt, ?_⟩
    rintro i hi j hj rfl
    obtain ⟨task, htask, hmem⟩ := List.mem_flatMap.mp hi
    exact hnew task htask i hmem hj

private theorem Queued.shrink {before behind : List Committed} {task task' : Committed}
    (h : Queued L q c (before ++ task :: behind))
    (hindex : task'.committedIndex = task.committedIndex)
    (hlist : task'.ooCommittedEntries.Sublist task.ooCommittedEntries) :
    Queued L q c (before ++ task' :: behind) := by
  have old : ∀ t ∈ before ++ task' :: behind, ∃ t' ∈ before ++ task :: behind,
      t'.committedIndex = t.committedIndex ∧
        t.ooCommittedEntries.Sublist t'.ooCommittedEntries := by
    intro t ht
    rcases List.mem_append.mp ht with hmem | hmem
    · exact ⟨t, List.mem_append_left _ hmem, rfl, List.Sublist.refl _⟩
    · rcases List.mem_cons.mp hmem with rfl | hmem
      · exact ⟨task, by simp, hindex.symm, hlist⟩
      · exact ⟨t, by simp [hmem], rfl, List.Sublist.refl _⟩
  obtain ⟨hsorted, hlatest, hreached, hasc, hdistinct, hwaiting⟩ := h
  refine ⟨?_, ?_, ?_, ?_, ?_, ?_⟩
  · rw [List.pairwise_append, List.pairwise_cons] at hsorted ⊢
    simpa only [List.forall_mem_cons, hindex] using hsorted
  · intro t ht
    obtain ⟨t', ht', heq, -⟩ := old t ht
    exact heq ▸ hlatest t' ht'
  · intro t ht i hi
    obtain ⟨t', ht', -, hsub⟩ := old t ht
    exact hreached t' ht' i (hsub.subset hi)
  · intro t ht
    obtain ⟨t', ht', -, hsub⟩ := old t ht
    exact (hasc t' ht').sublist hsub
  · refine hdistinct.sublist ?_
    rw [List.flatMap_append, List.flatMap_append, List.flatMap_cons, List.flatMap_cons]
    exact (List.Sublist.refl _).append (hlist.append (List.Sublist.refl _))
  · intro t ht i hi hlt
    obtain ⟨t', ht', heq, hsub⟩ := old t ht
    exact hwaiting t' ht' i (hsub.subset hi) (heq ▸ hlt)

theorem Queued.drop {q' : ClosureQueue} {batch tasks : List Committed} {m : Int}
    (h : Queued L q c (batch ++ tasks)) (hm : ∀ task ∈ tasks, m ≤ task.committedIndex)
    (hout : ∀ i, HandedOut q' i → HandedOut q i ∨ i ≤ m ∨
      i ∈ batch.flatMap Committed.ooCommittedEntries) : Queued L q' c tasks := by
  obtain ⟨hsorted, hlatest, hreached, hasc, hdistinct, hwaiting⟩ := h
  have later : ∀ {task}, task ∈ tasks → task ∈ batch ++ tasks := List.mem_append_right _
  rw [List.flatMap_append, List.nodup_append] at hdistinct
  refine ⟨(List.pairwise_append.mp hsorted).2.1, fun t ht => hlatest t (later ht),
    fun t ht => hreached t (later ht), fun t ht => hasc t (later ht), hdistinct.2.1, ?_⟩
  intro t ht i hi hlt hc
  rcases hout i hc with hold | hlow | hbatch
  · exact hwaiting t (later ht) i hi hlt hold
  · have := hm t ht
    omega
  · exact hdistinct.2.2 i hbatch i (List.mem_flatMap.mpr ⟨t, ht, hi⟩) rfl

end QueuedLaws

/-- The quorums of an acknowledgement come in order: an index it completes finds the
quorum of every entry it depends on complete as well, unless the entry is older
than the leadership. -/
def InOrder (s : Pipeline) (ack : Acknowledgement) : Prop :=
  ∀ i ∈ ack.indexes, ¬ s.ledger.Reached i → (s.ledger.commit ack.indexes ack.peer).Reached i →
    ∀ k < 64, Conflicts s.log i k → i - k < s.ledger.first ∨
      (s.ledger.commit ack.indexes ack.peer).Reached (i - k)

instance inOrderDecidable (s : Pipeline) (ack : Acknowledgement) : Decidable (InOrder s ack) :=
  inferInstanceAs (Decidable (∀ i ∈ ack.indexes, _))

theorem commit_first (L : Ledger) (indexes : List Int) (peer : PeerId) :
    (L.commit indexes peer).first = L.first := by
  unfold Ledger.commit
  split
  · exact voteAll_first L peer indexes
  · rfl

theorem commit_bound (L : Ledger) (indexes : List Int) (peer : PeerId) :
    (L.commit indexes peer).bound = L.bound := by
  unfold Ledger.commit
  split
  · exact voteAll_bound L peer indexes
  · rfl

theorem commitAt_committed {box : BallotBox} {indexes : List Int} {peer : PeerId} {r : Outcome}
    (h : box.commitAt indexes peer = some r)
    (hbox : box.lastCommittedIndex = box.pendingIndex - 1) :
    r.box.lastCommittedIndex = r.box.pendingIndex - 1 ∧
      box.lastCommittedIndex ≤ r.box.lastCommittedIndex := by
  obtain ⟨k, -, -, hpending, hlast⟩ := commitAt_shift h
  omega

/-- The schedule when the committed index has grown and one more report may have come. -/
def scheduleBehind (s : Pipeline) (committed : Int) (more : List (List Int)) : List Committed :=
  s.tasks ++ s.calls ++ s.reports.map (Committed.mk committed) ++ more.map (Committed.mk committed)

section Commit

variable {s : Pipeline} (h : Inv s) {ack : Acknowledgement} {outcome : Outcome}
  (hrun : s.box.commitAt ack.indexes ack.peer = some outcome)
  (hreport : ∀ i, i ∈ reported outcome ↔
    ¬ s.ledger.Reached i ∧ (s.ledger.commit ack.indexes ack.peer).Reached i)
include h hrun hreport

private theorem queued_commit :
    Queued (s.ledger.commit ack.indexes ack.peer) s.closures outcome.box.lastCommittedIndex
      (scheduleBehind s outcome.box.lastCommittedIndex
        (outcome.onCommitted.map Committed.ooCommittedEntries).toList) := by
  obtain ⟨hcommitted, hle⟩ := commitAt_committed hrun h.committed
  have hmono : ∀ i, s.ledger.Reached i → (s.ledger.commit ack.indexes ack.peer).Reached i :=
    fun i => reached_commit_mono
  have hfirst := commit_first s.ledger ack.indexes ack.peer
  have hraised := (h.queued.imp hfirst hmono).raise hle
  unfold scheduleBehind
  cases hcase : outcome.onCommitted with
  | none => simpa using hraised
  | some c =>
    have hc : ∀ i, i ∈ c.ooCommittedEntries ↔ ¬ s.ledger.Reached i ∧
        (s.ledger.commit ack.indexes ack.peer).Reached i := by
      intro i
      rw [← hreport i]
      simp [reported, hcase]
    have hlow : (s.ledger.commit ack.indexes ack.peer).first - 1 ≤
        outcome.box.lastCommittedIndex := by
      have := h.tracks.matching.first_le
      have := h.committed
      omega
    refine hraised.push hlow (fun i hi => ((hc i).mp hi).2)
      (ack.ascending.sublist (commitAt_sublist hrun c hcase)) ?_ ?_
    · intro task htask i hi hnew
      apply ((hc i).mp hnew).1
      rcases List.mem_append.mp htask with hsettled | hmem
      · exact h.queued.reached task (List.mem_append_left _ hsettled) i hi
      · obtain ⟨report, hin, rfl⟩ := List.mem_map.mp hmem
        exact h.queued.reached ⟨_, report⟩
          (List.mem_append_right _ (List.mem_map_of_mem hin)) i hi
    · intro i hi hout
      obtain ⟨hopen, hreached⟩ := (hc i).mp hi
      have hi' := (reached_bounds hreached).1
      exact hopen (h.granted i (hfirst ▸ hi') hout)

private theorem complete_commit (hok : s.error = false) (j : Int)
    (hj : (s.ledger.commit ack.indexes ack.peer).Reached j) :
    j ≤ outcome.box.lastCommittedIndex ∨ j ∈ s.applied ∨
      ∃ task ∈ scheduleBehind s outcome.box.lastCommittedIndex
        (outcome.onCommitted.map Committed.ooCommittedEntries).toList,
        j ∈ task.ooCommittedEntries := by
  obtain ⟨-, hle⟩ := commitAt_committed hrun h.committed
  unfold scheduleBehind
  by_cases hold : s.ledger.Reached j
  · rcases h.complete hok j hold with hlow | happlied | ⟨task, htask, hmem⟩
    · exact .inl (hlow.trans hle)
    · exact .inr (.inl happlied)
    · refine .inr (.inr ?_)
      rcases List.mem_append.mp htask with hsettled | hin
      · exact ⟨task, by simp only [List.mem_append] at hsettled ⊢; tauto, hmem⟩
      · obtain ⟨report, hreport, rfl⟩ := List.mem_map.mp hin
        exact ⟨⟨_, report⟩, List.mem_append_left _
          (List.mem_append_right _ (List.mem_map_of_mem hreport)), hmem⟩
  · have hnew := (hreport j).mpr ⟨hold, hj⟩
    cases hcase : outcome.onCommitted with
    | none => simp [reported, hcase] at hnew
    | some c =>
      refine .inr (.inr ⟨⟨outcome.box.lastCommittedIndex, c.ooCommittedEntries⟩, by simp, ?_⟩)
      simpa [reported, hcase] using hnew

private theorem backed_commit (hin : InOrder s ack) (hok : s.error = false) :
    Backed (Depends s.log) (· ∈ s.applied)
      (scheduleBehind s outcome.box.lastCommittedIndex
        (outcome.onCommitted.map Committed.ooCommittedEntries).toList) := by
  obtain ⟨-, hle⟩ := commitAt_committed hrun h.committed
  obtain ⟨hsettled, hreports⟩ := backed_append.mp (h.backed hok)
  have hraised := backed_append.mpr ⟨hsettled, hreports.raise hle⟩
  have hcomplete := complete_commit h hrun hreport hok
  unfold scheduleBehind at hcomplete ⊢
  cases hcase : outcome.onCommitted with
  | none => simpa using hraised
  | some c =>
    have hc : reported outcome = c.ooCommittedEntries := by simp [reported, hcase]
    refine backed_append.mpr ⟨hraised, ?_, trivial⟩
    rintro i hi j hdep
    obtain ⟨hopen, hreached⟩ := (hreport i).mp (hc ▸ hi)
    have hpos := (depends_bounds hdep).2
    obtain ⟨k, rfl, hconf⟩ := hdep
    have hk : k < 64 := by
      obtain ⟨entry, -, other, -, hbit, -⟩ := hconf
      exact BitVec.lt_of_getLsbD hbit
    rcases hin i ((commitAt_sublist hrun c hcase).subset hi) hopen hreached k hk hconf with
      hlow | hquorum
    · -- Older than the leadership, hence applied.
      have := h.firstIndex
      exact .inl (.inl (h.handed hok _ hpos (.inl (by omega))))
    · rcases hcomplete _ hquorum with hlow | happlied | ⟨task, htask, hmem⟩
      · exact .inr (.inl hlow)
      · exact .inl (.inl happlied)
      · rw [hcase] at htask
        rcases List.mem_append.mp htask with hraisedTask | hlast
        · exact .inl (.inr ⟨task, hraisedTask, .inr hmem⟩)
        · have : task = ⟨outcome.box.lastCommittedIndex, c.ooCommittedEntries⟩ := by
            simpa using hlast
          subst this
          exact .inr (.inr hmem)

end Commit

theorem inv_commit (currentTerm : Int) (lookBack : Nat) {s : Pipeline} (h : Inv s)
    {ack : Acknowledgement} (hin : InOrder s ack) :
    ∃ t, s.step currentTerm lookBack (.commitAt ack) = some t ∧ Inv t := by
  have hpos : 0 < s.box.pendingIndex := by
    have := h.positive
    have := h.tracks.matching.first_le
    omega
  obtain ⟨outcome, hrun, htracks, -, hreport, -⟩ :=
    tracks_commit h.tracks ack.peer hpos ack.ascending
  obtain ⟨hcommitted, -⟩ := commitAt_committed hrun h.committed
  have hfirst := commit_first s.ledger ack.indexes ack.peer
  have hbound := commit_bound s.ledger ack.indexes ack.peer
  have hschedule : ∀ t : Pipeline, t = { s with
      box := outcome.box
      ledger := s.ledger.commit ack.indexes ack.peer
      reports := s.reports ++ (outcome.onCommitted.map Committed.ooCommittedEntries).toList } →
      schedule t = scheduleBehind s outcome.box.lastCommittedIndex
        (outcome.onCommitted.map Committed.ooCommittedEntries).toList := by
    rintro t rfl
    simp [schedule, scheduleBehind]
  refine ⟨_, by rw [Pipeline.step, hrun]; rfl, ?_⟩
  exact
    { tracks := htracks
      positive := hfirst ▸ h.positive
      bound := hbound ▸ h.bound
      committed := hcommitted
      backwards := hfirst ▸ h.backwards
      spans := hbound ▸ h.spans
      firstIndex := hfirst ▸ h.firstIndex
      granted := fun i hi hout => reached_commit_mono (h.granted i (hfirst ▸ hi) hout)
      queued := by
        rw [hschedule _ rfl]
        exact queued_commit h hrun hreport
      above := h.above
      lastApplied := hfirst ▸ h.lastApplied
      within := h.within
      ordered := h.ordered
      handed := h.handed
      backed := fun hok => by
        rw [hschedule _ rfl]
        exact backed_commit h hrun hreport hin hok
      complete := fun hok => by
        rw [hschedule _ rfl]
        exact complete_commit h hrun hreport hok }

theorem inv_load {s : Pipeline} (h : Inv s) {report : List Int} {reports : List (List Int)}
    (hreports : s.reports = report :: reports) :
    Inv { s with
      reports := reports
      calls := s.calls ++ [⟨s.box.lastCommittedIndex, report⟩] } := by
  have hschedule : s.tasks ++ (s.calls ++ [⟨s.box.lastCommittedIndex, report⟩]) ++
      reports.map (Committed.mk s.box.lastCommittedIndex) = schedule s := by
    simp [schedule, hreports]
  exact
    { h with
      queued := by
        rw [schedule, hschedule]
        exact h.queued
      backed := fun hok => by
        rw [schedule, hschedule]
        exact h.backed hok
      complete := fun hok => by
        rw [schedule, hschedule]
        exact h.complete hok }

theorem dropWhile_above (c : Int) {indexes : List Int} (hasc : indexes.Pairwise (· < ·)) :
    ∀ i ∈ indexes.dropWhile (· ≤ c), c < i := by
  induction indexes with
  | nil => simp
  | cons x xs ih =>
    rw [List.pairwise_cons] at hasc
    rw [List.dropWhile_cons]
    split
    · exact ih hasc.2
    · rename_i hx
      have hx' : c < x := by simpa using hx
      intro i hi
      rcases List.mem_cons.mp hi with rfl | hi
      · exact hx'
      · exact hx'.trans (hasc.1 i hi)

theorem covers_onCommitted {call : Committed} {j : Int} (h : Covers call j) :
    Covers (onCommitted call.committedIndex call.ooCommittedEntries) j := by
  rcases h with hlow | hmem
  · exact .inl hlow
  · rw [← List.takeWhile_append_dropWhile (p := fun i : Int => decide (i ≤ call.committedIndex))
      (l := call.ooCommittedEntries)] at hmem
    rcases List.mem_append.mp hmem with hfront | hback
    · have hle : j ≤ call.committedIndex := by simpa using List.mem_takeWhile_imp hfront
      exact .inl hle
    · exact .inr hback

theorem inv_onCommitted {s : Pipeline} (h : Inv s) {call : Committed} {calls : List Committed}
    (hcalls : s.calls = call :: calls) :
    Inv { s with
      calls := calls
      tasks := s.tasks ++ [onCommitted call.committedIndex call.ooCommittedEntries] } := by
  set queued := onCommitted call.committedIndex call.ooCommittedEntries with hqueued
  set behind := calls ++ s.reports.map (Committed.mk s.box.lastCommittedIndex) with hbehind
  have hbefore : schedule s = s.tasks ++ call :: behind := by
    simp [schedule, hcalls, hbehind]
  have hafter : s.tasks ++ [queued] ++ calls ++
      s.reports.map (Committed.mk s.box.lastCommittedIndex) = s.tasks ++ queued :: behind := by
    simp [hbehind]
  have hsub : queued.ooCommittedEntries.Sublist call.ooCommittedEntries :=
    List.dropWhile_sublist _
  have hasc := h.queued.ascending call (by simp [hbefore])
  exact
    { h with
      queued := by
        rw [schedule, hafter]
        exact (hbefore ▸ h.queued).shrink rfl hsub
      above := by
        intro task htask i hi
        rcases List.mem_append.mp htask with hmem | hmem
        · exact h.above task hmem i hi
        · cases List.mem_singleton.mp hmem
          exact dropWhile_above call.committedIndex hasc i hi
      backed := fun hok => by
        have hold := h.backed hok
        rw [hbefore, backed_append] at hold
        rw [schedule, hafter, backed_append]
        exact ⟨hold.1, hold.2.replace (fun i hi => hsub.subset hi) fun j => covers_onCommitted⟩
      complete := fun hok j hj => by
        rw [schedule, hafter]
        rcases h.complete hok j hj with hlow | happlied | ⟨task, htask, hmem⟩
        · exact .inl hlow
        · exact .inr (.inl happlied)
        · rw [hbefore] at htask
          rcases List.mem_append.mp htask with hmem' | hmem'
          · exact .inr (.inr ⟨task, List.mem_append_left _ hmem', hmem⟩)
          · rcases List.mem_cons.mp hmem' with rfl | hmem'
            · rcases covers_onCommitted (.inr hmem) with hlow | hin
              · have := (h.queued.latest task (by simp [hbefore])).2
                exact .inl (le_trans hlow this)
              · exact .inr (.inr ⟨queued, by simp, hin⟩)
            · exact .inr (.inr ⟨task, by simp [hmem'], hmem⟩) }

theorem maxCommittedIndex_spec (batch : List Committed) :
    (∀ task ∈ batch, task.committedIndex ≤ maxCommittedIndex batch) ∧
      (0 ≤ maxCommittedIndex batch → ∃ task ∈ batch, task.committedIndex = maxCommittedIndex batch) := by
  have spec : ∀ start : Int,
      start ≤ batch.foldl (fun index task => max index task.committedIndex) start ∧
      (∀ task ∈ batch, task.committedIndex ≤
        batch.foldl (fun index task => max index task.committedIndex) start) ∧
      (batch.foldl (fun index task => max index task.committedIndex) start = start ∨
        ∃ task ∈ batch, task.committedIndex =
          batch.foldl (fun index task => max index task.committedIndex) start) := by
    induction batch with
    | nil => simp
    | cons task batch ih =>
      intro start
      obtain ⟨hle, hall, hcase⟩ := ih (max start task.committedIndex)
      rw [List.foldl_cons]
      refine ⟨(le_max_left _ _).trans hle, ?_, ?_⟩
      · intro t ht
        rcases List.mem_cons.mp ht with rfl | ht
        · exact (le_max_right _ _).trans hle
        · exact hall t ht
      · rcases hcase with heq | ⟨t, ht, heq⟩
        · rcases max_choice start task.committedIndex with hmax | hmax
          · exact .inl (heq.trans hmax)
          · exact .inr ⟨task, by simp, (heq.trans hmax).symm⟩
        · exact .inr ⟨t, by simp [ht], heq⟩
  obtain ⟨-, hall, hcase⟩ := spec (-1)
  refine ⟨hall, fun hpos => ?_⟩
  rcases hcase with heq | hex
  · have : maxCommittedIndex batch = -1 := heq
    omega
  · exact hex

/-- The indexes `pop_closure_until` goes through in its first loop. -/
def poppedIndexes (q : ClosureQueue) (toIndex : Int) (ooCommittedEntries : List Int) : List Int :=
  indexRange q.firstIndex toIndex ++ ooCommittedEntries

/-- On lists that wait in the queue `pop_closure_until` is defined and hands out, in its
order, exactly the indexes that were not handed out before. -/
theorem popClosureUntil_hands {q : ClosureQueue} {bound toIndex : Int} {oo : List Int}
    (h : Spans q bound) (hto : toIndex < bound)
    (hoo : ∀ i ∈ oo, i < bound ∧ ¬ HandedOut q i) :
    ∃ popped, q.popClosureUntil toIndex oo = some popped ∧ Spans popped.queue bound ∧
      q.firstIndex ≤ popped.queue.firstIndex ∧
      (∀ i, HandedOut popped.queue i ↔ HandedOut q i ∨ i ∈ poppedIndexes q toIndex oo) ∧
      (∀ i, i ∈ popped.outIndexes ↔ i ∈ poppedIndexes q toIndex oo ∧ ¬ HandedOut q i) ∧
      (popped.out = [] → popped.outIndexes = []) ∧
      ∀ (dep : Int → Int → Prop) (done : List Int),
        (∀ i ∈ poppedIndexes q toIndex oo, HandedOut q i → i ∈ done) →
        Supplied dep (fun _ => False) done →
        Supplied dep (· ∈ done) (poppedIndexes q toIndex oo) →
        Supplied dep (fun _ => False) (done ++ popped.outIndexes) := by
  have hlow : ∀ i ∈ oo, q.firstIndex ≤ i := fun i hi =>
    (not_handedOut_bounds h (hoo i hi).1 (hoo i hi).2).1
  have hflags := h.flags
  have hqueue := h.queue
  have hback : ¬ ∃ back ∈ oo.getLast?, back < q.firstIndex := by
    rintro ⟨back, hmem, hlt⟩
    have := hlow back (List.mem_of_getLast? hmem)
    omega
  have hover : ¬ ∃ back ∈ oo.getLast?, q.firstIndex + q.queue.length - 1 < back := by
    rintro ⟨back, hmem, hlt⟩
    have := (hoo back (List.mem_of_getLast? hmem)).1
    omega
  unfold ClosureQueue.popClosureUntil
  by_cases hempty : q.queue = []
  · -- Every closure has been popped, so there is nothing to go through.
    have hfirst : q.firstIndex = bound := by
      rw [hempty, List.length_nil] at hqueue
      omega
    have hnil : oo = [] := by
      refine List.eq_nil_iff_forall_not_mem.mpr fun i hi => ?_
      have := hlow i hi
      have := (hoo i hi).1
      omega
    have hxs : poppedIndexes q toIndex oo = [] := by
      refine List.eq_nil_iff_forall_not_mem.mpr fun i hi => ?_
      rw [poppedIndexes, hnil, List.append_nil, mem_indexRange] at hi
      omega
    rw [if_pos (.inl hempty), hxs, hnil]
    refine ⟨_, rfl, h, le_rfl, by simp, by simp, fun _ => rfl, ?_⟩
    intro dep done _ hdone _
    simpa using hdone
  · have hrange : ∀ i ∈ poppedIndexes q toIndex oo, q.firstIndex ≤ i ∧ i < bound := by
      intro i hi
      rcases List.mem_append.mp hi with hseq | hmem
      · have := mem_indexRange.mp hseq
        exact ⟨this.1, by omega⟩
      · exact ⟨hlow i hmem, (hoo i hmem).1⟩
    obtain ⟨popped, fresh, hrun, hands, hsup⟩ := popLoop _ ⟨q, [], []⟩ h hrange
    obtain ⟨rest, hpop, hspans, hle, hsame⟩ :=
      popFront_spans popped.queue.firstIndex popped.queue.queue popped.queue.hasCommittedQueue
        hands.spans
    have hidx : popped.outIndexes = fresh := by simpa using hands.outIndexes
    have hlen : popped.out.length = fresh.length := by simpa using hands.out
    rw [if_neg (not_or.mpr ⟨hempty, hback⟩), if_neg hover]
    refine ⟨{ popped with queue := rest }, ?_, hspans, ?_, ?_, ?_, ?_, ?_⟩
    · rw [poppedIndexes] at hrun
      rw [hrun]
      simp only [Option.bind_eq_bind, Option.bind_some]
      rw [hpop]
      rfl
    · exact hands.firstIndex ▸ hle
    · intro i
      rw [hsame i]
      exact hands.handedOut i
    · intro i
      show i ∈ popped.outIndexes ↔ _
      rw [hidx]
      exact hands.fresh i
    · intro hout
      have hzero : popped.out = [] := hout
      rw [hzero, List.length_nil] at hlen
      show popped.outIndexes = []
      rw [hidx]
      exact List.length_eq_zero_iff.mp hlen.symm
    · intro dep done hcovers hdone hxs
      show Supplied dep (fun _ => False) (done ++ popped.outIndexes)
      rw [hidx]
      exact hsup dep done hcovers hdone hxs

private theorem poppedIndexes_supplied {dep : Int → Int → Prop} {q : ClosureQueue} {m : Int}
    {done : List Int} {batch : List Committed}
    (hrange : ∀ i j, q.firstIndex ≤ i → dep i j → j < i)
    (hdone : ∀ i j, dep i j → j < q.firstIndex → j ∈ done)
    (hbacked : Backed dep (· ∈ done) batch)
    (hle : ∀ task ∈ batch, task.committedIndex ≤ m)
    (hasc : ∀ task ∈ batch, task.ooCommittedEntries.Pairwise (· < ·))
    (hlow : ∀ task ∈ batch, ∀ i ∈ task.ooCommittedEntries, q.firstIndex ≤ i) :
    Supplied dep (· ∈ done)
      (poppedIndexes q m (batch.flatMap Committed.ooCommittedEntries)) := by
  have hsequential : ∀ i j, dep i j → j ≤ m → j ∈ done ∨ j ∈ indexRange q.firstIndex m := by
    intro i j hj hjm
    by_cases hjf : j < q.firstIndex
    · exact .inl (hdone i j hj hjf)
    · exact .inr (mem_indexRange.mpr ⟨by omega, hjm⟩)
  refine supplied_append.mpr ⟨?_, ?_⟩
  · intro pre i post hsplit j hj
    have hi := mem_indexRange.mp (hsplit ▸ (by simp : i ∈ pre ++ i :: post))
    have hji := hrange i j hi.1 hj
    rcases hsequential i j hj (by omega) with hknown | hmem
    · exact .inl hknown
    · have hsorted : (indexRange q.firstIndex m).Pairwise (· < ·) := indexRange_ascending _ _
      rw [hsplit] at hmem hsorted
      rcases List.mem_append.mp hmem with hpre | hpost
      · exact .inr hpre
      · rcases List.mem_cons.mp hpost with rfl | hpost
        · omega
        · have := (List.pairwise_cons.mp (List.pairwise_append.mp hsorted).2.1).1 j hpost
          omega
  · refine hbacked.supplied hle hasc (fun task htask i hi j hj => ?_) ?_
    · exact hrange i j (hlow task htask i hi) hj
    · rintro i j hj (hknown | hjm)
      · exact .inl hknown
      · exact hsequential i j hj hjm

/-- The state whose execution queue has handed over a batch. -/
def taken (s : Pipeline) (count : Nat) : Pipeline := { s with tasks := s.tasks.drop count }

private theorem schedule_taken (s : Pipeline) (count : Nat) :
    schedule s = s.tasks.take count ++ schedule (taken s count) := by
  unfold schedule taken
  rw [← List.append_assoc, ← List.append_assoc, List.take_append_drop]

section Run

variable {s : Pipeline} (h : Inv s) (count : Nat)
include h

private theorem inv_taken
    (hm : ∀ task ∈ schedule (taken s count),
      maxCommittedIndex (s.tasks.take count) ≤ task.committedIndex)
    (hidle : s.error = false → ∀ task ∈ s.tasks.take count, task.ooCommittedEntries = []) :
    Inv (taken s count) := by
  have hqueued := h.queued
  rw [schedule_taken s count] at hqueued
  exact
    { h with
      queued := hqueued.drop hm fun i hi => .inl hi
      above := fun task htask => h.above task (List.mem_of_mem_drop htask)
      backed := fun hok => by
        have hbacked := h.backed hok
        rw [schedule_taken s count, backed_append] at hbacked
        refine Backed.absorb (hbacked.2.mono ?_) hm
        rintro - j - (hknown | ⟨task, htask, hlow | hmem⟩)
        · exact .inl hknown
        · exact .inr (hlow.trans ((maxCommittedIndex_spec _).1 task htask))
        · rw [hidle hok task htask] at hmem
          cases hmem
      complete := fun hok j hj => by
        rcases h.complete hok j hj with hlow | happlied | ⟨task, htask, hmem⟩
        · exact .inl hlow
        · exact .inr (.inl happlied)
        · rw [schedule_taken s count] at htask
          rcases List.mem_append.mp htask with hbatch | hrest
          · rw [hidle hok task hbatch] at hmem
            cases hmem
          · exact .inr (.inr ⟨task, hrest, hmem⟩) }

/-- What is known of a batch with work to do: its committed index, its lists, and the
popped closures. -/
private structure Batch (s : Pipeline) (count : Nat) (m : Int) (oo : List Int)
    (popped : Popped) : Prop where
  spans : Spans popped.queue s.ledger.bound
  firstIndex : s.closures.firstIndex ≤ popped.queue.firstIndex
  low : s.ledger.first ≤ m + 1
  high : m ≤ s.box.lastCommittedIndex
  later : ∀ task ∈ schedule (taken s count), m ≤ task.committedIndex
  handedOut : ∀ i, HandedOut popped.queue i ↔
    HandedOut s.closures i ∨ i ∈ poppedIndexes s.closures m oo
  outIndexes : ∀ i, i ∈ popped.outIndexes ↔
    i ∈ poppedIndexes s.closures m oo ∧ ¬ HandedOut s.closures i
  out : popped.out = [] → popped.outIndexes = []
  supplied : s.error = false →
    Supplied (Depends s.log) (fun _ => False) (s.applied ++ popped.outIndexes)

private theorem exists_batch (hmax : 0 ≤ maxCommittedIndex (s.tasks.take count)) :
    ∃ popped, s.closures.popClosureUntil (maxCommittedIndex (s.tasks.take count))
        ((s.tasks.take count).flatMap Committed.ooCommittedEntries) = some popped ∧
      Batch s count (maxCommittedIndex (s.tasks.take count))
        ((s.tasks.take count).flatMap Committed.ooCommittedEntries) popped := by
  set batch := s.tasks.take count with hbatch
  set m := maxCommittedIndex batch with hm
  obtain ⟨hle, hattained⟩ := maxCommittedIndex_spec batch
  obtain ⟨top, htop, hmtop⟩ := hattained hmax
  have hqueued := h.queued
  rw [schedule_taken s count, ← hbatch] at hqueued
  have hin : ∀ {task}, task ∈ batch → task ∈ batch ++ schedule (taken s count) :=
    List.mem_append_left _
  have hbound := h.tracks.matching.metaLength
  have hcommitted := h.committed
  obtain ⟨hlow, hhigh⟩ := hqueued.latest top (hin htop)
  have hwaits : ∀ task ∈ batch, ∀ i ∈ task.ooCommittedEntries,
      i < s.ledger.bound ∧ ¬ HandedOut s.closures i := by
    intro task htask i hi
    have habove := h.above task (List.mem_of_mem_take htask) i hi
    exact ⟨(reached_bounds (hqueued.reached task (hin htask) i hi)).2,
      hqueued.waiting task (hin htask) i hi habove⟩
  have hoo : ∀ i ∈ batch.flatMap Committed.ooCommittedEntries,
      i < s.ledger.bound ∧ ¬ HandedOut s.closures i := by
    intro i hi
    obtain ⟨task, htask, hi⟩ := List.mem_flatMap.mp hi
    exact hwaits task htask i hi
  obtain ⟨popped, hpop, hspans, hfirst, hhanded, hidx, hnone, hsup⟩ :=
    popClosureUntil_hands h.spans (by omega : m < s.ledger.bound) hoo
  refine ⟨popped, hpop, hspans, hfirst, by omega, by omega, ?_, hhanded, hidx, hnone, ?_⟩
  · intro task htask
    have := (List.pairwise_append.mp hqueued.sorted).2.2 top htop task htask
    omega
  · intro hok
    have hbacked := h.backed hok
    rw [schedule_taken s count, ← hbatch, backed_append] at hbacked
    have hledger := h.firstIndex
    apply hsup (Depends s.log) s.applied _ h.ordered
    · refine poppedIndexes_supplied (fun i j hi => h.backwards i j (by omega)) ?_ hbacked.1 hle
        (fun task htask => hqueued.ascending task (hin htask)) ?_
      · intro i j hj hlt
        exact h.handed hok j (depends_bounds hj).2 (.inl hlt)
      · intro task htask i hi
        obtain ⟨hb, hnot⟩ := hwaits task htask i hi
        exact (not_handedOut_bounds h.spans hb hnot).1
    · intro i hi hout
      refine h.handed hok i ?_ hout
      have hpos := h.positive
      rcases List.mem_append.mp hi with hseq | hmem
      · have := (mem_indexRange.mp hseq).1
        omega
      · exact absurd hout (hoo i hmem).2

omit h in
private theorem poppedIndexes_bounds {m : Int} {oo : List Int} {popped : Popped}
    (h : Inv s) (hb : Batch s count m oo popped)
    (hoo : ∀ i ∈ oo, s.ledger.Reached i) {i : Int} (hi : i ∈ poppedIndexes s.closures m oo) :
    s.ledger.Reached i := by
  rcases List.mem_append.mp hi with hseq | hmem
  · have hrange := mem_indexRange.mp hseq
    have := h.firstIndex
    have := h.committed
    have := hb.high
    exact h.tracks.below i (by omega) (by omega)
  · exact hoo i hmem

private theorem indexList_spec {m : Int} {oo : List Int} {popped : Popped}
    (hb : Batch s count m oo popped) (hoo : ∀ i ∈ oo, s.ledger.Reached i)
    (hok : s.error = false) {indexList : List Int}
    (hlist : indexList = popped.outIndexes ++
      if popped.out = [] then indexRange (s.lastAppliedIndex + 1) m else []) :
    (∀ i ∈ indexList, 1 ≤ i ∧ i ≤ s.log.length) ∧
      Supplied (Depends s.log) (fun _ => False) (s.applied ++ indexList) := by
  have hbound := h.bound
  have hpos := h.positive
  have hout : ∀ i ∈ popped.outIndexes, s.ledger.Reached i := fun i hi =>
    poppedIndexes_bounds count h hb hoo ((hb.outIndexes i).mp hi).1
  have hout' : ∀ i ∈ popped.outIndexes, 1 ≤ i ∧ i ≤ s.log.length := by
    intro i hi
    have := reached_bounds (hout i hi)
    omega
  by_cases hempty : popped.out = []
  · rw [if_pos hempty, hb.out hempty, List.nil_append] at hlist
    subst hlist
    have hlast := h.lastApplied
    have hhigh := hb.high
    have hcommitted := h.committed
    have hmeta := h.tracks.matching.metaLength
    refine ⟨?_, h.ordered.repeat ?_⟩
    · intro i hi
      have := mem_indexRange.mp hi
      omega
    · -- Nothing new was popped, so what lies up to the committed index is applied.
      intro i hi
      have hrange := mem_indexRange.mp hi
      refine h.handed hok i (by omega) ?_
      by_cases hlt : i < s.closures.firstIndex
      · exact .inl hlt
      · by_contra hnot
        have hmem : i ∈ poppedIndexes s.closures m oo :=
          List.mem_append_left _ (mem_indexRange.mpr ⟨by omega, hrange.2⟩)
        have := (hb.outIndexes i).mpr ⟨hmem, hnot⟩
        rw [hb.out hempty] at this
        cases this
  · rw [if_neg hempty, List.append_nil] at hlist
    subst hlist
    exact ⟨hout', hb.supplied hok⟩

omit h in
private theorem iterate_spec {indexList : List Int} (rollback : Option Nat)
    (hentries : ∀ i ∈ indexList, 1 ≤ i ∧ i ≤ s.log.length) :
    ∃ n, (s.iterate indexList rollback).1 = indexList.take n ∧
      ((s.iterate indexList rollback).2 = false → (s.iterate indexList rollback).1 = indexList) := by
  have hall : indexList.takeWhile s.hasEntry = indexList := by
    refine List.takeWhile_eq_self_iff.mpr fun i hi => ?_
    obtain ⟨hlo, hhi⟩ := hentries i hi
    obtain ⟨entry, hentry⟩ := exists_item (q := s.log) (d := i - 1) (by omega) (by omega)
    simp [Pipeline.hasEntry, hentry]
  cases rollback with
  | none => exact ⟨indexList.length, by simp [Pipeline.iterate, hall], fun _ => hall⟩
  | some n => exact ⟨n, by simp [Pipeline.iterate, hall], fun hfalse => by cases hfalse⟩

private theorem inv_applied {m : Int} {oo : List Int} {popped : Popped}
    (hb : Batch s count m oo popped)
    (hoo : oo = (s.tasks.take count).flatMap Committed.ooCommittedEntries)
    (hm : ∀ task ∈ s.tasks.take count, task.committedIndex ≤ m)
    (hok : s.error = false) (advance : Nat) {handed indexList : List Int} {error : Bool}
    (hlist : indexList = popped.outIndexes ++
      if popped.out = [] then indexRange (s.lastAppliedIndex + 1) m else [])
    (hhanded : ∃ n, handed = indexList.take n)
    (herror : error = false → handed = indexList) :
    Inv { taken s count with
      closures := popped.queue
      lastAppliedIndex := m + advance
      error := error
      applied := s.applied ++ handed } := by
  have hqueued := h.queued
  rw [schedule_taken s count] at hqueued
  have hreached : ∀ i ∈ oo, s.ledger.Reached i := by
    intro i hi
    obtain ⟨task, htask, hi⟩ := List.mem_flatMap.mp (hoo ▸ hi)
    exact hqueued.reached task (List.mem_append_left _ htask) i hi
  obtain ⟨hentries, hsupplied⟩ := indexList_spec h count hb hreached hok hlist
  obtain ⟨n, hn⟩ := hhanded
  have hsub : ∀ i ∈ handed, i ∈ indexList := fun i hi => List.mem_of_mem_take (hn ▸ hi)
  -- Without an error everything popped, or popped before, is applied.
  have hdone : error = false → ∀ i, 1 ≤ i → HandedOut s.closures i ∨
      i ∈ poppedIndexes s.closures m oo → i ∈ s.applied ++ handed := by
    intro hfine i hi hcase
    by_cases hold : HandedOut s.closures i
    · exact List.mem_append_left _ (h.handed hok i hi hold)
    · have hidx := (hb.outIndexes i).mpr ⟨hcase.resolve_left hold, hold⟩
      rw [herror hfine, hlist]
      simp [hidx]
  have hcovered : error = false → ∀ j, 1 ≤ j → ∀ task ∈ s.tasks.take count, Covers task j →
      j ∈ s.applied ++ handed := by
    intro hfine j hj task htask hcovers
    apply hdone hfine j hj
    rcases hcovers with hlow | hmem
    · by_cases hlt : j < s.closures.firstIndex
      · exact .inl (.inl hlt)
      · have := hm task htask
        exact .inr (List.mem_append_left _ (mem_indexRange.mpr ⟨by omega, by omega⟩))
    · refine .inr (List.mem_append_right _ ?_)
      rw [hoo]
      exact List.mem_flatMap.mpr ⟨task, htask, hmem⟩
  exact
    { tracks := h.tracks
      positive := h.positive
      bound := h.bound
      committed := h.committed
      backwards := h.backwards
      spans := hb.spans
      firstIndex := h.firstIndex.trans hb.firstIndex
      granted := fun i hi hc => by
        rcases (hb.handedOut i).mp hc with hold | hnew
        · exact h.granted i hi hold
        · exact poppedIndexes_bounds count h hb hreached hnew
      queued := by
        refine hqueued.drop hb.later fun i hi => ?_
        rcases (hb.handedOut i).mp hi with hold | hnew
        · exact .inl hold
        · rcases List.mem_append.mp hnew with hseq | hmem
          · exact .inr (.inl (mem_indexRange.mp hseq).2)
          · exact .inr (.inr (hoo ▸ hmem))
      above := fun task htask => h.above task (List.mem_of_mem_drop htask)
      lastApplied := by
        show s.ledger.first ≤ m + advance + 1
        have := hb.low
        omega
      within := fun i hi => by
        rcases List.mem_append.mp hi with hold | hnew
        · exact h.within i hold
        · exact (hentries i (hsub i hnew)).2
      ordered := by
        have htake := hsupplied.take (s.applied.length + n)
        rw [List.take_length_add_append, ← hn] at htake
        exact htake
      handed := fun hfine i hi hc => hdone hfine i hi ((hb.handedOut i).mp hc)
      backed := fun hfine => by
        have hbacked := h.backed hok
        rw [schedule_taken s count, backed_append] at hbacked
        refine hbacked.2.mono ?_
        rintro i j hj (hknown | ⟨task, htask, hcovers⟩)
        · exact List.mem_append_left _ hknown
        · exact hcovered hfine j (depends_bounds hj).2 task htask hcovers
      complete := fun hfine j hj => by
        rcases h.complete hok j hj with hlow | happlied | ⟨task, htask, hmem⟩
        · exact .inl hlow
        · exact .inr (.inl (List.mem_append_left _ happlied))
        · rw [schedule_taken s count] at htask
          rcases List.mem_append.mp htask with hbatch | hrest
          · have hpos := h.positive
            have hfirst := (reached_bounds hj).1
            have hfirst' : s.ledger.first ≤ j := hfirst
            exact .inr (.inl (hcovered hfine j (by omega) task hbatch (.inr hmem)))
          · exact .inr (.inr ⟨task, hrest, hmem⟩) }

theorem inv_run (currentTerm : Int) (lookBack advance : Nat) (rollback : Option Nat) :
    ∃ t, s.step currentTerm lookBack (.run count advance rollback) = some t ∧ Inv t := by
  have hbelow := (maxCommittedIndex_spec (s.tasks.take count)).1
  show ∃ t, (if 0 ≤ maxCommittedIndex (s.tasks.take count) then
    (taken s count).doCommitted (maxCommittedIndex (s.tasks.take count))
      ((s.tasks.take count).flatMap Committed.ooCommittedEntries) advance rollback
    else some (taken s count)) = some t ∧ Inv t
  by_cases hmax : 0 ≤ maxCommittedIndex (s.tasks.take count)
  · rw [if_pos hmax]
    obtain ⟨popped, hpop, hb⟩ := exists_batch h count hmax
    unfold Pipeline.doCommitted
    by_cases herror : s.error = true
    · refine ⟨_, if_pos herror, inv_taken h count hb.later fun hok => ?_⟩
      rw [herror] at hok
      cases hok
    · have hok : s.error = false := by simpa using herror
      have herror' : ¬ (taken s count).error = true := herror
      rw [if_neg herror']
      by_cases hidle : maxCommittedIndex (s.tasks.take count) ≤ (taken s count).lastAppliedIndex ∧
          (s.tasks.take count).flatMap Committed.ooCommittedEntries = []
      · refine ⟨_, if_pos hidle, inv_taken h count hb.later fun _ task htask => ?_⟩
        exact List.flatMap_eq_nil_iff.mp hidle.2 task htask
      · have hpop' : (taken s count).closures.popClosureUntil
            (maxCommittedIndex (s.tasks.take count))
            ((s.tasks.take count).flatMap Committed.ooCommittedEntries) = some popped := hpop
        have hreached : ∀ i ∈ (s.tasks.take count).flatMap Committed.ooCommittedEntries,
            s.ledger.Reached i := by
          intro i hi
          obtain ⟨task, htask, hi⟩ := List.mem_flatMap.mp hi
          exact h.queued.reached task (by
            rw [schedule_taken s count]
            exact List.mem_append_left _ htask) i hi
        have hentries := (indexList_spec h count hb hreached hok rfl).1
        have hiterate := iterate_spec rollback hentries
        obtain ⟨n, hhanded, hfine⟩ := hiterate
        rw [if_neg hidle, hpop']
        refine ⟨_, rfl, ?_⟩
        exact inv_applied h count hb rfl hbelow hok advance rfl ⟨n, hhanded⟩ hfine
  · rw [if_neg hmax]
    -- Committed indexes are never negative, so the batch is empty.
    have hnil : s.tasks.take count = [] := by
      refine List.eq_nil_iff_forall_not_mem.mpr fun task htask => ?_
      have hlow := (h.queued.latest task (by
        rw [schedule_taken s count]
        exact List.mem_append_left _ htask)).1
      have := h.positive
      have := hbelow task htask
      omega
    refine ⟨_, rfl, inv_taken h count (fun task htask => ?_) fun _ task htask => ?_⟩
    · have hlow := (h.queued.latest task (by
        rw [schedule_taken s count]
        exact List.mem_append_right _ htask)).1
      have := h.positive
      omega
    · rw [hnil] at htask
      cases htask

end Run

/-- The condition on one step: quorums come in order, and the calls of `on_committed`
are loaded and made in the order of the `commit_at` calls behind them. -/
def Orderly (s : Pipeline) : Event → Prop
  | .commitAt ack => InOrder s ack
  | .load position => position = 0
  | .onCommitted position => position = 0
  | _ => True

instance orderlyDecidable (s : Pipeline) : ∀ event : Event, Decidable (Orderly s event)
  | .apply _ _ _ => inferInstanceAs (Decidable True)
  | .commitAt ack => inferInstanceAs (Decidable (InOrder s ack))
  | .load position => inferInstanceAs (Decidable (position = 0))
  | .onCommitted position => inferInstanceAs (Decidable (position = 0))
  | .run _ _ _ => inferInstanceAs (Decidable True)

/-- Every conflicting entry was handed to the state machine behind its conflict. -/
def AppliesInOrder (s : Pipeline) : Prop :=
  ∀ (i : Int) (k : Nat), Conflicts s.log i k →
    ∀ pre post, s.applied = pre ++ i :: post → i - k ∈ pre

/-- A leadership begins on a node that has applied every earlier entry. -/
structure Settled (earlier : List TaskEntry) (lastCommittedIndex lastAppliedIndex : Int)
    (applied : List Int) : Prop where
  committed : lastCommittedIndex = earlier.length
  lastApplied : earlier.length ≤ lastAppliedIndex
  all : ∀ i : Int, 1 ≤ i → i ≤ earlier.length → i ∈ applied
  within : ∀ i ∈ applied, i ≤ earlier.length
  ordered : Supplied (Depends earlier) (fun _ => False) applied

theorem inv_start {earlier : List TaskEntry} {lastCommittedIndex lastAppliedIndex : Int}
    {applied : List Int} (dependencyIdQueue : List Int)
    (h : Settled earlier lastCommittedIndex lastAppliedIndex applied) :
    Inv (.start earlier dependencyIdQueue lastCommittedIndex lastAppliedIndex applied) := by
  have none_reached : ∀ i, ¬ (Ledger.start (earlier.length + 1)).Reached i := by
    intro i hi
    obtain ⟨task, htask, -⟩ := hi
    simp [Ledger.start, item] at htask
  have hlast := h.lastApplied
  have hcommitted := h.committed
  have hout : ∀ i, HandedOut ⟨earlier.length + 1, [], []⟩ i → i ≤ earlier.length := by
    rintro i (hlt | hset)
    · dsimp only at hlt
      omega
    · simp [item] at hset
  refine
    { tracks := tracks_start lastCommittedIndex (earlier.length + 1)
      positive := by
        show (0 : Int) < earlier.length + 1
        omega
      bound := by simp [Pipeline.start, Ledger.bound, Ledger.start]
      committed := by
        show lastCommittedIndex = earlier.length + 1 - 1
        omega
      backwards := ?_
      spans := ⟨by simp [Pipeline.start, Ledger.bound, Ledger.start], rfl⟩
      firstIndex := le_rfl
      granted := ?_
      queued := ⟨.nil, by simp [schedule, Pipeline.start], by simp [schedule, Pipeline.start],
        by simp [schedule, Pipeline.start], .nil, by simp [schedule, Pipeline.start]⟩
      above := by simp [Pipeline.start]
      lastApplied := by
        show (earlier.length : Int) + 1 ≤ lastAppliedIndex + 1
        omega
      within := h.within
      ordered := h.ordered
      handed := fun _ i hi hc => h.all i hi (hout i hc)
      backed := fun _ => trivial
      complete := fun _ j hj => absurd hj (none_reached j) }
  · intro i j hi hj
    have hle := (depends_bounds hj).1
    have hi' : (earlier.length : Int) + 1 ≤ i := hi
    have hle' : i ≤ (earlier.length : Int) := hle
    omega
  · intro i hi hc
    have hi' : (earlier.length : Int) + 1 ≤ i := hi
    have := hout i hc
    omega

theorem inv_step (currentTerm : Int) (lookBack : Nat) (s : Pipeline) (event : Event)
    (h : Inv s) (hguard : Orderly s event) :
    ∃ t, s.step currentTerm lookBack event = some t ∧ Inv t := by
  cases event with
  | apply task done ballot => exact ⟨_, rfl, inv_apply currentTerm lookBack h task done ballot⟩
  | commitAt ack => exact inv_commit currentTerm lookBack h hguard
  | load position =>
    have hzero : position = 0 := hguard
    subst hzero
    cases hreports : s.reports with
    | nil => exact ⟨s, by simp [Pipeline.step, hreports], h⟩
    | cons report reports =>
      exact ⟨_, by simp only [Pipeline.step, hreports]; rfl, inv_load h hreports⟩
  | onCommitted position =>
    have hzero : position = 0 := hguard
    subst hzero
    cases hcalls : s.calls with
    | nil => exact ⟨s, by simp [Pipeline.step, hcalls], h⟩
    | cons call calls =>
      exact ⟨_, by simp only [Pipeline.step, hcalls]; rfl, inv_onCommitted h hcalls⟩
  | run count advance rollback => exact inv_run h count currentTerm lookBack advance rollback

/-- In every run whose steps are orderly, each entry is handed to the state machine
behind the entries it conflicts with. -/
theorem applied_behind_conflicts (currentTerm : Int) (lookBack : Nat) (earlier : List TaskEntry)
    (dependencyIdQueue : List Int) (lastCommittedIndex lastAppliedIndex : Int)
    (applied : List Int) (hsettled : Settled earlier lastCommittedIndex lastAppliedIndex applied)
    (events : List Event)
    (horderly : Guarded (Pipeline.step currentTerm lookBack) Orderly
      (.start earlier dependencyIdQueue lastCommittedIndex lastAppliedIndex applied) events) :
    ∃ s, runEvents (Pipeline.step currentTerm lookBack)
        (.start earlier dependencyIdQueue lastCommittedIndex lastAppliedIndex applied) events =
          some s ∧ AppliesInOrder s := by
  obtain ⟨s, hrun, hinv⟩ := run_defined_of_step (inv_step currentTerm lookBack)
    (inv_start dependencyIdQueue hsettled) horderly
  refine ⟨s, hrun, ?_⟩
  intro i k hconf pre post hsplit
  rcases hinv.ordered pre i post hsplit (i - k) ⟨k, rfl, hconf⟩ with hfalse | hmem
  · exact hfalse.elim
  · exact hmem

private def peerA : PeerId := ⟨1, 8000, 0⟩
private def peerB : PeerId := ⟨2, 8000, 0⟩

private def threePeers : QuorumLedger.Task := ⟨.three, none⟩

/-- Three tasks, the last two with one identifier, stable on the leader. -/
private def threeTasks : List Event :=
  [.apply ⟨[], 1, -1⟩ none threePeers, .apply ⟨[], 2, -1⟩ none threePeers,
    .apply ⟨[], 2, -1⟩ none threePeers, .commitAt (.ofStableClosure 1 3 peerA)]

/-- One more acknowledgement, followed through to the state machine. -/
private def answered (indexes : List Int) (h : indexes.Pairwise (· < ·)) : List Event :=
  [.commitAt ⟨indexes, peerB, h⟩, .load 0, .onCommitted 0, .run 1 0 none]

theorem applied_behind_conflicts_sample :
    ∃ s, runEvents (Pipeline.step 1 63) (.start [] [] 0 0 [])
        (threeTasks ++ answered [2, 3] (by decide) ++ answered [1] (by decide)) = some s ∧
      s.applied = [2, 3, 1] ∧ AppliesInOrder s := by
  have hsettled : Settled [] 0 0 [] := ⟨rfl, le_rfl, by simp; omega, by simp, supplied_nil⟩
  obtain ⟨s, hrun, horder⟩ := applied_behind_conflicts 1 63 [] [] 0 0 [] hsettled
    (threeTasks ++ answered [2, 3] (by decide) ++ answered [1] (by decide)) (by decide +kernel)
  refine ⟨s, hrun, ?_, horder⟩
  have happlied : (runEvents (Pipeline.step 1 63) (.start [] [] 0 0 [])
      (threeTasks ++ answered [2, 3] (by decide) ++ answered [1] (by decide))).map
        Pipeline.applied = some [2, 3, 1] := by
    decide +kernel
  rw [hrun] at happlied
  exact Option.some.inj happlied

/-- The answer for the third entry overtakes the answer for the second one. -/
theorem overtaking_answer_applied_first :
    ∃ s, runEvents (Pipeline.step 1 63) (.start [] [] 0 0 [])
        (threeTasks ++ answered [3] (by decide) ++ answered [2] (by decide) ++
          answered [1] (by decide)) = some s ∧
      s.applied = [3, 2, 1] ∧ Conflicts s.log 3 1 ∧ ¬ AppliesInOrder s := by
  have hrun : (runEvents (Pipeline.step 1 63) (.start [] [] 0 0 [])
      (threeTasks ++ answered [3] (by decide) ++ answered [2] (by decide) ++
        answered [1] (by decide))).map
          (fun s => (s.applied, decide (Conflicts s.log 3 1))) = some ([3, 2, 1], true) := by
    decide +kernel
  obtain ⟨s, hs, hpair⟩ := Option.map_eq_some_iff.mp hrun
  have happlied : s.applied = [3, 2, 1] := congrArg Prod.fst hpair
  have hconf : Conflicts s.log 3 1 := of_decide_eq_true (congrArg Prod.snd hpair)
  refine ⟨s, hs, happlied, hconf, fun horder => ?_⟩
  have := horder 3 1 hconf [] [2, 1] happlied
  cases this

end HitConsistency.Commit.ApplyOrder
