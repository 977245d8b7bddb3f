/- GID: HitConsistency/Commit/OrderedDelivery
   digest: One leadership from apply to on_apply, against the pipeline that follows the masks. -/

import HitConsistency.Commit.LeaderApply

set_option autoImplicit false
set_option relaxedAutoImplicit false

/-!
The leader of `LeaderApply` has the real loop of `do_committed`, and the pipeline of
`ApplyOrder` has the dependency masks. Calls that are loaded and made in their order
never hand over a batch older than what was applied, so the order of the quorums alone
keeps the conflicts in order.
-/

namespace HitConsistency.Commit.OrderedDelivery

open HitConsistency.Base.GuardedRuns
open HitConsistency.Base.IndexedDeque
open HitConsistency.Base.SuppliedOrder
open HitConsistency.Commit.ApplyOrder (InOrder Settled schedule)
open HitConsistency.Commit.ApplyPipeline
open HitConsistency.Commit.LeaderApply (Leader CaughtUp)
open HitConsistency.Commit.PendingQueues
open HitConsistency.Commit.QuorumLedger
open HitConsistency.Commit.StateMachineCaller
open HitConsistency.Log.Entry
open HitConsistency.Replication.DependencyMask (checkDependency)
open HitConsistency.Replication.PeerSender (mem_indexRange indexRange_ascending)
open HitConsistency.Replication.PeerSender.Replicator (indexRange)

/-- The leader with what `apply` remembers of its tasks. -/
structure Proposer where
  leader : Leader
  dependencyIdQueue : List Int
  /-- The entries of this leadership, with the identifiers of their tasks. -/
  written : List TaskEntry

inductive Event
  | apply (task : Replication.DependencyMask.Task) (done : Option Nat) (ballot : QuorumLedger.Task)
  | commitAt (ack : Acknowledgement)
  | load (position : Nat)
  | onCommitted (position : Nat)
  | run (count : Nat)

namespace Proposer

def start (earlier : List LogEntry) (dependencyIdQueue : List Int)
    (lastCommittedIndex lastAppliedIndex : Int) (ooApplyQueue : List Bool) : Proposer :=
  ⟨.start earlier lastCommittedIndex lastAppliedIndex ooApplyQueue, dependencyIdQueue, []⟩

/-- One round of the loop in `NodeImpl::apply`. -/
def appendTask (currentTerm : Int) (lookBack : Nat) (s : Proposer)
    (task : Replication.DependencyMask.Task) (done : Option Nat) (ballot : QuorumLedger.Task) :
    Option Proposer :=
  if task.expectedTerm ≠ -1 ∧ task.expectedTerm ≠ currentTerm then some s
  else
    let (dependency, queue) := checkDependency lookBack s.dependencyIdQueue task.dependencyId
    let entry : LogEntry := ⟨.data, ⟨0, currentTerm⟩, dependency, none, none, task.data⟩
    (s.leader.step (.apply entry done ballot)).map fun leader =>
      ⟨leader, queue, s.written ++
        [⟨task.dependencyId, { entry with id := ⟨s.leader.log.length + 1, currentTerm⟩ }⟩]⟩

def step (currentTerm : Int) (lookBack : Nat) (s : Proposer) : Event → Option Proposer
  | .apply task done ballot => s.appendTask currentTerm lookBack task done ballot
  | .commitAt ack => (s.leader.step (.commitAt ack)).map fun leader => { s with leader := leader }
  | .load position => (s.leader.step (.load position)).map fun leader => { s with leader := leader }
  | .onCommitted position =>
      (s.leader.step (.onCommitted position)).map fun leader => { s with leader := leader }
  | .run count => (s.leader.step (.run count)).map fun leader => { s with leader := leader }

/-- The indexes before the leadership, which the node has applied. -/
def before (s : Proposer) : List Int := indexRange 1 (s.leader.ledger.first - 1)

/-- The indexes of this leadership, in the order in which the state machine got them. -/
def delivered (s : Proposer) : List Int := s.leader.caller.handed.map Prod.fst

/-- An entry before the leadership; its mask does not matter any more. -/
def blank : TaskEntry := ⟨0, ⟨.data, ⟨0, 0⟩, 0, none, none, []⟩⟩

/-- The log as the masks of this leadership see it. -/
def entries (s : Proposer) : List TaskEntry := s.before.map (fun _ => blank) ++ s.written

def pipeline (s : Proposer) : Pipeline where
  log := s.entries
  dependencyIdQueue := s.dependencyIdQueue
  box := s.leader.box
  ledger := s.leader.ledger
  closures := s.leader.caller.closures
  reports := s.leader.reports
  calls := s.leader.calls
  tasks := s.leader.tasks
  lastAppliedIndex := s.leader.caller.lastAppliedIndex
  error := s.leader.caller.error
  applied := s.before ++ s.delivered

/-- The quorums come in order, and so do the calls of `on_committed`. -/
def Ordered (s : Proposer) : Event → Prop
  | .commitAt ack => InOrder s.pipeline ack
  | .load position => position = 0
  | .onCommitted position => position = 0
  | .apply _ _ _ => True
  | .run _ => True

instance orderedDecidable (s : Proposer) : ∀ event, Decidable (s.Ordered event)
  | .commitAt ack => inferInstanceAs (Decidable (InOrder s.pipeline ack))
  | .load position => inferInstanceAs (Decidable (position = 0))
  | .onCommitted position => inferInstanceAs (Decidable (position = 0))
  | .apply _ _ _ => inferInstanceAs (Decidable True)
  | .run _ => inferInstanceAs (Decidable True)

end Proposer

section Walk

variable {getEntry : Int → Option LogEntry} {iter last : IteratorImpl} {full : List Int}
  {handed : List (Int × Option Nat)} {k n : Nat}

/-- The iterator stands at a position of the list it will have in the end, perhaps on an
index without an entry. -/
structure Reads (getEntry : Int → Option LogEntry) (full : List Int) (k : Nat)
    (iter : IteratorImpl) : Prop where
  grown : grown iter = full
  it : iter.it = k
  within : k < iter.indexList.length
  index : full[k]? = some iter.acturalIndex
  entry : iter.error = false → (getEntry iter.acturalIndex).isSome = true

private theorem next_reads (hit : iter.it + 1 = k) (hwithin : k ≤ iter.indexList.length)
    (hgrown : grown iter = full) :
    Reads getEntry full k (iter.next getEntry) ∨
      (k = full.length ∧ (iter.next getEntry).indexList = full ∧ (iter.next getEntry).it = -1) := by
  obtain ⟨hclosure, hext, herror, hlength⟩ := extend_frame iter
  have hitem : item iter.extend.indexList k = full[k]? := by
    rw [item_extend (by exact_mod_cast hwithin), hgrown]
    simp [item]
  have hbounds : k ≤ full.length := by
    rw [← hgrown, grown, List.length_append]
    omega
  cases hindex : full[k]? with
  | some index =>
    rw [hindex] at hitem
    have hnext : iter.next getEntry = { iter.extend with
        it := k
        acturalIndex := index
        curEntry := getEntry index
        error := iter.extend.error || (getEntry index).isNone } := by
      unfold IteratorImpl.next
      simp only [hext, hit, hitem]
    rw [hnext]
    refine .inl ⟨(grown_extend iter).trans hgrown, rfl, ?_, hindex, ?_⟩
    · have := item_eq_some_bounds hitem
      show k < iter.extend.indexList.length
      omega
    · intro hgood
      simpa using (Bool.or_eq_false_iff.mp hgood).2
  | none =>
    rw [hindex] at hitem
    have hnext : iter.next getEntry = { iter.extend with it := -1, curEntry := none } := by
      unfold IteratorImpl.next
      simp only [hext, hit, hitem]
    have hlast : k = full.length := by
      have := List.getElem?_eq_none_iff.mp hindex
      omega
    rw [hnext]
    refine .inr ⟨hlast, ?_, rfl⟩
    -- Nothing is left to append.
    have hsame := (grown_extend iter).trans hgrown
    have hlen := congrArg List.length hsame
    unfold grown at hsame hlen
    rw [List.length_append] at hlen
    have hrest : (if iter.extend.closure = [] then
        indexRange (iter.extend.lastAppliedIndex + 1) iter.extend.committedIndex else []) = [] := by
      apply List.length_eq_zero_iff.mp
      omega
    rwa [hrest, List.append_nil] at hsame

private theorem walk_ended (hit : iter.it = -1)
    (hrun : iter.walk getEntry n = some (handed, last)) :
    handed = [] ∧ last = iter := by
  cases n with
  | zero => cases hrun
  | succ n =>
    have hbad : ¬ iter.isGood = true := by simp [IteratorImpl.isGood, hit]
    rw [IteratorImpl.walk, if_neg hbad] at hrun
    cases hrun
    exact ⟨rfl, rfl⟩

private theorem walk_reads (h : Reads getEntry full k iter)
    (hrun : iter.walk getEntry n = some (handed, last)) (hlast : last.error = false) :
    handed.map Prod.fst = full.drop k ∧ last.indexList = full ∧
      ∀ i ∈ full.drop k, (getEntry i).isSome = true := by
  induction n generalizing k iter handed with
  | zero => cases hrun
  | succ n ih =>
    rw [IteratorImpl.walk] at hrun
    obtain ⟨hk, hindex⟩ := List.getElem?_eq_some_iff.mp h.index
    have hdrop : full.drop k = iter.acturalIndex :: full.drop (k + 1) := by
      rw [List.drop_eq_getElem_cons hk, hindex]
    rw [hdrop]
    split at hrun
    · rename_i hgood
      have herror : iter.error = false := by
        simp only [IteratorImpl.isGood, decide_eq_true_eq] at hgood
        simpa using hgood.2
      obtain ⟨done, -, hrun⟩ := Option.bind_eq_some_iff.mp hrun
      obtain ⟨⟨rest, last'⟩, hwalk, heq⟩ := Option.bind_eq_some_iff.mp hrun
      cases heq
      have hmoved : Reads getEntry full (k + 1) (iter.next getEntry) ∨
          (k + 1 = full.length ∧ (iter.next getEntry).indexList = full ∧
            (iter.next getEntry).it = -1) :=
        next_reads (by rw [h.it]; omega) h.within h.grown
      rcases hmoved with hnext | ⟨hend, hlist, hit⟩
      · obtain ⟨hrest, hlist, hentries⟩ := ih hnext hwalk
        exact ⟨by rw [List.map_cons, hrest], hlist,
          List.forall_mem_cons.mpr ⟨h.entry herror, hentries⟩⟩
      · obtain ⟨rfl, rfl⟩ := walk_ended hit hwalk
        rw [List.drop_eq_nil_of_le (by omega)]
        exact ⟨rfl, hlist, by simpa using h.entry herror⟩
    · rename_i hbad
      cases hrun
      have hgood : last.isGood = true := by simp [IteratorImpl.isGood, h.it, hlast]
      exact absurd hgood hbad

private theorem popClosureUntil_subset {q : ClosureQueue} {toIndex : Int} {oo : List Int}
    {popped : Popped} (hpop : q.popClosureUntil toIndex oo = some popped) :
    ∀ i ∈ popped.outIndexes, i ∈ ApplyOrder.poppedIndexes q toIndex oo := by
  have loop : ∀ (xs : List Int) (before after : Popped),
      runEvents ClosureQueue.popOne before xs = some after →
      ∀ i ∈ after.outIndexes, i ∈ before.outIndexes ∨ i ∈ xs := by
    intro xs
    induction xs with
    | nil =>
      intro before after hrun i hi
      cases hrun
      exact .inl hi
    | cons x xs ih =>
      intro before after hrun i hi
      obtain ⟨mid, hone, hrest⟩ := runEvents_cons_eq_some.mp hrun
      have hmid : ∀ i ∈ mid.outIndexes, i ∈ before.outIndexes ∨ i = x := by
        obtain ⟨flag, -, hone⟩ := Option.bind_eq_some_iff.mp hone
        split at hone
        · cases hone
          exact fun i hi => .inl hi
        · obtain ⟨closure, -, hone⟩ := Option.bind_eq_some_iff.mp hone
          obtain ⟨flags, -, hone⟩ := Option.bind_eq_some_iff.mp hone
          cases hone
          intro i hi
          simpa using hi
      rcases ih mid after hrest i hi with hold | hnew
      · refine (hmid i hold).imp_right ?_
        rintro rfl
        exact List.mem_cons_self
      · exact .inr (List.mem_cons_of_mem x hnew)
  unfold ClosureQueue.popClosureUntil at hpop
  split at hpop
  · cases hpop
    exact fun i hi => List.mem_append_right _ hi
  · split at hpop
    · cases hpop
      simp
    · obtain ⟨after, hrun, hpop⟩ := Option.bind_eq_some_iff.mp hpop
      obtain ⟨rest, -, hpop⟩ := Option.bind_eq_some_iff.mp hpop
      cases hpop
      intro i hi
      exact (loop _ _ _ hrun i hi).resolve_left List.not_mem_nil

private theorem popApplied_marked {applied : Int} {queue rest : List Bool} {indexes : List Int}
    {advance : Nat} (hindexes : ∀ i ∈ indexes, applied < i) (hquiet : Quiet queue)
    (hpop : FsmCaller.popApplied (indexes.foldl (FsmCaller.markApplied applied) queue) =
      some (rest, advance)) : advance = 0 := by
  by_cases hne : indexes ≠ [] ∨ queue ≠ []
  · obtain ⟨hmarked, hmarkedNe⟩ := markAll_quiet hindexes hquiet hne
    rw [popApplied_quiet hmarked hmarkedNe] at hpop
    cases hpop
    rfl
  · obtain ⟨hindexesNil, hqueueNil⟩ := not_or.mp hne
    rw [not_not.mp hindexesNil, not_not.mp hqueueNil] at hpop
    cases hpop

private theorem doCommitted_sound {s t : FsmCaller} {task : Committed}
    (hrun : s.doCommitted getEntry task = some t) (hs : s.error = false) (ht : t.error = false)
    (hfirst : s.lastAppliedIndex < s.closures.firstIndex)
    (hoo : ∀ i ∈ task.ooCommittedEntries, s.lastAppliedIndex < i) (hquiet : Quiet s.ooApplyQueue)
    (hwork : ¬ (task.committedIndex ≤ s.lastAppliedIndex ∧ task.ooCommittedEntries = [])) :
    ∃ popped, s.closures.popClosureUntil task.committedIndex task.ooCommittedEntries =
        some popped ∧
      t.closures = popped.queue ∧ t.lastAppliedIndex = task.committedIndex ∧
      ∃ full, full = popped.outIndexes ++ (if popped.out = [] then
          indexRange (s.lastAppliedIndex + 1) task.committedIndex else []) ∧
        t.handed.map Prod.fst = s.handed.map Prod.fst ++ full ∧
        ∀ i ∈ full, (getEntry i).isSome = true := by
  unfold FsmCaller.doCommitted at hrun
  rw [if_neg (by simp [hs]), if_neg hwork] at hrun
  obtain ⟨popped, hpop, hrun⟩ := Option.bind_eq_some_iff.mp hrun
  obtain ⟨⟨handed, iter⟩, hwalk, hrun⟩ := Option.bind_eq_some_iff.mp hrun
  obtain ⟨⟨queue, advance⟩, hqueue, hrun⟩ := Option.bind_eq_some_iff.mp hrun
  cases hrun
  obtain ⟨full, hfull⟩ : ∃ full, full = popped.outIndexes ++ (if popped.out = [] then
      indexRange (s.lastAppliedIndex + 1) task.committedIndex else []) := ⟨_, rfl⟩
  have habove : ∀ i ∈ full, s.lastAppliedIndex < i := by
    intro i hi
    rw [hfull] at hi
    rcases List.mem_append.mp hi with hpopped | hseq
    · rcases List.mem_append.mp (popClosureUntil_subset hpop i hpopped) with hlow | hlist
      · have := (mem_indexRange.mp hlow).1
        omega
      · exact hoo i hlist
    · split at hseq
      · have := (mem_indexRange.mp hseq).1
        omega
      · cases hseq
  have hwalked : handed.map Prod.fst = full ∧ iter.indexList = full ∧
      ∀ i ∈ full, (getEntry i).isSome = true := by
    rcases @next_reads getEntry ⟨popped.out, task.committedIndex, s.lastAppliedIndex, -1, 0, none,
      popped.outIndexes, false⟩ full 0 rfl (Nat.zero_le _) hfull.symm with
      hstart | ⟨hend, hlist, hit⟩
    · exact walk_reads hstart hwalk ht
    · obtain ⟨rfl, rfl⟩ := walk_ended hit hwalk
      have hnil := List.length_eq_zero_iff.mp hend.symm
      exact ⟨hnil.symm, hlist, by simp [hnil]⟩
  obtain ⟨hlist, hindexes, hentries⟩ := hwalked
  rw [hindexes] at hqueue
  have hadvance := popApplied_marked habove hquiet hqueue
  refine ⟨popped, hpop, rfl, by simp [hadvance], full, hfull, ?_, hentries⟩
  rw [List.map_append, hlist]

end Walk

/-- The leader and its pipeline, and lists that are not older than what was applied. -/
structure Inv (s : Proposer) : Prop where
  leader : LeaderApply.Inv s.leader
  pipeline : ApplyOrder.Inv s.pipeline
  applied : ∀ x ∈ s.leader.tasks ++ s.leader.calls,
    s.leader.caller.lastAppliedIndex ≤ x.committedIndex

section Steps

variable {currentTerm : Int} {lookBack : Nat} {s t : Proposer}

theorem Inv.length (h : Inv s) : (s.pipeline.log.length : Int) = s.leader.log.length := by
  have hleader := h.leader.logged
  have hpipeline : s.leader.ledger.bound = s.pipeline.log.length + 1 := h.pipeline.bound
  omega

private theorem getEntry_iff (h : Inv s) (i : Int) :
    (s.leader.getEntry i).isSome = s.pipeline.hasEntry i := by
  have hlength := h.length
  unfold Leader.getEntry Pipeline.hasEntry
  by_cases hin : 0 ≤ i - 1 ∧ i - 1 < s.leader.log.length
  · obtain ⟨entry, hentry⟩ := exists_item (q := s.leader.log) hin.1 hin.2
    obtain ⟨other, hother⟩ := exists_item (q := s.pipeline.log) hin.1 (by omega)
    rw [hentry, hother]
    rfl
  · have outside : ∀ {α : Type} {q : List α}, (q.length : Int) = s.leader.log.length →
        item q (i - 1) = none := by
      intro α q hq
      by_cases hneg : i - 1 < 0
      · exact item_none_of_neg q hneg
      · exact item_none_of_le (by omega)
    rw [outside rfl, outside hlength]
    rfl

private theorem Inv.upToDate (h : Inv s) (count : Nat) : s.leader.UpToDate (.run count) := by
  have happlied : ∀ x ∈ s.leader.tasks.take count,
      s.leader.caller.lastAppliedIndex ≤ x.committedIndex := by
    intro x hx
    exact h.applied x (List.mem_append_left _ (List.mem_of_mem_take hx))
  have hmax := (ApplyOrder.maxCommittedIndex_spec (s.leader.tasks.take count)).1
  by_cases hnil : (s.leader.batch count).ooCommittedEntries = []
  · exact .inl hnil
  · obtain ⟨i, hi⟩ := List.exists_mem_of_ne_nil _ hnil
    obtain ⟨x, hx, -⟩ := List.mem_flatMap.mp hi
    refine .inr ⟨(happlied x hx).trans (hmax x hx), fun i hi => ?_⟩
    obtain ⟨y, hy, hin⟩ := List.mem_flatMap.mp hi
    have := h.leader.above y (List.mem_of_mem_take hy) i hin
    have := happlied y hy
    omega

theorem Inv.later (h : Inv s) (count : Nat) (x : Committed)
    (hx : x ∈ s.leader.tasks.drop count ++ s.leader.calls) :
    (s.leader.batch count).committedIndex ≤ x.committedIndex := by
  have hsplit : schedule s.pipeline = s.leader.tasks.take count ++ ((s.leader.tasks.drop count ++
      s.leader.calls) ++ s.leader.reports.map (Committed.mk s.leader.box.lastCommittedIndex)) := by
    rw [← List.append_assoc, ← List.append_assoc, List.take_append_drop]
    rfl
  have hin : x ∈ schedule s.pipeline := by
    rw [hsplit]
    exact List.mem_append_right _ (List.mem_append_left _ hx)
  have hlow : s.leader.ledger.first - 1 ≤ x.committedIndex := (h.pipeline.queued.latest x hin).1
  have hpositive := h.leader.positive
  by_cases hzero : 0 ≤ (s.leader.batch count).committedIndex
  · obtain ⟨y, hy, heq⟩ := (ApplyOrder.maxCommittedIndex_spec _).2 hzero
    have hsorted := h.pipeline.queued.sorted
    rw [hsplit] at hsorted
    have heq : y.committedIndex = (s.leader.batch count).committedIndex := heq
    rw [← heq]
    exact (List.pairwise_append.mp hsorted).2.2 y hy x (List.mem_append_left _ hx)
  · omega

private theorem run_lists {leader : Leader} {count : Nat}
    (hleader : s.leader.step (.run count) = some leader) :
    leader.tasks = s.leader.tasks.drop count ∧ leader.calls = s.leader.calls := by
  simp only [Leader.step] at hleader
  split at hleader
  · obtain ⟨caller, -, rfl⟩ := Option.map_eq_some_iff.mp hleader
    exact ⟨rfl, rfl⟩
  · cases hleader
    exact ⟨rfl, rfl⟩

private theorem pipeline_apply {task : Replication.DependencyMask.Task} {done : Option Nat}
    {ballot : QuorumLedger.Task} (h : Inv s)
    (hstep : s.step currentTerm lookBack (.apply task done ballot) = some t) :
    s.pipeline.step currentTerm lookBack (.apply task done ballot) = some t.pipeline := by
  have hlength := h.length
  simp only [Proposer.step, Proposer.appendTask] at hstep
  simp only [Pipeline.step, Pipeline.appendTask]
  split at hstep
  · rename_i hterm
    cases hstep
    rw [if_pos hterm]
  · rename_i hterm
    simp only [Leader.step, Option.map_some] at hstep
    cases hstep
    rw [if_neg hterm]
    simp only [hlength]
    simp only [Proposer.pipeline, Proposer.entries, Proposer.before, Proposer.delivered,
      Ledger.append, List.append_assoc]

private theorem pipeline_commitAt {ack : Acknowledgement}
    (hstep : s.step currentTerm lookBack (.commitAt ack) = some t) :
    s.pipeline.step currentTerm lookBack (.commitAt ack) = some t.pipeline := by
  obtain ⟨leader, hleader, rfl⟩ := Option.map_eq_some_iff.mp hstep
  obtain ⟨outcome, hrun, heq⟩ := Option.bind_eq_some_iff.mp hleader
  cases heq
  have hfirst := ApplyOrder.commit_first s.leader.ledger ack.indexes ack.peer
  have hbox : s.pipeline.box.commitAt ack.indexes ack.peer = some outcome := hrun
  simp only [Pipeline.step, hbox, Option.bind_eq_bind, Option.bind_some]
  simp only [Proposer.pipeline, Proposer.entries, Proposer.before, Proposer.delivered, hfirst]

private theorem pipeline_load {position : Nat}
    (hstep : s.step currentTerm lookBack (.load position) = some t) :
    s.pipeline.step currentTerm lookBack (.load position) = some t.pipeline := by
  obtain ⟨leader, hleader, rfl⟩ := Option.map_eq_some_iff.mp hstep
  simp only [Leader.step] at hleader
  have hreports : s.pipeline.reports = s.leader.reports := rfl
  cases hreport : s.leader.reports[position]? with
  | none =>
    rw [hreport] at hleader
    cases hleader
    simp only [Pipeline.step, hreports, hreport]
  | some report =>
    rw [hreport] at hleader
    cases hleader
    simp only [Pipeline.step, hreports, hreport]
    rfl

private theorem pipeline_onCommitted {position : Nat}
    (hstep : s.step currentTerm lookBack (.onCommitted position) = some t) :
    s.pipeline.step currentTerm lookBack (.onCommitted position) = some t.pipeline := by
  obtain ⟨leader, hleader, rfl⟩ := Option.map_eq_some_iff.mp hstep
  simp only [Leader.step] at hleader
  have hcalls : s.pipeline.calls = s.leader.calls := rfl
  cases hcall : s.leader.calls[position]? with
  | none =>
    rw [hcall] at hleader
    cases hleader
    simp only [Pipeline.step, hcalls, hcall]
  | some call =>
    rw [hcall] at hleader
    cases hleader
    simp only [Pipeline.step, hcalls, hcall]
    rfl

/-- The loop of `do_committed` does what the pipeline says, and the applied index is then
the committed one of the batch. -/
private theorem pipeline_run {count : Nat} (h : Inv s)
    (hstep : s.step currentTerm lookBack (.run count) = some t)
    (ht : t.leader.caller.error = false) :
    s.pipeline.step currentTerm lookBack (.run count 0 none) = some t.pipeline ∧
      (t.leader.caller.lastAppliedIndex = s.leader.caller.lastAppliedIndex ∨
        t.leader.caller.lastAppliedIndex = (s.leader.batch count).committedIndex) := by
  have g := h.leader.given
  have hs := g.noError
  have hfirst := g.firstIndex
  obtain ⟨leader, hleader, rfl⟩ := Option.map_eq_some_iff.mp hstep
  simp only [Leader.step] at hleader
  show (if 0 ≤ (s.leader.batch count).committedIndex then
    (ApplyOrder.taken s.pipeline count).doCommitted (s.leader.batch count).committedIndex
      (s.leader.batch count).ooCommittedEntries 0 none
    else some (ApplyOrder.taken s.pipeline count)) = _ ∧ _
  have hs' : ¬ (ApplyOrder.taken s.pipeline count).error = true := by
    simp [ApplyOrder.taken, Proposer.pipeline, hs]
  split at hleader
  · rename_i hzero
    rw [if_pos hzero]
    obtain ⟨caller, hcaller, rfl⟩ := Option.map_eq_some_iff.mp hleader
    by_cases hskip : (s.leader.batch count).committedIndex ≤ s.leader.caller.lastAppliedIndex ∧
        (s.leader.batch count).ooCommittedEntries = []
    · rw [FsmCaller.doCommitted, if_neg (by simp [hs]), if_pos hskip] at hcaller
      cases hcaller
      have hskip' : (s.leader.batch count).committedIndex ≤
          (ApplyOrder.taken s.pipeline count).lastAppliedIndex ∧
            (s.leader.batch count).ooCommittedEntries = [] := hskip
      rw [Pipeline.doCommitted, if_neg hs', if_pos hskip']
      exact ⟨rfl, .inl rfl⟩
    · have hoo : ∀ i ∈ (s.leader.batch count).ooCommittedEntries,
          s.leader.caller.lastAppliedIndex < i := by
        rcases h.upToDate count with hnil | ⟨-, habove⟩
        · rw [hnil]
          simp
        · exact habove
      obtain ⟨popped, hpop, hclosures, hlast, full, hfull, hhanded, hentries⟩ :=
        doCommitted_sound hcaller hs ht (by omega) hoo g.quiet hskip
      have hpop' : (ApplyOrder.taken s.pipeline count).closures.popClosureUntil
          (s.leader.batch count).committedIndex (s.leader.batch count).ooCommittedEntries =
            some popped := hpop
      have hwhole : full.takeWhile (ApplyOrder.taken s.pipeline count).hasEntry = full := by
        refine List.takeWhile_eq_self_iff.mpr fun i hi => ?_
        exact (getEntry_iff h i).symm.trans (hentries i hi)
      have hlist : popped.outIndexes ++ (if popped.out = [] then
          indexRange ((ApplyOrder.taken s.pipeline count).lastAppliedIndex + 1)
            (s.leader.batch count).committedIndex else []) = full := hfull.symm
      have ht : caller.error = false := ht
      have hskip' : ¬ ((s.leader.batch count).committedIndex ≤
          (ApplyOrder.taken s.pipeline count).lastAppliedIndex ∧
            (s.leader.batch count).ooCommittedEntries = []) := hskip
      rw [Pipeline.doCommitted, if_neg hs', if_neg hskip', hpop']
      simp only [Option.bind_eq_bind, Option.bind_some, hlist, Pipeline.iterate, hwhole]
      refine ⟨?_, .inr hlast⟩
      simp [ApplyOrder.taken, Proposer.pipeline, Proposer.entries, Proposer.before,
        Proposer.delivered, hclosures, hlast, hhanded, ht]
  · rename_i hzero
    cases hleader
    rw [if_neg hzero]
    exact ⟨rfl, .inl rfl⟩

/-- What only `apply` changes. -/
theorem leader_keeps {leader : Leader} {event : LeaderApply.Event}
    (hevent : ∀ entry done ballot, event ≠ .apply entry done ballot)
    (hstep : s.leader.step event = some leader) :
    leader.log = s.leader.log ∧ leader.appended = s.leader.appended ∧
      leader.ledger.first = s.leader.ledger.first ∧
      leader.ledger.bound = s.leader.ledger.bound ∧
      ∃ given, leader.caller.handed = s.leader.caller.handed ++ given := by
  cases event with
  | apply entry done ballot => exact absurd rfl (hevent entry done ballot)
  | commitAt ack =>
    obtain ⟨outcome, -, heq⟩ := Option.bind_eq_some_iff.mp hstep
    cases heq
    exact ⟨rfl, rfl, ApplyOrder.commit_first .., ApplyOrder.commit_bound .., [], by simp⟩
  | load position =>
    simp only [Leader.step] at hstep
    split at hstep <;> (cases hstep; exact ⟨rfl, rfl, rfl, rfl, [], by simp⟩)
  | onCommitted position =>
    simp only [Leader.step] at hstep
    split at hstep <;> (cases hstep; exact ⟨rfl, rfl, rfl, rfl, [], by simp⟩)
  | run count =>
    simp only [Leader.step] at hstep
    split at hstep
    · obtain ⟨caller, hcaller, rfl⟩ := Option.map_eq_some_iff.mp hstep
      refine ⟨rfl, rfl, rfl, rfl, ?_⟩
      unfold FsmCaller.doCommitted at hcaller
      split at hcaller
      · cases hcaller
        exact ⟨[], by simp⟩
      · split at hcaller
        · cases hcaller
          exact ⟨[], by simp⟩
        · obtain ⟨popped, -, hcaller⟩ := Option.bind_eq_some_iff.mp hcaller
          obtain ⟨⟨given, iter⟩, -, hcaller⟩ := Option.bind_eq_some_iff.mp hcaller
          obtain ⟨⟨queue, advance⟩, -, hcaller⟩ := Option.bind_eq_some_iff.mp hcaller
          cases hcaller
          exact ⟨given, rfl⟩
    · cases hstep
      exact ⟨rfl, rfl, rfl, rfl, [], by simp⟩

theorem leader_handed {leader : Leader} {event : LeaderApply.Event}
    (hevent : ∀ count, event ≠ .run count) (hstep : s.leader.step event = some leader) :
    leader.caller.handed = s.leader.caller.handed := by
  cases event with
  | run count => exact absurd rfl (hevent count)
  | apply entry done ballot =>
    cases hstep
    rfl
  | commitAt ack =>
    obtain ⟨outcome, -, heq⟩ := Option.bind_eq_some_iff.mp hstep
    cases heq
    rfl
  | load position =>
    simp only [Leader.step] at hstep
    split at hstep <;> (cases hstep; rfl)
  | onCommitted position =>
    simp only [Leader.step] at hstep
    split at hstep <;> (cases hstep; rfl)

theorem Inv.follow {event : ApplyPipeline.Event} {leaderEvent : LeaderApply.Event} (h : Inv s)
    (hleader : s.leader.step leaderEvent = some t.leader)
    (hguard : s.leader.UpToDate leaderEvent)
    (hstep : s.pipeline.step currentTerm lookBack event = some t.pipeline)
    (horderly : ApplyOrder.Orderly s.pipeline event)
    (happlied : LeaderApply.Inv t.leader → ∀ x ∈ t.leader.tasks ++ t.leader.calls,
      t.leader.caller.lastAppliedIndex ≤ x.committedIndex) : Inv t := by
  obtain ⟨t', ht', hinv, -⟩ := LeaderApply.inv_step s.leader leaderEvent h.leader hguard
  cases hleader.symm.trans ht'
  obtain ⟨q, hq, hpipeline⟩ :=
    ApplyOrder.inv_step currentTerm lookBack s.pipeline event h.pipeline horderly
  cases hstep.symm.trans hq
  exact ⟨hinv, hpipeline, happlied hinv⟩

theorem inv_step (currentTerm : Int) (lookBack : Nat) (s : Proposer) (event : Event) (h : Inv s)
    (hordered : s.Ordered event) :
    ∃ t, s.step currentTerm lookBack event = some t ∧ Inv t := by
  -- Every step of the leader is defined.
  have defined : ∀ {leaderEvent}, s.leader.UpToDate leaderEvent →
      ∃ leader, s.leader.step leaderEvent = some leader := by
    intro leaderEvent hguard
    obtain ⟨leader, hleader, -, -⟩ := LeaderApply.inv_step s.leader leaderEvent h.leader hguard
    exact ⟨leader, hleader⟩
  cases event with
  | apply task done ballot =>
    by_cases hterm : task.expectedTerm ≠ -1 ∧ task.expectedTerm ≠ currentTerm
    · exact ⟨s, if_pos hterm, h⟩
    · obtain ⟨t, ht⟩ : ∃ t, s.step currentTerm lookBack (.apply task done ballot) = some t :=
        ⟨_, if_neg hterm⟩
      have hpipeline := pipeline_apply h ht
      refine ⟨t, ht, ?_⟩
      have happend : s.step currentTerm lookBack (.apply task done ballot) = _ := if_neg hterm
      rw [happend] at ht
      obtain ⟨leader, hleader, rfl⟩ := Option.map_eq_some_iff.mp ht
      refine h.follow hleader trivial hpipeline trivial fun _ => ?_
      cases hleader
      exact h.applied
  | commitAt ack =>
    obtain ⟨leader, hleader⟩ := @defined (.commitAt ack) trivial
    have ht : s.step currentTerm lookBack (.commitAt ack) = some { s with leader := leader } := by
      rw [Proposer.step, hleader, Option.map_some]
    refine ⟨_, ht, h.follow hleader trivial (pipeline_commitAt ht) hordered fun _ => ?_⟩
    obtain ⟨outcome, -, heq⟩ := Option.bind_eq_some_iff.mp hleader
    cases heq
    exact h.applied
  | load position =>
    obtain ⟨leader, hleader⟩ := @defined (.load position) trivial
    have ht : s.step currentTerm lookBack (.load position) = some { s with leader := leader } := by
      rw [Proposer.step, hleader, Option.map_some]
    refine ⟨_, ht, h.follow hleader trivial (pipeline_load ht) hordered fun _ => ?_⟩
    have hcommitted := h.leader.applied
    simp only [Leader.step] at hleader
    split at hleader
    · cases hleader
      exact h.applied
    · cases hleader
      intro x hx
      rw [← List.append_assoc] at hx
      rcases List.mem_append.mp hx with hold | hnew
      · exact h.applied x hold
      · cases List.mem_singleton.mp hnew
        exact hcommitted
  | onCommitted position =>
    obtain ⟨leader, hleader⟩ := @defined (.onCommitted position) trivial
    have ht : s.step currentTerm lookBack (.onCommitted position) =
        some { s with leader := leader } := by
      rw [Proposer.step, hleader, Option.map_some]
    refine ⟨_, ht, h.follow hleader trivial (pipeline_onCommitted ht) hordered fun _ => ?_⟩
    simp only [Leader.step] at hleader
    split at hleader
    · cases hleader
      exact h.applied
    · rename_i call hcall
      cases hleader
      intro x hx
      have hin : call ∈ s.leader.calls := List.mem_of_getElem? hcall
      rcases List.mem_append.mp hx with htasks | hcalls
      · rcases List.mem_append.mp htasks with hold | hnew
        · exact h.applied x (List.mem_append_left _ hold)
        · cases List.mem_singleton.mp hnew
          exact h.applied call (List.mem_append_right _ hin)
      · exact h.applied x (List.mem_append_right _ (List.mem_of_mem_eraseIdx hcalls))
  | run count =>
    have hguard := h.upToDate count
    obtain ⟨leader, hleader, hinv, -⟩ := LeaderApply.inv_step s.leader (.run count) h.leader hguard
    have ht : s.step currentTerm lookBack (.run count) = some { s with leader := leader } := by
      rw [Proposer.step, hleader, Option.map_some]
    obtain ⟨hpipeline, hlast⟩ := pipeline_run h ht hinv.given.noError
    refine ⟨_, ht, h.follow hleader hguard hpipeline trivial fun _ x hx => ?_⟩
    obtain ⟨htasks, hcalls⟩ := run_lists hleader
    have hx : x ∈ s.leader.tasks.drop count ++ s.leader.calls := htasks ▸ hcalls ▸ hx
    show leader.caller.lastAppliedIndex ≤ x.committedIndex
    rcases hlast with hsame | hbatch
    · have hlast : leader.caller.lastAppliedIndex = s.leader.caller.lastAppliedIndex := hsame
      rw [hlast]
      refine h.applied x ?_
      rcases List.mem_append.mp hx with htask | hcall
      · exact List.mem_append_left _ (List.mem_of_mem_drop htask)
      · exact List.mem_append_right _ hcall
    · have hlast : leader.caller.lastAppliedIndex = (s.leader.batch count).committedIndex := hbatch
      rw [hlast]
      exact h.later count x hx

end Steps

section Start

variable {earlier : List LogEntry} {lastCommittedIndex lastAppliedIndex : Int}
  {ooApplyQueue : List Bool}

private theorem settled_start
    (h : CaughtUp earlier lastCommittedIndex lastAppliedIndex ooApplyQueue) :
    Settled ((indexRange 1 earlier.length).map fun _ => Proposer.blank) lastCommittedIndex
      lastAppliedIndex (indexRange 1 earlier.length) := by
  have hlength : ((indexRange 1 earlier.length).map fun _ => Proposer.blank).length =
      earlier.length := by
    rw [List.length_map, length_indexRange]
    omega
  refine ⟨by rw [hlength, h.committed], by rw [hlength, h.applied], ?_, ?_, ?_⟩
  · intro i hlo hhi
    rw [hlength] at hhi
    exact mem_indexRange.mpr ⟨hlo, hhi⟩
  · intro i hi
    rw [hlength]
    exact (mem_indexRange.mp hi).2
  · rintro pre i post - j ⟨k, -, entry, hentry, other, -, hbit, -⟩
    -- A blank entry has no bit in its mask.
    have hblank : entry = Proposer.blank := by
      have hmem := List.mem_of_getElem? (by
        have := item_eq_some_bounds hentry
        rwa [item, if_pos this.1] at hentry)
      obtain ⟨_, -, rfl⟩ := List.mem_map.mp hmem
      rfl
    rw [hblank] at hbit
    simp [Proposer.blank] at hbit

theorem inv_start (dependencyIdQueue : List Int)
    (h : CaughtUp earlier lastCommittedIndex lastAppliedIndex ooApplyQueue) :
    Inv (.start earlier dependencyIdQueue lastCommittedIndex lastAppliedIndex ooApplyQueue) := by
  have hbefore : indexRange 1 ((earlier.length : Int) + 1 - 1) = indexRange 1 earlier.length := by
    rw [Int.add_sub_cancel]
  have hlength : ((indexRange 1 earlier.length).map fun _ => Proposer.blank).length =
      earlier.length := by
    rw [List.length_map, length_indexRange]
    omega
  have hpipeline := ApplyOrder.inv_start dependencyIdQueue (settled_start h)
  refine ⟨LeaderApply.inv_start h, ?_, by simp [Proposer.start, Leader.start]⟩
  have hsame : (Proposer.start earlier dependencyIdQueue lastCommittedIndex lastAppliedIndex
      ooApplyQueue).pipeline = .start ((indexRange 1 earlier.length).map fun _ => Proposer.blank)
        dependencyIdQueue lastCommittedIndex lastAppliedIndex (indexRange 1 earlier.length) := by
    simp only [Proposer.pipeline, Proposer.entries, Proposer.before, Proposer.delivered,
      Proposer.start, Leader.start, Pipeline.start, Ledger.start, hbefore, hlength, List.map_nil,
      List.append_nil]
  rw [hsame]
  exact hpipeline

end Start

/-- The state machine gets each entry of the leadership at most once and behind the
entries that its mask points at. -/
theorem Inv.supplied {s : Proposer} (h : Inv s) :
    s.delivered.Nodup ∧ Supplied (Depends s.entries) (· ∈ s.before) s.delivered := by
  refine ⟨h.leader.given.once, ?_⟩
  have hordered : Supplied (Depends s.entries) (fun _ => False) (s.before ++ s.delivered) :=
    h.pipeline.ordered
  refine (supplied_append.mp hordered).2.mono ?_
  rintro i (hfalse | hi)
  · exact hfalse.elim
  · exact hi

end HitConsistency.Commit.OrderedDelivery
