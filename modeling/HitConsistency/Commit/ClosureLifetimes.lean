/- GID: HitConsistency/Commit/ClosureLifetimes
   digest: Closures over any number of leaderships, from append_pending_closure to pop or clear. -/

import HitConsistency.Commit.LeadershipClosures
import Mathlib.Data.List.ReduceOption

set_option autoImplicit false
set_option relaxedAutoImplicit false

namespace HitConsistency.Commit.ClosureLifetimes

open HitConsistency.Base.GuardedRuns
open HitConsistency.Base.IndexedDeque
open HitConsistency.Commit.ApplyOrder
open HitConsistency.Commit.ApplyPipeline
open HitConsistency.Commit.ClosurePairs
open HitConsistency.Commit.LeadershipClosures

/-- A queue with the closures appended so far and those that were run; what stands for
a missing closure is neither. -/
structure Lifetime where
  queue : ClosureQueue
  appended : List Nat
  delivered : List Nat

inductive Event
  | resetFirstIndex (firstIndex : Int)
  | appendPendingClosure (closure : Option Nat)
  | popClosureUntil (toIndex : Int) (ooCommittedEntries : List Int)
  | clear

namespace Lifetime

def new : Lifetime := ⟨.new, [], []⟩

def step (s : Lifetime) : Event → Option Lifetime
  | .resetFirstIndex firstIndex => some { s with queue := s.queue.resetFirstIndex firstIndex }
  | .appendPendingClosure closure =>
      some { s with
        queue := s.queue.appendPendingClosure closure
        appended := s.appended ++ closure.toList }
  | .popClosureUntil toIndex ooCommittedEntries =>
      (s.queue.popClosureUntil toIndex ooCommittedEntries).map fun popped =>
        { s with queue := popped.queue, delivered := s.delivered ++ popped.out.reduceOption }
  | .clear =>
      some { s with
        queue := s.queue.clear
        delivered := s.delivered ++ s.queue.queue.reduceOption }

end Lifetime

/-- A list of indexes that were all popped is answered without a look at the queue, and
so is any list when no closure is queued. -/
def PopAllowed (q : ClosureQueue) (toIndex : Int) (ooCommittedEntries : List Int) : Prop :=
  q.queue = [] ∨ (∃ back ∈ ooCommittedEntries.getLast?, back < q.firstIndex) ∨
    toIndex < q.firstIndex + q.queue.length ∧
      ∀ i ∈ ooCommittedEntries, q.firstIndex ≤ i ∧ i < q.firstIndex + q.queue.length

/-- The `CHECK` of the reset, and the range of a pop. -/
def Allowed (s : Lifetime) : Event → Prop
  | .resetFirstIndex _ => s.queue.queue = []
  | .appendPendingClosure _ => True
  | .popClosureUntil toIndex ooCommittedEntries => PopAllowed s.queue toIndex ooCommittedEntries
  | .clear => True

/-- A clear finds no closure in the queue that was handed out already. -/
def ClearsUndelivered (s : Lifetime) : Event → Prop
  | .clear => true ∉ s.queue.hasCommittedQueue
  | _ => True

/-- At any time no closure was run more often than it was appended; behind a clear each
was run as often as it was appended, and the next leadership pairs its closures well. -/
def AnsweredOnce (events : List Event) : Prop :=
  ∀ pre post, events = pre ++ post → ∃ s, runEvents Lifetime.step .new pre = some s ∧
    s.delivered.Subperm s.appended ∧
    (pre.getLast? = some .clear →
      s.delivered.Perm s.appended ∧ ∀ first, PairsWell first s.queue)

instance allowedDecidable (s : Lifetime) : ∀ event, Decidable (Allowed s event)
  | .resetFirstIndex _ => inferInstanceAs (Decidable (_ = _))
  | .appendPendingClosure _ => inferInstanceAs (Decidable True)
  | .popClosureUntil _ _ => inferInstanceAs (Decidable (_ ∨ _))
  | .clear => inferInstanceAs (Decidable True)

instance clearsUndeliveredDecidable (s : Lifetime) : ∀ event, Decidable (ClearsUndelivered s event)
  | .resetFirstIndex _ => inferInstanceAs (Decidable True)
  | .appendPendingClosure _ => inferInstanceAs (Decidable True)
  | .popClosureUntil _ _ => inferInstanceAs (Decidable True)
  | .clear => inferInstanceAs (Decidable (_ ∉ _))

/-- The closures that wait for an answer: those with an unset flag. -/
def owed : List (Option Nat) → List Bool → List Nat
  | closure :: queue, flag :: flags =>
      (if flag then [] else closure.toList) ++ owed queue flags
  | _, _ => []

section Owed

variable {queue : List (Option Nat)} {flags : List Bool}

private theorem owed_append (hlength : queue.length = flags.length) (closure : Option Nat) :
    owed (queue ++ [closure]) (flags ++ [false]) = owed queue flags ++ closure.toList := by
  induction queue generalizing flags with
  | nil =>
    have hnil : flags = [] := List.length_eq_zero_iff.mp hlength.symm
    simp [hnil, owed]
  | cons head queue ih =>
    cases flags with
    | nil => simp at hlength
    | cons flag flags =>
      have hrest : owed (queue ++ [closure]) (flags ++ [false]) =
          owed queue flags ++ closure.toList := ih (by simpa using hlength)
      simp [owed, hrest]

private theorem owed_unset (hlength : queue.length = flags.length) (hunset : true ∉ flags) :
    owed queue flags = queue.reduceOption := by
  induction queue generalizing flags with
  | nil => cases flags <;> rfl
  | cons closure queue ih =>
    cases flags with
    | nil => simp at hlength
    | cons flag flags =>
      obtain ⟨hflag, hrest⟩ := not_or.mp (mt List.mem_cons.mpr hunset)
      have hfalse : flag = false := by simpa using Ne.symm hflag
      rw [owed, ih (by simpa using hlength) hrest, hfalse]
      cases closure <;> simp [List.reduceOption_cons_of_some, List.reduceOption_cons_of_none]

private theorem owed_set {n : Nat} {closure : Option Nat} (hclosure : queue[n]? = some closure)
    (hflag : flags[n]? = some false) :
    (owed queue flags).Perm (owed queue (flags.set n true) ++ closure.toList) := by
  induction n generalizing queue flags with
  | zero =>
    cases queue with
    | nil => simp at hclosure
    | cons head queue =>
      cases flags with
      | nil => simp at hflag
      | cons flag flags =>
        simp only [List.getElem?_cons_zero, Option.some.injEq] at hclosure hflag
        subst hclosure hflag
        simpa [owed] using List.perm_append_comm
  | succ n ih =>
    cases queue with
    | nil => simp at hclosure
    | cons head queue =>
      cases flags with
      | nil => simp at hflag
      | cons flag flags =>
        have hrest : (owed queue flags).Perm (owed queue (flags.set n true) ++ closure.toList) :=
          ih (by simpa using hclosure) (by simpa using hflag)
        simpa [owed] using hrest.append_left _

end Owed

private theorem owed_popOne {popped popped' : Popped} {i : Int}
    (hrun : ClosureQueue.popOne popped i = some popped') :
    (owed popped'.queue.queue popped'.queue.hasCommittedQueue ++ popped'.out.reduceOption).Perm
      (owed popped.queue.queue popped.queue.hasCommittedQueue ++ popped.out.reduceOption) := by
  obtain ⟨flag, hflag, hrun⟩ := Option.bind_eq_some_iff.mp hrun
  split at hrun
  · cases hrun
    exact .refl _
  · rename_i hunset
    obtain ⟨closure, hclosure, hrun⟩ := Option.bind_eq_some_iff.mp hrun
    obtain ⟨flags, hflags, hrun⟩ := Option.bind_eq_some_iff.mp hrun
    cases hrun
    have hflag' : flag = false := by simpa using hunset
    subst hflag'
    have hpos := item_eq_some_bounds hflag
    rw [item, if_pos hpos.1] at hflag hclosure
    rw [store, if_pos hpos] at hflags
    cases hflags
    have htaken := owed_set hclosure hflag
    have hone : ([closure] : List (Option Nat)).reduceOption = closure.toList := by
      cases closure <;> rfl
    show (owed popped.queue.queue _ ++ (popped.out ++ [closure]).reduceOption).Perm _
    rw [List.reduceOption_append, hone]
    refine List.Perm.trans ?_ (htaken.symm.append_right _)
    rw [List.append_assoc]
    exact List.perm_append_comm.append_left _

private theorem owed_popLoop {popped popped' : Popped} {xs : List Int}
    (hrun : runEvents ClosureQueue.popOne popped xs = some popped') :
    (owed popped'.queue.queue popped'.queue.hasCommittedQueue ++ popped'.out.reduceOption).Perm
      (owed popped.queue.queue popped.queue.hasCommittedQueue ++ popped.out.reduceOption) := by
  induction xs generalizing popped with
  | nil =>
    cases hrun
    exact .refl _
  | cons x xs ih =>
    obtain ⟨mid, hmid, hrest⟩ := runEvents_cons_eq_some.mp hrun
    exact (ih hrest).trans (owed_popOne hmid)

private theorem owed_popFront {first : Int} {queue : List (Option Nat)} {flags : List Bool}
    {rest : ClosureQueue} (hrun : ClosureQueue.popFront first queue flags = some rest) :
    owed rest.queue rest.hasCommittedQueue = owed queue flags := by
  induction queue generalizing first flags with
  | nil =>
    rcases flags with - | ⟨- | -, flags⟩
    · cases hrun
      rfl
    · cases hrun
      rfl
    · cases hrun
  | cons closure queue ih =>
    rcases flags with - | ⟨- | -, flags⟩
    · cases hrun
      rfl
    · cases hrun
      rfl
    · simpa [owed] using ih hrun

/-- Up to flags that no closure was queued for, the closures that wait and those that
were run are the appended ones. -/
structure Accounted (k : Nat) (q : ClosureQueue) (s : Lifetime) : Prop where
  queue : s.queue = padded q k
  parallel : q.queue.length = q.hasCommittedQueue.length
  all : (owed q.queue q.hasCommittedQueue ++ s.delivered).Perm s.appended

section Runs

variable {k : Nat} {q : ClosureQueue} {s : Lifetime}

theorem Accounted.spans (h : Accounted k q s) : Spans q (q.firstIndex + q.queue.length) :=
  ⟨by rw [h.parallel], h.parallel⟩

theorem Accounted.delivered (h : Accounted k q s) : s.delivered.Subperm s.appended :=
  (List.sublist_append_right _ _).subperm.trans h.all.subperm

private theorem accounted_append (h : Accounted k q s) (closure : Option Nat) :
    Accounted k (q.appendPendingClosure closure)
      { s with
        queue := s.queue.appendPendingClosure closure
        appended := s.appended ++ closure.toList } := by
  refine ⟨?_, ?_, ?_⟩
  · rw [h.queue]
    exact padded_append q k closure
  · simp [ClosureQueue.appendPendingClosure, h.parallel]
  · show (owed (q.queue ++ [closure]) (q.hasCommittedQueue ++ [false]) ++ s.delivered).Perm _
    rw [owed_append h.parallel, List.append_assoc]
    refine List.Perm.trans (List.perm_append_comm.append_left _) ?_
    rw [← List.append_assoc]
    exact h.all.append_right _

private theorem accounted_pop (h : Accounted k q s) {toIndex : Int} {oo : List Int}
    (hallowed : PopAllowed s.queue toIndex oo) :
    ∃ popped q', s.queue.popClosureUntil toIndex oo = some popped ∧
      Accounted k q'
        { s with queue := popped.queue, delivered := s.delivered ++ popped.out.reduceOption } := by
  by_cases hearly : s.queue.queue = [] ∨ ∃ back ∈ oo.getLast?, back < s.queue.firstIndex
  · refine ⟨⟨s.queue, [], oo⟩, q, by rw [ClosureQueue.popClosureUntil, if_pos hearly],
      h.queue, h.parallel, ?_⟩
    simpa using h.all
  · obtain ⟨hto, hoo⟩ : toIndex < s.queue.firstIndex + s.queue.queue.length ∧
        ∀ i ∈ oo, s.queue.firstIndex ≤ i ∧ i < s.queue.firstIndex + s.queue.queue.length := by
      rcases hallowed with hnil | hback | hrange
      · exact absurd (.inl hnil) hearly
      · exact absurd (.inr hback) hearly
      · exact hrange
    have hnonempty : s.queue.queue ≠ [] := fun hnil => hearly (.inl hnil)
    rw [h.queue] at hto hoo hnonempty
    obtain ⟨popped, hrun, hlooped⟩ := popClosureUntil_loops h.spans hnonempty hto hoo
    have hpadded := popClosureUntil_padded k h.spans hnonempty hto hoo
    rw [hrun, ← h.queue] at hpadded
    obtain ⟨loop, hloop, hout, -, -, hfront⟩ := hlooped.hands
    refine ⟨_, popped.queue, hpadded, rfl, hlooped.spans.queue, ?_⟩
    show (owed popped.queue.queue popped.queue.hasCommittedQueue ++
      (s.delivered ++ popped.out.reduceOption)).Perm s.appended
    have htaken := owed_popLoop hloop
    rw [← hout, ← owed_popFront hfront] at htaken
    have hbefore : (owed popped.queue.queue popped.queue.hasCommittedQueue ++
        popped.out.reduceOption).Perm (owed q.queue q.hasCommittedQueue) := by
      simpa using htaken
    refine List.Perm.trans ?_ ((hbefore.append_right s.delivered).trans h.all)
    rw [List.append_assoc]
    exact List.perm_append_comm.append_left _

private theorem accounted_clear (h : Accounted k q s) (hunset : true ∉ s.queue.hasCommittedQueue) :
    Accounted s.queue.hasCommittedQueue.length ⟨0, [], []⟩
      { s with
        queue := s.queue.clear
        delivered := s.delivered ++ s.queue.queue.reduceOption } := by
  have hflags := unset_eq hunset
  have howed : owed q.queue q.hasCommittedQueue = s.queue.queue.reduceOption := by
    have hsub : true ∉ q.hasCommittedQueue := by
      intro hmem
      rw [h.queue] at hunset
      exact hunset (List.mem_append_left _ hmem)
    rw [owed_unset h.parallel hsub, h.queue]
    rfl
  refine ⟨?_, rfl, ?_⟩
  · simp [padded, ClosureQueue.clear, ← hflags]
  · have hall := h.all
    rw [howed] at hall
    show (s.delivered ++ s.queue.queue.reduceOption).Perm s.appended
    exact List.perm_append_comm.trans hall

private theorem accounted_step (h : Accounted k q s) {event : Event} (hallowed : Allowed s event)
    (hclears : ClearsUndelivered s event) :
    ∃ next k' q', s.step event = some next ∧ Accounted k' q' next := by
  cases event with
  | resetFirstIndex firstIndex =>
    refine ⟨_, k, q.resetFirstIndex firstIndex, rfl, ?_, h.parallel, h.all⟩
    rw [h.queue]
    rfl
  | appendPendingClosure closure => exact ⟨_, k, _, rfl, accounted_append h closure⟩
  | popClosureUntil toIndex oo =>
    obtain ⟨popped, q', hrun, hnext⟩ := accounted_pop h hallowed
    refine ⟨_, k, q', ?_, hnext⟩
    rw [Lifetime.step, hrun]
    rfl
  | clear => exact ⟨_, _, _, rfl, accounted_clear h hclears⟩

private theorem accounted_run {events : List Event}
    (hallowed : Guarded Lifetime.step Allowed .new events)
    (hclears : Guarded Lifetime.step ClearsUndelivered .new events) :
    ∃ s k q, runEvents Lifetime.step .new events = some s ∧ Accounted k q s := by
  have hprogress : ∀ t event, (∃ k q, Accounted k q t) →
      Allowed t event ∧ ClearsUndelivered t event →
      ∃ next, t.step event = some next ∧ ∃ k q, Accounted k q next := by
    rintro t event ⟨k, q, ht⟩ ⟨hallow, hclear⟩
    obtain ⟨next, k', q', hstep, hnext⟩ := accounted_step ht hallow hclear
    exact ⟨next, hstep, k', q', hnext⟩
  obtain ⟨s, hrun, k, q, hs⟩ := run_defined_of_step hprogress ⟨0, .new, rfl, rfl, .refl _⟩
    (guarded_and.mpr ⟨hallowed, hclears⟩)
  exact ⟨s, k, q, hrun, hs⟩

end Runs

/-- Over any leaderships each closure is answered once, and a fresh pairing follows every
clear, exactly when no clear finds a closure that was handed out already. -/
theorem answeredOnce_iff (events : List Event)
    (hallowed : Guarded Lifetime.step Allowed .new events) :
    AnsweredOnce events ↔ Guarded Lifetime.step ClearsUndelivered .new events := by
  constructor
  · intro h
    refine guarded_iff.mpr fun pre event post t hsplit hrun => ?_
    cases event with
    | resetFirstIndex firstIndex => trivial
    | appendPendingClosure closure => trivial
    | popClosureUntil toIndex oo => trivial
    | clear =>
      obtain ⟨s, hs, -, hclear⟩ := h (pre ++ [.clear]) post (by simp [hsplit])
      obtain ⟨t', ht', hstep⟩ := runEvents_append_eq_some.mp hs
      rw [hrun] at ht'
      cases ht'
      cases hstep
      intro hset
      obtain ⟨-, hpairs⟩ := hclear (by simp)
      have hleft : true ∈ t.queue.clear.hasCommittedQueue := hset
      exact not_pairsWell_of_set 0 rfl hleft (hpairs 0)
  · intro hclears pre post hsplit
    subst hsplit
    obtain ⟨s, k, q, hrun, hs⟩ :=
      accounted_run (guarded_append_left hallowed) (guarded_append_left hclears)
    refine ⟨s, hrun, hs.delivered, fun hlast => ?_⟩
    obtain ⟨before, rfl⟩ := List.getLast?_eq_some_iff.mp hlast
    obtain ⟨t, ht, hstep⟩ := runEvents_append_eq_some.mp hrun
    have hunset : true ∉ t.queue.hasCommittedQueue :=
      guarded_iff.mp hclears before .clear post t (by simp) ht
    obtain ⟨t', k', q', ht', hbefore⟩ := accounted_run
      (guarded_append_left (guarded_append_left hallowed))
      (guarded_append_left (guarded_append_left hclears))
    rw [ht] at ht'
    cases ht'
    cases hstep
    exact ⟨by simpa [owed] using (accounted_clear hbefore hunset).all,
      fun first => pairsWell_of_unset first rfl hunset⟩

section Samples

/-- Two leaderships; the second closure of the first one is still waiting at the clear. -/
private def orderly : List Event :=
  [.resetFirstIndex 1, .appendPendingClosure (some 1), .appendPendingClosure (some 2),
    .popClosureUntil 1 [], .clear, .resetFirstIndex 3, .appendPendingClosure (some 3),
    .popClosureUntil 3 [], .clear]

theorem orderly_answeredOnce : AnsweredOnce orderly :=
  (answeredOnce_iff orderly (by decide)).mpr (by decide)

/-- The second closure is delivered out of order, and the leader steps down. -/
private def outOfOrder : List Event :=
  [.resetFirstIndex 1, .appendPendingClosure (some 1), .appendPendingClosure (some 2),
    .popClosureUntil 0 [2], .clear]

theorem outOfOrder_answeredTwice : Guarded Lifetime.step Allowed .new outOfOrder ∧
    runEvents Lifetime.step .new outOfOrder =
      some ⟨⟨0, [], [false, true]⟩, [1, 2], [2, 1, 2]⟩ ∧ ¬ AnsweredOnce outOfOrder := by
  refine ⟨by decide, rfl, fun h => ?_⟩
  obtain ⟨s, hs, hsub, -⟩ := h outOfOrder [] (by simp)
  cases hs
  exact absurd hsub.length_le (by decide)

end Samples

end HitConsistency.Commit.ClosureLifetimes
