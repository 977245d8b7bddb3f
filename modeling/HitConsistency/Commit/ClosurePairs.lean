/- GID: HitConsistency/Commit/ClosurePairs
   digest: Which closure pop_closure_until returns with which index, and what it leaves queued. -/

import HitConsistency.Commit.ApplyOrder

set_option autoImplicit false
set_option relaxedAutoImplicit false

namespace HitConsistency.Commit.ClosurePairs

open HitConsistency.Base.GuardedRuns
open HitConsistency.Base.IndexedDeque
open HitConsistency.Commit.ApplyOrder
open HitConsistency.Commit.ApplyPipeline
open HitConsistency.Replication.PeerSender.Replicator (indexRange)

/-- The first loop has returned each index once, with the closure at its position, and
has set its flag. -/
structure Paired (q : ClosureQueue) (popped : Popped) : Prop where
  firstIndex : popped.queue.firstIndex = q.firstIndex
  queue : popped.queue.queue = q.queue
  length : popped.out.length = popped.outIndexes.length
  matched : ∀ p ∈ popped.outIndexes.zip popped.out, item q.queue (p.1 - q.firstIndex) = some p.2
  flagged : ∀ i ∈ popped.outIndexes,
    item popped.queue.hasCommittedQueue (i - q.firstIndex) = some true
  once : popped.outIndexes.Nodup

variable {q : ClosureQueue} {popped popped' : Popped}

theorem paired_start (q : ClosureQueue) : Paired q ⟨q, [], []⟩ :=
  ⟨rfl, rfl, rfl, by simp, by simp, List.nodup_nil⟩

theorem Paired.popOne {index : Int} (h : Paired q popped)
    (hrun : ClosureQueue.popOne popped index = some popped') : Paired q popped' := by
  obtain ⟨flag, hflag, hrun⟩ := Option.bind_eq_some_iff.mp hrun
  split at hrun
  · cases hrun
    exact h
  · rename_i hunset
    obtain ⟨closure, hclosure, hrun⟩ := Option.bind_eq_some_iff.mp hrun
    obtain ⟨flags, hflags, hrun⟩ := Option.bind_eq_some_iff.mp hrun
    cases hrun
    have hnew : index ∉ popped.outIndexes := by
      intro hmem
      have hset := h.flagged index hmem
      rw [← h.firstIndex, hflag] at hset
      cases hset
      exact hunset rfl
    refine ⟨h.firstIndex, h.queue, ?_, ?_, ?_, ?_⟩
    · simp [h.length]
    · intro p hp
      rw [List.zip_append h.length.symm, List.mem_append] at hp
      rcases hp with hold | hlast
      · exact h.matched p hold
      · have hp : p = (index, closure) := by simpa using hlast
        subst hp
        rwa [← h.firstIndex, ← h.queue]
    · intro i hi
      show item flags (i - q.firstIndex) = some true
      rw [item_store hflags, h.firstIndex]
      split
      · rfl
      · rename_i hne
        rcases List.mem_append.mp hi with hold | hlast
        · exact h.flagged i hold
        · cases List.mem_singleton.mp hlast
          exact absurd rfl hne
    · refine List.nodup_append.mpr ⟨h.once, by simp, ?_⟩
      rintro i hi j hj rfl
      cases List.mem_singleton.mp hj
      exact hnew hi

theorem Paired.popLoop {indexes : List Int} (h : Paired q popped)
    (hrun : runEvents ClosureQueue.popOne popped indexes = some popped') : Paired q popped' := by
  induction indexes generalizing popped with
  | nil =>
    cases hrun
    exact h
  | cons index rest ih =>
    obtain ⟨mid, hmid, hrest⟩ := runEvents_cons_eq_some.mp hrun
    exact ih (h.popOne hmid) hrest

/-- The second loop drops as many closures as it moves the first index, and stops in front
of an index that was not returned. -/
theorem popFront_drop {first : Int} {queue : List (Option Nat)} {flags : List Bool}
    {rest : ClosureQueue} (h : ClosureQueue.popFront first queue flags = some rest) :
    ∃ n : Nat, rest.firstIndex = first + n ∧ rest.queue = queue.drop n ∧
      item rest.hasCommittedQueue 0 ≠ some true := by
  induction queue generalizing first flags with
  | nil =>
    rcases flags with - | ⟨- | -, flags⟩
    · cases h
      exact ⟨0, by simp, rfl, by simp [item]⟩
    · cases h
      exact ⟨0, by simp, rfl, by simp [item]⟩
    · cases h
  | cons closure queue ih =>
    rcases flags with - | ⟨- | -, flags⟩
    · cases h
      exact ⟨0, by simp, rfl, by simp [item]⟩
    · cases h
      exact ⟨0, by simp, rfl, by simp [item]⟩
    · obtain ⟨n, hfirst, hqueue, hfront⟩ := ih h
      exact ⟨n + 1, by rw [hfirst]; omega, by simpa using hqueue, hfront⟩

/-- On a list within the queue `pop_closure_until` is its two loops. -/
theorem popClosureUntil_eq {oo : List Int} (hqueue : q.queue ≠ []) (toIndex : Int)
    (hoo : ∀ i ∈ oo, q.firstIndex ≤ i ∧ i < q.firstIndex + q.queue.length) :
    q.popClosureUntil toIndex oo =
      (runEvents ClosureQueue.popOne ⟨q, [], []⟩ (poppedIndexes q toIndex oo)).bind fun loop =>
        (ClosureQueue.popFront loop.queue.firstIndex loop.queue.queue
          loop.queue.hasCommittedQueue).map fun rest => { loop with queue := rest } := by
  have hbelow : ¬ (q.queue = [] ∨ ∃ back ∈ oo.getLast?, back < q.firstIndex) := by
    rintro (hnil | ⟨back, hmem, hlt⟩)
    · exact hqueue hnil
    · have := (hoo back (List.mem_of_getLast? hmem)).1
      omega
  have hbeyond : ¬ ∃ back ∈ oo.getLast?, q.firstIndex + q.queue.length - 1 < back := by
    rintro ⟨back, hmem, hlt⟩
    have := (hoo back (List.mem_of_getLast? hmem)).2
    omega
  rw [ClosureQueue.popClosureUntil, if_neg hbelow, if_neg hbeyond]
  simp only [Option.map_eq_bind]
  rfl

/-- On a queue that has an index waiting `pop_closure_until` returns every index of the two
ranges that was not returned before, once and with its own closure. -/
theorem popClosureUntil_pairs {bound toIndex : Int} {oo : List Int} (h : Spans q bound)
    (hqueue : q.queue ≠ []) (hto : toIndex < bound)
    (hoo : ∀ i ∈ oo, i < bound ∧ ¬ HandedOut q i) :
    ∃ popped, q.popClosureUntil toIndex oo = some popped ∧ Spans popped.queue bound ∧
      (∀ i, HandedOut popped.queue i ↔ HandedOut q i ∨ i ∈ poppedIndexes q toIndex oo) ∧
      (∀ i, i ∈ popped.outIndexes ↔ i ∈ poppedIndexes q toIndex oo ∧ ¬ HandedOut q i) ∧
      popped.out.length = popped.outIndexes.length ∧ popped.outIndexes.Nodup ∧
      (∀ p ∈ popped.outIndexes.zip popped.out, item q.queue (p.1 - q.firstIndex) = some p.2) ∧
      ∃ n : Nat, popped.queue.firstIndex = q.firstIndex + n ∧ popped.queue.queue = q.queue.drop n ∧
        ¬ HandedOut popped.queue popped.queue.firstIndex := by
  obtain ⟨popped, hrun, hspans, -, hout, hindexes, -, -⟩ := popClosureUntil_hands h hto hoo
  refine ⟨popped, hrun, hspans, hout, hindexes, ?_⟩
  have hlow : ∀ i ∈ oo, q.firstIndex ≤ i := fun i hi =>
    (not_handedOut_bounds h (hoo i hi).1 (hoo i hi).2).1
  have hflags := h.flags
  have hlength := h.queue
  have hwithin : ∀ i ∈ oo, q.firstIndex ≤ i ∧ i < q.firstIndex + q.queue.length := by
    intro i hi
    have hhi := (hoo i hi).1
    exact ⟨hlow i hi, by omega⟩
  rw [popClosureUntil_eq hqueue toIndex hwithin] at hrun
  obtain ⟨loop, hloop, hrun⟩ := Option.bind_eq_some_iff.mp hrun
  obtain ⟨rest, hrest, hrun⟩ := Option.map_eq_some_iff.mp hrun
  cases hrun
  have hpaired := (paired_start q).popLoop hloop
  obtain ⟨n, hfirst, hdrop, hfront⟩ := popFront_drop hrest
  rw [hpaired.firstIndex] at hfirst
  rw [hpaired.queue] at hdrop
  refine ⟨hpaired.length, hpaired.once, hpaired.matched, n, hfirst, hdrop, ?_⟩
  rintro (hlt | hset)
  · exact lt_irrefl _ hlt
  · rw [Int.sub_self] at hset
    exact hfront hset

end HitConsistency.Commit.ClosurePairs
