/- GID: HitConsistency/Commit/LeadershipClosures
   digest: One leadership at the closure queue: every call returns its indexes with their closures. -/

import HitConsistency.Commit.ClosurePairs
import Mathlib.Data.List.Sort
import Mathlib.Order.Bounds.Basic

set_option autoImplicit false
set_option relaxedAutoImplicit false

/-!
A leadership starts with `reset_first_index` on a queue without closures. The flags
that an earlier leadership has left are still in the other deque then, in front of
the flags of the new closures.
-/

namespace HitConsistency.Commit.LeadershipClosures

open HitConsistency.Base.GuardedRuns
open HitConsistency.Base.IndexedDeque
open HitConsistency.Commit.ApplyOrder
open HitConsistency.Commit.ApplyPipeline
open HitConsistency.Commit.ClosurePairs
open HitConsistency.Replication.PeerSender (mem_indexRange indexRange_ascending)
open HitConsistency.Replication.PeerSender.Replicator (indexRange)

/-- The closures appended since the reset, and the indexes all calls have returned. -/
structure Leadership where
  queue : ClosureQueue
  appended : List (Option Nat)
  output : List Int

inductive Call
  | append (closure : Option Nat)
  | pop (toIndex : Int) (ooCommittedEntries : List Int)

/-- The arguments that `pop_closure_until` may be given. -/
structure ValidPop (q : ClosureQueue) (toIndex : Int) (ooCommittedEntries : List Int) : Prop where
  nonempty : q.queue ≠ []
  toIndex : toIndex < q.firstIndex + q.queue.length
  increasing : ooCommittedEntries.Pairwise (· < ·)
  queued : ∀ i ∈ ooCommittedEntries, q.firstIndex ≤ i ∧ i < q.firstIndex + q.queue.length

/-- What a call owes in a leadership that began at index `first`. -/
structure Pairs (first : Int) (s : Leadership) (toIndex : Int) (ooCommittedEntries : List Int)
    (popped : Popped) : Prop where
  length : popped.out.length = popped.outIndexes.length
  matched : ∀ p ∈ popped.outIndexes.zip popped.out, item s.appended (p.1 - first) = some p.2
  outIndexes : popped.outIndexes =
    (indexRange first toIndex ++ ooCommittedEntries.filter (toIndex < ·)).filter (· ∉ s.output)
  firstIndex : IsLeast {i | first ≤ i ∧ i ∉ s.output ++ popped.outIndexes} popped.queue.firstIndex

namespace Leadership

def step (s : Leadership) : Call → Option Leadership
  | .append closure =>
      some { s with
        queue := s.queue.appendPendingClosure closure
        appended := s.appended ++ [closure] }
  | .pop toIndex ooCommittedEntries =>
      (s.queue.popClosureUntil toIndex ooCommittedEntries).map fun popped =>
        { s with queue := popped.queue, output := s.output ++ popped.outIndexes }

def Valid (s : Leadership) : Call → Prop
  | .append _ => True
  | .pop toIndex ooCommittedEntries => ValidPop s.queue toIndex ooCommittedEntries

def Correct (first : Int) (s : Leadership) : Call → Prop
  | .append _ => True
  | .pop toIndex ooCommittedEntries =>
      ∃ popped, s.queue.popClosureUntil toIndex ooCommittedEntries = some popped ∧
        Pairs first s toIndex ooCommittedEntries popped

def start (first : Int) (q : ClosureQueue) : Leadership := ⟨q.resetFirstIndex first, [], []⟩

end Leadership

/-- In every sequence of valid calls behind the reset each call is correct. -/
def PairsWell (first : Int) (q : ClosureQueue) : Prop :=
  ∀ calls, Guarded Leadership.step Leadership.Valid (.start first q) calls →
    Guarded Leadership.step (Leadership.Correct first) (.start first q) calls

instance handedOutDecidable (q : ClosureQueue) (i : Int) : Decidable (HandedOut q i) :=
  inferInstanceAs (Decidable (_ ∨ _))

section Loops

variable {q : ClosureQueue} {bound toIndex : Int} {oo : List Int}

private theorem popLoop_filter (xs : List Int) (popped : Popped) (h : Spans popped.queue bound)
    (hrange : ∀ i ∈ xs, popped.queue.firstIndex ≤ i ∧ i < bound) (hnodup : xs.Nodup) :
    ∃ popped', runEvents ClosureQueue.popOne popped xs = some popped' ∧
      Hands bound popped popped' xs (xs.filter fun i => ¬ HandedOut popped.queue i) := by
  induction xs generalizing popped with
  | nil => exact ⟨popped, rfl, h, rfl, by simp, rfl, by simp, by simp⟩
  | cons x xs ih =>
    obtain ⟨hlo, hhi⟩ := hrange x List.mem_cons_self
    obtain ⟨hfresh, hrest⟩ := List.nodup_cons.mp hnodup
    obtain ⟨mid, one, hstep, hone, hcase⟩ := popOne_hands h hlo hhi
    obtain ⟨popped', hrun, hands⟩ := ih mid hone.spans
      (fun i hi => by
        rw [hone.firstIndex]
        exact hrange i (List.mem_cons_of_mem _ hi)) hrest
    have hsame : (xs.filter fun i => ¬ HandedOut mid.queue i) =
        xs.filter fun i => ¬ HandedOut popped.queue i := by
      apply List.filter_congr
      intro i hi
      have hne : i ≠ x := fun heq => hfresh (heq ▸ hi)
      simp [hone.handedOut i, hne]
    have hall : one ++ (xs.filter fun i => ¬ HandedOut popped.queue i) =
        (x :: xs).filter fun i => ¬ HandedOut popped.queue i := by
      rcases hcase with ⟨hout, rfl⟩ | rfl
      · simp [hout]
      · have hnew : ¬ HandedOut popped.queue x := ((hone.fresh x).mp List.mem_cons_self).2
        simp [hnew]
    refine ⟨popped', runEvents_cons_eq_some.mpr ⟨mid, hstep, hrun⟩, ?_⟩
    rw [← hall, ← hsame]
    exact hone.trans hands

private theorem poppedIndexes_within (hto : toIndex < bound)
    (hoo : ∀ i ∈ oo, q.firstIndex ≤ i ∧ i < bound) :
    ∀ i ∈ poppedIndexes q toIndex oo, q.firstIndex ≤ i ∧ i < bound := by
  intro i hi
  rcases List.mem_append.mp hi with hseq | hmem
  · have := mem_indexRange.mp hseq
    exact ⟨this.1, by omega⟩
  · exact hoo i hmem

private theorem spans_bound (h : Spans q bound) : bound = q.firstIndex + q.queue.length := by
  rw [h.queue, h.flags]

/-- Both loops of `pop_closure_until` on arguments within the queue. -/
structure Looped (q : ClosureQueue) (bound : Int) (xs : List Int) (popped : Popped) : Prop where
  hands : ∃ loop, runEvents ClosureQueue.popOne ⟨q, [], []⟩ xs = some loop ∧
    popped.out = loop.out ∧ popped.outIndexes = loop.outIndexes ∧ Paired q loop ∧
    ClosureQueue.popFront loop.queue.firstIndex loop.queue.queue loop.queue.hasCommittedQueue =
      some popped.queue
  spans : Spans popped.queue bound
  handedOut : ∀ i, HandedOut popped.queue i ↔ HandedOut q i ∨ i ∈ xs
  dropped : ∃ n : Nat, popped.queue.firstIndex = q.firstIndex + n ∧
    popped.queue.queue = q.queue.drop n
  front : ¬ HandedOut popped.queue popped.queue.firstIndex

theorem popClosureUntil_loops (h : Spans q bound) (hqueue : q.queue ≠ []) (hto : toIndex < bound)
    (hoo : ∀ i ∈ oo, q.firstIndex ≤ i ∧ i < bound) :
    ∃ popped, q.popClosureUntil toIndex oo = some popped ∧
      Looped q bound (poppedIndexes q toIndex oo) popped := by
  obtain ⟨loop, fresh, hloop, hands, -⟩ :=
    popLoop _ ⟨q, [], []⟩ h (poppedIndexes_within hto hoo)
  obtain ⟨rest, hpop, hspans, -, hsame⟩ := popFront_spans loop.queue.firstIndex loop.queue.queue
    loop.queue.hasCommittedQueue hands.spans
  have hpaired := (paired_start q).popLoop hloop
  obtain ⟨n, hfirst, hdrop, hfront⟩ := popFront_drop hpop
  rw [hpaired.firstIndex] at hfirst
  rw [hpaired.queue] at hdrop
  refine ⟨{ loop with queue := rest }, ?_, ⟨loop, hloop, rfl, rfl, hpaired, hpop⟩, hspans,
    fun i => ?_, ⟨n, hfirst, hdrop⟩, ?_⟩
  · rw [popClosureUntil_eq hqueue toIndex (spans_bound h ▸ hoo), hloop, Option.bind_some, hpop]
    rfl
  · exact (hsame i).trans (hands.handedOut i)
  · rintro (hlt | hset)
    · exact lt_irrefl _ hlt
    · rw [Int.sub_self] at hset
      exact hfront hset

private theorem outIndexes_loop (h : Spans q bound) {popped : Popped}
    (hto : toIndex < bound) (hoo : ∀ i ∈ oo, q.firstIndex ≤ i ∧ i < bound)
    (hincreasing : oo.Pairwise (· < ·))
    (hlooped : Looped q bound (poppedIndexes q toIndex oo) popped) :
    popped.outIndexes = (indexRange q.firstIndex toIndex ++ oo.filter (toIndex < ·)).filter
      fun i => ¬ HandedOut q i := by
  obtain ⟨loop, hloop, -, hout, -, -⟩ := hlooped.hands
  obtain ⟨mid, hmid, hrest⟩ := runEvents_append_eq_some.mp hloop
  obtain ⟨mid', hmid', hseq⟩ := popLoop_filter (indexRange q.firstIndex toIndex) ⟨q, [], []⟩ h
    (fun i hi => ⟨(mem_indexRange.mp hi).1, by have := (mem_indexRange.mp hi).2; omega⟩)
    ((indexRange_ascending _ _).imp ne_of_lt)
  rw [hmid] at hmid'
  cases hmid'
  obtain ⟨loop', hloop', hlist⟩ := popLoop_filter oo mid hseq.spans
    (fun i hi => by
      rw [hseq.firstIndex]
      exact hoo i hi) (hincreasing.imp ne_of_lt)
  rw [hrest] at hloop'
  cases hloop'
  have hafter : (oo.filter fun i => ¬ HandedOut mid.queue i) =
      (oo.filter (toIndex < ·)).filter fun i => ¬ HandedOut q i := by
    rw [List.filter_filter]
    apply List.filter_congr
    intro i hi
    have hlow := (hoo i hi).1
    have hin : i ∈ indexRange q.firstIndex toIndex ↔ ¬ toIndex < i := by
      rw [mem_indexRange]
      omega
    simp [hseq.handedOut i, hin]
  rw [hout, hlist.outIndexes, hseq.outIndexes, hafter, List.filter_append]
  rfl

end Loops

/-- The queue with `k` more unset flags behind those of its closures. -/
def padded (q : ClosureQueue) (k : Nat) : ClosureQueue :=
  { q with hasCommittedQueue := q.hasCommittedQueue ++ List.replicate k false }

section Padding

variable {q : ClosureQueue} {bound toIndex : Int} {oo : List Int}

theorem unset_eq {flags : List Bool} (hunset : true ∉ flags) :
    flags = List.replicate flags.length false := by
  refine List.eq_replicate_iff.mpr ⟨rfl, fun flag hflag => ?_⟩
  cases flag with
  | false => rfl
  | true => exact absurd hflag hunset

theorem padded_append (q : ClosureQueue) (k : Nat) (closure : Option Nat) :
    (padded q k).appendPendingClosure closure = padded (q.appendPendingClosure closure) k := by
  have hflags : q.hasCommittedQueue ++ List.replicate k false ++ [false] =
      q.hasCommittedQueue ++ [false] ++ List.replicate k false := by
    rw [List.append_assoc, ← List.replicate_succ', List.replicate_succ, List.append_assoc,
      List.singleton_append]
  simp only [padded, ClosureQueue.appendPendingClosure, hflags]

private theorem item_append_left {α : Type} {l : List α} {d : Int} (more : List α)
    (hd : d < l.length) :
    item (l ++ more) d = item l d := by
  unfold item
  split
  · rw [List.getElem?_append_left (by omega)]
  · rfl

private theorem store_append_left {α : Type} {l : List α} {d : Int} (more : List α) (v : α)
    (hd : d < l.length) : store (l ++ more) d v = (store l d v).map (· ++ more) := by
  unfold store
  by_cases h0 : 0 ≤ d
  · rw [if_pos ⟨h0, by rw [List.length_append]; omega⟩, if_pos ⟨h0, hd⟩,
      List.set_append_left _ _ (by omega)]
    rfl
  · rw [if_neg (fun h => h0 h.1), if_neg (fun h => h0 h.1)]
    rfl

private theorem popOne_padded (k : Nat) {popped : Popped} (h : Spans popped.queue bound) {i : Int}
    (hi : i < bound) :
    ClosureQueue.popOne { popped with queue := padded popped.queue k } i =
      (ClosureQueue.popOne popped i).map fun next =>
        { next with queue := padded next.queue k } := by
  have hlength : i - popped.queue.firstIndex < popped.queue.hasCommittedQueue.length := by
    have := h.flags
    omega
  simp only [ClosureQueue.popOne, padded, item_append_left _ hlength,
    store_append_left _ _ hlength, Option.bind_eq_bind]
  cases item popped.queue.hasCommittedQueue (i - popped.queue.firstIndex) with
  | none => rfl
  | some flag =>
    cases flag with
    | true => rfl
    | false =>
      cases item popped.queue.queue (i - popped.queue.firstIndex) with
      | none => rfl
      | some closure =>
        cases store popped.queue.hasCommittedQueue (i - popped.queue.firstIndex) true <;> rfl

private theorem popLoop_padded (k : Nat) (xs : List Int) {popped : Popped}
    (h : Spans popped.queue bound)
    (hrange : ∀ i ∈ xs, popped.queue.firstIndex ≤ i ∧ i < bound) :
    runEvents ClosureQueue.popOne { popped with queue := padded popped.queue k } xs =
      (runEvents ClosureQueue.popOne popped xs).map fun next =>
        { next with queue := padded next.queue k } := by
  induction xs generalizing popped with
  | nil => rfl
  | cons x xs ih =>
    obtain ⟨hlo, hhi⟩ := hrange x List.mem_cons_self
    obtain ⟨mid, one, hstep, hone, -⟩ := popOne_hands h hlo hhi
    have hrest := ih hone.spans fun i hi => by
      rw [hone.firstIndex]
      exact hrange i (List.mem_cons_of_mem _ hi)
    simpa [runEvents, popOne_padded k h hhi, hstep] using hrest

private theorem popFront_padded (k : Nat) (first : Int) {queue : List (Option Nat)}
    {flags : List Bool}
    (hlength : queue.length = flags.length) :
    ClosureQueue.popFront first queue (flags ++ List.replicate k false) =
      (ClosureQueue.popFront first queue flags).map fun rest => padded rest k := by
  induction flags generalizing first queue with
  | nil =>
    have hnil : queue = [] := List.length_eq_zero_iff.mp hlength
    subst hnil
    cases k with
    | zero => rfl
    | succ k => rfl
  | cons flag flags ih =>
    cases queue with
    | nil => simp at hlength
    | cons closure queue =>
      cases flag with
      | false => rfl
      | true => exact ih (first + 1) (by simpa using hlength)

theorem popClosureUntil_padded (k : Nat) (h : Spans q bound) (hqueue : q.queue ≠ [])
    (hto : toIndex < bound) (hoo : ∀ i ∈ oo, q.firstIndex ≤ i ∧ i < bound) :
    (padded q k).popClosureUntil toIndex oo = (q.popClosureUntil toIndex oo).map fun popped =>
      { popped with queue := padded popped.queue k } := by
  have hrange := poppedIndexes_within hto hoo
  have hwithin : ∀ i ∈ oo, q.firstIndex ≤ i ∧ i < q.firstIndex + q.queue.length :=
    spans_bound h ▸ hoo
  obtain ⟨loop, fresh, hloop, hands, -⟩ := popLoop _ ⟨q, [], []⟩ h hrange
  have hfront := popFront_padded k loop.queue.firstIndex hands.spans.queue
  have hpadded : runEvents ClosureQueue.popOne ⟨padded q k, [], []⟩
      (poppedIndexes (padded q k) toIndex oo) =
        some { loop with queue := padded loop.queue k } := by
    let start : Popped := ⟨q, [], []⟩
    have hrun := popLoop_padded k _ (show Spans start.queue bound from h) hrange
    rwa [hloop] at hrun
  rw [popClosureUntil_eq hqueue toIndex hwithin, hloop, Option.bind_some,
    popClosureUntil_eq (q := padded q k) hqueue toIndex hwithin, hpadded, Option.bind_some]
  show (ClosureQueue.popFront loop.queue.firstIndex loop.queue.queue
    (loop.queue.hasCommittedQueue ++ List.replicate k false)).map _ = _
  rw [hfront, Option.map_map, Option.map_map]
  rfl

end Padding

/-- The state of a leadership that met no flag of an earlier one: up to padding the
queue holds the closures from its first index on, and what left it is the output. -/
structure Tracks (first : Int) (k : Nat) (q : ClosureQueue) (s : Leadership) : Prop where
  queue : s.queue = padded q k
  spans : Spans q (first + s.appended.length)
  low : first ≤ q.firstIndex
  closures : q.queue = s.appended.drop (q.firstIndex - first).toNat
  output : ∀ i, i ∈ s.output ↔ first ≤ i ∧ HandedOut q i

section Leaderships

variable {first : Int} {k : Nat} {q : ClosureQueue} {s : Leadership}

theorem tracks_append (h : Tracks first k q s) (closure : Option Nat) :
    Tracks first k (q.appendPendingClosure closure)
      { s with
        queue := s.queue.appendPendingClosure closure
        appended := s.appended ++ [closure] } := by
  have hspans := spans_append h.spans closure
  have hcovered : (q.firstIndex - first).toNat ≤ s.appended.length := by
    have hflags := h.spans.flags
    have hlow := h.low
    omega
  refine ⟨?_, ?_, h.low, ?_, fun i => ?_⟩
  · rw [h.queue]
    exact padded_append q k closure
  · rw [List.length_append, List.length_singleton]
    push_cast
    rwa [← Int.add_assoc]
  · show q.queue ++ [closure] = (s.appended ++ [closure]).drop (q.firstIndex - first).toNat
    rw [List.drop_append_of_le_length hcovered, ← h.closures]
  · rw [handedOut_append]
    exact h.output i

private theorem filter_range (h : Tracks first k q s) (toIndex : Int) :
    ((indexRange first toIndex).filter fun i => i ∉ s.output) =
      (indexRange q.firstIndex toIndex).filter fun i => ¬ HandedOut q i := by
  apply List.Pairwise.eq_of_mem_iff ((indexRange_ascending _ _).filter _)
    ((indexRange_ascending _ _).filter _)
  intro i
  have hlow := h.low
  simp only [List.mem_filter, mem_indexRange, decide_eq_true_eq, h.output i]
  constructor
  · rintro ⟨⟨hfirst, hto⟩, hnot⟩
    have hhanded : ¬ HandedOut q i := fun hout => hnot ⟨hfirst, hout⟩
    refine ⟨⟨?_, hto⟩, hhanded⟩
    by_contra hlt
    exact hhanded (.inl (by omega))
  · rintro ⟨⟨hfirst, hto⟩, hnot⟩
    exact ⟨⟨by omega, hto⟩, fun hout => hnot hout.2⟩

private theorem tracks_pop (h : Tracks first k q s) {toIndex : Int} {oo : List Int}
    (hvalid : ValidPop s.queue toIndex oo) :
    ∃ popped q', s.queue.popClosureUntil toIndex oo = some popped ∧
      Pairs first s toIndex oo popped ∧
      Tracks first k q'
        { s with queue := popped.queue, output := s.output ++ popped.outIndexes } := by
  obtain ⟨hnonempty, hto, hincreasing, hqueued⟩ := hvalid
  rw [h.queue] at hnonempty hto hqueued
  have hbound := spans_bound h.spans
  have hto' : toIndex < first + s.appended.length := by rwa [hbound]
  have hoo : ∀ i ∈ oo, q.firstIndex ≤ i ∧ i < first + s.appended.length := by rwa [hbound]
  obtain ⟨popped, hrun, hlooped⟩ := popClosureUntil_loops h.spans hnonempty hto' hoo
  have hpadded := popClosureUntil_padded k h.spans hnonempty hto' hoo
  rw [hrun, ← h.queue] at hpadded
  obtain ⟨loop, hloop, hout, hindexes, hpaired, -⟩ := hlooped.hands
  obtain ⟨n, hfirst, hdrop⟩ := hlooped.dropped
  have hlow := h.low
  have horder : popped.outIndexes =
      (indexRange first toIndex ++ oo.filter (toIndex < ·)).filter (· ∉ s.output) := by
    rw [outIndexes_loop h.spans hto' hoo hincreasing hlooped, List.filter_append,
      List.filter_append, filter_range h toIndex]
    congr 1
    apply List.filter_congr
    intro i hi
    have hi := (hoo i (List.mem_filter.mp hi).1).1
    have hge : first ≤ i := by omega
    simp [h.output i, hge]
  have houtput : ∀ i, i ∈ s.output ++ popped.outIndexes ↔ first ≤ i ∧ HandedOut popped.queue i := by
    intro i
    rw [List.mem_append, h.output i, hlooped.handedOut i, horder, List.mem_filter,
      decide_eq_true_eq, h.output i, List.mem_append, List.mem_filter, mem_indexRange,
      decide_eq_true_eq, poppedIndexes, List.mem_append, mem_indexRange]
    have hbelow : i < q.firstIndex → HandedOut q i := Or.inl
    have hge : i ∈ oo → q.firstIndex ≤ i := fun hi => (hoo i hi).1
    by_cases hhanded : HandedOut q i
    · have hfirsti : i ∈ oo → first ≤ i := fun hi => le_trans hlow (hge hi)
      simp only [hhanded, and_true, true_or]
      refine ⟨?_, Or.inl⟩
      rintro (hin | ⟨hin | hin, -⟩)
      · exact hin
      · exact hin.1
      · exact hfirsti hin.1
    · have hi : q.firstIndex ≤ i := by
        by_contra hlt
        exact hhanded (hbelow (by omega))
      have hfirsti : first ≤ i := by omega
      by_cases hle : i ≤ toIndex
      · simp [hhanded, hi, hfirsti, hle]
      · have hgt : toIndex < i := by omega
        simp [hhanded, hfirsti, hle, hgt]
  refine ⟨_, popped.queue, hpadded, ⟨?_, ?_, horder, ?_, ?_⟩, rfl, hlooped.spans, ?_, ?_, houtput⟩
  · show popped.out.length = popped.outIndexes.length
    rw [hout, hindexes]
    exact hpaired.length
  · intro p hp
    have hp : p ∈ loop.outIndexes.zip loop.out := by rwa [← hout, ← hindexes]
    have hitem := hpaired.matched p hp
    have hpos := (item_eq_some_bounds hitem).1
    rw [h.closures, item_drop _ _ hpos] at hitem
    rwa [show p.1 - q.firstIndex + ((q.firstIndex - first).toNat : Int) = p.1 - first by omega]
      at hitem
  · show first ≤ popped.queue.firstIndex ∧ popped.queue.firstIndex ∉ s.output ++ popped.outIndexes
    refine ⟨by omega, fun hmem => ?_⟩
    exact hlooped.front ((houtput _).mp hmem).2
  · intro i hi
    obtain ⟨hfirsti, hnot⟩ := hi
    show popped.queue.firstIndex ≤ i
    by_contra hlt
    exact hnot ((houtput i).mpr ⟨hfirsti, .inl (by omega)⟩)
  · show first ≤ popped.queue.firstIndex
    omega
  · rw [hdrop, hfirst, h.closures, List.drop_drop]
    congr 1
    omega

private theorem correct_of_tracks (h : Tracks first k q s) (calls : List Call)
    (hvalid : Guarded Leadership.step Leadership.Valid s calls) :
    Guarded Leadership.step (Leadership.Correct first) s calls := by
  induction calls generalizing s q with
  | nil => trivial
  | cons call rest ih =>
    obtain ⟨hcall, hrest⟩ := hvalid
    cases call with
    | append closure =>
      refine ⟨trivial, fun next hnext => ?_⟩
      have htracks := tracks_append h closure
      cases hnext
      exact ih htracks (hrest _ rfl)
    | pop toIndex oo =>
      obtain ⟨popped, q', hrun, hpairs, htracks⟩ := tracks_pop h hcall
      refine ⟨⟨popped, hrun, hpairs⟩, fun next hnext => ?_⟩
      have hstep : s.step (.pop toIndex oo) =
          some { s with queue := popped.queue, output := s.output ++ popped.outIndexes } := by
        rw [Leadership.step, hrun]
        rfl
      rw [hstep] at hnext
      cases hnext
      exact ih htracks (hrest _ hstep)

theorem pairsWell_of_unset (first : Int) {q : ClosureQueue} (hqueue : q.queue = [])
    (hunset : true ∉ q.hasCommittedQueue) : PairsWell first q := by
  have hflags := unset_eq hunset
  intro calls hvalid
  have htracks : Tracks first q.hasCommittedQueue.length ⟨first, [], []⟩ (.start first q) := by
    refine ⟨?_, ⟨by simp [Leadership.start], rfl⟩, le_refl _, ?_, fun i => ?_⟩
    · simp [Leadership.start, ClosureQueue.resetFirstIndex, padded, hqueue, ← hflags]
    · simp [Leadership.start]
    · have hnone : item ([] : List Bool) (i - first) ≠ some true := by simp [item]
      simp [Leadership.start, HandedOut, hnone]
  exact correct_of_tracks htracks calls hvalid

end Leaderships

section Stale

private theorem popOne_set {popped popped' : Popped} {x i : Int}
    (hset : item popped.queue.hasCommittedQueue (i - popped.queue.firstIndex) = some true)
    (hout : i ∉ popped.outIndexes) (hrun : ClosureQueue.popOne popped x = some popped') :
    item popped'.queue.hasCommittedQueue (i - popped'.queue.firstIndex) = some true ∧
      i ∉ popped'.outIndexes := by
  obtain ⟨flag, hflag, hrun⟩ := Option.bind_eq_some_iff.mp hrun
  split at hrun
  · cases hrun
    exact ⟨hset, hout⟩
  · rename_i hunset
    obtain ⟨closure, -, hrun⟩ := Option.bind_eq_some_iff.mp hrun
    obtain ⟨flags, hflags, hrun⟩ := Option.bind_eq_some_iff.mp hrun
    cases hrun
    have hne : i ≠ x := by
      rintro rfl
      rw [hset] at hflag
      cases hflag
      exact hunset rfl
    refine ⟨?_, ?_⟩
    · show item flags (i - popped.queue.firstIndex) = some true
      rw [item_store hflags, if_neg (by omega)]
      exact hset
    · simp [hout, hne]

private theorem popLoop_set {popped popped' : Popped} {xs : List Int} {i : Int}
    (hset : item popped.queue.hasCommittedQueue (i - popped.queue.firstIndex) = some true)
    (hout : i ∉ popped.outIndexes)
    (hrun : runEvents ClosureQueue.popOne popped xs = some popped') : i ∉ popped'.outIndexes := by
  induction xs generalizing popped with
  | nil =>
    cases hrun
    exact hout
  | cons x xs ih =>
    obtain ⟨mid, hmid, hrest⟩ := runEvents_cons_eq_some.mp hrun
    obtain ⟨hset', hout'⟩ := popOne_set hset hout hmid
    exact ih hset' hout' hrest

private theorem guarded_appends {guard : Leadership → Call → Prop}
    (hguard : ∀ s, guard s (.append none)) (n : Nat) (calls : List Call) (s : Leadership) :
    Guarded Leadership.step guard s (List.replicate n (.append none) ++ calls) ↔
      Guarded Leadership.step guard
        { s with
          queue := { s.queue with
            queue := s.queue.queue ++ List.replicate n none
            hasCommittedQueue := s.queue.hasCommittedQueue ++ List.replicate n false }
          appended := s.appended ++ List.replicate n none } calls := by
  induction n generalizing s with
  | zero => simp
  | succ n ih =>
    have hstep : ∀ t, t ∈ s.step (.append none) ↔
        t = { s with
          queue := s.queue.appendPendingClosure none
          appended := s.appended ++ [none] } := by
      intro t
      simp [Leadership.step, eq_comm]
    rw [List.replicate_succ, List.cons_append, Guarded]
    simp only [hguard s, hstep, forall_eq, true_and]
    rw [ih]
    simp [ClosureQueue.appendPendingClosure, List.replicate_succ]

theorem not_pairsWell_of_set (first : Int) {q : ClosureQueue} (hqueue : q.queue = [])
    (hset : true ∈ q.hasCommittedQueue) : ¬ PairsWell first q := by
  intro hpairs
  obtain ⟨p, hp, hflag⟩ := List.getElem_of_mem hset
  have hvalid : Guarded Leadership.step Leadership.Valid (.start first q)
      (List.replicate (p + 1) (.append none) ++ [.pop (first + p) []]) := by
    rw [guarded_appends (fun _ => trivial)]
    refine ⟨⟨?_, ?_, List.Pairwise.nil, by simp⟩, fun _ _ => trivial⟩
    · simp [Leadership.start, List.replicate_succ]
    · simp only [Leadership.start, ClosureQueue.resetFirstIndex, hqueue, List.nil_append,
        List.length_replicate]
      omega
  have hcorrect := hpairs _ hvalid
  rw [guarded_appends (fun _ => trivial)] at hcorrect
  obtain ⟨⟨popped, hrun, hpopped⟩, -⟩ := hcorrect
  have hmem : first + p ∈ popped.outIndexes := by
    rw [hpopped.outIndexes]
    simp [Leadership.start, mem_indexRange]
  rw [popClosureUntil_eq ?_ _ (by simp)] at hrun
  · obtain ⟨loop, hloop, hrest⟩ := Option.bind_eq_some_iff.mp hrun
    obtain ⟨rest, -, hrest⟩ := Option.map_eq_some_iff.mp hrest
    cases hrest
    refine popLoop_set ?_ (List.not_mem_nil) hloop hmem
    simp only [Leadership.start, ClosureQueue.resetFirstIndex,
      show first + (p : Int) - first = p by omega]
    rw [item_append_left _ (by omega)]
    simp [item, hp, hflag]
  · simp [Leadership.start, List.replicate_succ]

end Stale

/-- A leadership pairs well exactly when the reset finds no set flag. -/
theorem pairsWell_iff (first firstBefore : Int) (flags : List Bool) :
    PairsWell first ⟨firstBefore, [], flags⟩ ↔ true ∉ flags :=
  ⟨fun hpairs hset => not_pairsWell_of_set first rfl hset hpairs,
    fun hunset => pairsWell_of_unset first rfl hunset⟩

/-- A queue of two closures whose second one was delivered before the leader stepped down. -/
theorem steppedDown_not_pairsWell :
    ∃ popped, (((ClosureQueue.new.resetFirstIndex 1).appendPendingClosure (some 1)
        ).appendPendingClosure (some 2)).popClosureUntil 0 [2] = some popped ∧
      ¬ PairsWell 3 popped.queue.clear :=
  ⟨_, rfl, not_pairsWell_of_set 3 rfl (by decide)⟩

end HitConsistency.Commit.LeadershipClosures
