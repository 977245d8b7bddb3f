/- GID: HitConsistency/Commit/FollowerApply
   digest: What a follower gives to its state machine over a sequence of do_committed calls. -/

import HitConsistency.Commit.StateMachineCaller

set_option autoImplicit false
set_option relaxedAutoImplicit false

/-!
Without closures `pop_closure_until` returns the out-of-order list as it is, and the
iterator adds the indexes from the last applied one to the committed one. Nothing
remembers across calls which indexes were applied early.
-/

namespace HitConsistency.Commit.FollowerApply

open HitConsistency.Base.GuardedRuns
open HitConsistency.Commit.ApplyPipeline
open HitConsistency.Commit.PendingQueues
open HitConsistency.Commit.StateMachineCaller
open HitConsistency.Log.Entry
open HitConsistency.Replication.PeerSender (mem_indexRange indexRange_ascending)
open HitConsistency.Replication.PeerSender.Replicator (indexRange)

/-- A caller behind `init` whose closure queue has no closures. -/
def follower (bootstrapIndex firstIndex : Int) (hasCommittedQueue : List Bool) : FsmCaller :=
  ⟨⟨firstIndex, [], hasCommittedQueue⟩, bootstrapIndex, [], false, []⟩

/-- The calls of a follower: committed indexes that do not decrease, lists above them, and
entries for all of them. -/
structure Calls (getEntry : Int → Option LogEntry) (bootstrapIndex : Int)
    (calls : List Committed) : Prop where
  from_bootstrap : ∀ call ∈ calls, bootstrapIndex ≤ call.committedIndex
  sorted : calls.Pairwise fun call later => call.committedIndex ≤ later.committedIndex
  above : ∀ call ∈ calls, ∀ i ∈ call.ooCommittedEntries, call.committedIndex < i
  sequential : ∀ call ∈ calls, ∀ i, bootstrapIndex < i → i ≤ call.committedIndex →
    (getEntry i).isSome = true
  listed : ∀ call ∈ calls, ∀ i ∈ call.ooCommittedEntries, (getEntry i).isSome = true

/-- Behind every call each index up to the committed one and each listed index was given
to the state machine, and none twice. -/
def AppliedOnce (getEntry : Int → Option LogEntry) (bootstrapIndex : Int) (s : FsmCaller)
    (calls : List Committed) : Prop :=
  ∀ pre post, calls = pre ++ post →
    ∃ t, runEvents (FsmCaller.doCommitted getEntry) s pre = some t ∧
      (t.handed.map Prod.fst).Nodup ∧
      ∀ call ∈ pre, ∀ i, (bootstrapIndex < i ∧ i ≤ call.committedIndex) ∨
        i ∈ call.ooCommittedEntries → i ∈ t.handed.map Prod.fst

/-- No index is listed twice, and none is reached by a later committed index. -/
def NeverAgain (calls : List Committed) : Prop :=
  (calls.flatMap Committed.ooCommittedEntries).Nodup ∧
    calls.Pairwise fun call later => ∀ i ∈ call.ooCommittedEntries, later.committedIndex < i

instance neverAgainDecidable (calls : List Committed) : Decidable (NeverAgain calls) :=
  inferInstanceAs (Decidable (_ ∧ _))

/-- All the indexes that a sequence of calls gives to the state machine. -/
def given : Int → List Committed → List Int
  | _, [] => []
  | last, call :: calls =>
      call.ooCommittedEntries ++ indexRange (last + 1) call.committedIndex ++
        given call.committedIndex calls

section Given

variable {getEntry : Int → Option LogEntry} {last : Int} {calls : List Committed}

theorem Calls.tail {call : Committed} (h : Calls getEntry last (call :: calls)) :
    Calls getEntry call.committedIndex calls := by
  have hhead := h.from_bootstrap call (by simp)
  have hsorted := List.pairwise_cons.mp h.sorted
  refine ⟨hsorted.1, hsorted.2, fun later hl => h.above later (by simp [hl]), ?_,
    fun later hl => h.listed later (by simp [hl])⟩
  intro later hl i hlo hhi
  exact h.sequential later (by simp [hl]) i (by omega) hhi

private theorem mem_given (h : Calls getEntry last calls) (i : Int) :
    i ∈ given last calls ↔ (∃ call ∈ calls, i ∈ call.ooCommittedEntries) ∨
      (last < i ∧ ∃ call ∈ calls, i ≤ call.committedIndex) := by
  induction calls generalizing last with
  | nil => simp [given]
  | cons call calls ih =>
    have hhead := h.from_bootstrap call (by simp)
    rw [given, List.mem_append, List.mem_append, mem_indexRange, ih h.tail]
    constructor
    · rintro ((hlist | ⟨hlo, hhi⟩) | ⟨later, hlater, hlist⟩ | ⟨hlo, later, hlater, hhi⟩)
      · exact .inl ⟨call, by simp, hlist⟩
      · exact .inr ⟨by omega, call, by simp, hhi⟩
      · exact .inl ⟨later, by simp [hlater], hlist⟩
      · exact .inr ⟨by omega, later, by simp [hlater], hhi⟩
    · rintro (⟨other, hother, hlist⟩ | ⟨hlo, other, hother, hhi⟩)
      · rcases List.mem_cons.mp hother with rfl | hlater
        · exact .inl (.inl hlist)
        · exact .inr (.inl ⟨other, hlater, hlist⟩)
      · rcases le_or_gt i call.committedIndex with hle | hgt
        · exact .inl (.inr ⟨by omega, hle⟩)
        · rcases List.mem_cons.mp hother with rfl | hlater
          · omega
          · exact .inr (.inr ⟨hgt, other, hlater, hhi⟩)

private theorem given_append (last : Int) (pre post : List Committed) :
    (given last pre).Sublist (given last (pre ++ post)) := by
  induction pre generalizing last with
  | nil => exact List.nil_sublist _
  | cons call pre ih =>
    rw [List.cons_append, given, given]
    exact (List.Sublist.refl _).append (ih call.committedIndex)

theorem nodup_given_iff (h : Calls getEntry last calls) :
    (given last calls).Nodup ↔ NeverAgain calls := by
  induction calls generalizing last with
  | nil => simp [given, NeverAgain]
  | cons call calls ih =>
    have habove := h.above call (by simp)
    have hlater := (List.pairwise_cons.mp h.sorted).1
    have hmem := mem_given h.tail
    have hrest := ih h.tail
    rw [given, List.nodup_append, List.nodup_append, hrest]
    unfold NeverAgain
    rw [List.flatMap_cons, List.nodup_append, List.pairwise_cons]
    constructor
    · rintro ⟨⟨hlist, -, -⟩, ⟨hlists, hnever⟩, hdisjoint⟩
      refine ⟨⟨hlist, hlists, ?_⟩, ?_, hnever⟩
      · intro i hi j hj
        obtain ⟨later, hin, hmemj⟩ := List.mem_flatMap.mp hj
        exact hdisjoint i (by simp [hi]) j ((hmem j).mpr (.inl ⟨later, hin, hmemj⟩))
      · intro later hin i hi
        by_contra hle
        exact hdisjoint i (by simp [hi]) i
          ((hmem i).mpr (.inr ⟨habove i hi, later, hin, by omega⟩)) rfl
    · rintro ⟨⟨hlist, hlists, hdisjoint⟩, hreached, hnever⟩
      refine ⟨⟨hlist, (indexRange_ascending _ _).imp ne_of_lt, ?_⟩, ⟨hlists, hnever⟩, ?_⟩
      · intro i hi j hj
        have := habove i hi
        have := (mem_indexRange.mp hj).2
        omega
      · rintro i hi j hj rfl
        rcases (hmem i).mp hj with ⟨later, hin, hmemi⟩ | ⟨hgt, later, hin, hle⟩
        · rcases List.mem_append.mp hi with hlisted | hrange
          · exact hdisjoint i hlisted i (List.mem_flatMap.mpr ⟨later, hin, hmemi⟩) rfl
          · have := hlater later hin
            have := h.above later (by simp [hin]) i hmemi
            have := (mem_indexRange.mp hrange).2
            omega
        · rcases List.mem_append.mp hi with hlisted | hrange
          · have := hreached later hin i hlisted
            omega
          · have := (mem_indexRange.mp hrange).2
            omega

end Given

section Runs

variable {getEntry : Int → Option LogEntry}

structure Idle (s : FsmCaller) : Prop where
  closures : s.closures.queue = []
  noError : s.error = false
  quiet : Quiet s.ooApplyQueue

theorem doCommitted_idle {s : FsmCaller} {call : Committed} (h : Idle s)
    (hcall : Calls getEntry s.lastAppliedIndex [call]) :
    ∃ t, s.doCommitted getEntry call = some t ∧ Idle t ∧
      t.lastAppliedIndex = call.committedIndex ∧
      t.handed.map Prod.fst = s.handed.map Prod.fst ++ given s.lastAppliedIndex [call] := by
  have hle := hcall.from_bootstrap call (by simp)
  have hgiven : given s.lastAppliedIndex [call] = call.ooCommittedEntries ++
      indexRange (s.lastAppliedIndex + 1) call.committedIndex := by
    simp [given]
  by_cases hskip : call.committedIndex ≤ s.lastAppliedIndex ∧ call.ooCommittedEntries = []
  · refine ⟨s, ?_, h, by omega, ?_⟩
    · unfold FsmCaller.doCommitted
      rw [if_neg (by simp [h.noError]), if_pos hskip]
    · rw [hgiven, hskip.2, indexRange_nil (by omega)]
      simp
  · have hpop : s.closures.popClosureUntil call.committedIndex call.ooCommittedEntries =
        some ⟨s.closures, [], call.ooCommittedEntries⟩ := by
      rw [ClosureQueue.popClosureUntil, if_pos (.inl h.closures)]
    have hall : ∀ i ∈ given s.lastAppliedIndex [call],
        s.lastAppliedIndex < i ∧ (getEntry i).isSome = true := by
      intro i hi
      rw [hgiven] at hi
      rcases List.mem_append.mp hi with hlist | hrange
      · have := hcall.above call (by simp) i hlist
        exact ⟨by omega, hcall.listed call (by simp) i hlist⟩
      · obtain ⟨hlo, hhi⟩ := mem_indexRange.mp hrange
        exact ⟨by omega, hcall.sequential call (by simp) i (by omega) hhi⟩
    have hne : given s.lastAppliedIndex [call] ≠ [] := by
      rw [hgiven]
      intro hnil
      obtain ⟨hlist, hrange⟩ := List.append_eq_nil_iff.mp hnil
      refine hskip ⟨?_, hlist⟩
      by_contra hgt
      rw [indexRange_cons (by omega)] at hrange
      cases hrange
    obtain ⟨queue, hrun, hquiet, -⟩ := @doCommitted_hands _ _ _ _ _
      (List.replicate (given s.lastAppliedIndex [call]).length none) h.noError hskip hpop
      (by simp [hgiven]) (by simp) (by simp) (fun i hi => (hall i hi).2)
      (fun i hi => (hall i hi).1) h.quiet (.inl hne)
    refine ⟨_, hrun, ⟨h.closures, rfl, hquiet⟩, rfl, ?_⟩
    rw [List.map_append, List.map_fst_zip]
    simp

private theorem run_given {s : FsmCaller} {calls : List Committed} (h : Idle s)
    (hcalls : Calls getEntry s.lastAppliedIndex calls) :
    ∃ t, runEvents (FsmCaller.doCommitted getEntry) s calls = some t ∧
      t.handed.map Prod.fst = s.handed.map Prod.fst ++ given s.lastAppliedIndex calls := by
  induction calls generalizing s with
  | nil => exact ⟨s, rfl, by simp [given]⟩
  | cons call calls ih =>
    have hone : Calls getEntry s.lastAppliedIndex [call] := by
      refine ⟨?_, List.pairwise_singleton _ _, ?_, ?_, ?_⟩
      all_goals
        intro c hc
        cases List.mem_singleton.mp hc
      · exact hcalls.from_bootstrap call (by simp)
      · exact hcalls.above call (by simp)
      · exact hcalls.sequential call (by simp)
      · exact hcalls.listed call (by simp)
    obtain ⟨mid, hstep, hidle, hlast, hmid⟩ := doCommitted_idle h hone
    obtain ⟨t, hrun, ht⟩ := ih hidle (hlast ▸ hcalls.tail)
    refine ⟨t, runEvents_cons_eq_some.mpr ⟨mid, hstep, hrun⟩, ?_⟩
    rw [ht, hmid, hlast]
    simp [given]

/-- A follower applies every index exactly once if and only if no index is listed twice
and none is reached by a later committed index. -/
theorem applied_once_iff (getEntry : Int → Option LogEntry) (bootstrapIndex firstIndex : Int)
    (hasCommittedQueue : List Bool) (calls : List Committed)
    (hcalls : Calls getEntry bootstrapIndex calls) :
    AppliedOnce getEntry bootstrapIndex (follower bootstrapIndex firstIndex hasCommittedQueue)
      calls ↔ NeverAgain calls := by
  have hidle : Idle (follower bootstrapIndex firstIndex hasCommittedQueue) :=
    ⟨rfl, rfl, by simp [Quiet, follower]⟩
  have hprefix : ∀ pre post, calls = pre ++ post → Calls getEntry bootstrapIndex pre := by
    rintro pre post rfl
    exact ⟨fun call hc => hcalls.from_bootstrap call (by simp [hc]),
      (List.pairwise_append.mp hcalls.sorted).1, fun call hc => hcalls.above call (by simp [hc]),
      fun call hc => hcalls.sequential call (by simp [hc]),
      fun call hc => hcalls.listed call (by simp [hc])⟩
  rw [← nodup_given_iff hcalls]
  constructor
  · intro h
    obtain ⟨t, hrun, hnodup, -⟩ := h calls [] (by simp)
    obtain ⟨t', hrun', ht⟩ := run_given hidle hcalls
    cases hrun.symm.trans hrun'
    rw [ht] at hnodup
    exact hnodup
  · rintro hnodup pre post rfl
    have hpre := hprefix pre post rfl
    obtain ⟨t, hrun, ht⟩ := run_given hidle hpre
    have ht : t.handed.map Prod.fst = given bootstrapIndex pre := ht
    refine ⟨t, hrun, ht ▸ hnodup.sublist (given_append bootstrapIndex pre post), ?_⟩
    intro call hc i hi
    rw [ht, mem_given hpre]
    rcases hi with ⟨hlo, hhi⟩ | hlist
    · exact .inr ⟨hlo, call, hc, hhi⟩
    · exact .inl ⟨call, hc, hlist⟩

/-- A log whose entries are all there. -/
private def fullLog (index : Int) : Option LogEntry := some ⟨.data, ⟨index, 1⟩, 0, none, none, []⟩

private def aheadOfCommits : List Committed := [⟨1, [3]⟩, ⟨2, [5, 4]⟩]

theorem aheadOfCommits_applied_once : NeverAgain aheadOfCommits ∧
    AppliedOnce fullLog 0 (follower 0 0 []) aheadOfCommits := by
  have hcalls : Calls fullLog 0 aheadOfCommits :=
    ⟨by decide, by decide, by decide, fun _ _ _ _ _ => rfl, fun _ _ _ _ => rfl⟩
  have hnever : NeverAgain aheadOfCommits := by decide
  exact ⟨hnever, (applied_once_iff fullLog 0 0 [] aheadOfCommits hcalls).mpr hnever⟩

/-- Index 3 is committed out of order, and then in its turn. -/
private def committedTwice : List Committed := [⟨1, [3]⟩, ⟨3, []⟩]

theorem committedTwice_not_applied_once : Calls fullLog 0 committedTwice ∧
    ¬ AppliedOnce fullLog 0 (follower 0 0 []) committedTwice := by
  refine ⟨⟨by decide, by decide, by decide, fun _ _ _ _ _ => rfl, fun _ _ _ _ => rfl⟩, ?_⟩
  intro h
  obtain ⟨t, hrun, hnodup, -⟩ := h committedTwice [] (by simp)
  have hhanded : (runEvents (FsmCaller.doCommitted fullLog) (follower 0 0 []) committedTwice).map
      (fun t => t.handed.map Prod.fst) = some [3, 1, 2, 3] := by
    decide
  rw [hrun] at hhanded
  have hhanded : t.handed.map Prod.fst = [3, 1, 2, 3] := Option.some.inj hhanded
  rw [hhanded] at hnodup
  exact absurd hnodup (by decide)

end Runs

end HitConsistency.Commit.FollowerApply
