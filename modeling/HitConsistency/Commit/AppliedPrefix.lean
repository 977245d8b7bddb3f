/- GID: HitConsistency/Commit/AppliedPrefix
   digest: The last applied index over all calls of do_committed, on a leader or a follower. -/

import HitConsistency.Commit.ApplyCalls

set_option autoImplicit false
set_option relaxedAutoImplicit false

/-!
The closure queue is worked on by other threads between the calls, so its operations
are events of their own. A follower has an empty one.
-/

namespace HitConsistency.Commit.AppliedPrefix

open HitConsistency.Base.GuardedRuns
open HitConsistency.Base.IndexedDeque
open HitConsistency.Commit.ApplyCalls
open HitConsistency.Commit.ApplyPipeline
open HitConsistency.Commit.PendingQueues
open HitConsistency.Commit.StateMachineCaller
open HitConsistency.Log.Entry
open HitConsistency.Replication.PeerSender (mem_indexRange)
open HitConsistency.Replication.PeerSender.Replicator (indexRange)

inductive Event
  | resetFirstIndex (firstIndex : Int)
  | appendPendingClosure (closure : Option Nat)
  | clear
  | doCommitted (task : Committed)

def new : FsmCaller := ⟨.new, 0, [], false, []⟩

def step (getEntry : Int → Option LogEntry) (s : FsmCaller) : Event → Option FsmCaller
  | .resetFirstIndex firstIndex =>
      some { s with closures := s.closures.resetFirstIndex firstIndex }
  | .appendPendingClosure closure =>
      some { s with closures := s.closures.appendPendingClosure closure }
  | .clear => some { s with closures := s.closures.clear }
  | .doCommitted task => (doCommitted getEntry (fun _ => none) s task).map Applied.caller

/-- The numbers up to which every index was given to the state machine. -/
def appliedUpTo (s : FsmCaller) : Set Int :=
  {n | 0 ≤ n ∧ ∀ i, 1 ≤ i → i ≤ n → i ∈ s.handed.map Prod.fst}

/-- Every call is defined, does not lower the last applied index, and leaves the end of
the applied prefix there. -/
def LastAppliedSound (getEntry : Int → Option LogEntry) (events : List Event) : Prop :=
  ∀ pre event post, events = pre ++ event :: post →
    ∃ s t, runEvents (step getEntry) new pre = some s ∧ step getEntry s event = some t ∧
      s.lastAppliedIndex ≤ t.lastAppliedIndex ∧ IsGreatest (appliedUpTo t) t.lastAppliedIndex

/-- The indexes that come from the queue, and without closures the sequential ones. -/
def batch (s : FsmCaller) (task : Committed) (popped : Popped) : List Int :=
  popped.outIndexes ++
    if popped.out = [] then indexRange (s.lastAppliedIndex + 1) task.committedIndex else []

def Skipped (s : FsmCaller) (task : Committed) : Prop :=
  task.committedIndex ≤ s.lastAppliedIndex ∧ task.ooCommittedEntries = []

def Readable (getEntry : Int → Option LogEntry) (s : FsmCaller) : Event → Prop
  | .doCommitted task =>
      ∀ popped ∈ s.closures.popClosureUntil task.committedIndex task.ooCommittedEntries,
        ∀ i ∈ batch s task popped, (getEntry i).isSome
  | _ => True

/-- The distance of no index is the size of the deque when its turn comes. -/
def OffsetsFit (lastAppliedIndex : Int) : Nat → List Int → Prop
  | _, [] => True
  | size, i :: rest =>
      i - lastAppliedIndex ≠ size ∧
        OffsetsFit lastAppliedIndex
          (if i < lastAppliedIndex ∨ size < i - lastAppliedIndex then size + 1 else size) rest

/-- The subscripts fit, the deque has a front, the last applied index is not given out
again, and the committed index is where the indexes of this and of earlier calls end. -/
structure Fits (s : FsmCaller) (task : Committed) (indexes : List Int) : Prop where
  offsets : OffsetsFit s.lastAppliedIndex s.ooApplyQueue.length indexes
  front : indexes ≠ [] ∨ s.ooApplyQueue ≠ []
  fresh : s.lastAppliedIndex ∉ indexes
  forward : s.lastAppliedIndex ≤ task.committedIndex
  covered : ∀ i ∈ indexRange (s.lastAppliedIndex + 1) task.committedIndex,
    i ∈ s.handed.map Prod.fst ∨ i ∈ indexes
  gap : task.committedIndex + 1 ∉ s.handed.map Prod.fst ∧ task.committedIndex + 1 ∉ indexes

/-- The condition on a call: it is skipped, or `pop_closure_until` stays within its deques
and what it returns fits. -/
def Advances (s : FsmCaller) : Event → Prop
  | .doCommitted task => Skipped s task ∨
      ∃ popped ∈ s.closures.popClosureUntil task.committedIndex task.ooCommittedEntries,
        Fits s task (batch s task popped)
  | _ => True

instance offsetsFitDecidable (lastAppliedIndex : Int) :
    ∀ (size : Nat) (indexes : List Int), Decidable (OffsetsFit lastAppliedIndex size indexes)
  | _, [] => inferInstanceAs (Decidable True)
  | size, i :: rest =>
      have := offsetsFitDecidable lastAppliedIndex
        (if i < lastAppliedIndex ∨ size < i - lastAppliedIndex then size + 1 else size) rest
      inferInstanceAs (Decidable (_ ∧ _))

instance fitsDecidable (s : FsmCaller) (task : Committed) (indexes : List Int) :
    Decidable (Fits s task indexes) :=
  decidable_of_iff
    (OffsetsFit s.lastAppliedIndex s.ooApplyQueue.length indexes ∧
      (indexes ≠ [] ∨ s.ooApplyQueue ≠ []) ∧ s.lastAppliedIndex ∉ indexes ∧
      s.lastAppliedIndex ≤ task.committedIndex ∧
      (∀ i ∈ indexRange (s.lastAppliedIndex + 1) task.committedIndex,
        i ∈ s.handed.map Prod.fst ∨ i ∈ indexes) ∧
      task.committedIndex + 1 ∉ s.handed.map Prod.fst ∧ task.committedIndex + 1 ∉ indexes)
    ⟨fun ⟨a, b, c, d, e, f⟩ => ⟨a, b, c, d, e, f⟩, fun ⟨a, b, c, d, e, f⟩ => ⟨a, b, c, d, e, f⟩⟩

instance advancesDecidable (s : FsmCaller) : ∀ event, Decidable (Advances s event)
  | .resetFirstIndex _ => inferInstanceAs (Decidable True)
  | .appendPendingClosure _ => inferInstanceAs (Decidable True)
  | .clear => inferInstanceAs (Decidable True)
  | .doCommitted _ => inferInstanceAs (Decidable ((_ ∧ _) ∨ ∃ popped ∈ _, _))

instance readableDecidable (getEntry : Int → Option LogEntry) (s : FsmCaller) :
    ∀ event, Decidable (Readable getEntry s event)
  | .resetFirstIndex _ => inferInstanceAs (Decidable True)
  | .appendPendingClosure _ => inferInstanceAs (Decidable True)
  | .clear => inferInstanceAs (Decidable True)
  | .doCommitted _ => inferInstanceAs (Decidable (∀ popped ∈ _, ∀ i ∈ _, _))

private theorem markOne_quiet {last i : Int} {queue : List Bool} (hoffset : i - last ≠ queue.length)
    (hfresh : last ≠ i) (h : Quiet queue) :
    ∃ marked, markOne last queue i = some marked ∧ Quiet marked ∧ marked ≠ [] ∧
      marked.length = if i < last ∨ queue.length < i - last then queue.length + 1
        else queue.length := by
  unfold markOne
  split
  · refine ⟨queue ++ [false], rfl, ?_, by simp, by simp⟩
    cases queue with
    | nil => simp [Quiet]
    | cons flag rest => simpa [Quiet] using h
  · obtain ⟨d, hd⟩ : ∃ d : Nat, i - last = d + 1 := ⟨(i - last - 1).toNat, by omega⟩
    refine ⟨_, store_defined true (by omega) (by omega), ?_, ?_, by simp⟩
    · rw [hd]
      cases queue with
      | nil => simp [Quiet]
      | cons flag rest => simpa [Quiet] using h
    · intro hnil
      have hlength := congrArg List.length hnil
      rw [List.length_set, List.length_nil] at hlength
      omega

private theorem markAll_defined {last : Int} {indexes : List Int} {queue : List Bool}
    (hoffsets : OffsetsFit last queue.length indexes) (hfresh : last ∉ indexes)
    (hfront : indexes ≠ [] ∨ queue ≠ []) (h : Quiet queue) :
    ∃ marked, runEvents (markOne last) queue indexes = some marked ∧ Quiet marked ∧
      marked ≠ [] := by
  induction indexes generalizing queue with
  | nil => exact ⟨queue, rfl, h, by simpa using hfront⟩
  | cons i rest ih =>
    obtain ⟨hoffset, hrest⟩ := hoffsets
    obtain ⟨hne, hfresh⟩ := not_or.mp (mt List.mem_cons.mpr hfresh)
    obtain ⟨mid, hmid, hquiet, hnonempty, hlength⟩ := markOne_quiet hoffset hne h
    rw [← hlength] at hrest
    obtain ⟨marked, hmarked, hend⟩ := ih hrest hfresh (.inr hnonempty) hquiet
    exact ⟨marked, runEvents_cons_eq_some.mpr ⟨mid, hmid, hmarked⟩, hend⟩

private theorem applyEntries_eq_walk (getEntry : Int → Option LogEntry) (n : Nat)
    (iter : IteratorImpl) :
    applyEntries getEntry (fun _ => none) n iter = iter.walk getEntry n := by
  induction n generalizing iter with
  | zero => rfl
  | succ n ih =>
    have htaken : applyOne (fun _ => none) iter = iter := by
      unfold applyOne
      split <;> rfl
    rw [applyEntries, IteratorImpl.walk, htaken]
    split
    · rename_i hgood
      simp only [hgood, if_true, ih]
    · rfl

structure Settled (s : FsmCaller) : Prop where
  good : s.error = false
  quiet : Quiet s.ooApplyQueue
  greatest : IsGreatest (appliedUpTo s) s.lastAppliedIndex

private theorem appliedUpTo_append {s t : FsmCaller} {more : List (Int × Option Nat)}
    (hhanded : t.handed = s.handed ++ more) {last c : Int}
    (hgreatest : IsGreatest (appliedUpTo s) last) (hforward : last ≤ c)
    (hcovered : ∀ i, last + 1 ≤ i → i ≤ c →
      i ∈ s.handed.map Prod.fst ∨ i ∈ more.map Prod.fst)
    (hgap : c + 1 ∉ s.handed.map Prod.fst ∧ c + 1 ∉ more.map Prod.fst) :
    IsGreatest (appliedUpTo t) c := by
  obtain ⟨⟨hpos, hall⟩, -⟩ := hgreatest
  have hmem : ∀ i, i ∈ t.handed.map Prod.fst ↔
      i ∈ s.handed.map Prod.fst ∨ i ∈ more.map Prod.fst := by
    intro i
    rw [hhanded, List.map_append, List.mem_append]
  refine ⟨⟨by omega, fun i hlow hhigh => ?_⟩, fun n ⟨_, hn⟩ => ?_⟩
  · rw [hmem]
    by_cases hold : i ≤ last
    · exact .inl (hall i hlow hold)
    · exact hcovered i (by omega) hhigh
  · by_contra hgt
    rcases (hmem _).mp (hn (c + 1) (by omega) (by omega)) with hold | hnew
    · exact hgap.1 hold
    · exact hgap.2 hnew

private theorem doCommitted_fits {getEntry : Int → Option LogEntry} {s : FsmCaller}
    {task : Committed}
    {popped : Popped} (h : Settled s) (hwork : ¬ Skipped s task)
    (hpop : s.closures.popClosureUntil task.committedIndex task.ooCommittedEntries = some popped)
    (hentries : ∀ i ∈ batch s task popped, (getEntry i).isSome = true)
    (hfits : Fits s task (batch s task popped)) :
    ∃ t, step getEntry s (.doCommitted task) = some t ∧
      t.lastAppliedIndex = task.committedIndex ∧ Settled t := by
  obtain ⟨dones, hdones, hlength⟩ : ∃ dones : List (Option Nat),
      dones = (if popped.out = [] then List.replicate (batch s task popped).length none
        else popped.out) ∧ dones.length = (batch s task popped).length := by
    refine ⟨_, rfl, ?_⟩
    split
    · exact List.length_replicate
    · rename_i hsome
      rcases popClosureUntil_out hpop with hnil | heq
      · exact absurd hnil hsome
      · rw [batch, if_neg hsome, List.append_nil, heq]
  have hfuel : (batch s task popped).length <
      FsmCaller.rounds popped s.lastAppliedIndex task.committedIndex := by
    rw [batch, FsmCaller.rounds, List.length_append]
    split
    · rw [length_indexRange]
      omega
    · rw [List.length_nil]
      omega
  obtain ⟨last, hwalk, hlist, herror⟩ := walk_start rfl hdones hlength hentries hfuel
  obtain ⟨marked, hmarked, hquiet, hnonempty⟩ :=
    markAll_defined hfits.offsets hfits.fresh hfits.front h.quiet
  have hstop : handOut getEntry (fun _ => none) s task =
      some ⟨popped, (batch s task popped).zip dones, last⟩ := by
    rw [handOut, hpop]
    simp only [Option.bind_eq_bind, Option.bind_some]
    rw [applyEntries_eq_walk, hwalk]
    rfl
  have hlist' : last.indexList = batch s task popped := hlist
  have hwork' : ¬ (task.committedIndex ≤ s.lastAppliedIndex ∧ task.ooCommittedEntries = []) := hwork
  have hindexes : ((batch s task popped).zip dones).map Prod.fst = batch s task popped :=
    List.map_fst_zip hlength.ge
  refine ⟨⟨popped.queue, task.committedIndex, marked, false,
    s.handed ++ (batch s task popped).zip dones⟩, ?_, rfl, rfl, hquiet, ?_⟩
  · rw [step, doCommitted, if_neg (by simp [h.good]), if_neg hwork', hstop]
    simp only [Option.bind_eq_bind, Option.bind_some, herror, Bool.false_eq_true, if_false, hlist']
    rw [hmarked]
    simp only [Option.bind_some]
    rw [popApplied_quiet hquiet hnonempty]
    simp
  · apply appliedUpTo_append rfl h.greatest hfits.forward
    · intro i hlow hhigh
      rw [hindexes]
      exact hfits.covered i (mem_indexRange.mpr ⟨hlow, hhigh⟩)
    · rw [hindexes]
      exact hfits.gap

private theorem settled_step {getEntry : Int → Option LogEntry} {s : FsmCaller} (h : Settled s)
    {event : Event} (hreadable : Readable getEntry s event) (hadvances : Advances s event) :
    ∃ t, step getEntry s event = some t ∧ s.lastAppliedIndex ≤ t.lastAppliedIndex ∧ Settled t := by
  cases event with
  | resetFirstIndex firstIndex => exact ⟨_, rfl, le_refl _, h.good, h.quiet, h.greatest⟩
  | appendPendingClosure closure => exact ⟨_, rfl, le_refl _, h.good, h.quiet, h.greatest⟩
  | clear => exact ⟨_, rfl, le_refl _, h.good, h.quiet, h.greatest⟩
  | doCommitted task =>
    by_cases hskip : Skipped s task
    · have hreturns :
          task.committedIndex ≤ s.lastAppliedIndex ∧ task.ooCommittedEntries = [] := hskip
      refine ⟨s, ?_, le_refl _, h⟩
      rw [step, doCommitted, if_neg (by simp [h.good]), if_pos hreturns]
      rfl
    · rcases hadvances with hadvances | ⟨popped, hpop, hfits⟩
      · exact absurd hadvances hskip
      · obtain ⟨t, hstep, hlast, ht⟩ :=
          doCommitted_fits h hskip hpop (hreadable popped hpop) hfits
        exact ⟨t, hstep, hlast ▸ hfits.forward, ht⟩

private theorem settled_new : Settled new := by
  refine ⟨rfl, by simp [Quiet, new], ⟨le_refl _, fun i hlow hhigh => ?_⟩, fun n ⟨_, hn⟩ => ?_⟩
  · have hhigh : i ≤ 0 := hhigh
    omega
  · show n ≤ 0
    by_contra hpos
    have hone := hn 1 (le_refl _) (by omega)
    simp [new] at hone

/-- In a run whose calls all fit, the last applied index is the applied prefix. -/
theorem lastApplied_sound (getEntry : Int → Option LogEntry) (events : List Event)
    (hreadable : Guarded (step getEntry) (Readable getEntry) new events)
    (hadvances : Guarded (step getEntry) Advances new events) :
    LastAppliedSound getEntry events := by
  intro pre event post hsplit
  have hprogress : ∀ s event, Settled s → Readable getEntry s event ∧ Advances s event →
      ∃ t, step getEntry s event = some t ∧ Settled t := by
    rintro s event h ⟨hreads, hfits⟩
    obtain ⟨t, hstep, -, ht⟩ := settled_step h hreads hfits
    exact ⟨t, hstep, ht⟩
  subst hsplit
  obtain ⟨s, hs, hsettled⟩ := run_defined_of_step hprogress settled_new
    (guarded_and.mpr ⟨guarded_append_left hreadable, guarded_append_left hadvances⟩)
  obtain ⟨t, hstep, hforward, ht⟩ := settled_step hsettled
    (guarded_append_right hreadable hs).1 (guarded_append_right hadvances hs).1
  exact ⟨s, t, hs, hstep, hforward, ht.greatest⟩

section Samples

private def everyEntry (i : Int) : Option LogEntry := some ⟨.noOp, ⟨i, 1⟩, 0, none, none, []⟩

/-- A follower is told of three commits, and then of two more with index 7 ahead. -/
theorem shrinkingBatches_sound :
    LastAppliedSound everyEntry [.doCommitted ⟨3, []⟩, .doCommitted ⟨5, [7]⟩] :=
  lastApplied_sound everyEntry _ (by decide) (by decide)

/-- Two commits one after the other: the second one is marked one past the end. -/
theorem oneByOne_not_sound :
    ¬ LastAppliedSound everyEntry [.doCommitted ⟨1, []⟩, .doCommitted ⟨2, []⟩] := by
  intro h
  obtain ⟨s, t, hs, hstep, -⟩ := h [.doCommitted ⟨1, []⟩] (.doCommitted ⟨2, []⟩) [] rfl
  have hrun : runEvents (step everyEntry) new
      ([.doCommitted ⟨1, []⟩] ++ [.doCommitted ⟨2, []⟩]) = some t :=
    runEvents_append_eq_some.mpr ⟨s, hs, runEvents_cons_eq_some.mpr ⟨t, hstep, rfl⟩⟩
  have hundefined : runEvents (step everyEntry) new
      ([.doCommitted ⟨1, []⟩] ++ [.doCommitted ⟨2, []⟩]) = none := rfl
  rw [hundefined] at hrun
  cases hrun

end Samples

end HitConsistency.Commit.AppliedPrefix
