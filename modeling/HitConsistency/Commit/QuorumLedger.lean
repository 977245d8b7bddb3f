/- GID: HitConsistency/Commit/QuorumLedger
   digest: Within one leadership the ballot box refines a ledger of recorded votes. -/

import HitConsistency.Commit.PendingQueues
import Mathlib.Data.List.TakeWhile
import Mathlib.Order.Bounds.Basic

set_option autoImplicit false
set_option relaxedAutoImplicit false

/-!
The ledger is what the box is for: the tasks appended since the leadership began
and, for every index, the set of peers whose acknowledgement was accepted. The
box keeps only the ballots from its pending index on and a parallel deque of
flags; `Tracks` says that these are the ledger's own tallies.
-/

namespace HitConsistency.Commit.QuorumLedger

open HitConsistency.Base.GuardedRuns
open HitConsistency.Base.IndexedDeque
open HitConsistency.Group.Peers
open HitConsistency.Commit.BallotCount
open HitConsistency.Commit.PendingQueues

structure Task where
  conf : Configuration
  oldConf : Option Configuration
  deriving DecidableEq

structure Ledger where
  first : Int
  tasks : List Task
  votes : Int → Finset PeerId

namespace Ledger

def start (first : Int) : Ledger := ⟨first, [], fun _ => ∅⟩

def bound (L : Ledger) : Int := L.first + L.tasks.length

def append (L : Ledger) (task : Task) : Ledger := { L with tasks := L.tasks ++ [task] }

def vote (L : Ledger) (peer : PeerId) (index : Int) : Ledger :=
  { L with votes := fun i => if i = index then insert peer (L.votes i) else L.votes i }

def voteAll (L : Ledger) (peer : PeerId) (indexes : List Int) : Ledger :=
  indexes.foldl (fun L => L.vote peer) L

/-- An acknowledgement is refused as a whole when it reaches past the last task. -/
def commit (L : Ledger) (indexes : List Int) (peer : PeerId) : Ledger :=
  if ∀ i ∈ indexes, i < L.bound then L.voteAll peer indexes else L

/-- The index has a task, and the peers recorded for it form its quorum. -/
def Reached (L : Ledger) (i : Int) : Prop :=
  ∃ task ∈ item L.tasks (i - L.first), ReachedQuorum task.conf task.oldConf (L.votes i)

instance reachedDecidable (L : Ledger) (i : Int) : Decidable (L.Reached i) :=
  inferInstanceAs (Decidable (∃ task ∈ item L.tasks (i - L.first), _))

end Ledger

inductive Call
  | appendPendingTask (task : Task)
  | commitAt (indexes : List Int) (peer : PeerId)

namespace Call

/-- The lists handed to `commit_at` are strictly increasing. -/
def Ascending : Call → Prop
  | appendPendingTask _ => True
  | commitAt indexes _ => indexes.Pairwise (· < ·)

instance ascendingDecidable : ∀ call : Call, Decidable call.Ascending
  | appendPendingTask _ => inferInstanceAs (Decidable True)
  | commitAt indexes _ => inferInstanceAs (Decidable (indexes.Pairwise (· < ·)))

def record (L : Ledger) : Call → Ledger
  | appendPendingTask task => L.append task
  | commitAt indexes peer => L.commit indexes peer

def execute (box : BallotBox) : Call → Option Outcome
  | appendPendingTask task => some ⟨.ok, box.appendPendingTask task.conf task.oldConf, none⟩
  | commitAt indexes peer => box.commitAt indexes peer

end Call

def recorded (L : Ledger) (calls : List Call) : Ledger := calls.foldl Call.record L

/-- Run the calls on the box, keeping the outcome of each. -/
def executed : BallotBox → List Call → Option (List Outcome)
  | _, [] => some []
  | box, call :: calls => do
      let outcome ← call.execute box
      let rest ← executed outcome.box calls
      some (outcome :: rest)

def boxAfter (box : BallotBox) (outcomes : List Outcome) : BallotBox :=
  (outcomes.getLast?.map Outcome.box).getD box

/-- The out-of-order list of an outcome's `on_committed` call. -/
def reported (outcome : Outcome) : List Int :=
  (outcome.onCommitted.map Committed.ooCommittedEntries).getD []

section LedgerLaws

variable (L : Ledger) (peer : PeerId)

@[simp] theorem vote_tasks (i : Int) : (L.vote peer i).tasks = L.tasks := rfl

@[simp] theorem vote_first (i : Int) : (L.vote peer i).first = L.first := rfl

@[simp] theorem vote_bound (i : Int) : (L.vote peer i).bound = L.bound := rfl

private theorem voteAll_append (is js : List Int) :
    L.voteAll peer (is ++ js) = (L.voteAll peer is).voteAll peer js :=
  List.foldl_append

@[simp] theorem voteAll_first (is : List Int) : (L.voteAll peer is).first = L.first := by
  induction is generalizing L with
  | nil => rfl
  | cons i is ih => exact ih (L.vote peer i)

@[simp] theorem voteAll_tasks (is : List Int) : (L.voteAll peer is).tasks = L.tasks := by
  induction is generalizing L with
  | nil => rfl
  | cons i is ih => exact ih (L.vote peer i)

@[simp] theorem voteAll_bound (is : List Int) : (L.voteAll peer is).bound = L.bound := by
  simp [Ledger.bound]

theorem voteAll_votes (is : List Int) (j : Int) :
    (L.voteAll peer is).votes j = if j ∈ is then insert peer (L.votes j) else L.votes j := by
  induction is generalizing L with
  | nil => rfl
  | cons i is ih =>
    have step := ih (L.vote peer i)
    rw [show L.voteAll peer (i :: is) = (L.vote peer i).voteAll peer is from rfl, step]
    by_cases hj : j ∈ is <;> by_cases hi : j = i <;> simp [hj, hi, Ledger.vote]

variable {L peer}

private theorem reached_vote_self {i : Int} (h : L.Reached i) : (L.vote peer i).Reached i := by
  obtain ⟨task, htask, hq⟩ := h
  exact ⟨task, htask, hq.mono (by simp [Ledger.vote])⟩

private theorem reached_vote_other {i j : Int} (hne : j ≠ i) :
    (L.vote peer i).Reached j ↔ L.Reached j := by
  simp [Ledger.Reached, Ledger.vote, hne]

private theorem reached_vote_mono {i j : Int} (h : L.Reached j) : (L.vote peer i).Reached j := by
  by_cases hne : j = i
  · subst hne
    exact reached_vote_self h
  · exact (reached_vote_other hne).mpr h

private theorem reached_voteAll_mono {is : List Int} {j : Int} (h : L.Reached j) :
    (L.voteAll peer is).Reached j := by
  induction is generalizing L with
  | nil => exact h
  | cons i is ih => exact ih (reached_vote_mono h)

theorem reached_voteAll_of_notMem {is : List Int} {j : Int} (h : j ∉ is) :
    (L.voteAll peer is).Reached j ↔ L.Reached j := by
  simp [Ledger.Reached, voteAll_votes, h]

theorem reached_commit_mono {is : List Int} {j : Int} (h : L.Reached j) :
    (L.commit is peer).Reached j := by
  unfold Ledger.commit
  split
  · exact reached_voteAll_mono h
  · exact h

theorem reached_bounds {j : Int} (h : L.Reached j) : L.first ≤ j ∧ j < L.bound := by
  obtain ⟨task, htask, -⟩ := h
  have := item_eq_some_bounds htask
  unfold Ledger.bound
  omega

theorem reached_append (task : Task) (hfresh : L.votes L.bound = ∅) (j : Int) :
    (L.append task).Reached j ↔ L.Reached j := by
  unfold Ledger.Reached Ledger.append
  dsimp only
  rw [item_push]
  split
  · rename_i hj
    have hb : j = L.bound := by
      unfold Ledger.bound
      omega
    subst hb
    have hout : item L.tasks (L.bound - L.first) = none :=
      item_none_of_le (by omega)
    simp [hout, hfresh, not_reachedQuorum_empty]
  · rfl

end LedgerLaws

/-- The two deques, based at `pendingIndex`, hold the ledger's tallies. -/
structure Matches (L : Ledger) (pendingIndex : Int) (metaQueue : List Ballot)
    (flags : List Bool) : Prop where
  metaLength : pendingIndex + metaQueue.length = L.bound
  flagLength : flags.length = metaQueue.length
  first_le : L.first ≤ pendingIndex
  ballot : ∀ i task, pendingIndex ≤ i → item L.tasks (i - L.first) = some task →
    ∃ bl, item metaQueue (i - pendingIndex) = some bl ∧
      Counts bl task.conf task.oldConf (L.votes i)
  flag : ∀ i f, item flags (i - pendingIndex) = some f → (f = true ↔ L.Reached i)

/-- The box agrees with the ledger, and its pending index is the first open one. -/
structure Tracks (L : Ledger) (box : BallotBox) : Prop where
  matching : Matches L box.pendingIndex box.pendingMetaQueue box.committedIndexQueue
  below : ∀ i, L.first ≤ i → i < box.pendingIndex → L.Reached i
  pending : ¬ L.Reached box.pendingIndex
  fresh : ∀ i, L.bound ≤ i → L.votes i = ∅

theorem tracks_start (lastCommittedIndex n : Int) :
    Tracks (Ledger.start n) ((BallotBox.idle lastCommittedIndex).resetPendingIndex n) := by
  have none_reached : ∀ i, ¬ (Ledger.start n).Reached i := by
    rintro i ⟨task, htask, -⟩
    simp [Ledger.start, item] at htask
  refine ⟨⟨?_, rfl, le_rfl, ?_, ?_⟩, ?_, none_reached _, fun _ _ => rfl⟩
  · simp [BallotBox.idle, BallotBox.resetPendingIndex, Ledger.bound, Ledger.start]
  · intro i task _ htask
    simp [Ledger.start, item] at htask
  · intro i f hf
    simp [BallotBox.idle, BallotBox.resetPendingIndex, item] at hf
  · intro i hi hlt
    exact absurd hlt (by simpa [BallotBox.resetPendingIndex, Ledger.start] using hi)

theorem tracks_append {L : Ledger} {box : BallotBox} (h : Tracks L box) (task : Task) :
    Tracks (L.append task) (box.appendPendingTask task.conf task.oldConf) := by
  have hreach := reached_append task (h.fresh L.bound le_rfl)
  obtain ⟨hmeta, hflags, hfirst, hballot, hflag⟩ := h.matching
  have hbound : (L.append task).bound = L.bound + 1 := by
    simp [Ledger.bound, Ledger.append]
    omega
  refine ⟨⟨?_, ?_, hfirst, ?_, ?_⟩, ?_, ?_, ?_⟩
  · simp only [BallotBox.appendPendingTask, List.length_append, List.length_singleton, hbound]
    omega
  · simp [BallotBox.appendPendingTask, hflags]
  · intro i t hi ht
    simp only [BallotBox.appendPendingTask, Ledger.append] at hi ht ⊢
    rw [item_push] at ht ⊢
    have hsame : i - box.pendingIndex = box.pendingMetaQueue.length ↔
        i - L.first = L.tasks.length := by
      unfold Ledger.bound at hmeta
      omega
    by_cases hnew : i - L.first = L.tasks.length
    · rw [if_pos hnew] at ht
      cases ht
      refine ⟨_, if_pos (hsame.mpr hnew), ?_⟩
      rw [h.fresh i (by unfold Ledger.bound; omega)]
      exact counts_init task.conf task.oldConf
    · rw [if_neg hnew] at ht
      rw [if_neg fun e => hnew (hsame.mp e)]
      exact hballot i t hi ht
  · intro i f hf
    simp only [BallotBox.appendPendingTask] at hf
    rw [item_push] at hf
    rw [hreach]
    split at hf
    · rename_i hi
      cases hf
      -- The new flag is down, and no vote for the new index exists.
      have hout : ¬ L.Reached i := fun hr => by
        have := reached_bounds hr
        omega
      simp [hout]
    · exact hflag i f hf
  · intro i hi hlt
    exact (hreach i).mpr (h.below i hi hlt)
  · exact fun hr => h.pending ((hreach _).mp hr)
  · intro i hi
    exact h.fresh i (by omega)

/-- One grant keeps the deques on the ledger and reports an index exactly when
this vote completed its quorum. -/
private theorem matches_grantOne {L : Ledger} {p : Int} {pass : Pass}
    (h : Matches L p pass.metaQueue pass.flags) (peer : PeerId) {i : Int}
    (hlo : p ≤ i) (hhi : i < L.bound) :
    ∃ pass', BallotBox.grantOne p peer pass i = some pass' ∧
      Matches (L.vote peer i) p pass'.metaQueue pass'.flags ∧
      pass'.ooCommittedEntries = pass.ooCommittedEntries ++
        if ¬ L.Reached i ∧ (L.vote peer i).Reached i then [i] else [] := by
  obtain ⟨hmeta, hflags, hfirst, hballot, hflag⟩ := h
  obtain ⟨task, htask⟩ : ∃ task, item L.tasks (i - L.first) = some task :=
    exists_item (by omega) (by unfold Ledger.bound at hhi; omega)
  obtain ⟨bl, hbl, hcounts⟩ := hballot i task hlo htask
  have hcounts' := counts_grant hcounts peer pass.posHint
  have hgranted : (bl.grant peer pass.posHint).1.granted = true ↔ (L.vote peer i).Reached i := by
    rw [granted_iff hcounts']
    simp [Ledger.Reached, Ledger.vote, htask]
  obtain ⟨metaQueue, hstore⟩ : ∃ q, store pass.metaQueue (i - p)
      (bl.grant peer pass.posHint).1 = some q :=
    ⟨_, store_defined _ (by omega) (by omega)⟩
  obtain ⟨f, hf⟩ : ∃ f, item pass.flags (i - p) = some f := exists_item (by omega) (by omega)
  have ballot' : ∀ j t, p ≤ j → item (L.vote peer i).tasks (j - (L.vote peer i).first) = some t →
      ∃ bl, item metaQueue (j - p) = some bl ∧
        Counts bl t.conf t.oldConf ((L.vote peer i).votes j) := by
    intro j t hj ht
    rw [item_store hstore]
    by_cases hji : j = i
    · subst hji
      have : task = t := by simpa [htask] using ht
      subst this
      exact ⟨_, if_pos rfl, by simpa [Ledger.vote] using hcounts'⟩
    · rw [if_neg (by omega)]
      simpa [Ledger.vote, hji] using hballot j t hj ht
  have other : ∀ j f, j ≠ i → item pass.flags (j - p) = some f →
      (f = true ↔ (L.vote peer i).Reached j) := by
    intro j f hji hf
    rw [reached_vote_other hji]
    exact hflag j f hf
  have hlen := store_length hstore
  simp only [BallotBox.grantOne, hbl, hstore, hf, Option.bind_eq_bind, Option.bind_some]
  by_cases hg : (bl.grant peer pass.posHint).1.granted = true
  · rw [if_pos hg]
    have hr := hgranted.mp hg
    by_cases hset : f = true
    · -- The quorum was complete before this grant.
      have hold := (hflag i f hf).mp hset
      refine ⟨_, if_pos hset, ⟨by simpa [hlen] using hmeta, by simp [hflags, hlen], hfirst,
        ballot', ?_⟩, by simp [hold]⟩
      intro j f' hf'
      by_cases hji : j = i
      · subst hji
        rw [hf] at hf'
        cases hf'
        exact ⟨fun _ => hr, fun _ => hset⟩
      · exact other j f' hji hf'
    · have hold : ¬ L.Reached i := fun hr => hset ((hflag i f hf).mpr hr)
      obtain ⟨flags, hstoreF⟩ : ∃ q, store pass.flags (i - p) true = some q :=
        ⟨_, store_defined _ (by omega) (by omega)⟩
      have hlenF := store_length hstoreF
      rw [if_neg hset, hstoreF]
      refine ⟨_, rfl, ⟨by simpa [hlen] using hmeta, by simp [hflags, hlen, hlenF], hfirst,
        ballot', ?_⟩, by simp [hold, hr]⟩
      intro j f' hf'
      rw [item_store hstoreF] at hf'
      by_cases hji : j = i
      · subst hji
        rw [if_pos rfl] at hf'
        cases hf'
        exact ⟨fun _ => hr, fun _ => rfl⟩
      · rw [if_neg (by omega)] at hf'
        exact other j f' hji hf'
  · have hr : ¬ (L.vote peer i).Reached i := fun hr => hg (hgranted.mpr hr)
    rw [if_neg hg]
    refine ⟨_, rfl, ⟨by simpa [hlen] using hmeta, by simp [hflags, hlen], hfirst, ballot', ?_⟩,
      by simp [hr]⟩
    intro j f' hf'
    by_cases hji : j = i
    · subst hji
      rw [hflag j f' hf']
      exact ⟨reached_vote_self, fun h => absurd h hr⟩
    · exact other j f' hji hf'

/-- The grant loop, started with an empty report, reports without repetition the
indexes whose quorum the whole pass completed. -/
private theorem matches_grantLoop {L : Ledger} {p : Int} (peer : PeerId) (indexes : List Int)
    (hrange : ∀ i ∈ indexes, p ≤ i ∧ i < L.bound) (pass : Pass)
    (h : Matches L p pass.metaQueue pass.flags) (L₀ : Ledger)
    (hoo : ∀ i, i ∈ pass.ooCommittedEntries ↔ ¬ L₀.Reached i ∧ L.Reached i)
    (hsub : ∀ i, L₀.Reached i → L.Reached i) (hnodup : pass.ooCommittedEntries.Nodup) :
    ∃ pass', runEvents (BallotBox.grantOne p peer) pass indexes = some pass' ∧
      Matches (L.voteAll peer indexes) p pass'.metaQueue pass'.flags ∧
      (∀ i, i ∈ pass'.ooCommittedEntries ↔
        ¬ L₀.Reached i ∧ (L.voteAll peer indexes).Reached i) ∧
      pass'.ooCommittedEntries.Nodup := by
  induction indexes generalizing L pass with
  | nil => exact ⟨pass, rfl, h, hoo, hnodup⟩
  | cons i indexes ih =>
    obtain ⟨hlo, hhi⟩ := hrange i (by simp)
    obtain ⟨mid, hstep, hmatch, hrep⟩ := matches_grantOne h peer hlo hhi
    have hooMid : ∀ j, j ∈ mid.ooCommittedEntries ↔
        ¬ L₀.Reached j ∧ (L.vote peer i).Reached j := by
      intro j
      rw [hrep, List.mem_append, hoo]
      by_cases hji : j = i
      · subst hji
        have := hsub j
        have : L.Reached j → (L.vote peer j).Reached j := reached_vote_self
        split <;> simp <;> tauto
      · rw [reached_vote_other hji]
        split <;> simp [hji]
    have hnodupMid : mid.ooCommittedEntries.Nodup := by
      rw [hrep]
      split
      · rename_i hnew
        refine List.nodup_append.mpr ⟨hnodup, List.nodup_singleton i, ?_⟩
        intro a ha b hb hab
        cases List.mem_singleton.mp hb
        subst hab
        exact hnew.1 ((hoo a).mp ha).2
      · simpa using hnodup
    obtain ⟨last, hrun, hlast⟩ := ih (L := L.vote peer i)
      (fun j hj => hrange j (by simp [hj])) mid hmatch hooMid
      (fun j hj => reached_vote_mono (hsub j hj)) hnodupMid
    exact ⟨last, runEvents_cons_eq_some.mpr ⟨mid, hstep, hrun⟩, hlast⟩

private theorem matches_voteBelow {L : Ledger} {p : Int} {metaQueue : List Ballot}
    {flags : List Bool}
    (h : Matches L p metaQueue flags) (peer : PeerId) {indexes : List Int}
    (hbelow : ∀ i ∈ indexes, i < p) : Matches (L.voteAll peer indexes) p metaQueue flags := by
  obtain ⟨hmeta, hflags, hfirst, hballot, hflag⟩ := h
  have above : ∀ i, p ≤ i → i ∉ indexes := fun i hi hmem => by
    have := hbelow i hmem
    omega
  refine ⟨by simpa using hmeta, hflags, by simpa using hfirst, ?_, ?_⟩
  · intro i task hi htask
    rw [voteAll_votes, if_neg (above i hi)]
    exact hballot i task hi (by simpa using htask)
  · intro i f hf
    have := item_eq_some_bounds hf
    rw [reached_voteAll_of_notMem (above i (by omega))]
    exact hflag i f hf

private theorem leading_flags (flags : List Bool) :
    (∀ k, k < (flags.takeWhile id).length → flags[k]? = some true) ∧
      flags[(flags.takeWhile id).length]? ≠ some true := by
  induction flags with
  | nil => simp
  | cons f flags ih =>
    cases f with
    | false => simp
    | true =>
      refine ⟨?_, by simpa using ih.2⟩
      intro k hk
      cases k with
      | zero => rfl
      | succ k => exact ih.1 k (by simpa using hk)

private theorem matches_pop {L : Ledger} {p : Int} {metaQueue : List Ballot} {flags : List Bool}
    (h : Matches L p metaQueue flags) :
    Matches L (p + (flags.takeWhile id).length)
        (metaQueue.drop (flags.takeWhile id).length) (flags.drop (flags.takeWhile id).length) ∧
      (∀ i, p ≤ i → i < p + (flags.takeWhile id).length → L.Reached i) ∧
      ¬ L.Reached (p + (flags.takeWhile id).length) := by
  obtain ⟨hmeta, hflags, hfirst, hballot, hflag⟩ := h
  have hle : (flags.takeWhile id).length ≤ flags.length :=
    (List.takeWhile_prefix id).length_le
  obtain ⟨leading, stop⟩ := leading_flags flags
  refine ⟨⟨?_, ?_, by omega, ?_, ?_⟩, ?_, ?_⟩
  · rw [List.length_drop]
    omega
  · simp [hflags]
  · intro i task hi htask
    obtain ⟨bl, hbl, hc⟩ := hballot i task (by omega) htask
    refine ⟨bl, ?_, hc⟩
    rw [item_drop _ _ (by omega), ← hbl]
    congr 1
    omega
  · intro i f hf
    have hb := item_eq_some_bounds hf
    rw [item_drop _ _ hb.1] at hf
    refine hflag i f ?_
    rw [← hf]
    congr 1
    omega
  · intro i hi hlt
    refine (hflag i true ?_).mp rfl
    unfold item
    rw [if_pos (by omega)]
    exact leading _ (by omega)
  · intro hr
    -- The flag behind the popped ones exists, because its index has a task, and is down.
    have hb := reached_bounds hr
    obtain ⟨f, hf⟩ : ∃ f, item flags (p + (flags.takeWhile id).length - p) = some f :=
      exists_item (by omega) (by omega)
    have hset := (hflag _ f hf).mpr hr
    subst hset
    apply stop
    rw [show p + ((flags.takeWhile id).length : Int) - p = (flags.takeWhile id).length by omega]
      at hf
    simpa [item] using hf

section Commit

variable {L : Ledger} {box : BallotBox} (h : Tracks L box) (peer : PeerId)
include h

private theorem reached_voteBelow {indexes : List Int}
    (hbelow : ∀ i ∈ indexes, i < box.pendingIndex)
    (j : Int) : (L.voteAll peer indexes).Reached j ↔ L.Reached j := by
  refine ⟨fun hr => ?_, reached_voteAll_mono⟩
  have hb := reached_bounds hr
  rw [voteAll_first] at hb
  by_cases hj : j < box.pendingIndex
  · exact h.below j hb.1 hj
  · exact (reached_voteAll_of_notMem fun hmem => hj (hbelow j hmem)).mp hr

private theorem tracks_voteBelow {indexes : List Int}
    (hbelow : ∀ i ∈ indexes, i < box.pendingIndex) : Tracks (L.voteAll peer indexes) box := by
  have hreach := reached_voteBelow h peer hbelow
  refine ⟨matches_voteBelow h.matching peer hbelow, ?_, ?_, ?_⟩
  · intro i hi hlt
    exact (hreach i).mpr (h.below i (by simpa using hi) hlt)
  · exact fun hr => h.pending ((hreach _).mp hr)
  · intro i hi
    rw [voteAll_bound] at hi
    have hlen := h.matching.metaLength
    have hnot : i ∉ indexes := fun hmem => by
      have := hbelow i hmem
      omega
    rw [voteAll_votes, if_neg hnot]
    exact h.fresh i hi

omit h in
private theorem ascending_le_back {indexes : List Int} (hasc : indexes.Pairwise (· < ·))
    {back : Int} (hback : indexes.getLast? = some back) : ∀ i ∈ indexes, i ≤ back := by
  obtain ⟨init, rfl⟩ := List.getLast?_eq_some_iff.mp hback
  intro i hi
  rcases List.mem_append.mp hi with hi | hi
  · exact le_of_lt ((List.pairwise_append.mp hasc).2.2 i hi back (by simp))
  · exact le_of_eq (List.mem_singleton.mp hi)

omit h in
private theorem ascending_dropWhile {indexes : List Int} (hasc : indexes.Pairwise (· < ·))
    (p : Int) : ∀ i ∈ indexes.dropWhile (· < p), p ≤ i := by
  intro i hi
  cases hd : indexes.dropWhile (· < p) with
  | nil => simp [hd] at hi
  | cons j js =>
    have hhead : p ≤ j := by
      have := List.head_dropWhile_not (p := fun x : Int => decide (x < p)) (l := indexes)
        (by simp [hd])
      simpa [hd] using this
    have hsorted := hasc.sublist (List.dropWhile_sublist (p := fun x : Int => decide (x < p)))
    rw [hd] at hi hsorted
    rcases List.mem_cons.mp hi with rfl | hi
    · exact hhead
    · exact hhead.trans (le_of_lt ((List.pairwise_cons.mp hsorted).1 i hi))

omit h in
private theorem ascending_front {indexes : List Int} (hasc : indexes.Pairwise (· < ·)) {p : Int}
    (hlo : ∀ i ∈ indexes, p ≤ i) (hmem : p ∈ indexes) : indexes.head? = some p := by
  cases indexes with
  | nil => simp at hmem
  | cons j js =>
    rcases List.mem_cons.mp hmem with rfl | hmem
    · rfl
    · have hj := (List.pairwise_cons.mp hasc).1 p hmem
      have := hlo j (by simp)
      omega

private theorem tracks_grantAndPop {indexes : List Int} (hasc : indexes.Pairwise (· < ·))
    (hrange : ∀ i ∈ indexes, i < L.bound) :
    ∃ outcome, box.grantAndPop indexes peer = some outcome ∧
      Tracks (L.voteAll peer indexes) outcome.box ∧
      box.pendingIndex ≤ outcome.box.pendingIndex ∧
      (∀ i, i ∈ reported outcome ↔ ¬ L.Reached i ∧ (L.voteAll peer indexes).Reached i) ∧
      (reported outcome).Nodup := by
  set p := box.pendingIndex with hp
  set stale := indexes.takeWhile (· < p) with hstale
  set live := indexes.dropWhile (· < p) with hlive
  have hsplit : L.voteAll peer indexes = (L.voteAll peer stale).voteAll peer live := by
    rw [← voteAll_append, hstale, hlive, List.takeWhile_append_dropWhile]
  have hbelow : ∀ i ∈ stale, i < p := fun i hi => by
    simpa using List.mem_takeWhile_imp hi
  have hlo : ∀ i ∈ live, p ≤ i := ascending_dropWhile hasc p
  -- Votes below the pending index change nothing, so the pass starts on the ledger
  -- that has them already.
  have hstart := tracks_voteBelow h peer hbelow
  have hsame := reached_voteBelow h peer hbelow
  obtain ⟨pass, hrun, hmatch, hoo, hnodup⟩ := matches_grantLoop peer live
    (fun i hi => ⟨hlo i hi, by
      simpa using hrange i ((List.dropWhile_sublist _).subset hi)⟩)
    ⟨box.pendingMetaQueue, box.committedIndexQueue, .new, []⟩
    hstart.matching (L.voteAll peer stale) (fun i => by simp) (fun i hi => hi) List.nodup_nil
  rw [← hsplit] at hmatch hoo
  have hoo' : ∀ i, i ∈ pass.ooCommittedEntries ↔
      ¬ L.Reached i ∧ (L.voteAll peer indexes).Reached i := fun i => by rw [hoo i, hsame i]
  have hfresh : ∀ i, (L.voteAll peer indexes).bound ≤ i →
      (L.voteAll peer indexes).votes i = ∅ := by
    intro i hi
    rw [voteAll_bound] at hi
    have hnot : i ∉ indexes := fun hmem => by
      have := hrange i hmem
      omega
    rw [voteAll_votes, if_neg hnot]
    exact h.fresh i hi
  have hold : ∀ i, (L.voteAll peer indexes).first ≤ i → i < p →
      (L.voteAll peer indexes).Reached i := fun i hi hlt =>
    reached_voteAll_mono (h.below i (by simpa using hi) hlt)
  have keep : ¬ (L.voteAll peer indexes).Reached p →
      Tracks (L.voteAll peer indexes)
        ⟨box.lastCommittedIndex, p, pass.metaQueue, pass.flags⟩ :=
    fun hopen => ⟨hmatch, hold, hopen, hfresh⟩
  unfold BallotBox.grantAndPop
  dsimp only
  rw [← hp, ← hlive, hrun]
  simp only [Option.bind_eq_bind, Option.bind_some]
  by_cases hempty : pass.ooCommittedEntries.isEmpty = true
  · have hnil : pass.ooCommittedEntries = [] := by simpa using hempty
    rw [if_pos hempty]
    refine ⟨_, rfl, keep fun hr => ?_, le_rfl, fun i => ?_, List.nodup_nil⟩
    · have := (hoo' p).mpr ⟨h.pending, hr⟩
      simp [hnil] at this
    · rw [← hoo' i, hnil]
      simp [reported]
  · rw [if_neg hempty]
    by_cases hhead : live.head? = some p
    · rw [if_pos hhead, popCommitted_eq _ _ hmatch.flagLength.symm]
      obtain ⟨hpop, hreached, hopen⟩ := matches_pop hmatch
      refine ⟨_, rfl, ⟨hpop, ?_, hopen, hfresh⟩, by dsimp only; omega, hoo', hnodup⟩
      intro i hi hlt
      by_cases hip : i < p
      · exact hold i hi hip
      · exact hreached i (by omega) hlt
    · rw [if_neg hhead]
      refine ⟨_, rfl, keep fun hr => ?_, le_rfl, hoo', hnodup⟩
      -- The list is ascending and its front is not the pending index.
      have hnot : p ∉ indexes := by
        intro hmem
        rw [← List.takeWhile_append_dropWhile (p := fun x : Int => decide (x < p)) (l := indexes),
          ← hstale, ← hlive] at hmem
        rcases List.mem_append.mp hmem with hmem | hmem
        · exact lt_irrefl p (hbelow p hmem)
        · exact hhead (ascending_front (hasc.sublist (List.dropWhile_sublist _)) hlo hmem)
      exact h.pending ((reached_voteAll_of_notMem hnot).mp hr)

/-- One `commit_at` on the box is one recorded acknowledgement in the ledger; its
report lists, once each, the indexes whose quorum it completed. -/
theorem tracks_commit (hpos : 0 < box.pendingIndex) {indexes : List Int}
    (hasc : indexes.Pairwise (· < ·)) :
    ∃ outcome, box.commitAt indexes peer = some outcome ∧
      Tracks (L.commit indexes peer) outcome.box ∧
      box.pendingIndex ≤ outcome.box.pendingIndex ∧
      (∀ i, i ∈ reported outcome ↔ ¬ L.Reached i ∧ (L.commit indexes peer).Reached i) ∧
      (reported outcome).Nodup := by
  have hlen := h.matching.metaLength
  have silent : ∀ rc, (∀ i, (L.commit indexes peer).Reached i ↔ L.Reached i) →
      (∀ i, i ∈ reported ⟨rc, box, none⟩ ↔ ¬ L.Reached i ∧ (L.commit indexes peer).Reached i) ∧
        (reported ⟨rc, box, none⟩).Nodup := by
    intro rc hsame
    refine ⟨fun i => ?_, List.nodup_nil⟩
    rw [hsame i]
    simp [reported]
  have hne : ¬ box.pendingIndex = 0 := by omega
  unfold BallotBox.commitAt
  rw [if_neg hne]
  cases hback : indexes.getLast? with
  | none =>
    have hnil := List.getLast?_eq_none_iff.mp hback
    subst hnil
    have hcommit : L.commit [] peer = L := by simp [Ledger.commit, Ledger.voteAll]
    refine ⟨_, rfl, by rwa [hcommit], le_rfl, silent .ok fun i => by rw [hcommit]⟩
  | some back =>
    have hmax := ascending_le_back hasc hback
    dsimp only
    by_cases hold : back < box.pendingIndex
    · have hbelow : ∀ i ∈ indexes, i < box.pendingIndex := fun i hi => (hmax i hi).trans_lt hold
      have hcommit : L.commit indexes peer = L.voteAll peer indexes :=
        if_pos fun i hi => by
          have := hbelow i hi
          omega
      rw [if_pos hold]
      refine ⟨_, rfl, ?_, le_rfl, silent .ok ?_⟩
      · rw [hcommit]
        exact tracks_voteBelow h peer hbelow
      · rw [hcommit]
        exact reached_voteBelow h peer hbelow
    · rw [if_neg hold]
      by_cases hover : box.pendingIndex + box.pendingMetaQueue.length ≤ back
      · have hcommit : L.commit indexes peer = L := by
          refine if_neg fun hall => ?_
          have := hall back (List.mem_of_getLast? hback)
          omega
        rw [if_pos hover]
        exact ⟨_, rfl, by rwa [hcommit], le_rfl, silent .erange fun i => by rw [hcommit]⟩
      · rw [if_neg hover]
        have hcommit : L.commit indexes peer = L.voteAll peer indexes :=
          if_pos fun i hi => by
            have := hmax i hi
            omega
        rw [hcommit]
        exact tracks_grantAndPop h peer hasc fun i hi => by
          have := hmax i hi
          omega

end Commit

/-- What one call reports, against the ledgers before and after it: every index it
completes, once, and nothing at all when it is refused. -/
structure Reports (before after : Ledger) (box : BallotBox) (outcome : Outcome) : Prop where
  completed : ∀ i, i ∈ reported outcome ↔ ¬ before.Reached i ∧ after.Reached i
  nodup : (reported outcome).Nodup
  refused : outcome.rc = .einval ∨ outcome.rc = .erange →
    outcome.box = box ∧ outcome.onCommitted = none

theorem tracks_execute {L : Ledger} {box : BallotBox} (h : Tracks L box)
    (hpos : 0 < box.pendingIndex) {call : Call} (hasc : call.Ascending) :
    ∃ outcome, call.execute box = some outcome ∧ Tracks (call.record L) outcome.box ∧
      0 < outcome.box.pendingIndex ∧ Reports L (call.record L) box outcome := by
  cases call with
  | appendPendingTask task =>
    refine ⟨_, rfl, tracks_append h task, hpos, ⟨fun i => ?_, List.nodup_nil, by simp⟩⟩
    rw [Call.record, reached_append task (h.fresh L.bound le_rfl)]
    simp [reported]
  | commitAt indexes peer =>
    obtain ⟨outcome, hrun, htracks, hle, hrep, hnodup⟩ := tracks_commit h peer hpos hasc
    exact ⟨outcome, hrun, htracks, by omega, hrep, hnodup, commitAt_refused hrun⟩

private theorem reached_record_mono {L : Ledger} {box : BallotBox} (h : Tracks L box) {call : Call}
    {i : Int} (hr : L.Reached i) : (call.record L).Reached i := by
  cases call with
  | appendPendingTask task => exact (reached_append task (h.fresh L.bound le_rfl) i).mpr hr
  | commitAt indexes peer => exact reached_commit_mono hr

private theorem boxAfter_cons (box : BallotBox) (outcome : Outcome) (rest : List Outcome) :
    boxAfter box (outcome :: rest) = boxAfter outcome.box rest := by
  cases rest with
  | nil => rfl
  | cons o rest => simp [boxAfter, List.getLast?_cons]

private theorem tracks_executed {L : Ledger} {box : BallotBox} (h : Tracks L box)
    (hpos : 0 < box.pendingIndex) {calls : List Call} (hasc : ∀ call ∈ calls, call.Ascending) :
    ∃ outcomes, executed box calls = some outcomes ∧
      Tracks (recorded L calls) (boxAfter box outcomes) ∧
      ∀ k outcome, outcomes[k]? = some outcome →
        Reports (recorded L (calls.take k)) (recorded L (calls.take (k + 1)))
          (boxAfter box (outcomes.take k)) outcome := by
  induction calls generalizing L box with
  | nil => exact ⟨[], rfl, h, by simp⟩
  | cons call calls ih =>
    obtain ⟨outcome, hstep, htracks, hpos', hreports⟩ := tracks_execute h hpos (hasc call (by simp))
    obtain ⟨rest, hrest, hend, hreps⟩ := ih htracks hpos' fun c hc => hasc c (by simp [hc])
    refine ⟨outcome :: rest, by simp [executed, hstep, hrest], ?_, ?_⟩
    · rw [boxAfter_cons]
      exact hend
    · intro k o ho
      cases k with
      | zero =>
        cases ho
        exact hreports
      | succ k =>
        rw [List.take_succ_cons, List.take_succ_cons, List.take_succ_cons, boxAfter_cons]
        exact hreps k o ho

private theorem reported_exactly_once {L : Ledger} {box : BallotBox} (h : Tracks L box)
    (hpos : 0 < box.pendingIndex) {calls : List Call} (hasc : ∀ call ∈ calls, call.Ascending)
    {outcomes : List Outcome} (hrun : executed box calls = some outcomes) (i : Int) :
    (L.Reached i → ¬ ∃ outcome ∈ outcomes, i ∈ reported outcome) ∧
      (¬ L.Reached i → (recorded L calls).Reached i →
        ∃! k : Nat, ∃ outcome, outcomes[k]? = some outcome ∧ i ∈ reported outcome) := by
  induction calls generalizing L box outcomes with
  | nil =>
    cases hrun
    exact ⟨by simp, fun hn hr => absurd hr hn⟩
  | cons call calls ih =>
    obtain ⟨outcome, hstep, htracks, hpos', hreports⟩ := tracks_execute h hpos (hasc call (by simp))
    obtain ⟨rest, hrest, rfl⟩ : ∃ rest, executed outcome.box calls = some rest ∧
        outcome :: rest = outcomes := by
      simpa [executed, hstep, Option.bind_eq_some_iff] using hrun
    obtain ⟨never, once⟩ := ih htracks hpos' (fun c hc => hasc c (by simp [hc])) hrest
    have hrep := hreports.completed i
    constructor
    · rintro hr ⟨o, ho, hio⟩
      rcases List.mem_cons.mp ho with rfl | ho
      · exact (hrep.mp hio).1 hr
      · exact never (reached_record_mono h hr) ⟨o, ho, hio⟩
    · intro hn hr
      by_cases hnow : (call.record L).Reached i
      · refine ⟨0, ⟨outcome, rfl, hrep.mpr ⟨hn, hnow⟩⟩, ?_⟩
        rintro k ⟨o, ho, hio⟩
        cases k with
        | zero => rfl
        | succ k => exact absurd ⟨o, List.mem_of_getElem? ho, hio⟩ (never hnow)
      · obtain ⟨k, hk, hunique⟩ := once hnow hr
        refine ⟨k + 1, hk, ?_⟩
        rintro j ⟨o, ho, hio⟩
        cases j with
        | zero =>
          cases ho
          exact absurd (hrep.mp hio).2 hnow
        | succ j => rw [hunique j ⟨o, ho, hio⟩]

theorem recorded_first (L : Ledger) (calls : List Call) : (recorded L calls).first = L.first := by
  induction calls generalizing L with
  | nil => rfl
  | cons call calls ih =>
    refine (ih (call.record L)).trans ?_
    cases call with
    | appendPendingTask task => rfl
    | commitAt indexes peer =>
      simp only [Call.record, Ledger.commit]
      split
      · exact voteAll_first L peer indexes
      · rfl

private theorem tracks_isLeast {L : Ledger} {box : BallotBox} (h : Tracks L box) :
    IsLeast {i | L.first ≤ i ∧ ¬ L.Reached i} box.pendingIndex := by
  refine ⟨⟨h.matching.first_le, h.pending⟩, ?_⟩
  rintro i ⟨hi, hopen⟩
  by_contra hlt
  exact hopen (h.below i hi (by omega))

private theorem tracks_ooCommited {L : Ledger} {box : BallotBox} (h : Tracks L box) (i : Int) :
    i ∈ box.ooCommitedIndexes.2 ↔ box.pendingIndex < i ∧ L.Reached i := by
  obtain ⟨hmeta, hflags, hfirst, -, hflag⟩ := h.matching
  rw [BallotBox.ooCommitedIndexes, mem_flagged]
  constructor
  · intro hi
    have hb := item_eq_some_bounds hi
    have hr := (hflag i true hi).mp rfl
    refine ⟨lt_of_le_of_ne (by omega) ?_, hr⟩
    rintro rfl
    exact h.pending hr
  · rintro ⟨hlt, hr⟩
    have hb := reached_bounds hr
    obtain ⟨f, hf⟩ := exists_item (q := box.committedIndexQueue) (d := i - box.pendingIndex)
      (by omega) (by omega)
    rw [hf, (hflag i f hf).mpr hr]

/-- An empty box at the beginning of a leadership. -/
def opened (lastCommittedIndex n : Int) : BallotBox :=
  (BallotBox.idle lastCommittedIndex).resetPendingIndex n

/-- After `reset_pending_index(n)` on an empty box, every list of appends and of
ascending acknowledgements leaves the box on the first index without a quorum,
with the later quorums flagged, and reports every quorum in the call that
completed it. -/
theorem ballotBox_tracks_quorums (lastCommittedIndex n : Int) (hn : 0 < n) (calls : List Call)
    (hasc : ∀ call ∈ calls, call.Ascending) :
    ∃ outcomes, executed (opened lastCommittedIndex n) calls = some outcomes ∧
      IsLeast {i | n ≤ i ∧ ¬ (recorded (.start n) calls).Reached i}
        (boxAfter (opened lastCommittedIndex n) outcomes).pendingIndex ∧
      (∀ i, i ∈ (boxAfter (opened lastCommittedIndex n) outcomes).ooCommitedIndexes.2 ↔
        (boxAfter (opened lastCommittedIndex n) outcomes).pendingIndex < i ∧
          (recorded (.start n) calls).Reached i) ∧
      (∀ i, (recorded (.start n) calls).Reached i →
        ∃! k : Nat, ∃ outcome, outcomes[k]? = some outcome ∧ i ∈ reported outcome) ∧
      ∀ k outcome, outcomes[k]? = some outcome →
        Reports (recorded (.start n) (calls.take k)) (recorded (.start n) (calls.take (k + 1)))
          (boxAfter (opened lastCommittedIndex n) (outcomes.take k)) outcome := by
  have hstart := tracks_start lastCommittedIndex n
  obtain ⟨outcomes, hrun, htracks, hreports⟩ := tracks_executed hstart hn hasc
  refine ⟨outcomes, hrun, ?_, tracks_ooCommited htracks, ?_, hreports⟩
  · have hleast := tracks_isLeast htracks
    rwa [recorded_first] at hleast
  · intro i hr
    refine (reported_exactly_once hstart hn hasc hrun i).2 ?_ hr
    rintro ⟨task, htask, -⟩
    simp [Ledger.start, item] at htask

/-- Two tasks, the second of which is acknowledged first. -/
private def sampleCalls : List Call :=
  [.appendPendingTask ⟨.three, none⟩, .appendPendingTask ⟨.three, none⟩,
    .commitAt [1, 2] ⟨1, 8000, 0⟩, .commitAt [2] ⟨2, 8000, 0⟩, .commitAt [1, 2] ⟨3, 8000, 0⟩]

theorem ballotBox_tracks_quorums_sample :
    (executed (opened 0 1) sampleCalls).map (·.map reported) = some [[], [], [], [2], [1]] ∧
      ∃ outcomes, executed (opened 0 1) sampleCalls = some outcomes ∧
        IsLeast {i | 1 ≤ i ∧ ¬ (recorded (.start 1) sampleCalls).Reached i}
          (boxAfter (opened 0 1) outcomes).pendingIndex := by
  have hasc : ∀ call ∈ sampleCalls, call.Ascending := by decide
  obtain ⟨outcomes, hrun, hleast, -⟩ := ballotBox_tracks_quorums 0 1 (by decide) sampleCalls hasc
  exact ⟨by decide, outcomes, hrun, hleast⟩

end HitConsistency.Commit.QuorumLedger
