/- GID: HitConsistency/Commit/EarlierTerms
   digest: When the committed index of a new leader waits for the quorum of its first entry. -/

import HitConsistency.Commit.QuorumLedger

set_option autoImplicit false
set_option relaxedAutoImplicit false

/-!
A leadership begins at index `n` with an older committed index `c`, so the entries
between the two are of earlier terms. `commit_at` stores the committed index whenever
its list begins with the pending index and completes some quorum, not necessarily the
one of the pending index.
-/

namespace HitConsistency.Commit.EarlierTerms

open HitConsistency.Base.GuardedRuns
open HitConsistency.Commit.BallotCount
open HitConsistency.Commit.PendingQueues
open HitConsistency.Commit.QuorumLedger
open HitConsistency.Group.Peers

/-- The box of a leader together with the record of what was acknowledged to it. -/
structure Leading where
  ledger : Ledger
  box : BallotBox

namespace Leading

/-- Right behind `reset_pending_index(n)`. -/
def start (c n : Int) : Leading := ⟨.start n, opened c n⟩

def step (s : Leading) (call : Call) : Option Leading :=
  (call.execute s.box).map fun outcome => ⟨call.record s.ledger, outcome.box⟩

/-- The committed index is the old one until index `n` has its quorum, and from then on
the end of the indexes without a missing quorum. -/
def BehindQuorum (c n : Int) (s : Leading) : Prop :=
  (¬ s.ledger.Reached n → s.box.lastCommittedIndex = c) ∧
    (s.ledger.Reached n →
      IsGreatest {m | ∀ i, n ≤ i → i ≤ m → s.ledger.Reached i} s.box.lastCommittedIndex)

/-- The call acknowledges index `n` without completing its quorum, and completes the
quorum of another index. -/
def Overtakes (n : Int) (s : Leading) : Call → Prop
  | .appendPendingTask _ => False
  | .commitAt indexes peer => n ∈ indexes ∧ ¬ (s.ledger.commit indexes peer).Reached n ∧
      ∃ i ∈ indexes, ¬ s.ledger.Reached i ∧ (s.ledger.commit indexes peer).Reached i

instance overtakesDecidable (n : Int) (s : Leading) : ∀ call, Decidable (s.Overtakes n call)
  | .appendPendingTask _ => inferInstanceAs (Decidable False)
  | .commitAt indexes _ =>
      inferInstanceAs (Decidable (n ∈ indexes ∧ _ ∧ ∃ i ∈ indexes, _))

end Leading

section Box

variable {box : BallotBox} {indexes : List Int} {peer : PeerId} {outcome : Outcome}

/-- What `commit_at` does to its two indexes: nothing, or it stores the committed index
right below the pending one, for a list that begins there and completes something. -/
theorem commitAt_stores (h : box.commitAt indexes peer = some outcome) :
    (outcome.box.lastCommittedIndex = box.lastCommittedIndex ∧
        outcome.box.pendingIndex = box.pendingIndex ∧
        (reported outcome = [] ∨
          (indexes.dropWhile (· < box.pendingIndex)).head? ≠ some box.pendingIndex)) ∨
      outcome.box.lastCommittedIndex = outcome.box.pendingIndex - 1 ∧
        reported outcome ≠ [] ∧
        (indexes.dropWhile (· < box.pendingIndex)).head? = some box.pendingIndex := by
  unfold BallotBox.commitAt at h
  split at h
  · cases h
    exact .inl ⟨rfl, rfl, .inl rfl⟩
  · split at h
    · cases h
      exact .inl ⟨rfl, rfl, .inl rfl⟩
    · split_ifs at h
      · cases h
        exact .inl ⟨rfl, rfl, .inl rfl⟩
      · cases h
        exact .inl ⟨rfl, rfl, .inl rfl⟩
      · unfold BallotBox.grantAndPop at h
        obtain ⟨pass, -, h⟩ := Option.bind_eq_some_iff.mp h
        dsimp only at h
        split_ifs at h with hempty hhead
        · cases h
          exact .inl ⟨rfl, rfl, .inl rfl⟩
        · obtain ⟨popped, -, h⟩ := Option.bind_eq_some_iff.mp h
          cases h
          refine .inr ⟨rfl, ?_, hhead⟩
          show pass.ooCommittedEntries ≠ []
          simpa using hempty
        · cases h
          exact .inl ⟨rfl, rfl, .inr hhead⟩

end Box

section Step

variable {c n : Int} {s t : Leading} {call : Call}

/-- The box tracks a ledger that begins at `n`. -/
structure Sound (n : Int) (s : Leading) : Prop where
  tracks : Tracks s.ledger s.box
  first : s.ledger.first = n
  positive : 0 < s.box.pendingIndex

theorem sound_start (c : Int) (hn : 0 < n) : Sound n (.start c n) :=
  ⟨tracks_start c n, rfl, hn⟩

theorem Sound.step (h : Sound n s) (hasc : call.Ascending) : ∃ t, s.step call = some t ∧ Sound n t := by
  obtain ⟨outcome, hrun, htracks, hpos, -⟩ := tracks_execute h.tracks h.positive hasc
  refine ⟨⟨call.record s.ledger, outcome.box⟩, by simp [Leading.step, hrun], htracks, ?_, hpos⟩
  exact (recorded_first s.ledger [call]).trans h.first

private theorem Sound.reached_iff (h : Sound n s) :
    s.ledger.Reached n ↔ n < s.box.pendingIndex := by
  have hfirst := h.tracks.matching.first_le
  rw [h.first] at hfirst
  constructor
  · intro hr
    refine lt_of_le_of_ne hfirst ?_
    intro heq
    rw [heq] at hr
    exact h.tracks.pending hr
  · intro hlt
    exact h.tracks.below n (by rw [h.first]) hlt

private theorem Sound.isGreatest (h : Sound n s) :
    IsGreatest {m | ∀ i, n ≤ i → i ≤ m → s.ledger.Reached i} (s.box.pendingIndex - 1) := by
  constructor
  · intro i hlo hhi
    exact h.tracks.below i (by rw [h.first]; exact hlo) (by omega)
  · intro m hm
    have hfirst := h.tracks.matching.first_le
    rw [h.first] at hfirst
    by_contra hlt
    exact h.tracks.pending (hm _ hfirst (by omega))

private theorem Sound.behindQuorum_iff (h : Sound n s) :
    s.BehindQuorum c n ↔
      (s.box.pendingIndex = n → s.box.lastCommittedIndex = c) ∧
        (n < s.box.pendingIndex → s.box.lastCommittedIndex = s.box.pendingIndex - 1) := by
  have hfirst := h.tracks.matching.first_le
  rw [h.first] at hfirst
  unfold Leading.BehindQuorum
  rw [h.reached_iff]
  constructor
  · rintro ⟨hopen, hreached⟩
    exact ⟨fun heq => hopen (by omega), fun hlt => (hreached hlt).unique h.isGreatest⟩
  · rintro ⟨hopen, hreached⟩
    refine ⟨fun hnot => hopen (by omega), fun hlt => ?_⟩
    rw [hreached hlt]
    exact h.isGreatest

private theorem head_eq_iff {indexes : List Int} (hasc : indexes.Pairwise (· < ·)) :
    (indexes.dropWhile (· < n)).head? = some n ↔ n ∈ indexes := by
  constructor
  · intro h
    exact (List.dropWhile_sublist _).subset (List.mem_of_head? h)
  · intro h
    induction indexes with
    | nil => cases h
    | cons i rest ih =>
      have hrest := List.pairwise_cons.mp hasc
      rcases List.mem_cons.mp h with rfl | hmem
      · simp
      · have hlt := hrest.1 n hmem
        rw [List.dropWhile_cons_of_pos (by simpa using hlt)]
        exact ih hrest.2 hmem

private theorem reached_commit_of_notMem {L : Ledger} {indexes : List Int} {peer : PeerId} {i : Int}
    (h : i ∉ indexes) : (L.commit indexes peer).Reached i ↔ L.Reached i := by
  unfold Ledger.commit
  split
  · exact reached_voteAll_of_notMem h
  · rfl

/-- One call keeps the committed index behind the quorum, unless it overtakes and there
are entries of earlier terms to commit by that. -/
private theorem behindQuorum_step (h : Sound n s) (hasc : call.Ascending)
    (hbehind : s.BehindQuorum c n) (hstep : s.step call = some t) :
    t.BehindQuorum c n ↔ c = n - 1 ∨ ¬ s.Overtakes n call := by
  obtain ⟨t', hstep', ht⟩ := h.step hasc
  cases hstep.symm.trans hstep'
  have hfirst := h.tracks.matching.first_le
  rw [h.first] at hfirst
  rw [ht.behindQuorum_iff]
  obtain ⟨hopen, hreached⟩ := h.behindQuorum_iff.mp hbehind
  obtain ⟨outcome, hrun, rfl⟩ := Option.map_eq_some_iff.mp hstep
  cases call with
  | appendPendingTask task =>
    cases hrun
    exact ⟨fun _ => .inr fun hover => hover, fun _ => ⟨hopen, hreached⟩⟩
  | commitAt indexes peer =>
    obtain ⟨outcome', hrun', -, hle, hreports, -⟩ :=
      tracks_commit h.tracks peer h.positive hasc
    cases hrun.symm.trans hrun'
    have hafter : (s.ledger.commit indexes peer).Reached n ↔ n < outcome.box.pendingIndex :=
      ht.reached_iff
    dsimp only
    rcases commitAt_stores hrun with ⟨hlast, hpending, hsilent⟩ | ⟨hlast, hreport, hhead⟩
    · -- Nothing was stored, so nothing was completed or the list does not begin at `n`.
      refine ⟨fun _ => .inr fun hover => ?_, fun _ => ?_⟩
      · obtain ⟨hmem, hnot, i, -, hnew⟩ := hover
        rw [hafter] at hnot
        have hp : s.box.pendingIndex = n := by omega
        rcases hsilent with hnone | hne
        · have := (hreports i).mpr hnew
          rw [hnone] at this
          cases this
        · rw [hp] at hne
          exact hne ((head_eq_iff hasc).mpr hmem)
      · rw [hlast, hpending]
        exact ⟨hopen, hreached⟩
    · -- The committed index was stored; it is right iff index `n` has its quorum now.
      refine ⟨fun hgood => ?_, fun hcond => ⟨fun heq => ?_, fun _ => hlast⟩⟩
      · by_cases hr : n < outcome.box.pendingIndex
        · exact .inr fun hover => hover.2.1 (hafter.mpr hr)
        · have hp : outcome.box.pendingIndex = n := by omega
          have := hgood.1 hp
          exact .inl (by omega)
      · rcases hcond with hadjacent | hover
        · omega
        exfalso
        obtain ⟨i, hi⟩ := List.exists_mem_of_ne_nil _ hreport
        have hnew := (hreports i).mp hi
        have hp : s.box.pendingIndex = n := by omega
        rw [hp] at hhead
        refine hover ⟨(head_eq_iff hasc).mp hhead, fun hr => ?_, i, ?_, hnew⟩
        · have := hafter.mp hr
          omega
        · by_contra hout
          exact hnew.1 ((reached_commit_of_notMem hout).mp hnew.2)

private theorem sound_run {calls : List Call} (h : Sound n s)
    (hasc : ∀ call ∈ calls, call.Ascending) :
    ∃ t, runEvents Leading.step s calls = some t ∧ Sound n t :=
  @run_defined_of_step _ _ Leading.step (fun _ call => call.Ascending) (Sound n)
    (fun _ _ hs hcall => hs.step hcall) _ _ h (guarded_of_forall hasc)

end Step

/-- The condition under which the head of the list decides rightly, along a run. -/
def Waits (c n : Int) (calls : List Call) : Prop :=
  c = n - 1 ∨ Guarded Leading.step (fun s call => ¬ s.Overtakes n call) (.start c n) calls

instance waitsDecidable (c n : Int) (calls : List Call) : Decidable (Waits c n calls) :=
  inferInstanceAs (Decidable (_ ∨ _))

/-- After `reset_pending_index(n)` on an empty box with an older committed index, through
every list of appends and ascending acknowledgements, the committed index waits for the
quorum of `n` and then follows the quorums, if and only if nothing lies between the two
indexes or no acknowledgement of `n` completes a later quorum only. -/
theorem committed_behind_quorum_iff (c n : Int) (hc : 0 ≤ c) (hcn : c < n) (calls : List Call)
    (hasc : ∀ call ∈ calls, call.Ascending) :
    (∀ pre post s, calls = pre ++ post → runEvents Leading.step (.start c n) pre = some s →
      s.BehindQuorum c n) ↔ Waits c n calls := by
  have hstart : Sound n (.start c n) := sound_start c (by omega)
  have hbegin : (Leading.start c n).BehindQuorum c n :=
    hstart.behindQuorum_iff.mpr ⟨fun _ => rfl, fun hlt => absurd hlt (lt_irrefl n)⟩
  have hsound : ∀ pre s, (∀ call ∈ pre, call.Ascending) →
      runEvents Leading.step (.start c n) pre = some s → Sound n s := by
    intro pre s hpre hrun
    obtain ⟨t, ht, hs⟩ := sound_run hstart hpre
    cases hrun.symm.trans ht
    exact hs
  constructor
  · intro h
    by_cases hadjacent : c = n - 1
    · exact .inl hadjacent
    · refine .inr (guarded_iff.mpr fun pre call post s hsplit hrun => ?_)
      have hcall : call.Ascending := hasc call (by simp [hsplit])
      have hs := hsound pre s (fun c hc => hasc c (by simp [hsplit, hc])) hrun
      obtain ⟨t, hstep, -⟩ := hs.step hcall
      have hnext : t.BehindQuorum c n :=
        h (pre ++ [call]) post t (by simp [hsplit]) (runEvents_append_eq_some.mpr
          ⟨s, hrun, runEvents_cons_eq_some.mpr ⟨t, hstep, rfl⟩⟩)
      have hthis := h pre (call :: post) s hsplit hrun
      exact ((behindQuorum_step hs hcall hthis hstep).mp hnext).resolve_left hadjacent
  · rintro hwaits pre post s rfl hrun
    have hguard : Guarded Leading.step
        (fun s call => call.Ascending ∧ (c = n - 1 ∨ ¬ s.Overtakes n call)) (.start c n) pre := by
      refine guarded_iff.mpr fun before call after t hsplit hrun' =>
        ⟨hasc call (by simp [hsplit]), hwaits.imp_right fun hguarded => ?_⟩
      refine guarded_iff.mp hguarded before call (after ++ post) t ?_ hrun'
      simp [hsplit]
    have hkeep : ∀ s call t, Sound n s ∧ s.BehindQuorum c n →
        call.Ascending ∧ (c = n - 1 ∨ ¬ s.Overtakes n call) → s.step call = some t →
        Sound n t ∧ t.BehindQuorum c n := by
      rintro s call t ⟨hs, hbehind⟩ ⟨hcall, hcond⟩ hstep
      obtain ⟨t', hstep', ht⟩ := hs.step hcall
      cases hstep.symm.trans hstep'
      exact ⟨ht, (behindQuorum_step hs hcall hbehind hstep).mpr hcond⟩
    exact (invariant_of_step hkeep ⟨hstart, hbegin⟩ hguard hrun).2

/-- Both tasks reach the disk of the leader behind the acknowledgement of the first. -/
private def inTurn : List Call :=
  [.appendPendingTask ⟨.three, none⟩, .appendPendingTask ⟨.three, none⟩,
    .commitAt [3] ⟨2, 8000, 0⟩, .commitAt [3, 4] ⟨1, 8000, 0⟩, .commitAt [4] ⟨2, 8000, 0⟩]

theorem inTurn_behind_quorum : (∀ call ∈ inTurn, call.Ascending) ∧ Waits 0 3 inTurn ∧
    ∀ pre post s, inTurn = pre ++ post → runEvents Leading.step (.start 0 3) pre = some s →
      s.BehindQuorum 0 3 := by
  have hasc : ∀ call ∈ inTurn, call.Ascending := by decide
  have hwaits : Waits 0 3 inTurn := by decide
  exact ⟨hasc, hwaits,
    (committed_behind_quorum_iff 0 3 (by decide) (by decide) inTurn hasc).mpr hwaits⟩

/-- The second task is acknowledged by another peer first. -/
private def overtaken : List Call :=
  [.appendPendingTask ⟨.three, none⟩, .appendPendingTask ⟨.three, none⟩,
    .commitAt [4] ⟨2, 8000, 0⟩, .commitAt [3, 4] ⟨1, 8000, 0⟩]

/-- Indexes 1 and 2 are of earlier terms and become committed while index 3 is not. -/
theorem overtaken_not_behind_quorum : (∀ call ∈ overtaken, call.Ascending) ∧
    ¬ ∀ pre post s, overtaken = pre ++ post →
      runEvents Leading.step (.start 0 3) pre = some s → s.BehindQuorum 0 3 := by
  refine ⟨by decide, fun h => ?_⟩
  have hrun : (runEvents Leading.step (.start 0 3) overtaken).map
      (fun s => (s.box.lastCommittedIndex, decide (s.ledger.Reached 3))) = some (2, false) := by
    decide
  obtain ⟨s, hs, hlast⟩ := Option.map_eq_some_iff.mp hrun
  have hopen : ¬ s.ledger.Reached 3 := of_decide_eq_false (Prod.ext_iff.mp hlast).2
  have hstays := (h overtaken [] s (by simp) hs).1 hopen
  have hmoved : s.box.lastCommittedIndex = 2 := (Prod.ext_iff.mp hlast).1
  omega

end HitConsistency.Commit.EarlierTerms
