/- GID: HitConsistency/Election/CommittedAgreement
   digest: Logs that agree in a term agree up to it, and committed entries are never replaced. -/

import HitConsistency.Election.LeaderCompleteness

set_option autoImplicit false
set_option relaxedAutoImplicit false

/-!
An entry is committed once its ballot is granted and a majority has written it in the
term of the grant. What `get_entry` reads is compared between any two nodes.
-/

namespace HitConsistency.Election.CommittedAgreement

open HitConsistency.Base.GuardedRuns
open HitConsistency.Base.IndexedDeque
open HitConsistency.Base.MajorityQuorum
open HitConsistency.Base.TermChains
open HitConsistency.Election.InOrderReplication
open HitConsistency.Election.LeaderCompleteness
open HitConsistency.Election.ReplicatedLogs
open HitConsistency.Group.Peers
open HitConsistency.Log.Entry
open HitConsistency.Log.InOrderLog
open HitConsistency.Log.MemoryLog

def Committed (conf : Configuration) (s : Replicas) (grant : Granted) : Prop :=
  grant ∈ s.granted ∧ Majority conf.members (s.holders conf grant)

instance committedDecidable (conf : Configuration) (s : Replicas) (grant : Granted) :
    Decidable (Committed conf s grant) :=
  inferInstanceAs (Decidable (_ ∧ _))

theorem getEntry_eq {γ : Type} {log : List LogEntry} {written : Nat} {m : LogManager γ}
    (h : InOrder log written m) (index : Int) :
    m.getEntry index = some (item log (index - 1)) := by
  unfold LogManager.getEntry
  rw [h.largest, h.first]
  split
  · rename_i hout
    by_cases hlow : index - 1 < 0
    · rw [item_none_of_neg log hlow]
    · rw [item_none_of_le (by omega)]
  · rename_i hrange
    obtain ⟨k, rfl⟩ : ∃ k : Nat, index = k + 1 := ⟨(index - 1).toNat, by omega⟩
    have he : log[k]? = some log[k] := List.getElem?_eq_getElem (by omega)
    obtain ⟨entry, hmemory, hentry⟩ := h.getEntryFromMemory he
    rw [hmemory, Int.add_sub_cancel, item, if_pos (Int.natCast_nonneg k), Int.toNat_natCast, he]
    rcases hentry with rfl | ⟨rfl, hstored⟩
    · rfl
    · simp [hstored]

section Origins

variable {conf : Configuration} {g : Chronicle} {s : Replicas} (h : Keeps g s conf)
include h

/-- What the log of a node has at an index, and before, the leader of that term has as
well. -/
private theorem origin_take {id : PeerId} {k : Nat} {entry : LogEntry}
    (hk : (g.logs id)[k]? = some entry) :
    (g.logs id).take (k + 1) = (g.origin (termOf entry)).take (k + 1) := by
  have hprefix := (h.log id).chained k entry hk
  have hlength : k < (g.logs id).length := (List.getElem?_eq_some_iff.mp hk).1
  have htake := List.prefix_iff_eq_take.mp hprefix
  rwa [List.length_take_of_le (by omega)] at htake

theorem origin_entry {id : PeerId} {k j : Nat} {entry : LogEntry}
    (hk : (g.logs id)[k]? = some entry) (hj : j ≤ k) :
    (g.origin (termOf entry))[j]? = (g.logs id)[j]? := by
  rw [← List.getElem?_take_of_lt (Nat.lt_succ_of_le hj), ← origin_take h hk,
    List.getElem?_take_of_lt (Nat.lt_succ_of_le hj)]

private theorem exists_leader {term : Int} (hne : g.origin term ≠ []) :
    ∃ leader, (leader, term) ∈ s.cluster.elected := by
  by_contra hnone
  exact hne ((h.origin term).unled fun leader hl => hnone ⟨leader, hl⟩)

/-- The leaders of the term of a committed entry and of every later term have it; a later
one was elected with it. -/
theorem committed_origin {grant : Granted} (hcommitted : Committed conf s grant) :
    ∃ k : Nat, grant.entry.id.index = k + 1 ∧
      (g.origin grant.term)[k]? = some grant.entry ∧
      ∀ term, grant.term < term → g.origin term ≠ [] →
        k < (g.base term).length ∧ (g.origin term)[k]? = some grant.entry := by
  obtain ⟨hgrant, hmajority⟩ := hcommitted
  obtain ⟨holder, -, hholder, -⟩ := hmajority.common_member hmajority
  obtain ⟨k, -, hk, hindex⟩ := h.stored_position (Finset.mem_filter.mp hholder).2
  dsimp only at hk hindex
  refine ⟨k, hindex, ?_, fun term hlater hne => ?_⟩
  · rw [← h.granted grant hgrant, origin_entry h hk (Nat.le_refl k)]
    exact hk
  · obtain ⟨leader, hleader⟩ := exists_leader h hne
    have hbase := @Keeps.base_holds _ _ _ h _ hgrant hmajority _ hindex
      (term - grant.term - 1).toNat _ hleader (by dsimp only; omega)
    dsimp only at hbase
    have hlength := (List.getElem?_eq_some_iff.mp hbase).1
    exact ⟨hlength, (getElem?_of_isPrefix (h.led _ hleader).origin hlength).trans hbase⟩

/-- Whoever leads a later term has the log of a committed entry, as far as that is
committed. -/
theorem committed_within {grant : Granted} (hcommitted : Committed conf s grant) {term : Int}
    (hle : grant.term ≤ term) (hne : g.origin term ≠ []) {j : Nat}
    (hj : (j : Int) + 1 ≤ grant.entry.id.index) :
    (g.origin term)[j]? = (g.origin grant.term)[j]? := by
  rcases eq_or_lt_of_le hle with heq | hlt
  · rw [heq]
  · obtain ⟨k, hk, -, hlater⟩ := committed_origin h hcommitted
    have hheld := (h.origin term).chained k _ (hlater _ hlt hne).2
    rw [show termOf grant.entry = grant.term from h.granted grant hcommitted.1] at hheld
    have hlength := (List.getElem?_eq_some_iff.mp (hlater _ hlt hne).2).1
    rw [← List.getElem?_take_of_lt (show j < k + 1 by omega)]
    exact (getElem?_of_isPrefix hheld (by rw [List.length_take_of_le (by omega)]; omega)).symm

theorem committed_below {a b : Granted} (ha : Committed conf s a) (hb : Committed conf s b)
    (hle : a.term ≤ b.term) {j : Nat} (hj : (j : Int) + 1 ≤ a.entry.id.index) :
    (g.origin b.term)[j]? = (g.origin a.term)[j]? := by
  obtain ⟨k, -, hown, -⟩ := committed_origin h hb
  refine committed_within h ha hle (fun hnil => ?_) hj
  rw [hnil] at hown
  cases hown

theorem committed_unique {a b : Granted} (ha : Committed conf s a) (hb : Committed conf s b)
    (hindex : a.entry.id.index = b.entry.id.index) : a.entry = b.entry := by
  obtain ⟨k, hk, hown, -⟩ := committed_origin h ha
  obtain ⟨m, hm, hown', -⟩ := committed_origin h hb
  obtain rfl : m = k := by omega
  have hsame : (g.origin b.term)[m]? = (g.origin a.term)[m]? := by
    rcases le_total a.term b.term with hle | hle
    · exact committed_below h ha hb hle hk.ge
    · exact (committed_below h hb ha hle hm.ge).symm
  rw [hown, hown'] at hsame
  exact (Option.some.inj hsame).symm

theorem committed_held {grant : Granted} (hcommitted : Committed conf s grant) {id : PeerId}
    {m : Nat} {entry : LogEntry} (hm : (g.logs id)[m]? = some entry)
    (hlater : ¬ entry.id.Before grant.entry.id) :
    ∃ k : Nat, grant.entry.id.index = k + 1 ∧ (g.logs id)[k]? = some grant.entry := by
  obtain ⟨k, hindex, horigin, hlaterTerms⟩ := committed_origin h hcommitted
  have hposition := (h.log id).inOrder.numbered.index m entry hm
  have hterm : grant.entry.id.term = grant.term := h.granted grant hcommitted.1
  rw [LogId.before_iff] at hlater
  refine ⟨k, hindex, ?_⟩
  rcases lt_or_ge grant.term entry.id.term with hlt | hge
  · have hentry := origin_entry h hm (Nat.le_refl m)
    rw [hm] at hentry
    have hne : g.origin (termOf entry) ≠ [] := by
      intro hnil
      rw [hnil] at hentry
      cases hentry
    obtain ⟨hbase, hheld⟩ := hlaterTerms _ hlt hne
    obtain ⟨leader, hleader⟩ := exists_leader h hne
    have hled := h.led _ hleader
    -- The leader was elected with earlier terms only, so the entry is behind that part.
    have hbehind : (g.base entry.id.term).length ≤ m := by
      by_contra hwithin
      have hinside := getElem?_of_isPrefix hled.origin (Nat.lt_of_not_le hwithin)
      have := hled.earlier entry (List.mem_of_getElem? (hinside.symm.trans hentry))
      exact lt_irrefl _ this
    rw [← origin_entry h hm (by omega)]
    exact hheld
  · have hsame : entry.id.term = grant.term := by omega
    have htermOf : termOf entry = grant.term := hsame
    rw [← origin_entry h hm (by omega), htermOf]
    exact horigin

end Origins

section Growth

variable {conf : Configuration} {stepDownWhenVoteTimedout : Bool} {s s' : Replicas}

/-- Grants and written entries are never taken back. -/
structure Grows (s s' : Replicas) : Prop where
  granted : s.granted ⊆ s'.granted
  stored : s.stored ⊆ s'.stored

theorem Grows.of_eq (hgranted : s'.granted = s.granted) (hstored : s'.stored = s.stored) :
    Grows s s' := ⟨hgranted ▸ List.Subset.refl _, hstored ▸ List.Subset.refl _⟩

theorem grows_elect {event : VoteProtocol.Event}
    (hstep : s.elect conf stepDownWhenVoteTimedout event = some s') : Grows s s' := by
  obtain ⟨cluster, -, rfl⟩ := Option.map_eq_some_iff.mp hstep
  exact .of_eq rfl rfl

theorem grows_step {event : Event} (hstep : s.step conf stepDownWhenVoteTimedout event = some s') :
    Grows s s' := by
  unfold Replicas.step at hstep
  cases event with
  | electionTimeout id =>
    obtain ⟨lastLogId, -, hstep⟩ := Option.bind_eq_some_iff.mp hstep
    exact grows_elect hstep
  | voteTimeout id =>
    obtain ⟨lastLogId, -, hstep⟩ := Option.bind_eq_some_iff.mp hstep
    exact grows_elect hstep
  | receive position => exact grows_elect hstep
  | call id position =>
    cases hstep
    exact .of_eq rfl rfl
  | resume id position =>
    dsimp only [Replicas.resume] at hstep
    split at hstep
    · split at hstep
      · cases hstep
        exact .of_eq rfl rfl
      · obtain ⟨hgranted, hstored⟩ := grows_elect hstep
        exact ⟨hgranted, hstored⟩
    · cases hstep
      exact .of_eq rfl rfl
  | saveVote id => exact grows_elect hstep
  | increaseTermTo id newTerm => exact grows_elect hstep
  | stepdownTimeout id => exact grows_elect hstep
  | apply id tasks =>
    dsimp only at hstep
    split at hstep
    · cases hstep
      exact .of_eq rfl rfl
    · obtain ⟨replica, -, rfl⟩ := Option.map_eq_some_iff.mp hstep
      exact .of_eq rfl rfl
  | sendEntries id peer index committedIndex committedOoIndex =>
    obtain ⟨requests, -, rfl⟩ := Option.map_eq_some_iff.mp hstep
    exact .of_eq rfl rfl
  | sendEmptyEntries id peer prevLogIndex committedIndex committedOoIndex =>
    obtain ⟨requests, -, rfl⟩ := Option.map_eq_some_iff.mp hstep
    exact .of_eq rfl rfl
  | appendEntries position =>
    dsimp only at hstep
    split at hstep
    · obtain ⟨after, helect, hstep⟩ := Option.bind_eq_some_iff.mp hstep
      obtain ⟨hgranted, hstored⟩ := grows_elect helect
      split at hstep
      · obtain ⟨replica, -, hstep⟩ := Option.bind_eq_some_iff.mp hstep
        cases hstep
        exact ⟨hgranted, hstored⟩
      · cases hstep
        exact ⟨hgranted, hstored⟩
    · cases hstep
      exact .of_eq rfl rfl
  | diskWrite id =>
    cases hstep
    exact ⟨List.Subset.refl _, List.subset_append_left _ _⟩
  | diskBatchEnd id =>
    cases hstep
    exact .of_eq rfl rfl
  | commitAt id indexes peer =>
    obtain ⟨outcome, -, rfl⟩ := Option.map_eq_some_iff.mp hstep
    exact ⟨List.subset_append_left _ _, List.Subset.refl _⟩
  | applied id appliedId =>
    cases hstep
    exact .of_eq rfl rfl
  | crash id =>
    obtain ⟨after, helect, rfl⟩ := Option.map_eq_some_iff.mp hstep
    obtain ⟨hgranted, hstored⟩ := grows_elect helect
    exact ⟨hgranted, hstored⟩

theorem grows_run {events : List Event}
    (hrun : runEvents (Replicas.step conf stepDownWhenVoteTimedout) s events = some s') :
    Grows s s' := by
  induction events generalizing s with
  | nil =>
    cases hrun
    exact .of_eq rfl rfl
  | cons event events ih =>
    obtain ⟨mid, hstep, hrest⟩ := runEvents_cons_eq_some.mp hrun
    obtain ⟨hgranted, hstored⟩ := grows_step hstep
    obtain ⟨hgranted', hstored'⟩ := ih hrest
    exact ⟨List.Subset.trans hgranted hgranted', List.Subset.trans hstored hstored'⟩

theorem Grows.committed (hgrows : Grows s s') {grant : Granted}
    (hcommitted : Committed conf s grant) : Committed conf s' grant := by
  obtain ⟨hgrant, hmajority⟩ := hcommitted
  refine ⟨hgrows.granted hgrant, hmajority.mono fun node hnode => ?_⟩
  obtain ⟨hmember, hstored⟩ := Finset.mem_filter.mp hnode
  exact Finset.mem_filter.mpr ⟨hmember, hgrows.stored hstored⟩

end Growth

section Runs

variable {conf : Configuration} {stepDownWhenVoteTimedout : Bool} {dependencyLookBack : Int}
  {events : List Event} {s : Replicas}

private theorem keeps_of_run
    (hguard : Guarded (Replicas.step conf stepDownWhenVoteTimedout) Orderly
      (.init dependencyLookBack) events)
    (hrun : runEvents (Replicas.step conf stepDownWhenVoteTimedout) (.init dependencyLookBack)
      events = some s) : ∃ g, Keeps g s conf := by
  have hkeep : ∀ s event s', (∃ g, Keeps g s conf) → Orderly s event →
      s.step conf stepDownWhenVoteTimedout event = some s' → ∃ g, Keeps g s' conf := by
    intro s event s' hs hguard hstep
    obtain ⟨g, h⟩ := hs
    exact Keeps.step h hguard hstep
  exact invariant_of_step hkeep ⟨_, keeps_init conf dependencyLookBack⟩ hguard hrun

private def first : PeerId := ⟨1, 8000, 0⟩

private def second : PeerId := ⟨2, 8001, 0⟩

private def third : PeerId := ⟨3, 8000, 0⟩

private def threeNodes : Configuration := ⟨[first, second, third], by decide⟩

/-- `first` is elected by `second`, and two entries of its term are committed. -/
private def committing : List Event :=
  [.electionTimeout first, .receive 0, .call second 0, .diskWrite second, .resume second 0,
    .receive 2, .call first 0, .diskWrite first, .resume first 0, .saveVote first, .receive 3,
    .call second 0, .diskWrite second, .resume second 0, .receive 5,
    .apply first [⟨-1, 0, []⟩, ⟨-1, 0, [1]⟩], .diskWrite first, .sendEntries first second 1 0 [],
    .sendEntries first second 2 0 [], .sendEntries first third 1 0 [],
    .sendEntries first third 2 0 [], .appendEntries 0, .appendEntries 1, .diskWrite second,
    .diskWrite second, .diskBatchEnd second, .commitAt first [1, 2] first,
    .commitAt first [1, 2] second]

/-- `third` gets the entries, is elected by `second` and takes an entry of its own term. -/
private def succeeding : List Event :=
  [.appendEntries 2, .appendEntries 3, .diskWrite third, .diskWrite third,
    .electionTimeout third, .receive 7, .call second 0, .diskWrite second, .resume second 0,
    .receive 8, .call third 0, .diskWrite third, .resume third 0, .saveVote third, .receive 10,
    .call second 0, .diskWrite second, .resume second 0, .receive 11,
    .apply third [⟨-1, 0, [2]⟩]]

/-- In every orderly run, two nodes that read an entry of one term at an index read the
same at every index up to it. -/
theorem logs_match (conf : Configuration) (stepDownWhenVoteTimedout : Bool)
    (dependencyLookBack : Int) (events : List Event) (s : Replicas)
    (hguard : Guarded (Replicas.step conf stepDownWhenVoteTimedout) Orderly
      (.init dependencyLookBack) events)
    (hrun : runEvents (Replicas.step conf stepDownWhenVoteTimedout) (.init dependencyLookBack)
      events = some s) (a b : PeerId) (index : Int) (mine yours : LogEntry)
    (ha : (s.nodes a).log.getEntry index = some (some mine))
    (hb : (s.nodes b).log.getEntry index = some (some yours))
    (hterm : mine.id.term = yours.id.term) :
    ∀ i ≤ index, (s.nodes a).log.getEntry i = (s.nodes b).log.getEntry i := by
  obtain ⟨g, h⟩ := keeps_of_run hguard hrun
  obtain ⟨k, rfl, hk⟩ := (h.log a).inOrder.getEntry ha
  obtain ⟨m, hkm, hm⟩ := (h.log b).inOrder.getEntry hb
  obtain rfl : m = k := by omega
  have htake : (g.logs a).take (m + 1) = (g.logs b).take (m + 1) := by
    rw [origin_take h hk, origin_take h hm, termOf, termOf, hterm]
  intro i hi
  rw [getEntry_eq (h.log a).inOrder, getEntry_eq (h.log b).inOrder]
  by_cases hlow : i - 1 < 0
  · rw [item_none_of_neg _ hlow, item_none_of_neg _ hlow]
  · rw [item, item, if_pos (by omega), if_pos (by omega),
      ← List.getElem?_take_of_lt (show (i - 1).toNat < m + 1 by omega), htake,
      List.getElem?_take_of_lt (by omega)]

private def firstEntry : LogEntry := ⟨.data, ⟨1, 2⟩, 0, none, none, []⟩

private def secondEntry : LogEntry := ⟨.data, ⟨2, 2⟩, 0, none, none, [1]⟩

theorem logs_match_sample : ∃ s, runEvents (Replicas.step threeNodes true) (.init 8)
      (committing ++ succeeding) = some s ∧
    (s.nodes third).log.getEntry 2 = some (some secondEntry) ∧
      (s.nodes first).log.getEntry 1 = (s.nodes third).log.getEntry 1 := by
  have hvalue : (runEvents (Replicas.step threeNodes true) (.init 8)
      (committing ++ succeeding)).map (fun s =>
        ((s.nodes first).log.getEntry 2, (s.nodes third).log.getEntry 2)) =
      some (some (some secondEntry), some (some secondEntry)) := by
    decide +kernel
  obtain ⟨s, hrun, hpair⟩ := Option.map_eq_some_iff.mp hvalue
  obtain ⟨hfirst, hthird⟩ := Prod.mk.inj hpair
  exact ⟨s, hrun, hthird, logs_match threeNodes true 8 (committing ++ succeeding) s
    (by decide +kernel) hrun first third 2 secondEntry secondEntry hfirst hthird rfl 1 (by decide)⟩

/-- An entry committed at some point of an orderly run is, from then on, in the log of
every node that has an entry not before it. -/
theorem committed_kept (conf : Configuration) (stepDownWhenVoteTimedout : Bool)
    (dependencyLookBack : Int) (pre post : List Event) (s t : Replicas)
    (hguard : Guarded (Replicas.step conf stepDownWhenVoteTimedout) Orderly
      (.init dependencyLookBack) (pre ++ post))
    (hpre : runEvents (Replicas.step conf stepDownWhenVoteTimedout) (.init dependencyLookBack)
      pre = some s)
    (hpost : runEvents (Replicas.step conf stepDownWhenVoteTimedout) s post = some t)
    (grant : Granted) (hcommitted : Committed conf s grant) (id : PeerId) (index : Int)
    (entry : LogEntry) (hentry : (t.nodes id).log.getEntry index = some (some entry))
    (hlater : ¬ entry.id.Before grant.entry.id) :
    (t.nodes id).log.getEntry grant.entry.id.index = some (some grant.entry) := by
  obtain ⟨g, h⟩ := keeps_of_run hguard (runEvents_append_eq_some.mpr ⟨s, hpre, hpost⟩)
  obtain ⟨m, -, hm⟩ := (h.log id).inOrder.getEntry hentry
  obtain ⟨k, hindex, hk⟩ := committed_held h ((grows_run hpost).committed hcommitted) hm hlater
  rw [getEntry_eq (h.log id).inOrder, hindex, Int.add_sub_cancel, item,
    if_pos (Int.natCast_nonneg k), Int.toNat_natCast, hk]

theorem committed_kept_sample : ∃ s t,
    runEvents (Replicas.step threeNodes true) (.init 8) committing = some s ∧
    runEvents (Replicas.step threeNodes true) s succeeding = some t ∧
    Committed threeNodes s ⟨2, firstEntry⟩ ∧
    (t.nodes third).log.getEntry 3 = some (some ⟨.data, ⟨3, 3⟩, 0, none, none, [2]⟩) ∧
      (t.nodes third).log.getEntry 1 = some (some firstEntry) := by
  have hcommitted : (runEvents (Replicas.step threeNodes true) (.init 8) committing).map
      (fun s => decide (Committed threeNodes s ⟨2, firstEntry⟩)) = some true := by
    decide +kernel
  obtain ⟨s, hpre, hcommitted⟩ := Option.map_eq_some_iff.mp hcommitted
  have hcommitted := of_decide_eq_true hcommitted
  have hentry : (runEvents (Replicas.step threeNodes true) (.init 8)
      (committing ++ succeeding)).map (fun t => (t.nodes third).log.getEntry 3) =
        some (some (some ⟨.data, ⟨3, 3⟩, 0, none, none, [2]⟩)) := by
    decide +kernel
  obtain ⟨t, hrun, hentry⟩ := Option.map_eq_some_iff.mp hentry
  obtain ⟨s', hpre', hpost⟩ := runEvents_append_eq_some.mp hrun
  cases hpre.symm.trans hpre'
  exact ⟨s, t, hpre, hpost, hcommitted, hentry, committed_kept threeNodes true 8 committing
    succeeding s t (by decide +kernel) hpre hpost ⟨2, firstEntry⟩ hcommitted third 3 _ hentry
    (by decide)⟩

/-- Two entries committed at one index, whenever and in whichever terms, are the same. -/
theorem committed_agree (conf : Configuration) (stepDownWhenVoteTimedout : Bool)
    (dependencyLookBack : Int) (pre post : List Event) (s t : Replicas)
    (hguard : Guarded (Replicas.step conf stepDownWhenVoteTimedout) Orderly
      (.init dependencyLookBack) (pre ++ post))
    (hpre : runEvents (Replicas.step conf stepDownWhenVoteTimedout) (.init dependencyLookBack)
      pre = some s)
    (hpost : runEvents (Replicas.step conf stepDownWhenVoteTimedout) s post = some t)
    (a b : Granted) (ha : Committed conf s a) (hb : Committed conf t b)
    (hindex : a.entry.id.index = b.entry.id.index) : a.entry = b.entry := by
  obtain ⟨g, h⟩ := keeps_of_run hguard (runEvents_append_eq_some.mpr ⟨s, hpre, hpost⟩)
  exact committed_unique h ((grows_run hpost).committed ha) hb hindex

theorem committed_agree_sample : ∃ s t,
    runEvents (Replicas.step threeNodes true) (.init 8) committing = some s ∧
    runEvents (Replicas.step threeNodes true) s succeeding = some t ∧
    Committed threeNodes s ⟨2, firstEntry⟩ ∧ Committed threeNodes t ⟨2, firstEntry⟩ ∧
      firstEntry = firstEntry := by
  have hbefore : (runEvents (Replicas.step threeNodes true) (.init 8) committing).map
      (fun s => decide (Committed threeNodes s ⟨2, firstEntry⟩)) = some true := by
    decide +kernel
  have hafter : (runEvents (Replicas.step threeNodes true) (.init 8)
      (committing ++ succeeding)).map (fun t => decide (Committed threeNodes t ⟨2, firstEntry⟩)) =
        some true := by
    decide +kernel
  obtain ⟨s, hpre, hs⟩ := Option.map_eq_some_iff.mp hbefore
  obtain ⟨t, hrun, ht⟩ := Option.map_eq_some_iff.mp hafter
  obtain ⟨s', hpre', hpost⟩ := runEvents_append_eq_some.mp hrun
  cases hpre.symm.trans hpre'
  exact ⟨s, t, hpre, hpost, of_decide_eq_true hs, of_decide_eq_true ht,
    committed_agree threeNodes true 8 committing succeeding s t (by decide +kernel) hpre hpost
      ⟨2, firstEntry⟩ ⟨2, firstEntry⟩ (of_decide_eq_true hs) (of_decide_eq_true ht) rfl⟩

end Runs

end HitConsistency.Election.CommittedAgreement
