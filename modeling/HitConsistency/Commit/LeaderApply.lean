/- GID: HitConsistency/Commit/LeaderApply
   digest: What a leader gives to its state machine when its reports overtake each other. -/

import HitConsistency.Commit.ClosurePairs
import HitConsistency.Commit.EarlierTerms
import HitConsistency.Commit.StateMachineCaller

set_option autoImplicit false
set_option relaxedAutoImplicit false

/-!
The calls of `on_committed` are made without a lock and in any order. A batch of the
execution queue may then be older than what was applied already.
-/

namespace HitConsistency.Commit.LeaderApply

open HitConsistency.Base.GuardedRuns
open HitConsistency.Base.IndexedDeque
open HitConsistency.Commit.ApplyOrder
open HitConsistency.Commit.ApplyPipeline
open HitConsistency.Commit.ClosurePairs
open HitConsistency.Commit.EarlierTerms (commitAt_stores)
open HitConsistency.Commit.PendingQueues
open HitConsistency.Commit.QuorumLedger
open HitConsistency.Commit.StateMachineCaller
open HitConsistency.Group.Peers
open HitConsistency.Log.Entry
open HitConsistency.Replication.PeerSender (mem_indexRange indexRange_ascending)
open HitConsistency.Replication.PeerSender.Replicator (indexRange)

/-- The leader between the acknowledgements and the state machine. -/
structure Leader where
  log : List LogEntry
  box : BallotBox
  ledger : Ledger
  /-- The closures of the tasks, in the order in which they were appended. -/
  appended : List (Option Nat)
  caller : FsmCaller
  /-- Lists of granted indexes whose `commit_at` has released the lock. -/
  reports : List (List Int)
  /-- The arguments of `on_committed` calls that are about to be made. -/
  calls : List Committed
  /-- The execution queue. -/
  tasks : List Committed

inductive Event
  | apply (entry : LogEntry) (done : Option Nat) (ballot : QuorumLedger.Task)
  | commitAt (ack : Acknowledgement)
  | load (position : Nat)
  | onCommitted (position : Nat)
  | run (count : Nat)

namespace Leader

/-- The state behind `become_leader`. -/
def start (earlier : List LogEntry) (lastCommittedIndex lastAppliedIndex : Int)
    (ooApplyQueue : List Bool) : Leader where
  log := earlier
  box := opened lastCommittedIndex (earlier.length + 1)
  ledger := .start (earlier.length + 1)
  appended := []
  caller := ⟨⟨earlier.length + 1, [], []⟩, lastAppliedIndex, ooApplyQueue, false, []⟩
  reports := []
  calls := []
  tasks := []

def getEntry (s : Leader) (index : Int) : Option LogEntry := item s.log (index - 1)

/-- What the next batch of tasks asks `do_committed` for. -/
def batch (s : Leader) (count : Nat) : Committed :=
  ⟨maxCommittedIndex (s.tasks.take count),
    (s.tasks.take count).flatMap Committed.ooCommittedEntries⟩

def step (s : Leader) : Event → Option Leader
  | .apply entry done ballot =>
      some { s with
        log := s.log ++ [{ entry with id := ⟨s.log.length + 1, entry.id.term⟩ }]
        box := s.box.appendPendingTask ballot.conf ballot.oldConf
        ledger := s.ledger.append ballot
        appended := s.appended ++ [done]
        caller := { s.caller with closures := s.caller.closures.appendPendingClosure done } }
  | .commitAt ack => do
      let outcome ← s.box.commitAt ack.indexes ack.peer
      some { s with
        box := outcome.box
        ledger := s.ledger.commit ack.indexes ack.peer
        reports := s.reports ++ (outcome.onCommitted.map Committed.ooCommittedEntries).toList }
  | .load position =>
      match s.reports[position]? with
      | none => some s
      | some report =>
          some { s with
            reports := s.reports.eraseIdx position
            calls := s.calls ++ [⟨s.box.lastCommittedIndex, report⟩] }
  | .onCommitted position =>
      match s.calls[position]? with
      | none => some s
      | some call =>
          some { s with
            calls := s.calls.eraseIdx position
            tasks := s.tasks ++
              [ApplyPipeline.onCommitted call.committedIndex call.ooCommittedEntries] }
  | .run count =>
      let rest := { s with tasks := s.tasks.drop count }
      if 0 ≤ (s.batch count).committedIndex then
        (s.caller.doCommitted s.getEntry (s.batch count)).map fun caller =>
          { rest with caller := caller }
      else some rest

/-- Every index that was given to the state machine is committed, was given once and with
its own closure; once nothing is on its way, every committed index was given. -/
structure ExactlyOnce (s : Leader) : Prop where
  once : (s.caller.handed.map Prod.fst).Nodup
  matched : ∀ p ∈ s.caller.handed,
    s.ledger.Reached p.1 ∧ item s.appended (p.1 - s.ledger.first) = some p.2
  delivered : s.reports = [] → s.calls = [] → s.tasks = [] →
    ∀ i, s.ledger.Reached i → i ∈ s.caller.handed.map Prod.fst

/-- A batch with out-of-order indexes is not older than what was applied. -/
def UpToDate (s : Leader) : Event → Prop
  | .run count => (s.batch count).ooCommittedEntries = [] ∨
      (s.caller.lastAppliedIndex ≤ (s.batch count).committedIndex ∧
        ∀ i ∈ (s.batch count).ooCommittedEntries, s.caller.lastAppliedIndex < i)
  | _ => True

instance upToDateDecidable (s : Leader) : ∀ event, Decidable (s.UpToDate event)
  | .run _ => inferInstanceAs (Decidable (_ ∨ _))
  | .apply _ _ _ | .commitAt _ | .load _ | .onCommitted _ => inferInstanceAs (Decidable True)

end Leader

/-- The lists on their way to the state machine, in any order. `committed` is the last
committed index of the box and `applied` the last applied index. -/
structure Pending (L : Ledger) (q : ClosureQueue) (committed applied : Int)
    (lists : List Committed) : Prop where
  values : ∀ x ∈ lists, L.first - 1 ≤ x.committedIndex ∧ x.committedIndex ≤ committed
  ascending : ∀ x ∈ lists, x.ooCommittedEntries.Pairwise (· < ·)
  distinct : (lists.flatMap Committed.ooCommittedEntries).Nodup
  reached : ∀ x ∈ lists, ∀ i ∈ x.ooCommittedEntries, L.Reached i
  waiting : ∀ x ∈ lists, ∀ i ∈ x.ooCommittedEntries, HandedOut q i → i ≤ applied
  -- An index right behind a committed one is only listed together with a larger one.
  apart : ∀ x ∈ lists, ∀ y ∈ lists, ∀ i ∈ y.ooCommittedEntries, y.committedIndex < i →
    i ≠ x.committedIndex + 1
  behind : ∀ y ∈ lists, ∀ i ∈ y.ooCommittedEntries, y.committedIndex < i → i ≠ applied + 1
  vacant : ∀ x ∈ lists, HandedOut q (x.committedIndex + 1) → x.committedIndex + 1 ≤ applied
  latest : committed ≤ applied ∨ ∃ x ∈ lists, x.committedIndex = committed
  complete : ∀ j, L.Reached j → j ≤ committed ∨ HandedOut q j ∨
    ∃ x ∈ lists, j ∈ x.ooCommittedEntries

section PendingLaws

variable {L : Ledger} {q : ClosureQueue} {c a : Int} {lists lists' : List Committed}

theorem Pending.perm (h : Pending L q c a lists) (hperm : lists.Perm lists') :
    Pending L q c a lists' := by
  have hmem : ∀ {x}, x ∈ lists' ↔ x ∈ lists := hperm.symm.mem_iff
  refine ⟨fun x hx => h.values x (hmem.mp hx), fun x hx => h.ascending x (hmem.mp hx),
    (hperm.flatMap_right _).nodup_iff.mp h.distinct, fun x hx => h.reached x (hmem.mp hx),
    fun x hx => h.waiting x (hmem.mp hx), fun x hx y hy => h.apart x (hmem.mp hx) y (hmem.mp hy),
    fun y hy => h.behind y (hmem.mp hy), fun x hx => h.vacant x (hmem.mp hx), ?_, ?_⟩
  · refine h.latest.imp_right ?_
    rintro ⟨x, hx, heq⟩
    exact ⟨x, hmem.mpr hx, heq⟩
  · intro j hj
    refine (h.complete j hj).imp_right (Or.imp_right ?_)
    rintro ⟨x, hx, hin⟩
    exact ⟨x, hmem.mpr hx, hin⟩

/-- `on_committed` drops the indexes up to its committed one. -/
theorem Pending.onCommitted {x : Committed} (h : Pending L q c a (x :: lists)) :
    Pending L q c a (onCommitted x.committedIndex x.ooCommittedEntries :: lists) := by
  set x' := ApplyPipeline.onCommitted x.committedIndex x.ooCommittedEntries with hx'
  have hsub : x'.ooCommittedEntries.Sublist x.ooCommittedEntries := List.dropWhile_sublist _
  -- Every list has its older self, with the same committed index.
  have old : ∀ y ∈ x' :: lists, ∃ y' ∈ x :: lists, y'.committedIndex = y.committedIndex ∧
      y.ooCommittedEntries.Sublist y'.ooCommittedEntries := by
    intro y hy
    rcases List.mem_cons.mp hy with rfl | hy
    · exact ⟨x, by simp, rfl, hsub⟩
    · exact ⟨y, by simp [hy], rfl, List.Sublist.refl _⟩
  refine ⟨?_, ?_, ?_, ?_, ?_, ?_, ?_, ?_, ?_, ?_⟩
  · intro y hy
    obtain ⟨y', hy', heq, -⟩ := old y hy
    exact heq ▸ h.values y' hy'
  · intro y hy
    obtain ⟨y', hy', -, hlist⟩ := old y hy
    exact (h.ascending y' hy').sublist hlist
  · refine h.distinct.sublist ?_
    rw [List.flatMap_cons, List.flatMap_cons]
    exact hsub.append (List.Sublist.refl _)
  · intro y hy i hi
    obtain ⟨y', hy', -, hlist⟩ := old y hy
    exact h.reached y' hy' i (hlist.subset hi)
  · intro y hy i hi
    obtain ⟨y', hy', -, hlist⟩ := old y hy
    exact h.waiting y' hy' i (hlist.subset hi)
  · intro z hz y hy i hi hlt
    obtain ⟨z', hz', hzeq, -⟩ := old z hz
    obtain ⟨y', hy', hyeq, hlist⟩ := old y hy
    exact hzeq ▸ h.apart z' hz' y' hy' i (hlist.subset hi) (hyeq ▸ hlt)
  · intro y hy i hi hlt
    obtain ⟨y', hy', hyeq, hlist⟩ := old y hy
    exact h.behind y' hy' i (hlist.subset hi) (hyeq ▸ hlt)
  · intro y hy
    obtain ⟨y', hy', heq, -⟩ := old y hy
    exact heq ▸ h.vacant y' hy'
  · refine h.latest.imp_right ?_
    rintro ⟨y, hy, heq⟩
    rcases List.mem_cons.mp hy with rfl | hy
    · exact ⟨x', by simp, heq⟩
    · exact ⟨y, by simp [hy], heq⟩
  · intro j hj
    rcases h.complete j hj with hlow | hout | ⟨y, hy, hin⟩
    · exact .inl hlow
    · exact .inr (.inl hout)
    · rcases List.mem_cons.mp hy with rfl | hy
      · rcases covers_onCommitted (.inr hin) with hlow | hin'
        · exact .inl (le_trans hlow (h.values y (by simp)).2)
        · exact .inr (.inr ⟨x', by simp, hin'⟩)
      · exact .inr (.inr ⟨y, by simp [hy], hin⟩)

/-- A call of `commit_at` may raise the committed index, and then it makes a report. -/
theorem Pending.commit {L' : Ledger} {c' : Int} {settled : List Committed}
    {reports more : List (List Int)}
    (h : Pending L q c a (settled ++ reports.map (Committed.mk c)))
    (hfirst : L'.first = L.first) (hmono : ∀ i, L.Reached i → L'.Reached i) (hle : c ≤ c')
    (hac : a ≤ c) (hlow : L.first - 1 ≤ c) (hopen : ¬ L'.Reached (c' + 1))
    (hgranted : ∀ i, L.first ≤ i → HandedOut q i → L.Reached i)
    (hasc : ∀ r ∈ more, r.Pairwise (· < ·)) (hnodup : more.flatten.Nodup)
    (hnew : ∀ i, i ∈ more.flatten ↔ ¬ L.Reached i ∧ L'.Reached i)
    (hraise : c' = c ∨ more ≠ []) :
    Pending L' q c' a
      (settled ++ reports.map (Committed.mk c') ++ more.map (Committed.mk c')) := by
  have lists : ∀ (b : Int) (rs : List (List Int)),
      (rs.map (Committed.mk b)).flatMap Committed.ooCommittedEntries = rs.flatten := by
    intro b rs
    rw [List.flatMap_map]
    exact List.flatMap_id'
  -- A list is older than the call, perhaps with a larger committed index now, or new.
  have kinds : ∀ x ∈ settled ++ reports.map (Committed.mk c') ++ more.map (Committed.mk c'),
      (∃ x' ∈ settled ++ reports.map (Committed.mk c),
        x'.ooCommittedEntries = x.ooCommittedEntries ∧ x'.committedIndex ≤ x.committedIndex ∧
          (x'.committedIndex = x.committedIndex ∨ x.committedIndex = c')) ∨
      (x.committedIndex = c' ∧ x.ooCommittedEntries ∈ more) := by
    intro x hx
    rcases List.mem_append.mp hx with hx | hx
    · rcases List.mem_append.mp hx with hx | hx
      · exact .inl ⟨x, by simp [hx], rfl, le_rfl, .inl rfl⟩
      · obtain ⟨r, hr, rfl⟩ := List.mem_map.mp hx
        exact .inl ⟨⟨c, r⟩, by simp [hr], rfl, hle, .inr rfl⟩
    · obtain ⟨r, hr, rfl⟩ := List.mem_map.mp hx
      exact .inr ⟨rfl, hr⟩
  have fresh : ∀ r ∈ more, ∀ i ∈ r, ¬ L.Reached i ∧ L'.Reached i := fun r hr i hi =>
    (hnew i).mp (List.mem_flatten.mpr ⟨r, hr, hi⟩)
  have reached : ∀ x ∈ settled ++ reports.map (Committed.mk c') ++ more.map (Committed.mk c'),
      ∀ i ∈ x.ooCommittedEntries, L'.Reached i := by
    intro x hx i hi
    rcases kinds x hx with ⟨x', hx', hlist, -⟩ | ⟨-, hr⟩
    · exact hmono i (h.reached x' hx' i (hlist ▸ hi))
    · exact (fresh _ hr i hi).2
  have hfresh : ∀ i, L'.first ≤ i → HandedOut q i → ∀ r ∈ more, i ∉ r := fun i hi hout r hr hin =>
    (fresh r hr i hin).1 (hgranted i (hfirst ▸ hi) hout)
  refine ⟨?_, ?_, ?_, reached, ?_, ?_, ?_, ?_, ?_, ?_⟩
  · intro x hx
    rcases kinds x hx with ⟨x', hx', -, hxle, hxeq⟩ | ⟨hxeq, -⟩
    · have := h.values x' hx'
      rw [hfirst]
      omega
    · rw [hfirst]
      omega
  · intro x hx
    rcases kinds x hx with ⟨x', hx', hlist, -⟩ | ⟨-, hr⟩
    · exact hlist ▸ h.ascending x' hx'
    · exact hasc _ hr
  · have hold := h.distinct
    rw [List.flatMap_append, lists] at hold
    rw [List.flatMap_append, List.flatMap_append, lists, lists]
    refine List.nodup_append.mpr ⟨hold, hnodup, ?_⟩
    rintro i hi j hj rfl
    obtain ⟨hopenI, -⟩ := (hnew i).mp hj
    rw [← lists c reports, ← List.flatMap_append] at hi
    obtain ⟨x, hx, hin⟩ := List.mem_flatMap.mp hi
    exact hopenI (h.reached x hx i hin)
  · intro x hx i hi hout
    rcases kinds x hx with ⟨x', hx', hlist, -⟩ | ⟨-, hr⟩
    · exact h.waiting x' hx' i (hlist ▸ hi) hout
    · exact absurd hi (hfresh i (reached_bounds (fresh _ hr i hi).2).1 hout _ hr)
  · rintro x hx y hy i hi hlt rfl
    have hreached := reached y hy _ hi
    rcases kinds x hx with ⟨x', hx', -, -, hxeq | hxeq⟩ | ⟨hxeq, -⟩
    · rcases kinds y hy with ⟨y', hy', hlist, hyle, -⟩ | ⟨hyeq, hr⟩
      · exact h.apart x' hx' y' hy' _ (hlist ▸ hi) (by omega) (by rw [hxeq])
      · have := (h.values x' hx').2
        exact hopen ((show c' + 1 = x.committedIndex + 1 by omega) ▸ hreached)
    · exact hopen (hxeq ▸ hreached)
    · exact hopen (hxeq ▸ hreached)
  · rintro y hy i hi hlt rfl
    rcases kinds y hy with ⟨y', hy', hlist, hyle, -⟩ | ⟨hyeq, hr⟩
    · exact h.behind y' hy' _ (hlist ▸ hi) (by omega) rfl
    · exact hopen ((show c' + 1 = a + 1 by omega) ▸ reached y hy _ hi)
  · intro x hx hout
    have never : x.committedIndex = c' → x.committedIndex + 1 ≤ a := by
      intro hxeq
      rw [hxeq] at hout
      exact absurd (hmono _ (hgranted (c' + 1) (by omega) hout)) hopen
    rcases kinds x hx with ⟨x', hx', -, -, hxeq | hxeq⟩ | ⟨hxeq, -⟩
    · exact hxeq ▸ h.vacant x' hx' (hxeq ▸ hout)
    · exact never hxeq
    · exact never hxeq
  · rcases hraise with rfl | hmore
    · refine h.latest.imp_right ?_
      rintro ⟨x, hx, heq⟩
      exact ⟨x, List.mem_append_left _ hx, heq⟩
    · obtain ⟨r, hr⟩ := List.exists_mem_of_ne_nil _ hmore
      exact .inr ⟨⟨c', r⟩, by simp [hr], rfl⟩
  · intro j hj
    by_cases hold : L.Reached j
    · rcases h.complete j hold with hlowj | hout | ⟨x, hx, hin⟩
      · exact .inl (hlowj.trans hle)
      · exact .inr (.inl hout)
      · rcases List.mem_append.mp hx with hsettled | hreport
        · exact .inr (.inr ⟨x, by simp [hsettled], hin⟩)
        · obtain ⟨r, hr, rfl⟩ := List.mem_map.mp hreport
          exact .inr (.inr ⟨⟨c', r⟩, by simp [hr], hin⟩)
    · obtain ⟨r, hr, hin⟩ := List.mem_flatten.mp ((hnew j).mpr ⟨hold, hj⟩)
      exact .inr (.inr ⟨⟨c', r⟩, by simp [hr], hin⟩)

section Run

variable {q' : ClosureQueue} {batch rest : List Committed} {m : Int}
  (h : Pending L q c a (batch ++ rest)) (hle : a ≤ m)
  (habove : ∀ x ∈ batch, ∀ i ∈ x.ooCommittedEntries, x.committedIndex < i)
  (hout : ∀ i, HandedOut q' i → HandedOut q i ∨ i ≤ m ∨
    i ∈ batch.flatMap Committed.ooCommittedEntries)
include h hle habove hout

theorem Pending.run (hmax : ∀ x ∈ batch, x.committedIndex ≤ m)
    (hvalue : m = a ∨ ∃ x ∈ batch, x.committedIndex = m)
    (hkeep : ∀ i, HandedOut q i → HandedOut q' i)
    (hgive : ∀ i ∈ batch.flatMap Committed.ooCommittedEntries, HandedOut q' i) :
    Pending L q' c m rest := by
  have later : ∀ {x}, x ∈ rest → x ∈ batch ++ rest := List.mem_append_right _
  have hdistinct := h.distinct
  rw [List.flatMap_append, List.nodup_append] at hdistinct
  refine ⟨fun x hx => h.values x (later hx), fun x hx => h.ascending x (later hx),
    hdistinct.2.1, fun x hx => h.reached x (later hx), ?_,
    fun x hx y hy => h.apart x (later hx) y (later hy), ?_, ?_, ?_, ?_⟩
  · intro x hx i hi hhanded
    rcases hout i hhanded with hold | hlow | hbatch
    · exact (h.waiting x (later hx) i hi hold).trans hle
    · exact hlow
    · exact absurd rfl (hdistinct.2.2 i hbatch i (List.mem_flatMap.mpr ⟨x, hx, hi⟩))
  · intro y hy i hi hlt
    rcases hvalue with rfl | ⟨x, hx, rfl⟩
    · exact h.behind y (later hy) i hi hlt
    · exact h.apart x (List.mem_append_left _ hx) y (later hy) i hi hlt
  · intro x hx hhanded
    rcases hout _ hhanded with hold | hlow | hbatch
    · exact (h.vacant x (later hx) hold).trans hle
    · exact hlow
    · obtain ⟨y, hy, hin⟩ := List.mem_flatMap.mp hbatch
      exact absurd rfl
        (h.apart x (later hx) y (List.mem_append_left _ hy) _ hin (habove y hy _ hin))
  · rcases h.latest with hlow | ⟨x, hx, heq⟩
    · exact .inl (hlow.trans hle)
    · rcases List.mem_append.mp hx with hx | hx
      · exact .inl (heq ▸ hmax x hx)
      · exact .inr ⟨x, hx, heq⟩
  · intro j hj
    rcases h.complete j hj with hlow | hold | ⟨x, hx, hin⟩
    · exact .inl hlow
    · exact .inr (.inl (hkeep j hold))
    · rcases List.mem_append.mp hx with hx | hx
      · exact .inr (.inl (hgive j (List.mem_flatMap.mpr ⟨x, hx, hin⟩)))
      · exact .inr (.inr ⟨x, hx, hin⟩)

private theorem Pending.run_vacant {x : Committed} (hx : x ∈ batch)
    (hvalue : x.committedIndex = m) :
    ¬ HandedOut q' (m + 1) := by
  subst hvalue
  intro hhanded
  rcases hout _ hhanded with hold | hlow | hbatch
  · have := h.vacant x (List.mem_append_left _ hx) hold
    omega
  · omega
  · obtain ⟨y, hy, hin⟩ := List.mem_flatMap.mp hbatch
    exact h.apart x (List.mem_append_left _ hx) y (List.mem_append_left _ hy) _ hin
      (habove y hy _ hin) rfl

end Run

end PendingLaws

/-- The lists on their way, with the committed index they carry or will carry at least. -/
def lists (s : Leader) : List Committed :=
  s.tasks ++ s.calls ++ s.reports.map (Committed.mk s.box.lastCommittedIndex)

/-- What was given to the state machine, against the closures that are still queued. -/
structure Given (L : Ledger) (appended : List (Option Nat)) (caller : FsmCaller) : Prop where
  spans : Spans caller.closures L.bound
  length : L.first + appended.length = L.bound
  first_le : L.first ≤ caller.lastAppliedIndex + 1
  firstIndex : caller.closures.firstIndex = caller.lastAppliedIndex + 1
  vacant : ¬ HandedOut caller.closures (caller.lastAppliedIndex + 1)
  queue : caller.closures.queue = appended.drop (caller.lastAppliedIndex + 1 - L.first).toNat
  granted : ∀ i, L.first ≤ i → HandedOut caller.closures i → L.Reached i
  handed : ∀ i, i ∈ caller.handed.map Prod.fst ↔ L.first ≤ i ∧ HandedOut caller.closures i
  once : (caller.handed.map Prod.fst).Nodup
  matched : ∀ p ∈ caller.handed, item appended (p.1 - L.first) = some p.2
  noError : caller.error = false
  quiet : Quiet caller.ooApplyQueue

private theorem Given.mem_popped {L : Ledger} {appended : List (Option Nat)} {caller : FsmCaller}
    (g : Given L appended caller) {task : Committed} (i : Int) :
    i ∈ poppedIndexes caller.closures task.committedIndex task.ooCommittedEntries ↔
      (caller.lastAppliedIndex < i ∧ i ≤ task.committedIndex) ∨ i ∈ task.ooCommittedEntries := by
  rw [poppedIndexes, List.mem_append, mem_indexRange, g.firstIndex, Int.add_one_le_iff]

theorem Given.give {L : Ledger} {appended : List (Option Nat)} {caller : FsmCaller}
    (g : Given L appended caller) {popped : Popped} {asked : Int → Prop} {applied : Int} {n : Nat}
    {ooApplyQueue : List Bool} (hspans : Spans popped.queue L.bound)
    (hout : ∀ i, HandedOut popped.queue i ↔ HandedOut caller.closures i ∨ asked i)
    (hindexes : ∀ i, i ∈ popped.outIndexes ↔ asked i ∧ ¬ HandedOut caller.closures i)
    (hlength : popped.out.length = popped.outIndexes.length) (hnodup : popped.outIndexes.Nodup)
    (hmatched : ∀ p ∈ popped.outIndexes.zip popped.out,
      item caller.closures.queue (p.1 - caller.closures.firstIndex) = some p.2)
    (hmoved : popped.queue.firstIndex = caller.closures.firstIndex + n)
    (hqueue : popped.queue.queue = caller.closures.queue.drop n)
    (hfirst : popped.queue.firstIndex = applied + 1) (hvacant : ¬ HandedOut popped.queue (applied + 1))
    (hreached : ∀ i, L.first ≤ i → asked i → L.Reached i)
    (hlow : ∀ i ∈ popped.outIndexes, L.first ≤ i) (hquiet : Quiet ooApplyQueue) :
    Given L appended ⟨popped.queue, applied, ooApplyQueue, false,
      caller.handed ++ popped.outIndexes.zip popped.out⟩ := by
  have hbefore := g.firstIndex
  have hstart := g.first_le
  have hmap : (caller.handed ++ popped.outIndexes.zip popped.out).map Prod.fst =
      caller.handed.map Prod.fst ++ popped.outIndexes := by
    rw [List.map_append, List.map_fst_zip (by omega)]
  refine ⟨hspans, g.length, ?_, hfirst, hvacant, ?_, ?_, ?_, ?_, ?_, rfl, hquiet⟩
  · show L.first ≤ applied + 1
    omega
  · show popped.queue.queue = appended.drop (applied + 1 - L.first).toNat
    rw [hqueue, g.queue, List.drop_drop]
    congr 1
    omega
  · intro i hi hhanded
    rcases (hout i).mp hhanded with hold | hasked
    · exact g.granted i hi hold
    · exact hreached i hi hasked
  · intro i
    rw [hmap, List.mem_append, g.handed, hout]
    constructor
    · rintro (⟨hi, hold⟩ | hin)
      · exact ⟨hi, .inl hold⟩
      · exact ⟨hlow i hin, .inr ((hindexes i).mp hin).1⟩
    · rintro ⟨hi, hcase⟩
      by_cases hold : HandedOut caller.closures i
      · exact .inl ⟨hi, hold⟩
      · exact .inr ((hindexes i).mpr ⟨hcase.resolve_left hold, hold⟩)
  · rw [hmap]
    refine List.nodup_append.mpr ⟨g.once, hnodup, ?_⟩
    rintro i hi j hj rfl
    exact ((hindexes i).mp hj).2 ((g.handed i).mp hi).2
  · intro p hp
    rcases List.mem_append.mp hp with hold | hnew
    · exact g.matched p hold
    · have hitem := hmatched p hnew
      have hpos := item_eq_some_bounds hitem
      rw [g.queue, item_drop _ _ hpos.1] at hitem
      rw [← hitem]
      congr 1
      omega

structure Inv (s : Leader) : Prop where
  tracks : Tracks s.ledger s.box
  positive : 0 < s.ledger.first
  logged : s.ledger.bound = s.log.length + 1
  committed : s.box.lastCommittedIndex = s.box.pendingIndex - 1
  applied : s.caller.lastAppliedIndex ≤ s.box.lastCommittedIndex
  given : Given s.ledger s.appended s.caller
  pending : Pending s.ledger s.caller.closures s.box.lastCommittedIndex s.caller.lastAppliedIndex
    (lists s)
  above : ∀ x ∈ s.tasks, ∀ i ∈ x.ooCommittedEntries, x.committedIndex < i

section Steps

variable {s t : Leader}

theorem inv_apply (h : Inv s) (entry : LogEntry) (done : Option Nat) (ballot : QuorumLedger.Task)
    (hstep : s.step (.apply entry done ballot) = some t) : Inv t := by
  cases hstep
  have hreached : ∀ i, (s.ledger.append ballot).Reached i ↔ s.ledger.Reached i :=
    reached_append ballot (h.tracks.fresh s.ledger.bound le_rfl)
  have hbound : (s.ledger.append ballot).bound = s.ledger.bound + 1 := by
    simp only [Ledger.bound, Ledger.append, List.length_append, List.length_singleton]
    omega
  have hout := handedOut_append s.caller.closures done
  have g := h.given
  have hfirst := g.first_le
  have hlength := g.length
  have hspans := g.spans.flags
  have hfront := g.firstIndex
  refine ⟨tracks_append h.tracks ballot, h.positive, ?_, h.committed, h.applied, ?_, ?_, h.above⟩
  · rw [hbound, h.logged, List.length_append, List.length_singleton]
    omega
  · refine ⟨hbound ▸ spans_append g.spans done, ?_, hfirst, hfront, ?_, ?_, ?_, ?_, g.once, ?_,
      g.noError, g.quiet⟩
    · rw [hbound, List.length_append, List.length_singleton]
      show s.ledger.first + _ = _
      omega
    · intro hhanded
      exact g.vacant ((hout _).mp hhanded)
    · show s.caller.closures.queue ++ [done] = _
      rw [g.queue, List.drop_append_of_le_length]
      · rfl
      · show (s.caller.lastAppliedIndex + 1 - s.ledger.first).toNat ≤ s.appended.length
        omega
    · intro i hi hhanded
      exact (hreached i).mpr (g.granted i hi ((hout i).mp hhanded))
    · intro i
      exact (g.handed i).trans (and_congr_right fun _ => (hout i).symm)
    · intro p hp
      have hold := g.matched p hp
      have hbounds := item_eq_some_bounds hold
      show item (s.appended ++ [done]) (p.1 - s.ledger.first) = _
      rw [item_push, if_neg (by omega)]
      exact hold
  · have hp := h.pending
    exact ⟨hp.values, hp.ascending, hp.distinct,
      fun x hx i hi => (hreached i).mpr (hp.reached x hx i hi),
      fun x hx i hi hhanded => hp.waiting x hx i hi ((hout i).mp hhanded), hp.apart, hp.behind,
      fun x hx hhanded => hp.vacant x hx ((hout _).mp hhanded), hp.latest,
      fun j hj => (hp.complete j ((hreached j).mp hj)).imp_right
        (Or.imp_left fun hold => (hout j).mpr hold)⟩

theorem Given.mono {L L' : Ledger} {appended : List (Option Nat)} {caller : FsmCaller}
    (g : Given L appended caller) (hfirst : L'.first = L.first) (hbound : L'.bound = L.bound)
    (hmono : ∀ i, L.Reached i → L'.Reached i) : Given L' appended caller :=
  { g with
    spans := hbound ▸ g.spans
    length := hfirst ▸ hbound ▸ g.length
    first_le := hfirst ▸ g.first_le
    queue := hfirst ▸ g.queue
    granted := fun i hi hout => hmono i (g.granted i (hfirst ▸ hi) hout)
    handed := hfirst ▸ g.handed
    matched := hfirst ▸ g.matched }

theorem inv_commit (h : Inv s) (ack : Acknowledgement) :
    ∃ t, s.step (.commitAt ack) = some t ∧ Inv t ∧ t.caller = s.caller := by
  have hpos : 0 < s.box.pendingIndex := by
    have := h.positive
    have := h.tracks.matching.first_le
    omega
  obtain ⟨outcome, hrun, htracks, -, hreport, hnodup⟩ :=
    tracks_commit h.tracks ack.peer hpos ack.ascending
  obtain ⟨hcommitted, hle⟩ := commitAt_committed hrun h.committed
  have hfirst := commit_first s.ledger ack.indexes ack.peer
  have hbound := commit_bound s.ledger ack.indexes ack.peer
  have hmono : ∀ i, s.ledger.Reached i → (s.ledger.commit ack.indexes ack.peer).Reached i :=
    fun i => reached_commit_mono
  have hlists : (outcome.onCommitted.map Committed.ooCommittedEntries).toList.flatten =
      reported outcome := by
    cases hcase : outcome.onCommitted with
    | none => simp [reported, hcase]
    | some c => simp [reported, hcase]
  have hsettled := @Pending.commit _ _ _ _ _ outcome.box.lastCommittedIndex (s.tasks ++ s.calls) _
    (outcome.onCommitted.map Committed.ooCommittedEntries).toList h.pending hfirst hmono hle h.applied
    (by have := h.given.first_le; have := h.applied; omega)
    (by rw [hcommitted, Int.sub_add_cancel]; exact htracks.pending) h.given.granted
    (by
      intro r hr
      cases hcase : outcome.onCommitted with
      | none => simp [hcase] at hr
      | some c =>
        have hr : r = c.ooCommittedEntries := by simpa [hcase] using hr
        exact hr ▸ ack.ascending.sublist (commitAt_sublist hrun c hcase))
    (hlists ▸ hnodup) (by rw [hlists]; exact hreport)
    (by
      rcases commitAt_stores hrun with ⟨hsame, -, -⟩ | ⟨-, hne, -⟩
      · exact .inl hsame
      · refine .inr fun hnil => hne ?_
        rw [← hlists, hnil, List.flatten_nil])
  let t : Leader := { s with
    box := outcome.box
    ledger := s.ledger.commit ack.indexes ack.peer
    reports := s.reports ++ (outcome.onCommitted.map Committed.ooCommittedEntries).toList }
  refine ⟨t, by rw [Leader.step, hrun]; rfl, ?_, rfl⟩
  refine ⟨htracks, hfirst ▸ h.positive, hbound ▸ h.logged, hcommitted, h.applied.trans hle,
    h.given.mono hfirst hbound hmono, ?_, h.above⟩
  have hsame : lists t =
      s.tasks ++ s.calls ++ s.reports.map (Committed.mk outcome.box.lastCommittedIndex) ++
        (outcome.onCommitted.map Committed.ooCommittedEntries).toList.map
          (Committed.mk outcome.box.lastCommittedIndex) := by
    simp [lists, t]
  rw [hsame]
  exact hsettled

private theorem perm_eraseIdx {α : Type} {xs : List α} {position : Nat} {x : α}
    (h : xs[position]? = some x) : xs.Perm (x :: xs.eraseIdx position) := by
  induction xs generalizing position with
  | nil => simp at h
  | cons y ys ih =>
    cases position with
    | zero =>
      cases h
      exact List.Perm.refl _
    | succ position =>
      exact ((ih h).cons y).trans (List.Perm.swap x y _)

theorem inv_load (h : Inv s) (position : Nat) (hstep : s.step (.load position) = some t) :
    Inv t ∧ t.caller = s.caller := by
  simp only [Leader.step] at hstep
  split at hstep
  · cases hstep
    exact ⟨h, rfl⟩
  · rename_i report hreport
    cases hstep
    refine ⟨⟨h.tracks, h.positive, h.logged, h.committed, h.applied, h.given, ?_, h.above⟩, rfl⟩
    refine h.pending.perm ?_
    have hperm := (perm_eraseIdx hreport).map (Committed.mk s.box.lastCommittedIndex)
    refine (hperm.append_left (s.tasks ++ s.calls)).trans ?_
    simp only [lists, List.map_cons, List.append_assoc, List.singleton_append]
    exact List.Perm.refl _

theorem inv_onCommitted (h : Inv s) (position : Nat)
    (hstep : s.step (.onCommitted position) = some t) : Inv t ∧ t.caller = s.caller := by
  simp only [Leader.step] at hstep
  split at hstep
  · cases hstep
    exact ⟨h, rfl⟩
  · rename_i call hcall
    cases hstep
    have hfront : (lists s).Perm (call :: (s.tasks ++ s.calls.eraseIdx position ++
        s.reports.map (Committed.mk s.box.lastCommittedIndex))) := by
      refine ((perm_eraseIdx hcall).append_left s.tasks).append_right _ |>.trans ?_
      rw [List.append_assoc, List.append_assoc, List.cons_append]
      exact List.perm_middle
    have hasc := h.pending.ascending call (hfront.symm.subset (by simp))
    refine ⟨⟨h.tracks, h.positive, h.logged, h.committed, h.applied, h.given, ?_, ?_⟩, rfl⟩
    · refine (h.pending.perm hfront).onCommitted.perm ?_
      simp only [lists, List.append_assoc, List.singleton_append]
      exact List.perm_middle.symm
    · intro x hx i hi
      rcases List.mem_append.mp hx with hold | hnew
      · exact h.above x hold i hi
      · cases List.mem_singleton.mp hnew
        exact dropWhile_above call.committedIndex hasc i hi

private theorem lists_split (s : Leader) (count : Nat) : lists s = s.tasks.take count ++
    lists { s with tasks := s.tasks.drop count } := by
  unfold lists
  rw [← List.append_assoc, ← List.append_assoc, List.take_append_drop]

section Run

variable (h : Inv s) (count : Nat)
include h

private theorem inv_skip
    (hmax : ∀ x ∈ s.tasks.take count, x.committedIndex ≤ s.caller.lastAppliedIndex)
    (hnil : (s.batch count).ooCommittedEntries = []) :
    Inv { s with tasks := s.tasks.drop count } := by
  refine ⟨h.tracks, h.positive, h.logged, h.committed, h.applied, h.given, ?_,
    fun x hx => h.above x (List.mem_of_mem_drop hx)⟩
  have hsplit := lists_split s count ▸ h.pending
  refine hsplit.run le_rfl (fun x hx => h.above x (List.mem_of_mem_take hx)) ?_ hmax (.inl rfl)
    (fun _ => id) ?_
  · intro i hi
    exact .inl hi
  · intro i hi
    have hnil : (s.tasks.take count).flatMap Committed.ooCommittedEntries = [] := hnil
    rw [hnil] at hi
    cases hi

/-- What a batch asks for lies above the applied indexes and was not given before. -/
structure Asks (s : Leader) (task : Committed) : Prop where
  above : s.caller.lastAppliedIndex ≤ task.committedIndex
  below : task.committedIndex ≤ s.box.lastCommittedIndex
  listed : ∀ i ∈ task.ooCommittedEntries, s.ledger.Reached i ∧ ¬ HandedOut s.caller.closures i
  some : s.caller.lastAppliedIndex < task.committedIndex ∨ task.ooCommittedEntries ≠ []

private theorem Asks.lt_bound {task : Committed} (hasks : Asks s task) {i : Int}
    (hi : i ∈ poppedIndexes s.caller.closures task.committedIndex task.ooCommittedEntries) :
    i < s.ledger.bound := by
  have hcommitted := h.committed
  have hmeta := h.tracks.matching.metaLength
  have hbelow := hasks.below
  rcases (h.given.mem_popped i).mp hi with hseq | hmem
  · omega
  · exact (reached_bounds (hasks.listed i hmem).1).2

private theorem Asks.exists_open {task : Committed} (hasks : Asks s task) :
    s.caller.closures.queue ≠ [] ∧
      ∃ i ∈ poppedIndexes s.caller.closures task.committedIndex task.ooCommittedEntries,
        ¬ HandedOut s.caller.closures i := by
  have g := h.given
  obtain ⟨i, hi, hnot⟩ : ∃ i ∈ poppedIndexes s.caller.closures task.committedIndex
      task.ooCommittedEntries, ¬ HandedOut s.caller.closures i := by
    rcases hasks.some with hlt | hne
    · exact ⟨s.caller.lastAppliedIndex + 1, (g.mem_popped _).mpr (.inl ⟨by omega, by omega⟩),
        g.vacant⟩
    · obtain ⟨i, hi⟩ := List.exists_mem_of_ne_nil _ hne
      exact ⟨i, (g.mem_popped i).mpr (.inr hi), (hasks.listed i hi).2⟩
  refine ⟨fun hnil => ?_, i, hi, hnot⟩
  have hlen := g.spans.queue
  have hbound := hasks.lt_bound h hi
  have hfirst := (not_handedOut_bounds g.spans hbound hnot).1
  have hflags := g.spans.flags
  rw [hnil, List.length_nil] at hlen
  omega

private theorem given_doCommitted {task : Committed} (hasks : Asks s task)
    (hopen : ∀ q', (∀ i, HandedOut q' i → HandedOut s.caller.closures i ∨
      i ≤ task.committedIndex ∨ i ∈ task.ooCommittedEntries) →
        ¬ HandedOut q' (task.committedIndex + 1)) :
    ∃ caller, s.caller.doCommitted s.getEntry task = .some caller ∧
      Given s.ledger s.appended caller ∧ caller.lastAppliedIndex = task.committedIndex ∧
      ∀ i, HandedOut caller.closures i ↔ HandedOut s.caller.closures i ∨
        (s.caller.lastAppliedIndex < i ∧ i ≤ task.committedIndex) ∨
          i ∈ task.ooCommittedEntries := by
  have g := h.given
  have hfirst := g.firstIndex
  have hlow := g.first_le
  have hcommitted := h.committed
  have hmeta := h.tracks.matching.metaLength
  have hbelow := hasks.below
  have hoo : ∀ i ∈ task.ooCommittedEntries, i < s.ledger.bound ∧
      ¬ HandedOut s.caller.closures i :=
    fun i hi => ⟨(reached_bounds (hasks.listed i hi).1).2, (hasks.listed i hi).2⟩
  obtain ⟨hqueue, i₀, hi₀, hnot₀⟩ := hasks.exists_open h
  obtain ⟨popped, hpop, hspans, hout, hindexes, hlength, hnodup, hmatched, n, hnfirst, hndrop,
    hnfront⟩ := popClosureUntil_pairs g.spans hqueue
      (show task.committedIndex < s.ledger.bound by omega) hoo
  have hnonempty : popped.outIndexes ≠ [] :=
    List.ne_nil_of_mem ((hindexes i₀).mpr ⟨hi₀, hnot₀⟩)
  have houtNonempty : popped.out ≠ [] := by
    intro hnil
    rw [hnil, List.length_nil] at hlength
    exact hnonempty (List.length_eq_zero_iff.mp hlength.symm)
  have habove : ∀ i ∈ popped.outIndexes, s.caller.lastAppliedIndex < i := by
    intro i hi
    obtain ⟨hin, hnot⟩ := (hindexes i).mp hi
    have := (not_handedOut_bounds g.spans (hasks.lt_bound h hin) hnot).1
    omega
  have hentries : ∀ i ∈ popped.outIndexes, (s.getEntry i).isSome = true := by
    intro i hi
    have hlo := habove i hi
    have hhi := hasks.lt_bound h ((hindexes i).mp hi).1
    have hpos := h.positive
    obtain ⟨entry, hentry⟩ := exists_item (q := s.log) (d := i - 1) (by omega)
      (by have := h.logged; omega)
    exact Option.isSome_iff_exists.mpr ⟨entry, hentry⟩
  have hwork : ¬ (task.committedIndex ≤ s.caller.lastAppliedIndex ∧
      task.ooCommittedEntries = []) := by
    rintro ⟨hle, hnil⟩
    rcases hasks.some with hlt | hne
    · omega
    · exact hne hnil
  obtain ⟨queue, hrun, hquiet, -⟩ := @doCommitted_hands _ _ _ _ popped.outIndexes
    popped.out g.noError hwork hpop (by simp [houtNonempty]) (by simp [houtNonempty])
    hlength hentries habove g.quiet (.inl hnonempty)
  simp only [g.mem_popped] at hout hindexes
  have hvacant : ¬ HandedOut popped.queue (task.committedIndex + 1) := by
    apply hopen
    intro i hi
    rcases (hout i).mp hi with hold | hseq | hlist
    · exact .inl hold
    · exact .inr (.inl hseq.2)
    · exact .inr (.inr hlist)
  -- Everything up to the committed index is given, and the next index is not.
  have hfirst' : popped.queue.firstIndex = task.committedIndex + 1 := by
    rcases lt_trichotomy popped.queue.firstIndex (task.committedIndex + 1) with hlt | heq | hgt
    · refine absurd ((hout _).mpr ?_) hnfront
      by_cases happlied : popped.queue.firstIndex ≤ s.caller.lastAppliedIndex
      · exact .inl (.inl (by omega))
      · exact .inr (.inl ⟨by omega, by omega⟩)
    · exact heq
    · exact absurd (.inl (by omega)) hvacant
  refine ⟨_, hrun, ?_, rfl, hout⟩
  refine g.give hspans hout hindexes hlength hnodup hmatched hnfirst hndrop hfirst'
    hvacant (fun i hi hasked => ?_) (fun i hi => ?_) hquiet
  · rcases hasked with hseq | hlist
    · exact h.tracks.below i hi (by omega)
    · exact (hasks.listed i hlist).1
  · have := habove i hi
    omega

theorem inv_run (hguard : s.UpToDate (.run count)) :
    ∃ t, s.step (.run count) = some t ∧ Inv t ∧
      s.caller.lastAppliedIndex ≤ t.caller.lastAppliedIndex := by
  have hsplit := lists_split s count ▸ h.pending
  obtain ⟨hall, hexists⟩ := maxCommittedIndex_spec (s.tasks.take count)
  have hmember : ∀ {x}, x ∈ s.tasks.take count → x ∈ lists s := fun hx =>
    lists_split s count ▸ List.mem_append_left _ hx
  have hpos := h.positive
  by_cases hzero : 0 ≤ (s.batch count).committedIndex
  · by_cases hskip : (s.batch count).committedIndex ≤ s.caller.lastAppliedIndex ∧
        (s.batch count).ooCommittedEntries = []
    · refine ⟨_, ?_, inv_skip h count (fun x hx => (hall x hx).trans hskip.1) hskip.2, le_rfl⟩
      simp only [Leader.step, if_pos hzero, FsmCaller.doCommitted, h.given.noError,
        Bool.false_eq_true, if_false, if_pos hskip, Option.map_some]
    · obtain ⟨x, hx, hvalue⟩ := hexists hzero
      have hvalue : x.committedIndex = (s.batch count).committedIndex := hvalue
      have hasks : Asks s (s.batch count) := by
        have hbelow := (h.pending.values x (hmember hx)).2
        have hlist : ∀ i ∈ (s.batch count).ooCommittedEntries,
            s.caller.lastAppliedIndex < i → s.ledger.Reached i ∧
              ¬ HandedOut s.caller.closures i := by
          intro i hi hlt
          obtain ⟨y, hy, hin⟩ := List.mem_flatMap.mp hi
          refine ⟨h.pending.reached y (hmember hy) i hin, fun hout => ?_⟩
          have := h.pending.waiting y (hmember hy) i hin hout
          omega
        rcases hguard with hnil | ⟨hle, habove⟩
        · have hlt : s.caller.lastAppliedIndex < (s.batch count).committedIndex := by
            by_contra hle
            exact hskip ⟨by omega, hnil⟩
          refine ⟨hlt.le, by omega, ?_, .inl hlt⟩
          intro i hi
          rw [hnil] at hi
          cases hi
        · refine ⟨hle, by omega, fun i hi => hlist i hi (habove i hi), ?_⟩
          by_contra hnone
          obtain ⟨hle', hnil⟩ := not_or.mp hnone
          exact hskip ⟨by omega, not_not.mp hnil⟩
      have habove : ∀ x ∈ s.tasks.take count, ∀ i ∈ x.ooCommittedEntries, x.committedIndex < i :=
        fun x hx => h.above x (List.mem_of_mem_take hx)
      obtain ⟨caller, hrun, hgiven, hlast, hout⟩ := given_doCommitted h hasks
        fun q' hq' => hsplit.run_vacant hasks.above habove hq' hx hvalue
      have hout' : ∀ i, HandedOut caller.closures i → HandedOut s.caller.closures i ∨
          i ≤ (s.batch count).committedIndex ∨
            i ∈ (s.tasks.take count).flatMap Committed.ooCommittedEntries := by
        intro i hi
        rcases (hout i).mp hi with hold | hseq | hlist
        · exact .inl hold
        · exact .inr (.inl hseq.2)
        · exact .inr (.inr hlist)
      refine ⟨{ s with tasks := s.tasks.drop count, caller := caller }, ?_, ?_, ?_⟩
      · simp only [Leader.step, if_pos hzero, hrun, Option.map_some]
      · refine ⟨h.tracks, h.positive, h.logged, h.committed, ?_, hgiven, ?_,
          fun x hx => h.above x (List.mem_of_mem_drop hx)⟩
        · rw [hlast]
          exact hasks.below
        · rw [hlast]
          exact hsplit.run hasks.above habove hout' hall (.inr ⟨x, hx, hvalue⟩)
            (fun i hi => (hout i).mpr (.inl hi)) (fun i hi => (hout i).mpr (.inr (.inr hi)))
      · rw [hlast]
        exact hasks.above
  · -- Committed indexes are not negative, so the batch has no task.
    have hnone : s.tasks.take count = [] := by
      refine List.eq_nil_iff_forall_not_mem.mpr fun x hx => ?_
      have hlow := (h.pending.values x (hmember hx)).1
      have hle : x.committedIndex ≤ (s.batch count).committedIndex := hall x hx
      omega
    refine ⟨_, ?_, inv_skip h count (by simp [hnone]) (by simp [Leader.batch, hnone]), le_rfl⟩
    simp only [Leader.step, if_neg hzero]

end Run

theorem inv_step (s : Leader) (event : Event) (h : Inv s) (hguard : s.UpToDate event) :
    ∃ t, s.step event = some t ∧ Inv t ∧
      s.caller.lastAppliedIndex ≤ t.caller.lastAppliedIndex := by
  cases event with
  | apply entry done ballot => exact ⟨_, rfl, inv_apply h entry done ballot rfl, le_rfl⟩
  | commitAt ack =>
    obtain ⟨t, hstep, ht, hcaller⟩ := inv_commit h ack
    exact ⟨t, hstep, ht, by rw [hcaller]⟩
  | load position =>
    obtain ⟨t, hstep⟩ : ∃ t, s.step (.load position) = some t := by
      simp only [Leader.step]
      split <;> exact ⟨_, rfl⟩
    obtain ⟨ht, hcaller⟩ := inv_load h position hstep
    exact ⟨t, hstep, ht, by rw [hcaller]⟩
  | onCommitted position =>
    obtain ⟨t, hstep⟩ : ∃ t, s.step (.onCommitted position) = some t := by
      simp only [Leader.step]
      split <;> exact ⟨_, rfl⟩
    obtain ⟨ht, hcaller⟩ := inv_onCommitted h position hstep
    exact ⟨t, hstep, ht, by rw [hcaller]⟩
  | run count => exact inv_run h count hguard

theorem Inv.exactlyOnce (h : Inv s) : s.ExactlyOnce := by
  have g := h.given
  refine ⟨g.once, ?_, ?_⟩
  · intro p hp
    obtain ⟨hfirst, hout⟩ := (g.handed p.1).mp (List.mem_map_of_mem hp)
    exact ⟨g.granted p.1 hfirst hout, g.matched p hp⟩
  · intro hreports hcalls htasks i hi
    have hlists : lists s = [] := by simp [lists, hreports, hcalls, htasks]
    have hp := hlists ▸ h.pending
    have hlatest : s.box.lastCommittedIndex ≤ s.caller.lastAppliedIndex := by
      rcases hp.latest with hle | ⟨x, hx, -⟩
      · exact hle
      · cases hx
    refine (g.handed i).mpr ⟨(reached_bounds hi).1, ?_⟩
    rcases hp.complete i hi with hlow | hout | ⟨x, hx, -⟩
    · have := g.firstIndex
      exact .inl (by omega)
    · exact hout
    · cases hx

end Steps

/-- The leadership begins on a node that has committed and applied every earlier entry. -/
structure CaughtUp (earlier : List LogEntry) (lastCommittedIndex lastAppliedIndex : Int)
    (ooApplyQueue : List Bool) : Prop where
  committed : lastCommittedIndex = earlier.length
  applied : lastAppliedIndex = earlier.length
  quiet : Quiet ooApplyQueue

theorem inv_start {earlier : List LogEntry} {lastCommittedIndex lastAppliedIndex : Int}
    {ooApplyQueue : List Bool}
    (h : CaughtUp earlier lastCommittedIndex lastAppliedIndex ooApplyQueue) :
    Inv (.start earlier lastCommittedIndex lastAppliedIndex ooApplyQueue) := by
  obtain ⟨rfl, rfl, hquiet⟩ := h
  have none_reached : ∀ i, ¬ (Ledger.start (earlier.length + 1)).Reached i := by
    rintro i ⟨task, htask, -⟩
    simp [Ledger.start, item] at htask
  have hout : ∀ i, HandedOut ⟨earlier.length + 1, [], []⟩ i → i < earlier.length + 1 := by
    rintro i (hlt | hset)
    · exact hlt
    · simp [item] at hset
  have hbound : (Ledger.start (earlier.length + 1)).bound = earlier.length + 1 := by
    simp [Ledger.bound, Ledger.start]
  refine ⟨tracks_start _ _, ?_, hbound, ?_, le_rfl, ?_, ?_, by simp [Leader.start]⟩
  · show (0 : Int) < earlier.length + 1
    omega
  · show (earlier.length : Int) = earlier.length + 1 - 1
    omega
  · refine ⟨⟨?_, rfl⟩, ?_, le_rfl, rfl, ?_, ?_, ?_, ?_, List.nodup_nil, by simp [Leader.start],
      rfl, hquiet⟩
    · simp [Leader.start, hbound]
    · simp [Leader.start, hbound]
      rfl
    · intro hhanded
      exact lt_irrefl _ (hout _ hhanded)
    · simp [Leader.start]
    · intro i hi hhanded
      have hlow : (earlier.length : Int) + 1 ≤ i := hi
      have := hout i hhanded
      omega
    · intro i
      constructor
      · intro hi
        cases hi
      · rintro ⟨hi, hhanded⟩
        have hlow : (earlier.length : Int) + 1 ≤ i := hi
        have := hout i hhanded
        omega
  · refine ⟨by simp [lists, Leader.start], by simp [lists, Leader.start], List.nodup_nil,
      by simp [lists, Leader.start], by simp [lists, Leader.start], by simp [lists, Leader.start],
      by simp [lists, Leader.start], by simp [lists, Leader.start], .inl le_rfl, ?_⟩
    intro j hj
    exact absurd hj (none_reached j)

/-- Over any interleaving of acknowledgements, reports and batches, as long as no batch
with out-of-order indexes is older than what was applied, every committed index is given
to the state machine exactly once with its closure, and the applied index never decreases. -/
theorem applies_exactly_once (earlier : List LogEntry) (lastCommittedIndex lastAppliedIndex : Int)
    (ooApplyQueue : List Bool) (events : List Event)
    (hstart : CaughtUp earlier lastCommittedIndex lastAppliedIndex ooApplyQueue)
    (hguard : Guarded Leader.step Leader.UpToDate
      (.start earlier lastCommittedIndex lastAppliedIndex ooApplyQueue) events) :
    (∀ pre post, events = pre ++ post → ∃ s, runEvents Leader.step
        (.start earlier lastCommittedIndex lastAppliedIndex ooApplyQueue) pre = some s ∧
      s.ExactlyOnce) ∧
    ∀ pre event post s t, events = pre ++ event :: post →
      runEvents Leader.step
        (.start earlier lastCommittedIndex lastAppliedIndex ooApplyQueue) pre = some s →
      s.step event = some t → s.caller.lastAppliedIndex ≤ t.caller.lastAppliedIndex := by
  have progress : ∀ s event, Inv s → s.UpToDate event → ∃ t, s.step event = some t ∧ Inv t :=
    fun s event h hg =>
      let ⟨t, hstep, ht, _⟩ := inv_step s event h hg
      ⟨t, hstep, ht⟩
  have reach : ∀ pre post, events = pre ++ post → ∃ s, runEvents Leader.step
      (.start earlier lastCommittedIndex lastAppliedIndex ooApplyQueue) pre = some s ∧ Inv s := by
    rintro pre post rfl
    exact run_defined_of_step progress (inv_start hstart) (guarded_append_left hguard)
  refine ⟨?_, ?_⟩
  · intro pre post hsplit
    obtain ⟨s, hrun, hinv⟩ := reach pre post hsplit
    exact ⟨s, hrun, hinv.exactlyOnce⟩
  · rintro pre event post s t rfl hrun hstep
    obtain ⟨s', hrun', hinv⟩ := reach pre (event :: post) rfl
    cases hrun.symm.trans hrun'
    obtain ⟨t', hstep', -, hle⟩ := inv_step s event hinv
      (guarded_append_right hguard hrun).1
    cases hstep.symm.trans hstep'
    exact hle

private def acknowledged (index : Int) (ip : UInt32) : Event :=
  .commitAt ⟨[index], ⟨ip, 8000, 0⟩, List.pairwise_singleton _ _⟩

/-- Two tasks; the second is committed first, and its report is loaded at once. -/
private def twoReports : List Event :=
  [.apply ⟨.data, ⟨0, 1⟩, 0, none, none, []⟩ (some 7) ⟨.three, none⟩,
    .apply ⟨.data, ⟨0, 1⟩, 0, none, none, []⟩ (some 8) ⟨.three, none⟩,
    acknowledged 2 1, acknowledged 2 2, .load 0, acknowledged 1 1, acknowledged 1 2, .load 0]

private def reportsInTurn : List Event :=
  twoReports ++ [.onCommitted 0, .onCommitted 0, .run 1, .run 1]

theorem reportsInTurn_exactly_once :
    CaughtUp [] 0 0 [] ∧ Guarded Leader.step Leader.UpToDate (.start [] 0 0 []) reportsInTurn ∧
      ∃ s, runEvents Leader.step (.start [] 0 0 []) reportsInTurn = some s ∧ s.ExactlyOnce := by
  have hstart : CaughtUp [] 0 0 [] := ⟨rfl, rfl, by simp [Quiet]⟩
  have hguard : Guarded Leader.step Leader.UpToDate (.start [] 0 0 []) reportsInTurn := by
    decide +kernel
  exact ⟨hstart, hguard, (applies_exactly_once [] 0 0 [] reportsInTurn hstart hguard).1
    reportsInTurn [] (by simp)⟩

/-- The same calls, queued the other way round. -/
private def staleReport : List Event := twoReports ++ [.onCommitted 1, .onCommitted 0, .run 1]

theorem staleReport_not_exactly_once : CaughtUp [] 0 0 [] ∧
    ∃ s t, runEvents Leader.step (.start [] 0 0 []) staleReport = some s ∧
      s.step (.run 1) = some t ∧ t.caller.handed = [(1, some 7), (2, some 8), (2, none)] ∧
      ¬ t.ExactlyOnce ∧ t.caller.lastAppliedIndex < s.caller.lastAppliedIndex := by
  refine ⟨⟨rfl, rfl, by simp [Quiet]⟩, ?_⟩
  have hbefore : (runEvents Leader.step (.start [] 0 0 []) staleReport).map
      (fun s => s.caller.lastAppliedIndex) = some 2 := by
    decide +kernel
  have hafter : ((runEvents Leader.step (.start [] 0 0 []) staleReport).bind
      fun s => s.step (.run 1)).map (fun t => (t.caller.handed, t.caller.lastAppliedIndex)) =
        some ([(1, some 7), (2, some 8), (2, none)], 1) := by
    decide +kernel
  obtain ⟨s, hs, hlast⟩ := Option.map_eq_some_iff.mp hbefore
  rw [hs, Option.bind_some] at hafter
  obtain ⟨t, ht, hpair⟩ := Option.map_eq_some_iff.mp hafter
  obtain ⟨hhanded, hone⟩ := Prod.mk.inj hpair
  refine ⟨s, t, hs, ht, hhanded, fun h => ?_, by omega⟩
  have honce := h.once
  rw [hhanded] at honce
  exact absurd honce (by decide)

end HitConsistency.Commit.LeaderApply
