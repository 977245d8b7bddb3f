/- GID: HitConsistency/Commit/StateMachineCaller
   digest: do_committed with its iterator: the list that grows while it is walked. -/

import HitConsistency.Commit.ApplyOrder

set_option autoImplicit false
set_option relaxedAutoImplicit false

namespace HitConsistency.Commit.StateMachineCaller

open HitConsistency.Base.GuardedRuns
open HitConsistency.Base.IndexedDeque
open HitConsistency.Commit.ApplyPipeline
open HitConsistency.Commit.PendingQueues
open HitConsistency.Log.Entry
open HitConsistency.Replication.PeerSender (mem_indexRange indexRange_ascending)
open HitConsistency.Replication.PeerSender.Replicator (indexRange)

/-- The iterator over one call's entries. The index list is the caller's own. -/
structure IteratorImpl where
  closure : List (Option Nat)
  committedIndex : Int
  lastAppliedIndex : Int
  /-- `-1` in front of the first entry and behind the last one. -/
  it : Int
  acturalIndex : Int
  curEntry : Option LogEntry
  indexList : List Int
  error : Bool

namespace IteratorImpl

/-- Without closures every move first appends the next sequential index to the list. -/
def extend (iter : IteratorImpl) : IteratorImpl :=
  if iter.closure = [] ∧ iter.lastAppliedIndex < iter.committedIndex then
    { iter with
      lastAppliedIndex := iter.lastAppliedIndex + 1
      indexList := iter.indexList ++ [iter.lastAppliedIndex + 1] }
  else iter

def next (getEntry : Int → Option LogEntry) (iter : IteratorImpl) : IteratorImpl :=
  let iter := iter.extend
  match item iter.indexList (iter.it + 1) with
  | none => { iter with it := -1, curEntry := none }
  | some index =>
      { iter with
        it := iter.it + 1
        acturalIndex := index
        curEntry := getEntry index
        error := iter.error || (getEntry index).isNone }

def start (getEntry : Int → Option LogEntry) (closure : List (Option Nat))
    (lastAppliedIndex committedIndex : Int) (indexList : List Int) : IteratorImpl :=
  next getEntry ⟨closure, committedIndex, lastAppliedIndex, -1, 0, none, indexList, false⟩

def isGood (iter : IteratorImpl) : Bool := 0 ≤ iter.it ∧ !iter.error

/-- `NULL` without closures. -/
def done (iter : IteratorImpl) : Option (Option Nat) :=
  if iter.closure = [] then some none else item iter.closure iter.it

/-- The loop of `do_committed` around a state machine that takes every entry it is given:
what it was given, with the closures, and the iterator at the end. -/
def walk (getEntry : Int → Option LogEntry) :
    Nat → IteratorImpl → Option (List (Int × Option Nat) × IteratorImpl)
  | 0, _ => none
  | n + 1, iter =>
      if iter.isGood then do
        let done ← iter.done
        let (rest, last) ← walk getEntry n (iter.next getEntry)
        some ((iter.acturalIndex, done) :: rest, last)
      else some ([], iter)

end IteratorImpl

structure FsmCaller where
  closures : ClosureQueue
  lastAppliedIndex : Int
  ooApplyQueue : List Bool
  error : Bool
  /-- The indexes that were given to the state machine, with their closures. -/
  handed : List (Int × Option Nat)

namespace FsmCaller

/-- The difference is compared as an unsigned number. A write one past the end of the
deque is lost. -/
def markApplied (lastAppliedIndex : Int) (queue : List Bool) (index : Int) : List Bool :=
  if index < lastAppliedIndex ∨ queue.length < index - lastAppliedIndex then queue ++ [false]
  else queue.set (index - lastAppliedIndex).toNat true

def popApplied : List Bool → Option (List Bool × Nat)
  | [] => none
  | true :: rest => (popApplied rest).map fun r => (r.1, r.2 + 1)
  | false :: rest => some (false :: rest, 0)

/-- As many rounds as the list can get entries, and one to leave the loop. -/
def rounds (popped : Popped) (lastAppliedIndex committedIndex : Int) : Nat :=
  popped.outIndexes.length + (committedIndex - lastAppliedIndex).toNat + 1

def doCommitted (getEntry : Int → Option LogEntry) (s : FsmCaller) (task : Committed) :
    Option FsmCaller :=
  if s.error then some s
  else if task.committedIndex ≤ s.lastAppliedIndex ∧ task.ooCommittedEntries = [] then some s
  else do
    let popped ← s.closures.popClosureUntil task.committedIndex task.ooCommittedEntries
    let (handed, iter) ← (IteratorImpl.start getEntry popped.out s.lastAppliedIndex
      task.committedIndex popped.outIndexes).walk getEntry
        (rounds popped s.lastAppliedIndex task.committedIndex)
    let (queue, advance) ← popApplied
      (iter.indexList.foldl (markApplied s.lastAppliedIndex) s.ooApplyQueue)
    some {
      closures := popped.queue
      lastAppliedIndex := task.committedIndex + advance
      ooApplyQueue := queue
      error := iter.error
      handed := s.handed ++ handed }

end FsmCaller

section Walk

variable {getEntry : Int → Option LogEntry} {iter : IteratorImpl} {full : List Int}
  {dones : List (Option Nat)} {k : Nat}

/-- The list as it is when the iterator has run to its end. -/
def grown (iter : IteratorImpl) : List Int :=
  iter.indexList ++
    if iter.closure = [] then indexRange (iter.lastAppliedIndex + 1) iter.committedIndex else []

theorem indexRange_cons {first last : Int} (h : first ≤ last) :
    indexRange first last = first :: indexRange (first + 1) last := by
  unfold indexRange
  rw [show (last + 1 - first).toNat = (last + 1 - (first + 1)).toNat + 1 by omega,
    List.range_succ_eq_map, List.map_cons, List.map_map]
  congr 1
  · simp
  · apply List.map_congr_left
    intro k _
    simp only [Function.comp_apply, Nat.succ_eq_add_one]
    omega

theorem indexRange_nil {first last : Int} (h : last < first) : indexRange first last = [] := by
  unfold indexRange
  rw [show (last + 1 - first).toNat = 0 by omega]
  rfl

theorem length_indexRange (first last : Int) :
    (indexRange first last).length = (last + 1 - first).toNat := by
  simp [indexRange]

theorem grown_extend (iter : IteratorImpl) : grown iter.extend = grown iter := by
  unfold IteratorImpl.extend
  split
  · rename_i h
    obtain ⟨hclosure, hlt⟩ := h
    simp only [grown, hclosure, if_true]
    have hle : iter.lastAppliedIndex + 1 ≤ iter.committedIndex := by omega
    rw [indexRange_cons hle, List.append_assoc, List.singleton_append]
  · rfl

theorem item_extend (h : (k : Int) ≤ iter.indexList.length) :
    item iter.extend.indexList k = item (grown iter) k := by
  unfold IteratorImpl.extend grown
  split
  · rename_i hgrow
    obtain ⟨hclosure, hlt⟩ := hgrow
    rw [if_pos hclosure, indexRange_cons (by omega),
      List.append_cons iter.indexList _ (indexRange _ _)]
    have hk : k < (iter.indexList ++ [iter.lastAppliedIndex + 1]).length := by
      simp
      omega
    simp only [item, Int.natCast_nonneg, if_true, Int.toNat_natCast]
    rw [List.getElem?_append_left hk]
  · rename_i hstay
    have hnil : (if iter.closure = [] then
        indexRange (iter.lastAppliedIndex + 1) iter.committedIndex else []) = [] := by
      split
      · rename_i hclosure
        apply indexRange_nil
        by_contra hle
        exact hstay ⟨hclosure, by omega⟩
      · rfl
    rw [hnil, List.append_nil]

/-- The iterator stands at a position of the list it will have in the end. -/
structure Stands (full : List Int) (dones : List (Option Nat)) (k : Nat) (iter : IteratorImpl) :
    Prop where
  grown : grown iter = full
  dones : if iter.closure = [] then dones = List.replicate full.length none
    else dones = iter.closure
  it : iter.it = k
  within : k < iter.indexList.length
  index : full[k]? = some iter.acturalIndex
  good : iter.error = false

structure Ended (full : List Int) (iter : IteratorImpl) : Prop where
  indexList : iter.indexList = full
  it : iter.it = -1
  good : iter.error = false

theorem extend_frame (iter : IteratorImpl) :
    iter.extend.closure = iter.closure ∧ iter.extend.it = iter.it ∧
      iter.extend.error = iter.error ∧ iter.indexList.length ≤ iter.extend.indexList.length := by
  unfold IteratorImpl.extend
  split <;> simp

private theorem next_stands (hit : iter.it + 1 = k) (hwithin : k ≤ iter.indexList.length)
    (hgrown : grown iter = full)
    (hdones : if iter.closure = [] then dones = List.replicate full.length none
      else dones = iter.closure)
    (hgood : iter.error = false) (hentries : ∀ i ∈ full, (getEntry i).isSome = true) :
    if k < full.length then Stands full dones k (iter.next getEntry)
    else Ended full (iter.next getEntry) := by
  obtain ⟨hclosure, hext, herror, hlength⟩ := extend_frame iter
  have hitem := item_extend (k := k) (by exact_mod_cast hwithin)
  rw [hgrown] at hitem
  have hitem' : item iter.extend.indexList k = full[k]? := by
    rw [hitem]
    simp [item]
  have hnext : iter.next getEntry = match full[k]? with
      | none => { iter.extend with it := -1, curEntry := none }
      | some index =>
        { iter.extend with
          it := k
          acturalIndex := index
          curEntry := getEntry index
          error := iter.extend.error || (getEntry index).isNone } := by
    unfold IteratorImpl.next
    simp only [hext, hit, hitem']
  split
  · rename_i hlt
    obtain ⟨index, hindex⟩ : ∃ index, full[k]? = some index := ⟨_, List.getElem?_eq_getElem hlt⟩
    rw [hindex] at hnext hitem'
    have hentry := hentries index (List.mem_of_getElem? hindex)
    rw [hnext]
    refine ⟨?_, ?_, rfl, ?_, hindex, ?_⟩
    · exact (grown_extend iter).trans hgrown
    · simpa only [hclosure] using hdones
    · have := item_eq_some_bounds hitem'
      show k < iter.extend.indexList.length
      omega
    · simp only [herror, hgood, Bool.false_or]
      simpa using hentry
  · rename_i hge
    have hnone : full[k]? = none := List.getElem?_eq_none (by omega)
    rw [hnone] at hnext
    rw [hnext]
    refine ⟨?_, rfl, herror.trans hgood⟩
    -- Nothing is left to append: the list has its final length already.
    have hprefix := (grown_extend iter).trans hgrown
    have hlen := congrArg List.length hprefix
    unfold grown at hprefix hlen
    rw [List.length_append] at hlen
    have hrest : (if iter.extend.closure = [] then
        indexRange (iter.extend.lastAppliedIndex + 1) iter.extend.committedIndex else []) = [] := by
      apply List.length_eq_zero_iff.mp
      omega
    rwa [hrest, List.append_nil] at hprefix

private theorem walk_stands {n : Nat} (h : Stands full dones k iter)
    (hlength : dones.length = full.length)
    (hentries : ∀ i ∈ full, (getEntry i).isSome = true) (hfuel : full.length - k < n) :
    ∃ last, iter.walk getEntry n = some ((full.zip dones).drop k, last) ∧ Ended full last := by
  induction n generalizing k iter with
  | zero => omega
  | succ n ih =>
    have hk : k < full.length := by
      obtain ⟨hk, -⟩ := List.getElem?_eq_some_iff.mp h.index
      exact hk
    have hgood : iter.isGood = true := by
      simp [IteratorImpl.isGood, h.it, h.good]
    have hdone : iter.done = some dones[k] := by
      have hd := h.dones
      unfold IteratorImpl.done
      split at hd
      · rename_i hnil
        rw [if_pos hnil]
        simp [hd]
      · rename_i hne
        rw [if_neg hne, h.it]
        simp [item, ← hd, hlength, hk]
    have hdrop : (full.zip dones).drop k =
        (iter.acturalIndex, dones[k]) :: (full.zip dones).drop (k + 1) := by
      have hpos : k < (full.zip dones).length := by
        rw [List.length_zip]
        omega
      obtain ⟨_, hindex⟩ := List.getElem?_eq_some_iff.mp h.index
      rw [List.drop_eq_getElem_cons hpos, List.getElem_zip, hindex]
    have hstep := next_stands (k := k + 1) (by rw [h.it]; omega) h.within h.grown h.dones h.good
      hentries
    rw [IteratorImpl.walk, if_pos hgood, hdone, hdrop]
    split at hstep
    · obtain ⟨last, hwalk, hend⟩ := ih hstep (by omega)
      exact ⟨last, by simp [hwalk], hend⟩
    · rename_i hlast
      have hstop : (iter.next getEntry).isGood = false := by
        simp [IteratorImpl.isGood, hstep.it]
      obtain ⟨n, rfl⟩ : ∃ m, n = m + 1 := ⟨n - 1, by omega⟩
      refine ⟨iter.next getEntry, ?_, hstep⟩
      rw [List.drop_eq_nil_of_le (by rw [List.length_zip]; omega)]
      simp [IteratorImpl.walk, hstop]

/-- The state machine gets the list of the caller, and without closures the sequential
indexes behind it, each with its closure. -/
theorem walk_start {closure : List (Option Nat)} {lastAppliedIndex committedIndex : Int}
    {indexList : List Int} {n : Nat}
    (hfull : full = indexList ++
      if closure = [] then indexRange (lastAppliedIndex + 1) committedIndex else [])
    (hdones : dones = if closure = [] then List.replicate full.length none else closure)
    (hlength : dones.length = full.length)
    (hentries : ∀ i ∈ full, (getEntry i).isSome = true) (hfuel : full.length < n) :
    ∃ last, (IteratorImpl.start getEntry closure lastAppliedIndex committedIndex indexList).walk
        getEntry n = some (full.zip dones, last) ∧ last.indexList = full ∧ last.error = false := by
  have hstep := @next_stands getEntry ⟨closure, committedIndex, lastAppliedIndex, -1, 0, none,
    indexList, false⟩ full dones 0 rfl (by simp) hfull.symm (by split <;> simp_all) rfl hentries
  split at hstep
  · obtain ⟨last, hwalk, hend⟩ := walk_stands hstep hlength hentries (by omega)
    exact ⟨last, hwalk, hend.indexList, hend.good⟩
  · rename_i hnil
    have hempty : full = [] := List.length_eq_zero_iff.mp (by omega)
    obtain ⟨n, rfl⟩ : ∃ m, n = m + 1 := ⟨n - 1, by omega⟩
    refine ⟨_, ?_, hstep.indexList, hstep.good⟩
    have hstop : (IteratorImpl.start getEntry closure lastAppliedIndex committedIndex
        indexList).isGood = false := by
      simp [IteratorImpl.isGood, IteratorImpl.start, hstep.it]
    rw [IteratorImpl.walk, hstop, hempty]
    rfl

end Walk

section DoCommitted

open FsmCaller

/-- No flag is set at the front, where the last loop of `do_committed` reads. -/
def Quiet (queue : List Bool) : Prop := queue.head? ≠ some true

private theorem markApplied_quiet {last i : Int} {queue : List Bool} (hi : last < i)
    (h : Quiet queue) :
    Quiet (markApplied last queue i) ∧ markApplied last queue i ≠ [] := by
  unfold markApplied Quiet
  cases queue with
  | nil =>
    rw [if_pos (.inr (by simp; omega))]
    simp
  | cons flag rest =>
    obtain ⟨d, hd⟩ : ∃ d : Nat, (i - last).toNat = d + 1 := ⟨(i - last).toNat - 1, by omega⟩
    split
    · exact ⟨h, by simp⟩
    · rw [hd, List.set_cons_succ]
      exact ⟨h, by simp⟩

theorem markAll_quiet {last : Int} {queue : List Bool} {indexes : List Int}
    (hindexes : ∀ i ∈ indexes, last < i) (h : Quiet queue) (hne : indexes ≠ [] ∨ queue ≠ []) :
    Quiet (indexes.foldl (markApplied last) queue) ∧
      indexes.foldl (markApplied last) queue ≠ [] := by
  induction indexes generalizing queue with
  | nil => exact ⟨h, by simpa using hne⟩
  | cons i rest ih =>
    obtain ⟨hquiet, hnonempty⟩ := markApplied_quiet (hindexes i (by simp)) h
    exact ih (fun j hj => hindexes j (by simp [hj])) hquiet (.inr hnonempty)

theorem popApplied_quiet {queue : List Bool} (h : Quiet queue) (hne : queue ≠ []) :
    popApplied queue = some (queue, 0) := by
  cases queue with
  | nil => exact absurd rfl hne
  | cons flag rest =>
    cases flag with
    | false => rfl
    | true => exact absurd rfl h

/-- A call that only meets indexes above the last applied one gives them to the state
machine, and leaves the committed index as the last applied one. -/
theorem doCommitted_hands {getEntry : Int → Option LogEntry} {s : FsmCaller} {task : Committed}
    {popped : Popped} {full : List Int} {dones : List (Option Nat)}
    (hok : s.error = false)
    (hwork : ¬ (task.committedIndex ≤ s.lastAppliedIndex ∧ task.ooCommittedEntries = []))
    (hpop : s.closures.popClosureUntil task.committedIndex task.ooCommittedEntries = some popped)
    (hfull : full = popped.outIndexes ++
      if popped.out = [] then indexRange (s.lastAppliedIndex + 1) task.committedIndex else [])
    (hdones : dones = if popped.out = [] then List.replicate full.length none else popped.out)
    (hlength : dones.length = full.length)
    (hentries : ∀ i ∈ full, (getEntry i).isSome = true)
    (habove : ∀ i ∈ full, s.lastAppliedIndex < i) (hquiet : Quiet s.ooApplyQueue)
    (hne : full ≠ [] ∨ s.ooApplyQueue ≠ []) :
    ∃ queue, s.doCommitted getEntry task = some ⟨popped.queue, task.committedIndex, queue, false,
      s.handed ++ full.zip dones⟩ ∧ Quiet queue ∧ queue ≠ [] := by
  have hfuel : full.length < rounds popped s.lastAppliedIndex task.committedIndex := by
    rw [hfull, rounds, List.length_append]
    split
    · rw [length_indexRange]
      omega
    · rw [List.length_nil]
      omega
  obtain ⟨last, hwalk, hlist, herror⟩ := walk_start hfull hdones hlength hentries hfuel
  obtain ⟨hmarked, hmarkedNe⟩ := markAll_quiet habove hquiet hne
  refine ⟨_, ?_, hmarked, hmarkedNe⟩
  unfold FsmCaller.doCommitted
  rw [if_neg (by simp [hok]), if_neg hwork, hpop]
  simp only [Option.bind_eq_bind, Option.bind_some]
  rw [hwalk]
  simp only [Option.bind_some, hlist, herror]
  rw [popApplied_quiet hmarked hmarkedNe]
  simp

end DoCommitted

section Covered

variable {getEntry : Int → Option LogEntry} {committedIndex : Int} {ooEntries : List Int}

private theorem mem_outIndexes {indexes : List Int} {popped popped' : Popped}
    (hrun : runEvents ClosureQueue.popOne popped indexes = some popped') {i : Int}
    (hi : i ∈ popped'.outIndexes) : i ∈ popped.outIndexes ∨ i ∈ indexes := by
  induction indexes generalizing popped with
  | nil =>
    cases hrun
    exact .inl hi
  | cons index indexes ih =>
    obtain ⟨mid, hstep, hrest⟩ := runEvents_cons_eq_some.mp hrun
    rcases ih hrest with hmid | hlater
    · unfold ClosureQueue.popOne at hstep
      obtain ⟨flag, -, hstep⟩ := Option.bind_eq_some_iff.mp hstep
      split at hstep
      · cases hstep
        exact .inl hmid
      · obtain ⟨closure, -, hstep⟩ := Option.bind_eq_some_iff.mp hstep
        obtain ⟨flags, -, hstep⟩ := Option.bind_eq_some_iff.mp hstep
        cases hstep
        rcases List.mem_append.mp hmid with hold | hnew
        · exact .inl hold
        · exact .inr (List.mem_cons.mpr (.inl (List.mem_singleton.mp hnew)))
    · exact .inr (List.mem_cons_of_mem _ hlater)

private theorem popClosureUntil_covered {q : ClosureQueue} {popped : Popped}
    (hfirst : q.queue ≠ [] → 1 ≤ q.firstIndex)
    (hrun : q.popClosureUntil committedIndex ooEntries = some popped) {i : Int}
    (hi : i ∈ popped.outIndexes) : (1 ≤ i ∧ i ≤ committedIndex) ∨ i ∈ ooEntries := by
  unfold ClosureQueue.popClosureUntil at hrun
  split at hrun
  · cases hrun
    exact .inr hi
  · rename_i hopen
    split at hrun
    · cases hrun
      exact (List.not_mem_nil hi).elim
    · obtain ⟨mid, hpops, hrun⟩ := Option.bind_eq_some_iff.mp hrun
      obtain ⟨rest, -, hrun⟩ := Option.bind_eq_some_iff.mp hrun
      cases hrun
      have hpositive := hfirst fun hnil => hopen (.inl hnil)
      rcases mem_outIndexes hpops hi with hnone | hin
      · exact (List.not_mem_nil hnone).elim
      · rcases List.mem_append.mp hin with hrange | hlisted
        · obtain ⟨hlow, hhigh⟩ := mem_indexRange.mp hrange
          exact .inl ⟨hpositive.trans hlow, hhigh⟩
        · exact .inr hlisted

private theorem next_grown (iter : IteratorImpl) : grown (iter.next getEntry) = grown iter ∧
    ((iter.next getEntry).isGood = true → (iter.next getEntry).acturalIndex ∈ grown iter) := by
  rw [← grown_extend iter]
  unfold IteratorImpl.next
  dsimp only
  split
  · refine ⟨rfl, fun hgood => ?_⟩
    simp [IteratorImpl.isGood] at hgood
  · rename_i index hindex
    exact ⟨rfl, fun _ => List.mem_append_left _ (mem_of_item hindex)⟩

private theorem walk_covered {n : Nat} {iter last : IteratorImpl} {handed : List (Int × Option Nat)}
    (hrun : iter.walk getEntry n = some (handed, last))
    (hcurrent : iter.isGood = true → iter.acturalIndex ∈ grown iter) :
    ∀ item ∈ handed, item.1 ∈ grown iter := by
  induction n generalizing iter handed with
  | zero => cases hrun
  | succ n ih =>
    unfold IteratorImpl.walk at hrun
    split at hrun
    · rename_i hgood
      obtain ⟨done, -, hrun⟩ := Option.bind_eq_some_iff.mp hrun
      obtain ⟨⟨rest, end'⟩, hrest, hrun⟩ := Option.bind_eq_some_iff.mp hrun
      cases hrun
      obtain ⟨hsame, hnext⟩ := next_grown iter
      intro item hitem
      rcases List.mem_cons.mp hitem with rfl | hlater
      · exact hcurrent hgood
      · rw [← hsame]
        exact ih hrest (by rw [hsame]; exact hnext) item hlater
    · cases hrun
      exact fun item hitem => (List.not_mem_nil hitem).elim

/-- `do_committed` hands out indexes of its task only. -/
theorem doCommitted_covered {caller after : FsmCaller} {task : Committed}
    (hlast : 0 ≤ caller.lastAppliedIndex)
    (hfirst : caller.closures.queue ≠ [] → 1 ≤ caller.closures.firstIndex)
    (hrun : caller.doCommitted getEntry task = some after) :
    ∀ item ∈ after.handed.drop caller.handed.length,
      (1 ≤ item.1 ∧ item.1 ≤ task.committedIndex) ∨ item.1 ∈ task.ooCommittedEntries := by
  intro item hitem
  unfold FsmCaller.doCommitted at hrun
  split at hrun
  · cases hrun
    rw [List.drop_length] at hitem
    exact (List.not_mem_nil hitem).elim
  · split at hrun
    · cases hrun
      rw [List.drop_length] at hitem
      exact (List.not_mem_nil hitem).elim
    · obtain ⟨popped, hpopped, hrun⟩ := Option.bind_eq_some_iff.mp hrun
      obtain ⟨⟨handed, last⟩, hwalk, hrun⟩ := Option.bind_eq_some_iff.mp hrun
      obtain ⟨⟨queue, advance⟩, -, hrun⟩ := Option.bind_eq_some_iff.mp hrun
      cases hrun
      rw [List.drop_left] at hitem
      unfold IteratorImpl.start at hwalk
      obtain ⟨hsame, hnext⟩ := next_grown ⟨popped.out, task.committedIndex,
        caller.lastAppliedIndex, -1, 0, none, popped.outIndexes, false⟩
      have hin := walk_covered hwalk (by rw [hsame]; exact hnext) item hitem
      rw [hsame] at hin
      rcases List.mem_append.mp hin with hlisted | hsequential
      · exact popClosureUntil_covered hfirst hpopped hlisted
      · dsimp only at hsequential
        split at hsequential
        · obtain ⟨hlow, hhigh⟩ := mem_indexRange.mp hsequential
          exact .inl ⟨by omega, hhigh⟩
        · exact (List.not_mem_nil hsequential).elim

end Covered

end HitConsistency.Commit.StateMachineCaller
