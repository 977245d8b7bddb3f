/- GID: HitConsistency/Node/LeaderIndexes
   digest: The indexes of a leader's tasks in the log, the ballot box and the closure queue. -/

import HitConsistency.Commit.ApplyPipeline
import HitConsistency.Log.KeptEntries

set_option autoImplicit false
set_option relaxedAutoImplicit false

/-!
`apply` counts three times: the ballot box and the closure queue by position, the log
manager through `_last_log_index`, which moves on over entries that it holds above a
gap. The node may have received anything before it became leader.
-/

namespace HitConsistency.Node.LeaderIndexes

open HitConsistency.Base.GuardedRuns
open HitConsistency.Base.IndexedDeque
open HitConsistency.Commit.ApplyPipeline
open HitConsistency.Commit.PendingQueues
open HitConsistency.Group.Peers
open HitConsistency.Log.Entry
open HitConsistency.Log.KeptEntries
open HitConsistency.Log.MemoryLog

/-- A task of the user, with the mask of its dependencies and its closure. -/
structure UserTask where
  expectedTerm : Int
  dependency : BitVec 64
  data : List UInt8
  done : Option Nat

/-- Where the three components put an accepted task. -/
structure Placed where
  logIndex : Int
  ballotIndex : Int
  closureIndex : Int
  deriving DecidableEq

structure TaskNode where
  log : LogManager Unit
  box : BallotBox
  closures : ClosureQueue
  leading : Bool
  currentTerm : Int
  /-- The argument of the last `reset_pending_index`. -/
  first : Int
  /-- The tasks accepted since then. -/
  placed : List Placed

inductive Event
  | receive (entries : List LogEntry) (ooRep : Bool)
  | becomeLeader (currentTerm : Int)
  | apply (conf : Configuration) (oldConf : Option Configuration) (tasks : List UserTask)
  | commitAt (indexes : List Int) (peer : PeerId)
  | popClosures (committedIndex : Int) (ooCommittedEntries : List Int)
  | diskWrite
  | diskBatchEnd
  | applied (appliedId : LogId)
  | stepDown

namespace TaskNode

def new (dependencyLookBack : Int) : TaskNode where
  log := .fresh dependencyLookBack
  box := .new
  closures := .new
  leading := false
  currentTerm := 0
  first := 0
  placed := []

/-- The tasks that `apply` lets pass. -/
def accepted (s : TaskNode) (tasks : List UserTask) : List UserTask :=
  tasks.filter fun task => task.expectedTerm = -1 ∨ task.expectedTerm = s.currentTerm

/-- `append_pending_task`, which queues the ballot and the closure; the two indexes are
the positions they get. -/
def queueTask (conf : Configuration) (oldConf : Option Configuration)
    (queued : BallotBox × ClosureQueue × List (Int × Int)) (task : UserTask) :
    BallotBox × ClosureQueue × List (Int × Int) :=
  let (box, closures, indexes) := queued
  (box.appendPendingTask conf oldConf, closures.appendPendingClosure task.done,
    indexes ++ [(box.pendingIndex + box.pendingMetaQueue.length,
      closures.firstIndex + closures.queue.length)])

/-- The indexes of the batch that was queued last for the disk. -/
def givenIndexes (log : LogManager Unit) : List Int :=
  match log.diskQueue.getLast? with
  | some (.append closure) => closure.entries.map fun entry => entry.id.index
  | _ => []

/-- The loop of `NodeImpl::apply`, and the append of its entries. -/
def apply (s : TaskNode) (conf : Configuration) (oldConf : Option Configuration)
    (tasks : List UserTask) : Option TaskNode :=
  let tasks := s.accepted tasks
  let entries : List LogEntry := tasks.map fun task =>
    ⟨.data, ⟨0, s.currentTerm⟩, task.dependency, none, none, task.data⟩
  let (box, closures, indexes) := tasks.foldl (queueTask conf oldConf) (s.box, s.closures, [])
  (s.log.appendEntries entries () false).map fun result =>
    let given := if result.2 = none then givenIndexes result.1 else []
    { s with
      log := result.1
      box := box
      closures := closures
      placed := s.placed ++ List.zipWith (fun i place => ⟨i, place.1, place.2⟩) given indexes }

/-- A leader receives entries only behind `step_down`. -/
def step (s : TaskNode) : Event → Option TaskNode
  | .receive entries ooRep =>
      if s.leading then some s
      else (s.log.appendEntries entries () ooRep).map fun result => { s with log := result.1 }
  | .becomeLeader currentTerm =>
      if s.leading then some s
      else
        some { s with
          box := s.box.resetPendingIndex (s.log.lastLogIndex + 1)
          closures := s.closures.resetFirstIndex (s.log.lastLogIndex + 1)
          leading := true
          currentTerm := currentTerm
          first := s.log.lastLogIndex + 1
          placed := [] }
  | .apply conf oldConf tasks =>
      if s.leading then s.apply conf oldConf tasks else some s
  | .commitAt indexes peer =>
      (s.box.commitAt indexes peer).map fun outcome => { s with box := outcome.box }
  | .popClosures committedIndex ooCommittedEntries =>
      (s.closures.popClosureUntil committedIndex ooCommittedEntries).map fun popped =>
        { s with closures := popped.queue }
  | .diskWrite => some { s with log := (s.log.diskWrite.map Prod.fst).getD s.log }
  | .diskBatchEnd => some { s with log := s.log.diskBatchEnd }
  | .applied appliedId => some { s with log := s.log.setAppliedId appliedId }
  | .stepDown =>
      if s.leading then
        some { s with
          box := s.box.clearPendingTasks
          closures := s.closures.clear
          leading := false }
      else some s

/-- The `k`-th accepted task of a leadership has the `k`-th index in all three places. -/
def Agrees (s : TaskNode) : Prop :=
  ∀ (k : Nat) (placed : Placed), s.placed[k]? = some placed →
    placed.logIndex = s.first + k ∧ placed.ballotIndex = s.first + k ∧
      placed.closureIndex = s.first + k

end TaskNode

def Vacant (mem : Memory) (index : Int) : Prop :=
  ((item mem.logsInMemory (index - mem.firstInMemory)).join).isNone = true

instance vacantDecidable (mem : Memory) (index : Int) : Decidable (Vacant mem index) :=
  inferInstanceAs (Decidable (_ = _))

/-- A batch of tasks does not end right below an entry that the node holds already. -/
def EndsFree (s : TaskNode) : Event → Prop
  | .apply _ _ tasks => s.leading = true →
      Vacant s.log.toMemory (s.log.lastLogIndex + (s.accepted tasks).length + 1)
  | _ => True

instance endsFreeDecidable (s : TaskNode) : ∀ event, Decidable (EndsFree s event)
  | .apply _ _ _ => inferInstanceAs (Decidable (_ → _))
  | .receive _ _ | .becomeLeader _ | .commitAt _ _ | .popClosures _ _ | .diskWrite | .diskBatchEnd
  | .applied _ | .stepDown => inferInstanceAs (Decidable True)

section Memory

variable {mem mem' : Memory}

private theorem vacant_iff (mem : Memory) (index : Int) :
    Vacant mem index ↔
      ∀ entry, item mem.logsInMemory (index - mem.firstInMemory) ≠ some (some entry) := by
  unfold Vacant
  cases item mem.logsInMemory (index - mem.firstInMemory) with
  | none => simp
  | some slot => cases slot <;> simp

private theorem vacant_writeSlots {entries : List LogEntry} {index : Int}
    (hrun : runEvents Memory.writeSlot mem entries = some mem')
    (hother : ∀ entry ∈ entries, entry.id.index ≠ index) (h : Vacant mem index) :
    Vacant mem' index := by
  induction entries generalizing mem with
  | nil =>
    cases hrun
    exact h
  | cons entry rest ih =>
    obtain ⟨mid, hmid, hrest⟩ := runEvents_cons_eq_some.mp hrun
    obtain ⟨logs, hstore, hmid⟩ := Option.bind_eq_some_iff.mp hmid
    obtain ⟨bitmap, -, hmid⟩ := Option.bind_eq_some_iff.mp hmid
    cases hmid
    have hfirst : (⟨mem.maxLogIndex, bitmap, logs⟩ : Memory).firstInMemory = mem.firstInMemory := by
      simp [Memory.firstInMemory, store_length hstore]
    refine ih hrest (fun e he => hother e (by simp [he])) ?_
    rw [vacant_iff] at h ⊢
    intro e
    have hne := hother entry (by simp)
    rw [hfirst]
    show item logs _ ≠ _
    rw [item_store hstore, if_neg (by omega)]
    exact h e

private theorem vacant_fillTo {index : Int} (h : Vacant mem (index + 1)) :
    Vacant (mem.fillTo index) (index + 1) := by
  rcases le_or_gt index mem.maxLogIndex with hle | hgt
  · rwa [fillTo_of_le hle]
  · have hmax : (mem.fillTo index).maxLogIndex = index := by
      unfold Memory.fillTo
      rw [maxLogIndex_fill]
      omega
    rw [vacant_iff]
    intro entry hentry
    have hbounds := item_eq_some_bounds hentry
    unfold Memory.firstInMemory at hbounds
    omega

private theorem advanceLast_vacant {n : Nat} {last last' : Int}
    (hrun : mem.advanceLast n last = some last') (h : Vacant mem (last + 1)) : last' = last := by
  have hle := le_advanceLast hrun
  by_contra hne
  obtain ⟨entry, hentry⟩ := advanceLast_filled hrun (i := last + 1) (by omega) (by omega)
  exact (vacant_iff mem (last + 1)).mp h entry hentry

end Memory

section Append

variable {m m' : LogManager Unit}

def indexesFrom (first : Int) (count : Nat) : List Int :=
  (List.range count).map fun k : Nat => first + k

private theorem getElem?_indexesFrom {first : Int} {count k : Nat} {i : Int}
    (h : (indexesFrom first count)[k]? = some i) : i = first + k := by
  rw [indexesFrom, List.getElem?_map] at h
  obtain ⟨j, hj, rfl⟩ := Option.map_eq_some_iff.mp h
  obtain ⟨-, rfl⟩ := List.getElem?_eq_some_iff.mp hj
  simp

private theorem length_indexesFrom (first : Int) (count : Nat) :
    (indexesFrom first count).length = count := by
  simp [indexesFrom]

private theorem indexesFrom_succ (first : Int) (count : Nat) :
    indexesFrom first (count + 1) = first :: indexesFrom (first + 1) count := by
  simp only [indexesFrom, List.range_succ_eq_map, List.map_cons, List.map_map]
  congr 1
  · simp
  · apply List.map_congr_left
    intro k _
    simp only [Function.comp_apply, Nat.succ_eq_add_one]
    omega

private theorem indexes_assigned (last : Int) (entries : List LogEntry) :
    (LogManager.assignIndexes last entries).map (fun entry => entry.id.index) =
      indexesFrom (last + 1) entries.length := by
  induction entries generalizing last with
  | nil => rfl
  | cons entry rest ih =>
    rw [LogManager.assignIndexes, List.map_cons, ih, List.length_cons, indexesFrom_succ]

/-- The entries of a leader get the indexes behind the last one, and the last index moves
to the end of the batch, if it meets a vacant slot there. -/
private theorem append_indexes {entries : List LogEntry} {status : Option Status}
    (hnoError : m.hasError = false) (hzero : ∀ entry ∈ entries, entry.id.index = 0)
    (hfree : Vacant m.toMemory (m.lastLogIndex + entries.length + 1))
    (hrun : m.appendEntries entries () false = some (m', status)) :
    status = none ∧ TaskNode.givenIndexes m' = indexesFrom (m.lastLogIndex + 1) entries.length ∧
      m'.lastLogIndex = m.lastLogIndex + entries.length := by
  unfold LogManager.appendEntries at hrun
  rw [if_neg (by simp [hnoError])] at hrun
  cases entries with
  | nil =>
    cases hrun
    exact ⟨rfl, by simp [TaskNode.givenIndexes, LogManager.enqueue, indexesFrom],
      by simp [LogManager.enqueue, LogManager.addConfigurations]⟩
  | cons front rest =>
    obtain ⟨back, hback⟩ : ∃ back, (front :: rest).getLast? = some back :=
      ⟨_, List.getLast?_eq_getLast_of_ne_nil (by simp)⟩
    rw [hback] at hrun
    dsimp only [List.head?_cons] at hrun
    unfold LogManager.checkAndResolveConflict at hrun
    rw [if_pos (hzero front (by simp))] at hrun
    obtain ⟨m'', hstore, heq⟩ := Option.map_eq_some_iff.mp hrun
    cases heq
    have hindexes := indexes_assigned m.lastLogIndex (front :: rest)
    rcases LogManager.storeEntries_cases hstore with
      ⟨hnil, -⟩ | ⟨first, last, mem, end', hfirst, hlast, hwrite, hadvance, rfl⟩
    · cases hnil
    · refine ⟨rfl, ?_, ?_⟩
      · simp only [TaskNode.givenIndexes, List.getLast?_append, List.getLast?_singleton,
          Option.some_or]
        exact hindexes
      · -- The last entry has the last index of the batch.
        have hend : last.id.index = m.lastLogIndex + (front :: rest).length := by
          have hmap : ((LogManager.assignIndexes m.lastLogIndex (front :: rest)).map
              fun entry => entry.id.index).getLast? = some last.id.index := by
            rw [List.getLast?_map, hlast]
            rfl
          rw [hindexes, List.getLast?_eq_getElem?] at hmap
          have := getElem?_indexesFrom hmap
          rw [length_indexesFrom, List.length_cons] at this
          rw [List.length_cons]
          omega
        have hvacant : Vacant mem (m.lastLogIndex + (front :: rest).length + 1) := by
          refine vacant_writeSlots hwrite (fun entry hentry heq => ?_) ?_
          · have hmem : entry.id.index ∈
                indexesFrom (m.lastLogIndex + 1) (front :: rest).length := by
              rw [← hindexes]
              exact List.mem_map_of_mem hentry
            obtain ⟨k, hk, hval⟩ := List.mem_map.mp hmem
            have := List.mem_range.mp hk
            omega
          · rw [hend]
            exact vacant_fillTo hfree
        exact advanceLast_vacant hadvance hvacant

end Append

section Queues

private theorem queueTasks (conf : Configuration) (oldConf : Option Configuration)
    (tasks : List UserTask)
    (box : BallotBox) (closures : ClosureQueue) (indexes : List (Int × Int)) :
    ∃ box' closures', tasks.foldl (TaskNode.queueTask conf oldConf) (box, closures, indexes) =
        (box', closures', indexes ++
          (indexesFrom (box.pendingIndex + box.pendingMetaQueue.length) tasks.length).zip
            (indexesFrom (closures.firstIndex + closures.queue.length) tasks.length)) ∧
      box'.pendingIndex = box.pendingIndex ∧
      box'.pendingMetaQueue.length = box.pendingMetaQueue.length + tasks.length ∧
      closures'.firstIndex = closures.firstIndex ∧
      closures'.queue.length = closures.queue.length + tasks.length := by
  induction tasks generalizing box closures indexes with
  | nil => exact ⟨box, closures, by simp [indexesFrom], rfl, rfl, rfl, rfl⟩
  | cons task rest ih =>
    obtain ⟨box', closures', hrun, hpending, hballots, hfirst, hqueue⟩ :=
      ih (box.appendPendingTask conf oldConf) (closures.appendPendingClosure task.done)
        (indexes ++ [(box.pendingIndex + box.pendingMetaQueue.length,
          closures.firstIndex + closures.queue.length)])
    have hmeta : (box.appendPendingTask conf oldConf).pendingMetaQueue.length =
        box.pendingMetaQueue.length + 1 := by
      simp [BallotBox.appendPendingTask]
    have hclosures : (closures.appendPendingClosure task.done).queue.length =
        closures.queue.length + 1 := by
      simp [ClosureQueue.appendPendingClosure]
    refine ⟨box', closures', ?_, hpending, ?_, hfirst, ?_⟩
    · rw [List.foldl_cons]
      show rest.foldl _ _ = _
      rw [TaskNode.queueTask, hrun, hmeta, hclosures, List.length_cons, indexesFrom_succ,
        indexesFrom_succ, List.zip_cons_cons, List.append_assoc, List.singleton_append,
        Nat.cast_add, Nat.cast_add, ← Int.add_assoc, ← Int.add_assoc]
      rfl
    · rw [hballots, hmeta, List.length_cons]
      omega
    · rw [hqueue, hclosures, List.length_cons]
      omega

private theorem popOne_queue {popped popped' : Popped} {index : Int}
    (h : ClosureQueue.popOne popped index = some popped') :
    popped'.queue.firstIndex = popped.queue.firstIndex ∧
      popped'.queue.queue = popped.queue.queue := by
  obtain ⟨flag, -, h⟩ := Option.bind_eq_some_iff.mp h
  split at h
  · cases h
    exact ⟨rfl, rfl⟩
  · obtain ⟨closure, -, h⟩ := Option.bind_eq_some_iff.mp h
    obtain ⟨flags, -, h⟩ := Option.bind_eq_some_iff.mp h
    cases h
    exact ⟨rfl, rfl⟩

private theorem popLoop_queue {indexes : List Int} {popped popped' : Popped}
    (h : runEvents ClosureQueue.popOne popped indexes = some popped') :
    popped'.queue.firstIndex = popped.queue.firstIndex ∧
      popped'.queue.queue = popped.queue.queue := by
  induction indexes generalizing popped with
  | nil =>
    cases h
    exact ⟨rfl, rfl⟩
  | cons index rest ih =>
    obtain ⟨mid, hmid, hrest⟩ := runEvents_cons_eq_some.mp h
    obtain ⟨hfirst, hqueue⟩ := popOne_queue hmid
    obtain ⟨hfirst', hqueue'⟩ := ih hrest
    exact ⟨hfirst'.trans hfirst, hqueue'.trans hqueue⟩

private theorem popFront_end {firstIndex : Int} {queue : List (Option Nat)} {flags : List Bool}
    {q : ClosureQueue} (h : ClosureQueue.popFront firstIndex queue flags = some q) :
    q.firstIndex + q.queue.length = firstIndex + queue.length := by
  induction queue generalizing firstIndex flags with
  | nil =>
    rcases flags with - | ⟨- | -, flags⟩
    · cases h
      rfl
    · cases h
      rfl
    · cases h
  | cons closure queue ih =>
    rcases flags with - | ⟨- | -, flags⟩
    · cases h
      rfl
    · cases h
      rfl
    · have hend := ih h
      rw [hend, List.length_cons]
      omega

private theorem popClosureUntil_end {q : ClosureQueue} {toIndex : Int}
    {ooCommittedEntries : List Int}
    {popped : Popped} (h : q.popClosureUntil toIndex ooCommittedEntries = some popped) :
    popped.queue.firstIndex + popped.queue.queue.length = q.firstIndex + q.queue.length ∧
      (q.queue = [] → popped.queue = q) := by
  unfold ClosureQueue.popClosureUntil at h
  split_ifs at h with hempty hbeyond
  · cases h
    exact ⟨rfl, fun _ => rfl⟩
  · cases h
    exact ⟨rfl, fun _ => rfl⟩
  · obtain ⟨loop, hloop, h⟩ := Option.bind_eq_some_iff.mp h
    obtain ⟨rest, hrest, h⟩ := Option.bind_eq_some_iff.mp h
    cases h
    obtain ⟨hfirst, hqueue⟩ := popLoop_queue hloop
    refine ⟨?_, fun hnil => absurd (.inl hnil) hempty⟩
    rw [popFront_end hrest, hfirst, hqueue]

end Queues

section Runs

variable {s t : TaskNode}

structure Counts (s : TaskNode) (next : Int) : Prop where
  log : s.log.lastLogIndex + 1 = next
  ballots : s.box.pendingIndex + s.box.pendingMetaQueue.length = next
  closures : s.closures.firstIndex + s.closures.queue.length = next

structure Idle (s : TaskNode) : Prop where
  pendingIndex : s.box.pendingIndex = 0
  ballots : s.box.pendingMetaQueue = []
  closures : s.closures.queue = []

structure Aligned (s : TaskNode) : Prop where
  noError : s.log.hasError = false
  idle : s.leading = false → Idle s
  counts : s.leading = true → Counts s (s.first + s.placed.length)
  agrees : s.Agrees

theorem aligned_new (dependencyLookBack : Int) : Aligned (.new dependencyLookBack) := by
  refine ⟨rfl, fun _ => ⟨rfl, rfl, rfl⟩, ?_, ?_⟩
  · intro h
    cases h
  · intro k placed h
    cases h

theorem Aligned.receive {entries : List LogEntry} {ooRep : Bool} (h : Aligned s)
    (hstep : s.step (.receive entries ooRep) = some t) : Aligned t := by
  simp only [TaskNode.step] at hstep
  split at hstep
  · cases hstep
    exact h
  · rename_i hleading
    obtain ⟨result, hrun, heq⟩ := Option.map_eq_some_iff.mp hstep
    cases heq
    refine ⟨(LogManager.appendEntries_frame hrun).1.trans h.noError, ?_, ?_, h.agrees⟩
    · intro hidle
      exact ⟨(h.idle hidle).pendingIndex, (h.idle hidle).ballots, (h.idle hidle).closures⟩
    · intro hlead
      exact absurd hlead hleading

theorem Aligned.becomeLeader {currentTerm : Int} (h : Aligned s)
    (hstep : s.step (.becomeLeader currentTerm) = some t) : Aligned t := by
  simp only [TaskNode.step] at hstep
  split at hstep
  · cases hstep
    exact h
  · rename_i hleading
    cases hstep
    have hidle := h.idle (by simpa using hleading)
    refine ⟨h.noError, ?_, ?_, ?_⟩
    · intro hlead
      cases hlead
    · intro _
      refine ⟨?_, ?_, ?_⟩
      · simp
      · simp [BallotBox.resetPendingIndex, hidle.ballots]
      · simp [ClosureQueue.resetFirstIndex, hidle.closures]
    · intro k placed hk
      cases hk

def placedFrom (next : Int) (count : Nat) : List Placed :=
  (indexesFrom next count).map fun i => ⟨i, i, i⟩

private theorem zipWith_placed (next : Int) (count : Nat) :
    List.zipWith (fun i (place : Int × Int) => (⟨i, place.1, place.2⟩ : Placed))
        (indexesFrom next count) ((indexesFrom next count).zip (indexesFrom next count)) =
      placedFrom next count := by
  induction count generalizing next with
  | zero => rfl
  | succ count ih =>
    simp only [placedFrom, indexesFrom_succ, List.zip_cons_cons, List.zipWith_cons_cons,
      List.map_cons]
    rw [ih, placedFrom]

theorem Agrees.append (h : s.Agrees) {placed : List Placed} {count : Nat}
    (hplaced : placed = s.placed ++ placedFrom (s.first + s.placed.length) count) :
    { s with placed := placed }.Agrees := by
  subst hplaced
  intro k place hk
  rcases lt_or_ge k s.placed.length with hlt | hge
  · exact h k place ((List.getElem?_append_left hlt).symm.trans hk)
  · have hk := (List.getElem?_append_right hge).symm.trans hk
    obtain ⟨i, hi, rfl⟩ := Option.map_eq_some_iff.mp ((List.getElem?_map ..).symm.trans hk)
    have hval := getElem?_indexesFrom hi
    refine ⟨?_, ?_, ?_⟩
    all_goals
      show i = s.first + k
      omega

theorem Aligned.apply {conf : Configuration} {oldConf : Option Configuration}
    {tasks : List UserTask} (h : Aligned s) (hguard : EndsFree s (.apply conf oldConf tasks))
    (hstep : s.step (.apply conf oldConf tasks) = some t) : Aligned t := by
  simp only [TaskNode.step] at hstep
  split at hstep
  · rename_i hleading
    have hcounts := h.counts hleading
    obtain ⟨box, closures, hfold, hpending, hballots, hfirst, hqueue⟩ :=
      queueTasks conf oldConf (s.accepted tasks) s.box s.closures []
    unfold TaskNode.apply at hstep
    simp only [hfold, List.nil_append] at hstep
    obtain ⟨⟨log, status⟩, hrun, heq⟩ := Option.map_eq_some_iff.mp hstep
    cases heq
    have hfree := hguard hleading
    obtain ⟨rfl, hgiven, hlast⟩ := append_indexes h.noError
      (by simp) (by simpa using hfree) hrun
    rw [List.length_map] at hgiven hlast
    have hlog := hcounts.log
    have hbox := hcounts.ballots
    have hclosures := hcounts.closures
    -- The three lists of indexes are one, so the batch is placed in one piece.
    have hplaced : s.placed ++ List.zipWith
        (fun i (place : Int × Int) => (⟨i, place.1, place.2⟩ : Placed))
        (TaskNode.givenIndexes log)
        ((indexesFrom (s.box.pendingIndex + s.box.pendingMetaQueue.length)
          (s.accepted tasks).length).zip
        (indexesFrom (s.closures.firstIndex + s.closures.queue.length)
          (s.accepted tasks).length)) =
          s.placed ++ placedFrom (s.first + s.placed.length) (s.accepted tasks).length := by
      rw [hgiven, hlog, hbox, hclosures, zipWith_placed]
    simp only [if_true]
    rw [hplaced]
    have hlength : (s.placed ++ placedFrom (s.first + s.placed.length)
        (s.accepted tasks).length).length = s.placed.length + (s.accepted tasks).length := by
      simp [placedFrom, length_indexesFrom]
    refine ⟨(LogManager.appendEntries_frame hrun).1.trans h.noError, ?_, ?_, ?_⟩
    · intro hidle
      cases hleading.symm.trans hidle
    · intro _
      refine ⟨?_, ?_, ?_⟩
      · show log.lastLogIndex + 1 = s.first + _
        rw [hlength]
        omega
      · show box.pendingIndex + box.pendingMetaQueue.length = s.first + _
        rw [hlength]
        omega
      · show closures.firstIndex + closures.queue.length = s.first + _
        rw [hlength]
        omega
    · exact Agrees.append h.agrees rfl
  · cases hstep
    exact h

theorem Aligned.commitAt {indexes : List Int} {peer : PeerId} (h : Aligned s)
    (hstep : s.step (.commitAt indexes peer) = some t) : Aligned t := by
  obtain ⟨outcome, hrun, rfl⟩ := Option.map_eq_some_iff.mp hstep
  obtain ⟨k, hballots, -, hpending, -⟩ := commitAt_shift hrun
  refine ⟨h.noError, ?_, ?_, h.agrees⟩
  · intro hfollower
    have hidle := h.idle hfollower
    have hrefused : outcome = ⟨.einval, s.box, none⟩ := by
      rw [BallotBox.commitAt, if_pos hidle.pendingIndex] at hrun
      exact (Option.some.inj hrun).symm
    subst hrefused
    exact ⟨hidle.pendingIndex, hidle.ballots, hidle.closures⟩
  · intro hleading
    have hcounts := h.counts hleading
    refine ⟨hcounts.log, ?_, hcounts.closures⟩
    have hbox := hcounts.ballots
    show outcome.box.pendingIndex + outcome.box.pendingMetaQueue.length = _
    dsimp only
    omega

private theorem Aligned.popClosures {committedIndex : Int} {ooCommittedEntries : List Int}
    (h : Aligned s)
    (hstep : s.step (.popClosures committedIndex ooCommittedEntries) = some t) : Aligned t := by
  obtain ⟨popped, hrun, rfl⟩ := Option.map_eq_some_iff.mp hstep
  obtain ⟨hend, hempty⟩ := popClosureUntil_end hrun
  refine ⟨h.noError, ?_, ?_, h.agrees⟩
  · intro hfollower
    have hidle := h.idle hfollower
    refine ⟨hidle.pendingIndex, hidle.ballots, ?_⟩
    show popped.queue.queue = []
    rw [hempty hidle.closures, hidle.closures]
  · intro hleading
    have hcounts := h.counts hleading
    exact ⟨hcounts.log, hcounts.ballots, hend.trans hcounts.closures⟩

theorem Aligned.stepDown (h : Aligned s) (hstep : s.step .stepDown = some t) : Aligned t := by
  simp only [TaskNode.step] at hstep
  split at hstep
  · cases hstep
    refine ⟨h.noError, fun _ => ⟨rfl, rfl, rfl⟩, ?_, h.agrees⟩
    intro hleading
    cases hleading
  · cases hstep
    exact h

theorem Aligned.ofLog {log : LogManager Unit} (h : Aligned s)
    (herror : log.hasError = s.log.hasError) (hlast : log.lastLogIndex = s.log.lastLogIndex) :
    Aligned { s with log := log } := by
  refine ⟨herror.trans h.noError, ?_, ?_, h.agrees⟩
  · intro hidle
    exact ⟨(h.idle hidle).pendingIndex, (h.idle hidle).ballots, (h.idle hidle).closures⟩
  · intro hleading
    have hcounts := h.counts hleading
    refine ⟨?_, hcounts.ballots, hcounts.closures⟩
    show log.lastLogIndex + 1 = _
    rw [hlast]
    exact hcounts.log

private theorem diskWrite_last (m : LogManager Unit) :
    ((m.diskWrite.map Prod.fst).getD m).hasError = m.hasError ∧
      ((m.diskWrite.map Prod.fst).getD m).lastLogIndex = m.lastLogIndex := by
  unfold LogManager.diskWrite
  split
  · exact ⟨rfl, rfl⟩
  · dsimp only
    split <;> exact ⟨rfl, rfl⟩
  · exact ⟨rfl, rfl⟩
  · exact ⟨rfl, rfl⟩

private theorem setDiskId_last (m : LogManager Unit) (diskId : LogId) :
    (m.setDiskId diskId).hasError = m.hasError ∧
      (m.setDiskId diskId).lastLogIndex = m.lastLogIndex := by
  unfold LogManager.setDiskId
  split <;> exact ⟨rfl, rfl⟩

private theorem setAppliedId_last (m : LogManager Unit) (appliedId : LogId) :
    (m.setAppliedId appliedId).hasError = m.hasError ∧
      (m.setAppliedId appliedId).lastLogIndex = m.lastLogIndex := by
  unfold LogManager.setAppliedId
  split <;> exact ⟨rfl, rfl⟩

theorem aligned_step (s : TaskNode) (event : Event) (t : TaskNode) (h : Aligned s)
    (hguard : EndsFree s event) (hstep : s.step event = some t) : Aligned t := by
  cases event with
  | receive entries ooRep => exact h.receive hstep
  | becomeLeader currentTerm => exact h.becomeLeader hstep
  | apply conf oldConf tasks => exact h.apply hguard hstep
  | commitAt indexes peer => exact h.commitAt hstep
  | popClosures committedIndex ooCommittedEntries => exact h.popClosures hstep
  | diskWrite =>
    cases hstep
    exact h.ofLog (diskWrite_last s.log).1 (diskWrite_last s.log).2
  | diskBatchEnd =>
    cases hstep
    exact h.ofLog (setDiskId_last s.log s.log.lastId).1 (setDiskId_last s.log s.log.lastId).2
  | applied appliedId =>
    cases hstep
    exact h.ofLog (setAppliedId_last s.log appliedId).1 (setAppliedId_last s.log appliedId).2
  | stepDown => exact h.stepDown hstep

/-- While no batch of a leader's tasks ends right below an entry that the node holds, its
log, its ballots and its closures agree on the index of every task. -/
theorem indexes_agree (dependencyLookBack : Int) (events : List Event) (s : TaskNode)
    (hguard : Guarded TaskNode.step EndsFree (.new dependencyLookBack) events)
    (hrun : runEvents TaskNode.step (.new dependencyLookBack) events = some s) : s.Agrees :=
  (invariant_of_step aligned_step (aligned_new dependencyLookBack) hguard hrun).agrees

/-- The node got index 3 before index 2, and leads with index 1 as its last. -/
private def behindGap : List Event :=
  [.receive [⟨.data, ⟨1, 1⟩, 0, none, none, []⟩] true,
    .receive [⟨.data, ⟨3, 1⟩, 0, none, none, []⟩] true, .becomeLeader 2]

private def userTask : UserTask := ⟨-1, 0, [], none⟩

/-- Two tasks in one call go over the entry. -/
private def overEntry : List Event := behindGap ++ [.apply .three none [userTask, userTask]]

theorem overEntry_indexes_agree :
    Guarded TaskNode.step EndsFree (.new 16) overEntry ∧
      ∃ s, runEvents TaskNode.step (.new 16) overEntry = some s ∧
        s.placed = [⟨2, 2, 2⟩, ⟨3, 3, 3⟩] ∧ s.Agrees := by
  have hguard : Guarded TaskNode.step EndsFree (.new 16) overEntry := by decide +kernel
  obtain ⟨s, hrun⟩ : ∃ s, runEvents TaskNode.step (.new 16) overEntry = some s :=
    Option.isSome_iff_exists.mp (by decide +kernel)
  have hplaced : (runEvents TaskNode.step (.new 16) overEntry).map TaskNode.placed =
      some [⟨2, 2, 2⟩, ⟨3, 3, 3⟩] := by
    decide +kernel
  rw [hrun] at hplaced
  exact ⟨hguard, s, hrun, Option.some.inj hplaced, indexes_agree 16 overEntry s hguard hrun⟩

/-- The same two tasks in two calls: the log moves on over the entry between them. -/
private def belowEntry : List Event :=
  behindGap ++ [.apply .three none [userTask], .apply .three none [userTask]]

theorem belowEntry_indexes_disagree :
    ∃ s, runEvents TaskNode.step (.new 16) belowEntry = some s ∧
      s.placed = [⟨2, 2, 2⟩, ⟨4, 3, 3⟩] ∧ ¬ s.Agrees := by
  obtain ⟨s, hrun⟩ : ∃ s, runEvents TaskNode.step (.new 16) belowEntry = some s :=
    Option.isSome_iff_exists.mp (by decide +kernel)
  have hplaced : (runEvents TaskNode.step (.new 16) belowEntry).map
      (fun s => (s.first, s.placed)) = some (2, [⟨2, 2, 2⟩, ⟨4, 3, 3⟩]) := by
    decide +kernel
  rw [hrun] at hplaced
  obtain ⟨hfirst, hplaced⟩ := Prod.mk.inj (Option.some.inj hplaced)
  refine ⟨s, hrun, hplaced, fun h => ?_⟩
  have hsecond := (h 1 ⟨4, 3, 3⟩ (by rw [hplaced]; rfl)).1
  rw [hfirst] at hsecond
  exact absurd hsecond (by decide)

end Runs

end HitConsistency.Node.LeaderIndexes
