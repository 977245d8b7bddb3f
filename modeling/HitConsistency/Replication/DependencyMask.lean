/- GID: HitConsistency/Replication/DependencyMask
   digest: The leader's dependency masks: bit k points at the same identifier k entries before. -/

import HitConsistency.Base.IndexedDeque
import HitConsistency.Log.MemoryLog

set_option autoImplicit false
set_option relaxedAutoImplicit false

namespace HitConsistency.Replication.DependencyMask

open HitConsistency.Base.IndexedDeque
open HitConsistency.Log.Entry
open HitConsistency.Log.MemoryLog

/-- A task of a client; an expected term of -1 asks for no check. -/
structure Task where
  data : List UInt8
  dependencyId : Int
  expectedTerm : Int
  deriving DecidableEq

/-- The loop over the queue: every identifier shifts the mask by one. -/
def scanQueue (queue : List Int) (dependencyId : Int) : BitVec 64 :=
  queue.foldl (fun mask it => (if it = dependencyId then mask ||| 1 else mask) <<< 1) 0

/-- `_dependency_id_queue` before the scan: one identifier leaves when it is too long. -/
def shorten (lookBack : Nat) (queue : List Int) : List Int :=
  if lookBack < queue.length then queue.tail else queue

/-- The mask of the next entry, and the queue behind it. -/
def checkDependency (lookBack : Nat) (queue : List Int) (dependencyId : Int) :
    BitVec 64 × List Int :=
  (scanQueue (shorten lookBack queue) dependencyId, shorten lookBack queue ++ [dependencyId])

/-- The entries `apply` makes of its tasks, not yet numbered, and the queue behind them. -/
def apply (currentTerm : Int) (lookBack : Nat) : List Int → List Task → List LogEntry × List Int
  | queue, [] => ([], queue)
  | queue, task :: tasks =>
      if task.expectedTerm ≠ -1 ∧ task.expectedTerm ≠ currentTerm then
        apply currentTerm lookBack queue tasks
      else
        let (dependency, queue) := checkDependency lookBack queue task.dependencyId
        let (entries, queue) := apply currentTerm lookBack queue tasks
        (⟨.data, ⟨0, currentTerm⟩, dependency, none, none, task.data⟩ :: entries, queue)

/-- The log of a leader that started from an empty one. -/
def leaderLog (currentTerm : Int) (lookBack : Nat) (tasks : List Task) : List LogEntry :=
  LogManager.assignIndexes 0 (apply currentTerm lookBack [] tasks).1

/-- The identifiers of the tasks that became entries, from index 1 on. -/
def dependencyIds (currentTerm : Int) (tasks : List Task) : List Int :=
  (tasks.filter fun task => task.expectedTerm = -1 ∨ task.expectedTerm = currentTerm).map
    Task.dependencyId

private theorem scanQueue_snoc (queue : List Int) (it dependencyId : Int) :
    scanQueue (queue ++ [it]) dependencyId =
      (if it = dependencyId then scanQueue queue dependencyId ||| 1
        else scanQueue queue dependencyId) <<< 1 := by
  simp [scanQueue]

theorem checkDependency_bit_zero (lookBack : Nat) (queue : List Int) (dependencyId : Int) :
    (checkDependency lookBack queue dependencyId).1.getLsbD 0 = false := by
  show (scanQueue (shorten lookBack queue) dependencyId).getLsbD 0 = false
  induction shorten lookBack queue using List.reverseRecOn with
  | nil => simp [scanQueue]
  | append_singleton queue it _ =>
    rw [scanQueue_snoc]
    simp

private theorem scanQueue_bit (queue : List Int) (dependencyId : Int) (hlen : queue.length ≤ 63)
    (k : Nat) :
    (scanQueue queue dependencyId).getLsbD k = true ↔
      1 ≤ k ∧ k ≤ queue.length ∧ queue[queue.length - k]? = some dependencyId := by
  induction queue using List.reverseRecOn generalizing k with
  | nil =>
    simp only [scanQueue, List.foldl_nil, List.length_nil]
    constructor
    · intro h
      simp at h
    · intro h
      omega
  | append_singleton queue it ih =>
    rw [List.length_append, List.length_singleton] at hlen
    have hbit := ih (by omega)
    have hzero : (scanQueue queue dependencyId).getLsbD 0 = false := by
      rw [Bool.eq_false_iff]
      intro h
      have := ((hbit 0).mp h).1
      omega
    rw [scanQueue_snoc, List.length_append, List.length_singleton]
    rcases k with _ | k
    · simp
    · have hshift : ∀ mask : BitVec 64, (mask <<< 1).getLsbD (k + 1) =
          (decide (k + 1 < 64) && mask.getLsbD k) := by
        intro mask
        simp [BitVec.getLsbD_shiftLeft]
      rw [hshift, show queue.length + 1 - (k + 1) = queue.length - k by omega]
      rcases Nat.eq_zero_or_pos k with rfl | hk
      · by_cases hit : it = dependencyId
        · simp [hit]
        · rw [if_neg hit, hzero]
          simp [hit]
      · have hone : (1 : BitVec 64).getLsbD k = false := by
          simp [BitVec.getLsbD_one, show ¬ k = 0 by omega]
        have hmask : (if it = dependencyId then scanQueue queue dependencyId ||| 1
            else scanQueue queue dependencyId).getLsbD k =
              (scanQueue queue dependencyId).getLsbD k := by
          split
          · rw [BitVec.getLsbD_or, hone, Bool.or_false]
          · rfl
        rw [hmask, Bool.and_eq_true, decide_eq_true_eq, hbit k]
        constructor
        · rintro ⟨-, -, hle, hget⟩
          refine ⟨by omega, by omega, ?_⟩
          rwa [List.getElem?_append_left (by omega)]
        · rintro ⟨-, hle, hget⟩
          rw [List.getElem?_append_left (by omega)] at hget
          exact ⟨by omega, hk, by omega, hget⟩

/-- The queue behind `ids` keeps their last identifiers. -/
def lastIds (lookBack : Nat) (ids : List Int) : List Int := ids.drop (ids.length - (lookBack + 1))

private theorem shorten_lastIds (lookBack : Nat) (ids : List Int) :
    shorten lookBack (lastIds lookBack ids) = ids.drop (ids.length - lookBack) := by
  unfold shorten lastIds
  rw [List.length_drop]
  split
  · rw [List.tail_drop]
    congr 1
    omega
  · congr 1
    omega

theorem checkDependency_queue (lookBack : Nat) (ids : List Int) (dependencyId : Int) :
    (checkDependency lookBack (lastIds lookBack ids) dependencyId).2 =
      lastIds lookBack (ids ++ [dependencyId]) := by
  show shorten lookBack (lastIds lookBack ids) ++ [dependencyId] = _
  rw [shorten_lastIds, lastIds, List.length_append, List.length_singleton,
    show ids.length + 1 - (lookBack + 1) = ids.length - lookBack by omega,
    List.drop_append_of_le_length (by omega)]

/-- Behind the identifiers `ids`, bit `k` of the next mask is set exactly when the
`k`-th identifier from the end is the same and lies within the look-back. -/
theorem checkDependency_bit {lookBack : Nat} (hlook : lookBack ≤ 63) (ids : List Int)
    (dependencyId : Int) (k : Nat) :
    (checkDependency lookBack (lastIds lookBack ids) dependencyId).1.getLsbD k = true ↔
      1 ≤ k ∧ k ≤ lookBack ∧ k ≤ ids.length ∧ ids[ids.length - k]? = some dependencyId := by
  show (scanQueue (shorten lookBack (lastIds lookBack ids)) dependencyId).getLsbD k = true ↔ _
  rw [shorten_lastIds, scanQueue_bit _ _ (by rw [List.length_drop]; omega), List.length_drop,
    List.getElem?_drop]
  constructor
  · rintro ⟨hk, hle, hget⟩
    refine ⟨hk, by omega, by omega, ?_⟩
    rwa [show ids.length - lookBack + (ids.length - (ids.length - lookBack) - k) =
      ids.length - k by omega] at hget
  · rintro ⟨hk, hback, hle, hget⟩
    refine ⟨hk, by omega, ?_⟩
    rwa [show ids.length - lookBack + (ids.length - (ids.length - lookBack) - k) =
      ids.length - k by omega]

/-- The masks of a sequence of identifiers, each taken behind the ones before. -/
def masks (lookBack : Nat) : List Int → List Int → List (BitVec 64)
  | _, [] => []
  | queue, dependencyId :: ids =>
      let (mask, queue) := checkDependency lookBack queue dependencyId
      mask :: masks lookBack queue ids

private theorem masks_get (lookBack : Nat) (before ids : List Int) {n : Nat} {dependencyId : Int}
    (h : ids[n]? = some dependencyId) :
    (masks lookBack (lastIds lookBack before) ids)[n]? = some (checkDependency lookBack
      (lastIds lookBack (before ++ ids.take n)) dependencyId).1 := by
  induction ids generalizing before n with
  | nil => cases h
  | cons first ids ih =>
    cases n with
    | zero =>
      cases h
      simp [masks]
    | succ n =>
      have htail := ih (before ++ [first]) (by simpa using h)
      rw [List.append_assoc, List.singleton_append, ← List.take_succ_cons,
        ← checkDependency_queue] at htail
      exact htail

/-- Bit `k` of the mask of the `n`-th identifier is set exactly when the `n - k`-th one is
the same and lies within the look-back. -/
theorem masks_exact (lookBack : Nat) (hlook : lookBack ≤ 63) (ids : List Int) (n : Nat)
    (hn : 1 ≤ n ∧ n ≤ ids.length) :
    ∃ mask, (masks lookBack [] ids)[n - 1]? = some mask ∧
      ∀ k ≤ 63, mask.getLsbD k = true ↔
        (1 ≤ k ∧ k ≤ min lookBack (n - 1)) ∧ ids[n - k - 1]? = ids[n - 1]? := by
  have hget : ids[n - 1]? = some ids[n - 1] := List.getElem?_eq_getElem (by omega)
  have hnil : lastIds lookBack [] = [] := List.drop_nil
  have hmask := masks_get lookBack [] ids hget
  rw [hnil, List.nil_append] at hmask
  refine ⟨_, hmask, fun k hk => ?_⟩
  have hlength : (ids.take (n - 1)).length = n - 1 := List.length_take_of_le (by omega)
  rw [checkDependency_bit hlook, hlength, hget]
  constructor
  · rintro ⟨hpos, hback, hle, hsame⟩
    rw [List.getElem?_take_of_lt (by omega)] at hsame
    refine ⟨⟨hpos, by omega⟩, ?_⟩
    rw [show n - k - 1 = n - 1 - k by omega]
    exact hsame
  · rintro ⟨⟨hpos, hle⟩, hsame⟩
    rw [show n - k - 1 = n - 1 - k by omega] at hsame
    refine ⟨hpos, by omega, by omega, ?_⟩
    rw [List.getElem?_take_of_lt (by omega)]
    exact hsame

/-- With the default look-back the sign bit is reached: the first and the last of 64
identifiers are the same, and no other one is. -/
theorem masks_exact_sign_bit :
    ∃ mask, (masks 63 [] ((List.range 63).map Int.ofNat ++ [0]))[63]? = some mask ∧
      ∀ k ≤ 63, mask.getLsbD k = true ↔ (1 ≤ k ∧ k ≤ min 63 63) ∧
        ((List.range 63).map Int.ofNat ++ [0])[64 - k - 1]? =
          ((List.range 63).map Int.ofNat ++ [0])[63]? :=
  masks_exact 63 le_rfl _ 64 (by decide)

example : (masks 63 [] ((List.range 63).map Int.ofNat ++ [0]))[63]? = some (1#64 <<< 63) := by
  decide +kernel

private theorem apply_entry {currentTerm : Int} {lookBack : Nat} (ids : List Int)
    (tasks : List Task)
    {n : Nat} {entry : LogEntry}
    (h : (apply currentTerm lookBack (lastIds lookBack ids) tasks).1[n]? = some entry) :
    (entry.type = .data ∧ entry.peers = none ∧ entry.oldPeers = none) ∧
      entry.id = ⟨0, currentTerm⟩ ∧ ∃ dependencyId, 
        (dependencyIds currentTerm tasks)[n]? = some dependencyId ∧
        entry.dependency = (checkDependency lookBack
          (lastIds lookBack (ids ++ (dependencyIds currentTerm tasks).take n)) dependencyId).1 := by
  induction tasks generalizing ids n with
  | nil => simp [apply] at h
  | cons task tasks ih =>
    by_cases hskip : task.expectedTerm ≠ -1 ∧ task.expectedTerm ≠ currentTerm
    · have hids : dependencyIds currentTerm (task :: tasks) = dependencyIds currentTerm tasks := by
        simp [dependencyIds, hskip.1, hskip.2]
      rw [hids]
      rw [apply, if_pos hskip] at h
      exact ih ids h
    · have hkeep : task.expectedTerm = -1 ∨ task.expectedTerm = currentTerm := by
        by_contra hno
        exact hskip (not_or.mp hno)
      have hids : dependencyIds currentTerm (task :: tasks) =
          task.dependencyId :: dependencyIds currentTerm tasks := by
        simp [dependencyIds, hkeep]
      rw [hids]
      rw [apply, if_neg hskip] at h
      cases n with
      | zero =>
        cases h
        refine ⟨⟨rfl, rfl, rfl⟩, rfl, task.dependencyId, rfl, ?_⟩
        rw [List.take_zero, List.append_nil]
        rfl
      | succ n =>
        have htail : (apply currentTerm lookBack
            (lastIds lookBack (ids ++ [task.dependencyId])) tasks).1[n]? = some entry := by
          rw [← checkDependency_queue]
          exact h
        obtain ⟨htype, hid, dependencyId, hget, hmask⟩ := ih _ htail
        refine ⟨htype, hid, dependencyId, hget, ?_⟩
        rw [hmask, List.take_succ_cons, List.append_assoc]
        rfl

private theorem assignIndexes_get (last : Int) (entries : List LogEntry) {n : Nat}
    {entry : LogEntry} (h : (LogManager.assignIndexes last entries)[n]? = some entry) :
    ∃ raw, entries[n]? = some raw ∧ entry = { raw with id := ⟨last + n + 1, raw.id.term⟩ } := by
  induction entries generalizing last n with
  | nil => simp [LogManager.assignIndexes] at h
  | cons raw rest ih =>
    cases n with
    | zero =>
      cases h
      exact ⟨raw, rfl, by simp⟩
    | succ n =>
      obtain ⟨raw', hget, he⟩ := ih (last + 1) h
      refine ⟨raw', hget, ?_⟩
      have hindex : last + 1 + (n : Int) + 1 = last + ((n + 1 : Nat) : Int) + 1 := by omega
      rw [he, hindex]

theorem leaderLog_entry {currentTerm : Int} {lookBack : Nat} (hlook : lookBack ≤ 63)
    (tasks : List Task) {i : Int} {entry : LogEntry}
    (h : item (leaderLog currentTerm lookBack tasks) (i - 1) = some entry) :
    (entry.type = .data ∧ entry.peers = none ∧ entry.oldPeers = none) ∧
      entry.id = ⟨i, currentTerm⟩ ∧
      ∀ k : Nat, entry.dependency.getLsbD k = true ↔
        1 ≤ k ∧ k ≤ lookBack ∧ k < i ∧
          item (dependencyIds currentTerm tasks) (i - k - 1) =
            item (dependencyIds currentTerm tasks) (i - 1) := by
  have hpos : 0 ≤ i - 1 := (item_eq_some_bounds h).1
  rw [item, if_pos hpos] at h
  obtain ⟨raw, hraw, rfl⟩ := assignIndexes_get 0 _ h
  have hnil : lastIds lookBack [] = [] := List.drop_nil
  rw [← hnil] at hraw
  obtain ⟨htype, hid, dependencyId, hget, hmask⟩ := apply_entry [] tasks hraw
  have hindex : (0 : Int) + (i - 1).toNat + 1 = i := by omega
  refine ⟨htype, by rw [hid, hindex], fun k => ?_⟩
  have hlen := (List.getElem?_eq_some_iff.mp hget).1
  have htake : ((dependencyIds currentTerm tasks).take (i - 1).toNat).length = (i - 1).toNat := by
    rw [List.length_take]
    omega
  show raw.dependency.getLsbD k = true ↔ _
  rw [hmask, List.nil_append, checkDependency_bit hlook, htake, item, item, if_pos hpos, hget]
  constructor
  · rintro ⟨hk, hback, hle, hsame⟩
    rw [List.getElem?_take_of_lt (by omega)] at hsame
    refine ⟨hk, hback, by omega, ?_⟩
    rw [if_pos (by omega), show (i - k - 1).toNat = (i - 1).toNat - k by omega, hsame]
  · rintro ⟨hk, hback, hlt, hsame⟩
    rw [if_pos (by omega), show (i - k - 1).toNat = (i - 1).toNat - k by omega] at hsame
    refine ⟨hk, hback, by omega, ?_⟩
    rw [List.getElem?_take_of_lt (by omega), hsame]

end HitConsistency.Replication.DependencyMask
