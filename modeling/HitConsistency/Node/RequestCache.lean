/- GID: HitConsistency/Node/RequestCache
   digest: When the two containers of the request cache hold the same requests and lose none. -/

import HitConsistency.Base.GuardedRuns
import HitConsistency.Node.AppendHandler
import Mathlib.Data.List.Sort

set_option autoImplicit false
set_option relaxedAutoImplicit false

/-!
A request leaves the cache for a thread that hands it to the handler. Where no thread can
be started, its call is failed instead. Requests are compared as values: what is said
about a request is said about each of its copies.
-/

namespace HitConsistency.Node.RequestCache

open HitConsistency.Base.GuardedRuns
open HitConsistency.Node.AppendHandler

/-- The cache, the requests stored so far, and those that have left it: to the handler, or
to `ack_fail`. -/
structure CacheHistory extends AppendEntriesCache where
  stored : List AppendEntriesRpc
  handled : List AppendEntriesRpc
  failed : List AppendEntriesRpc

/-- The flags tell whether the timer and the thread can be started. -/
inductive Event
  | store (rpc : AppendEntriesRpc) (timerStarts bthreadStarts : Bool)
  | processRunableRpcs (dependencyBitmap : BitVec 1024) (lastLogIndex : Int) (bthreadStarts : Bool)
  | clear (bthreadStarts : Bool)

namespace CacheHistory

def new : CacheHistory := ⟨.new, [], [], []⟩

def startToHandle (s : CacheHistory) (rpcs : List AppendEntriesRpc) (bthreadStarts : Bool) :
    CacheHistory :=
  if bthreadStarts then { s with handled := s.handled ++ rpcs }
  else { s with failed := s.failed ++ rpcs }

def store (s : CacheHistory) (maxSize : Nat) (rpc : AppendEntriesRpc)
    (timerStarts bthreadStarts : Bool) : CacheHistory :=
  let (cache, rpcs) := s.toAppendEntriesCache.store maxSize timerStarts rpc
  { s with toAppendEntriesCache := cache, stored := s.stored ++ [rpc] }.startToHandle rpcs
    bthreadStarts

def processRunableRpcs (s : CacheHistory) (dependencyBitmap : BitVec 1024) (lastLogIndex : Int)
    (bthreadStarts : Bool) : CacheHistory :=
  let (cache, rpcs) := s.toAppendEntriesCache.processRunableRpcs dependencyBitmap lastLogIndex
  { s with toAppendEntriesCache := cache }.startToHandle rpcs bthreadStarts

def clear (s : CacheHistory) (bthreadStarts : Bool) : CacheHistory :=
  { s with toAppendEntriesCache := .new }.startToHandle s.rpcQueue bthreadStarts

def step (maxSize : Nat) (s : CacheHistory) : Event → Option CacheHistory
  | .store rpc timerStarts bthreadStarts => some (s.store maxSize rpc timerStarts bthreadStarts)
  | .processRunableRpcs dependencyBitmap lastLogIndex bthreadStarts =>
      some (s.processRunableRpcs dependencyBitmap lastLogIndex bthreadStarts)
  | .clear bthreadStarts => some (s.clear bthreadStarts)

end CacheHistory

open CacheHistory

/-- Both containers hold the same requests, no more than the limit, and these are the
stored ones that have not left. -/
structure Kept (maxSize : Nat) (s : CacheHistory) : Prop where
  same : s.rpcMap.Perm s.rpcQueue
  bounded : s.rpcMap.length ≤ maxSize
  once : (s.handled ++ s.failed ++ s.rpcQueue).Perm s.stored

/-- The cache keeps its requests behind every call of the run. -/
def RequestsKept (maxSize : Nat) (events : List Event) : Prop :=
  ∀ pre post s, events = pre ++ post →
    runEvents (CacheHistory.step maxSize) .new pre = some s → Kept maxSize s

/-- No request in the map has the key of the one that is stored. -/
def NewKey (s : CacheHistory) (rpc : AppendEntriesRpc) : Prop :=
  ∀ other ∈ s.rpcMap, other.request.prevLogIndex ≠ rpc.request.prevLogIndex

instance newKeyDecidable (s : CacheHistory) (rpc : AppendEntriesRpc) : Decidable (NewKey s rpc) :=
  inferInstanceAs (Decidable (∀ other ∈ s.rpcMap, _))

/-- A store under a key that is taken empties the cache at once: the map has one request,
so the timer is started again, and it does not start. -/
def EmptiesAtOnce (s : CacheHistory) (timerStarts : Bool) : Prop :=
  s.rpcMap.length = 1 ∧ timerStarts = false

instance emptiesAtOnceDecidable (s : CacheHistory) (timerStarts : Bool) :
    Decidable (EmptiesAtOnce s timerStarts) :=
  inferInstanceAs (Decidable (_ ∧ _))

def FindsPlace (s : CacheHistory) : Event → Prop
  | .store rpc timerStarts _ => NewKey s rpc ∨ EmptiesAtOnce s timerStarts
  | _ => True

instance findsPlaceDecidable (s : CacheHistory) : (event : Event) → Decidable (FindsPlace s event)
  | .store _ _ _ => inferInstanceAs (Decidable (_ ∨ _))
  | .processRunableRpcs _ _ _ => inferInstanceAs (Decidable True)
  | .clear _ => inferInstanceAs (Decidable True)

/-- `std::map` keeps its keys in order. -/
def KeysAscend (rpcMap : List AppendEntriesRpc) : Prop :=
  rpcMap.Pairwise fun a b => a.request.prevLogIndex < b.request.prevLogIndex

variable {maxSize : Nat} {s : CacheHistory} {rpc : AppendEntriesRpc}

private theorem insert_perm {rpcMap : List AppendEntriesRpc}
    (hnew : ∀ other ∈ rpcMap, other.request.prevLogIndex ≠ rpc.request.prevLogIndex) :
    (AppendEntriesCache.insert rpc rpcMap).Perm (rpcMap ++ [rpc]) := by
  induction rpcMap with
  | nil => exact .refl _
  | cons head rest ih =>
    rw [AppendEntriesCache.insert,
      if_neg (c := rpc.request.prevLogIndex = _) (hnew head (by simp)).symm]
    split_ifs with hlt
    · exact (List.perm_append_singleton _ _).symm
    · exact (ih fun other hother => hnew other (List.mem_cons_of_mem _ hother)).cons head

private theorem insert_of_taken {rpcMap : List AppendEntriesRpc} (hascend : KeysAscend rpcMap)
    (htaken : ∃ other ∈ rpcMap, other.request.prevLogIndex = rpc.request.prevLogIndex) :
    AppendEntriesCache.insert rpc rpcMap = rpcMap := by
  induction rpcMap with
  | nil =>
    obtain ⟨other, hother, -⟩ := htaken
    cases hother
  | cons head rest ih =>
    obtain ⟨hhead, hrest⟩ := List.pairwise_cons.mp hascend
    obtain ⟨other, hother, hkey⟩ := htaken
    rw [AppendEntriesCache.insert]
    rcases List.mem_cons.mp hother with rfl | hother
    · rw [if_neg (by omega), if_pos hkey.symm]
    · have hlt := hhead other hother
      rw [if_neg (by omega), if_neg (by omega), ih hrest ⟨other, hother, hkey⟩]

theorem KeysAscend.insert {rpcMap : List AppendEntriesRpc} (hascend : KeysAscend rpcMap) :
    KeysAscend (AppendEntriesCache.insert rpc rpcMap) := by
  induction rpcMap with
  | nil => exact List.pairwise_singleton _ _
  | cons head rest ih =>
    obtain ⟨hhead, hrest⟩ := List.pairwise_cons.mp hascend
    rw [AppendEntriesCache.insert]
    split_ifs with hlt heq
    · refine List.pairwise_cons.mpr ⟨fun other hother => ?_, hascend⟩
      rcases List.mem_cons.mp hother with rfl | hother
      · exact hlt
      · exact hlt.trans (hhead other hother)
    · exact hascend
    · refine List.pairwise_cons.mpr ⟨fun other hother => ?_, ih hrest⟩
      rcases AppendEntriesCache.mem_insert hother with rfl | hother
      · omega
      · exact hhead other hother

private theorem append_diff_left (out rest : List AppendEntriesRpc) :
    (out ++ rest).diff out = rest := by
  induction out with
  | nil => rfl
  | cons head out ih => rw [List.cons_append, List.diff_cons, List.erase_cons_head, ih]

private theorem diff_perm {queue out rest : List AppendEntriesRpc}
    (hperm : (out ++ rest).Perm queue) :
    (queue.diff out).Perm rest := by
  rw [← append_diff_left out rest]
  exact hperm.symm.diff_right out

namespace Kept

theorem start (maxSize : Nat) : Kept maxSize .new := ⟨.nil, Nat.zero_le _, .nil⟩

private theorem release (s : CacheHistory) (rpcs rest : List AppendEntriesRpc)
    (hsame : (rpcs ++ rest).Perm s.rpcQueue) (hbounded : rest.length ≤ maxSize)
    (honce : (s.handled ++ s.failed ++ s.rpcQueue).Perm s.stored) (bthreadStarts : Bool) :
    Kept maxSize ({ s with toAppendEntriesCache := ⟨rest, s.rpcQueue.diff rpcs⟩ }.startToHandle rpcs
      bthreadStarts) := by
  have hrest := diff_perm hsame
  have hall : (s.handled ++ s.failed ++ (rpcs ++ s.rpcQueue.diff rpcs)).Perm s.stored :=
    ((hrest.append_left rpcs).trans hsame).append_left _ |>.trans honce
  cases bthreadStarts with
  | true =>
    refine ⟨hrest.symm, hbounded, .trans ?_ hall⟩
    simp only [CacheHistory.startToHandle, if_true, List.append_assoc]
    refine .append_left _ ?_
    rw [← List.append_assoc, ← List.append_assoc]
    exact List.perm_append_comm.append_right _
  | false =>
    refine ⟨hrest.symm, hbounded, .trans ?_ hall⟩
    simp [CacheHistory.startToHandle]

theorem clear (h : Kept maxSize s) (bthreadStarts : Bool) :
    Kept maxSize (s.clear bthreadStarts) := by
  have hdiff : s.rpcQueue.diff s.rpcQueue = [] := by
    simpa using append_diff_left s.rpcQueue []
  have := release s s.rpcQueue [] (by rw [List.append_nil]) (Nat.zero_le maxSize) h.once
    bthreadStarts
  rwa [hdiff] at this

theorem processRunableRpcs (h : Kept maxSize s) (dependencyBitmap : BitVec 1024)
    (lastLogIndex : Int) (bthreadStarts : Bool) :
    Kept maxSize (s.processRunableRpcs dependencyBitmap lastLogIndex bthreadStarts) := by
  rw [CacheHistory.processRunableRpcs, AppendEntriesCache.processRunableRpcs]
  split_ifs with hempty
  · have hqueue : s.rpcQueue.diff [] = s.rpcQueue := List.diff_nil _
    have := release s [] s.rpcMap h.same h.bounded h.once bthreadStarts
    rwa [hqueue] at this
  · refine release s _ _ ?_ ((List.length_filter_le _ _).trans h.bounded) h.once bthreadStarts
    exact (List.filter_append_perm _ _).trans h.same

private theorem once_stored (h : Kept maxSize s) (rpc : AppendEntriesRpc) :
    (s.handled ++ s.failed ++ (s.rpcQueue ++ [rpc])).Perm (s.stored ++ [rpc]) := by
  rw [← List.append_assoc]
  exact h.once.append_right [rpc]

private theorem store_emptied (h : Kept maxSize s) {timerStarts : Bool}
    (htimer : (AppendEntriesCache.insert rpc s.rpcMap).length = 1 ∧ !timerStarts)
    (bthreadStarts : Bool) : Kept maxSize (s.store maxSize rpc timerStarts bthreadStarts) := by
  let joined : CacheHistory :=
    { s with rpcQueue := s.rpcQueue ++ [rpc], stored := s.stored ++ [rpc] }
  have hdiff : joined.rpcQueue.diff joined.rpcQueue = [] := by
    simpa using append_diff_left joined.rpcQueue []
  have := release joined _ [] (by rw [List.append_nil]) (Nat.zero_le maxSize)
    (h.once_stored rpc) bthreadStarts
  rw [CacheHistory.store, AppendEntriesCache.store]
  dsimp only
  rw [if_pos htimer]
  rwa [hdiff] at this

/-- A request under a new key joins both containers; those at the back of the map that are
too many leave them. -/
private theorem store_newKey (h : Kept maxSize s) (hnew : NewKey s rpc)
    (timerStarts bthreadStarts : Bool) :
    Kept maxSize (s.store maxSize rpc timerStarts bthreadStarts) := by
  by_cases htimer : (AppendEntriesCache.insert rpc s.rpcMap).length = 1 ∧ !timerStarts
  · exact h.store_emptied htimer bthreadStarts
  · let joined : CacheHistory :=
      { s with rpcQueue := s.rpcQueue ++ [rpc], stored := s.stored ++ [rpc] }
    have hsame : (AppendEntriesCache.insert rpc s.rpcMap).Perm joined.rpcQueue :=
      (insert_perm hnew).trans (h.same.append_right [rpc])
    rw [CacheHistory.store, AppendEntriesCache.store]
    dsimp only
    rw [if_neg htimer]
    refine release joined _ _ ?_ (List.length_take_le _ _) (h.once_stored rpc) bthreadStarts
    refine .trans ?_ hsame
    refine ((List.reverse_perm _).append_right _).trans (List.perm_append_comm.trans ?_)
    rw [List.take_append_drop]

end Kept

private theorem exists_of_not_newKey (htaken : ¬ NewKey s rpc) :
    ∃ other ∈ s.rpcMap, other.request.prevLogIndex = rpc.request.prevLogIndex := by
  simpa [NewKey] using htaken

/-- A store under a key that is taken does not reach the map, unless the cache is emptied
at once. -/
private theorem store_taken (h : Kept maxSize s) (hascend : KeysAscend s.rpcMap)
    (htaken : ¬ NewKey s rpc)
    (timerStarts bthreadStarts : Bool) :
    Kept maxSize (s.store maxSize rpc timerStarts bthreadStarts) ↔ EmptiesAtOnce s timerStarts := by
  have hmap := insert_of_taken hascend (exists_of_not_newKey htaken)
  constructor
  · intro hkept
    by_contra hstays
    have htimer : ¬ (s.rpcMap.length = 1 ∧ !timerStarts) := by simpa [EmptiesAtOnce] using hstays
    have hnone : (s.rpcMap.drop maxSize).reverse = [] := by
      rw [List.drop_eq_nil_of_le h.bounded, List.reverse_nil]
    have hall : s.rpcMap.take maxSize = s.rpcMap := List.take_of_length_le h.bounded
    have hlength := hkept.same.length_eq
    have hbefore := h.same.length_eq
    rw [CacheHistory.store, AppendEntriesCache.store] at hlength
    dsimp only at hlength
    rw [hmap, if_neg htimer, hnone, hall] at hlength
    cases bthreadStarts <;> simp [CacheHistory.startToHandle] at hlength <;> omega
  · intro hempties
    apply h.store_emptied
    rw [hmap]
    simpa [EmptiesAtOnce] using hempties

private theorem keysAscend_step {t : CacheHistory} {event : Event} (hascend : KeysAscend s.rpcMap)
    (hstep : s.step maxSize event = some t) : KeysAscend t.rpcMap := by
  have hmap : ∀ (u : CacheHistory) rpcs bthreadStarts,
      (u.startToHandle rpcs bthreadStarts).rpcMap = u.rpcMap := by
    rintro u rpcs (- | -) <;> rfl
  cases event with
  | store rpc timerStarts bthreadStarts =>
    cases hstep
    rw [CacheHistory.store, hmap, AppendEntriesCache.store]
    dsimp only
    split_ifs with htimer
    · exact .nil
    · exact hascend.insert.sublist (List.take_sublist _ _)
  | processRunableRpcs dependencyBitmap lastLogIndex bthreadStarts =>
    cases hstep
    rw [CacheHistory.processRunableRpcs, hmap, AppendEntriesCache.processRunableRpcs]
    split_ifs with hempty
    · exact hascend
    · exact hascend.sublist List.filter_sublist
  | clear bthreadStarts =>
    cases hstep
    rw [CacheHistory.clear, hmap]
    exact .nil

private theorem kept_step_iff {t : CacheHistory} {event : Event} (h : Kept maxSize s)
    (hascend : KeysAscend s.rpcMap) (hstep : s.step maxSize event = some t) :
    Kept maxSize t ↔ FindsPlace s event := by
  cases event with
  | store rpc timerStarts bthreadStarts =>
    cases hstep
    by_cases hnew : NewKey s rpc
    · exact iff_of_true (h.store_newKey hnew timerStarts bthreadStarts) (.inl hnew)
    · rw [store_taken h hascend hnew, FindsPlace, or_iff_right hnew]
  | processRunableRpcs dependencyBitmap lastLogIndex bthreadStarts =>
    cases hstep
    exact iff_of_true (h.processRunableRpcs _ _ _) trivial
  | clear bthreadStarts =>
    cases hstep
    exact iff_of_true (h.clear bthreadStarts) trivial

private theorem guarded_iff_requestsKept (maxSize : Nat) (events : List Event) :
    Guarded (CacheHistory.step maxSize) FindsPlace .new events ↔ RequestsKept maxSize events := by
  have keep : ∀ (s : CacheHistory) (event : Event) (t : CacheHistory), KeysAscend s.rpcMap →
      s.step maxSize event = some t → KeysAscend t.rpcMap :=
    fun s event t hs hstep => keysAscend_step hs hstep
  have exact : ∀ (s : CacheHistory) (event : Event), KeysAscend s.rpcMap → Kept maxSize s →
      (FindsPlace s event ↔ ∀ t, s.step maxSize event = some t → Kept maxSize t) := by
    intro s event hascend h
    obtain ⟨t, ht⟩ : ∃ t, s.step maxSize event = some t := by cases event <;> exact ⟨_, rfl⟩
    rw [← kept_step_iff h hascend ht]
    refine ⟨fun hkept u hu => ?_, fun hall => hall t ht⟩
    cases ht.symm.trans hu
    exact hkept
  have hstart : KeysAscend CacheHistory.new.rpcMap := .nil
  exact guarded_iff_passes_good keep exact hstart (.start maxSize)

/-- No request is lost or doubled exactly in the runs in which no request is stored under a
key that is taken, unless the cache is emptied at once. -/
theorem requestsKept_iff (maxSize : Nat) (events : List Event) :
    RequestsKept maxSize events ↔
      Guarded (CacheHistory.step maxSize) FindsPlace .new events :=
  (guarded_iff_requestsKept maxSize events).symm

/-- Entry 3 of the leader, which depends on entry 2. -/
private def third (call : Nat) : AppendEntriesRpc :=
  ⟨call, ⟨⟨1, 8000, 0⟩, ⟨2, 8001, 0⟩, 1, 1, 2, [⟨1, .data, none, none, 1, []⟩], 0, [], 1⟩⟩

/-- The leader sends entry 3 again while it is cached. -/
theorem not_requestsKept_resent :
    ¬ RequestsKept 8 [.store (third 0) true true, .store (third 1) true true] := by
  intro hkept
  have hguard := (guarded_iff_requestsKept 8 _).mpr hkept
  revert hguard
  decide

end HitConsistency.Node.RequestCache
