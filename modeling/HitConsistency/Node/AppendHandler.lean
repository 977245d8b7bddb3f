/- GID: HitConsistency/Node/AppendHandler
   digest: A follower at AppendEntries: the request handler, the request cache, the stable closure. -/

import HitConsistency.Log.MemoryLog
import HitConsistency.Node.RoleState

set_option autoImplicit false
set_option relaxedAutoImplicit false

/-!
A request is handled under the node's mutex, also when it comes back from the cache.
The closure of a batch runs some time after the disk thread has written it, or, for a
batch that was not accepted, some time after the call. What a closure passes on to
the ballot box is left out here; it comes back to the log as `set_applied_id`.
-/

namespace HitConsistency.Node.AppendHandler

open HitConsistency.Group.Peers
open HitConsistency.Log.Entry
open HitConsistency.Log.MemoryLog
open HitConsistency.Node.RoleState

structure Flags where
  ooEnabled : Bool
  cacheEnabled : Bool
  raftMaxAppendEntriesCacheSize : Nat
  deriving DecidableEq

/-- A request together with the call that waits for its response. -/
structure AppendEntriesRpc where
  call : Nat
  request : AppendEntriesRequest
  deriving DecidableEq

namespace AppendEntriesRpc

def firstIndex (rpc : AppendEntriesRpc) : Int := rpc.request.prevLogIndex + 1

def lastIndex (rpc : AppendEntriesRpc) : Int :=
  rpc.request.prevLogIndex + rpc.request.entries.length

end AppendEntriesRpc

/-- `_rpc_map`, in key order, and `_rpc_queue`, in order of arrival. A request whose
key is taken stays in the queue only. -/
structure AppendEntriesCache where
  rpcMap : List AppendEntriesRpc
  rpcQueue : List AppendEntriesRpc

namespace AppendEntriesCache

def new : AppendEntriesCache := ⟨[], []⟩

/-- `std::map::insert` under `prev_log_index`. -/
def insert (rpc : AppendEntriesRpc) : List AppendEntriesRpc → List AppendEntriesRpc
  | [] => [rpc]
  | head :: rest =>
      if rpc.request.prevLogIndex < head.request.prevLogIndex then rpc :: head :: rest
      else if rpc.request.prevLogIndex = head.request.prevLogIndex then head :: rest
      else head :: insert rpc rest

theorem mem_insert {rpc other : AppendEntriesRpc} {rpcMap : List AppendEntriesRpc}
    (hmem : other ∈ insert rpc rpcMap) : other = rpc ∨ other ∈ rpcMap := by
  induction rpcMap with
  | nil => exact .inl (by simpa [insert] using hmem)
  | cons head rest ih =>
    rw [insert] at hmem
    split_ifs at hmem with hlt heq
    · exact List.mem_cons.mp hmem
    · exact .inr hmem
    · rcases List.mem_cons.mp hmem with rfl | hmem
      · exact .inr (by simp)
      · exact (ih hmem).imp_right (List.mem_cons_of_mem _)

/-- The cache behind a store, and the requests that are handed to the handler. A
timer that does not start empties the cache. -/
def store (cache : AppendEntriesCache) (maxSize : Nat) (timerStarts : Bool)
    (rpc : AppendEntriesRpc) : AppendEntriesCache × List AppendEntriesRpc :=
  let rpcQueue := cache.rpcQueue ++ [rpc]
  let rpcMap := insert rpc cache.rpcMap
  if rpcMap.length = 1 ∧ !timerStarts then (new, rpcQueue)
  else
    let evicted := (rpcMap.drop maxSize).reverse
    (⟨rpcMap.take maxSize, rpcQueue.diff evicted⟩, evicted)

/-- Whether the bits below the given top cover the dependencies of a request. -/
def runable (dependencyBitmap : BitVec 1024) (lastLogIndex : Int) (rpc : AppendEntriesRpc) : Bool :=
  let rpcDependency : BitVec 1024 := rpc.request.dependency.setWidth 1024
  let gap := lastLogIndex - rpc.lastIndex
  if 0 < gap then (dependencyBitmap >>> gap.toNat) &&& rpcDependency = rpcDependency
  else (dependencyBitmap <<< (-gap).toNat) &&& rpcDependency = rpcDependency

def processRunableRpcs (cache : AppendEntriesCache) (dependencyBitmap : BitVec 1024)
    (lastLogIndex : Int) : AppendEntriesCache × List AppendEntriesRpc :=
  if cache.rpcMap.isEmpty ∨ cache.rpcQueue.isEmpty then (cache, [])
  else
    let ready := cache.rpcMap.filter (runable dependencyBitmap lastLogIndex)
    (⟨cache.rpcMap.filter fun rpc => !runable dependencyBitmap lastLogIndex rpc,
      cache.rpcQueue.diff ready⟩, ready)

end AppendEntriesCache

/-- The closure that answers a request; the term is the one it was accepted in. -/
structure FollowerStableClosure where
  rpc : AppendEntriesRpc
  term : Int

structure Follower extends Role where
  conf : ConfigurationEntry
  log : LogManager FollowerStableClosure
  appendEntriesCache : AppendEntriesCache
  /-- Requests on their way from the cache back to the handler. -/
  fromCache : List AppendEntriesRpc
  /-- Closures that are due to run. -/
  stable : List (FollowerStableClosure × Status)
  /-- Responses sent, with their calls. -/
  replies : List (Nat × AppendEntriesResponse)

namespace Follower

def reply (f : Follower) (rpc : AppendEntriesRpc) (response : AppendEntriesResponse) : Follower :=
  { f with replies := f.replies ++ [(rpc.call, response)] }

/-- A request is kept only when it starts behind the local log and is not empty. -/
def handleOutOfOrderAppendEntries (flags : Flags) (timerStarts : Bool) (f : Follower)
    (rpc : AppendEntriesRpc) : Option Follower :=
  if rpc.request.prevLogIndex ≤ f.log.lastLogIndex ∨ rpc.request.entries = [] then none
  else
    let (cache, evicted) :=
      f.appendEntriesCache.store flags.raftMaxAppendEntriesCacheSize timerStarts rpc
    some { f with appendEntriesCache := cache, fromCache := f.fromCache ++ evicted }

def checkAppendEntriesCache (f : Follower) (dependencyBitmap : BitVec 1024)
    (lastLogIndex : Int) : Follower :=
  let (cache, ready) := f.appendEntriesCache.processRunableRpcs dependencyBitmap lastLogIndex
  { f with appendEntriesCache := cache, fromCache := f.fromCache ++ ready }

def checkAndSetConfiguration (f : Follower) : Follower :=
  if f.conf.id ≠ f.log.configManager.lastConfiguration.id then
    { f with conf := f.log.configManager.lastConfiguration }
  else f

/-- The entries of a request with the indexes their positions imply. -/
def parseEntries : Int → List EntryMeta → List LogEntry
  | _, [] => []
  | index, entry :: rest =>
      if entry.type ≠ .unknown then
        ⟨entry.type, ⟨index + 1, entry.term⟩, entry.dependency, entry.peers,
          if entry.peers.isSome then entry.oldPeers else none, entry.data⟩ ::
            parseEntries (index + 1) rest
      else parseEntries (index + 1) rest

/-- `append_entries` of the log manager. A batch that is not accepted leaves its
closure to run with the status it got. -/
def append (flags : Flags) (f : Follower) (rpc : AppendEntriesRpc) : Option Follower :=
  let entries := parseEntries rpc.request.prevLogIndex rpc.request.entries
  let closure : FollowerStableClosure := ⟨rpc, f.currentTerm⟩
  (f.log.appendEntries entries closure flags.ooEnabled).map fun (log, status) =>
    { f with
      log := log
      stable := f.stable ++ (status.map fun status => (closure, status)).toList }

/-- Whether the request has to wait for entries before it. -/
def mustWait (flags : Flags) (f : Follower) (rpc : AppendEntriesRpc) : Option Bool :=
  (f.log.unsafeGetTerm rpc.request.prevLogIndex).map fun localPrevLogTerm =>
    (localPrevLogTerm ≠ rpc.request.prevLogTerm ∧ !flags.ooEnabled) ∨
      !f.log.checkDependency rpc.lastIndex rpc.request.dependency

def handleEntries (flags : Flags) (timerStarts fromAppendEntriesCache : Bool) (f : Follower)
    (rpc : AppendEntriesRpc) : Option Follower := do
  let wait ← f.mustWait flags rpc
  if wait then
    let cached :=
      if flags.cacheEnabled ∧ !fromAppendEntriesCache then
        f.handleOutOfOrderAppendEntries flags timerStarts rpc
      else none
    some (cached.getD (f.reply rpc ⟨f.currentTerm, false, f.log.lastLogIndex⟩))
  else if rpc.request.entries = [] then
    some (f.reply rpc ⟨f.currentTerm, true, f.log.lastLogIndex⟩)
  else
    let f ← f.append flags rpc
    let f :=
      if flags.cacheEnabled then
        f.checkAppendEntriesCache f.log.dependencyBitmap f.log.maxLogIndex
      else f
    some f.checkAndSetConfiguration

def handleAppendEntriesRequest (flags : Flags) (timerStarts fromAppendEntriesCache : Bool)
    (f : Follower) (rpc : AppendEntriesRpc) : Option Follower :=
  if rpc.request.term < f.currentTerm then some (f.reply rpc ⟨f.currentTerm, false, 0⟩)
  else
    let f := { f with toRole := f.checkStepDown rpc.request.term rpc.request.serverId }
    if rpc.request.serverId ≠ f.leaderId then
      -- Both leaders of the term are made to step down.
      some ({ f with toRole := f.stepDown (rpc.request.term + 1) }.reply rpc
        ⟨rpc.request.term + 1, false, 0⟩)
    else f.handleEntries flags timerStarts fromAppendEntriesCache rpc

/-- `FollowerStableClosure::run`. A closure with an error fails its call, and there is
no response; in a new term the response is a failure. -/
def runStableClosure (f : Follower) (closure : FollowerStableClosure) (status : Status)
    (dependencyBitmap : BitVec 1024) (lastLogIndex : Int) : Follower :=
  if status ≠ .ok then f
  else if closure.term ≠ f.currentTerm then f.reply closure.rpc ⟨f.currentTerm, false, 0⟩
  else
    (f.checkAppendEntriesCache dependencyBitmap lastLogIndex).reply closure.rpc
      ⟨closure.term, true, f.log.lastLogIndex⟩

/-- What can happen at a follower next. Cached requests and closures are picked by
position, since they run on threads of their own. A closure reads the bitmap and the
largest index without the mutex, so both are whatever it saw. -/
inductive Event
  | deliver (rpc : AppendEntriesRpc) (timerStarts : Bool)
  | handleCached (position : Nat)
  | failCached (position : Nat)
  | diskWrite
  | diskBatchEnd
  | runClosure (position : Nat) (dependencyBitmap : BitVec 1024) (lastLogIndex : Int)
  | applied (lastIndex : Int)

/-- The disk thread writes one batch; its closure is due from then on. -/
def diskStep (f : Follower) : Follower :=
  match f.log.diskWrite with
  | some (log, .append closure, status) =>
      { f with log := log, stable := f.stable ++ [(closure.done, status)] }
  | some (log, _, _) => { f with log := log }
  | none => f

def step (flags : Flags) (f : Follower) : Event → Option Follower
  | .deliver rpc timerStarts => f.handleAppendEntriesRequest flags timerStarts false rpc
  | .handleCached position =>
      match f.fromCache[position]? with
      | some rpc =>
          { f with fromCache := f.fromCache.eraseIdx position }.handleAppendEntriesRequest
            flags true true rpc
      | none => some f
  | .failCached position => some { f with fromCache := f.fromCache.eraseIdx position }
  | .diskWrite => some f.diskStep
  | .diskBatchEnd => some { f with log := f.log.diskBatchEnd }
  | .runClosure position dependencyBitmap lastLogIndex =>
      match f.stable[position]? with
      | some (closure, status) =>
          some ({ f with stable := f.stable.eraseIdx position }.runStableClosure closure status
            dependencyBitmap lastLogIndex)
      | none => some f
  | .applied lastIndex =>
      (f.log.unsafeGetTerm lastIndex).map fun lastTerm =>
        { f with log := f.log.setAppliedId ⟨lastIndex, lastTerm⟩ }

end Follower

end HitConsistency.Node.AppendHandler
