/- GID: HitConsistency/Application/OutOfOrderServer
   digest: Writes applied out of order leave the file that their log order would leave. -/

import HitConsistency.Application.BlockFile
import HitConsistency.Commit.OrderedDelivery

set_option autoImplicit false
set_option relaxedAutoImplicit false

/-!
The state machine of the server on top of one leadership. A task has the offset of its
request as dependency, so writes at one offset keep their order as far as the masks
reach, and every other write may be overtaken.
-/

namespace HitConsistency.Application.OutOfOrderServer

open HitConsistency.Application.BlockFile
open HitConsistency.Application.FileTransfers
open HitConsistency.Base.CommutingRuns
open HitConsistency.Base.GuardedRuns
open HitConsistency.Base.IndexedDeque
open HitConsistency.Base.SparseFile
open HitConsistency.Base.SuppliedOrder
open HitConsistency.Commit.ApplyPipeline
open HitConsistency.Commit.LeaderApply (CaughtUp)
open HitConsistency.Commit.OrderedDelivery hiding Event
open HitConsistency.Log.Entry
open HitConsistency.Replication.DependencyMask
open HitConsistency.Replication.PeerSender (mem_indexRange indexRange_ascending)
open HitConsistency.Replication.PeerSender.Replicator (indexRange)

/-- What stays the same over a run: the term, how far masks look back, and the calls that
`file_pwrite` makes for the entry at an index. -/
structure Setting where
  codec : RequestCodec
  currentTerm : Int
  lookBack : Nat
  disk : Int → List Call

structure Server where
  proposer : Proposer
  /-- The requests in the order of their entries. A task has the position of its own. -/
  closures : List StateMachineClosure
  file : List UInt8

inductive Event
  | write (closure : StateMachineClosure) (ballot : Commit.QuorumLedger.Task)
  | commitAt (ack : Acknowledgement)
  | load (position : Nat)
  | onCommitted (position : Nat)
  | run (count : Nat)

namespace Server

def start (earlier : List LogEntry) (dependencyIdQueue : List Int)
    (lastCommittedIndex lastAppliedIndex : Int) (ooApplyQueue : List Bool) (file : List UInt8) :
    Server :=
  ⟨.start earlier dependencyIdQueue lastCommittedIndex lastAppliedIndex ooApplyQueue, [], file⟩

/-- What the iterator shows of an index; it ends in front of a missing entry. -/
def entry (s : Server) (given : Int × Option Nat) : Entry :=
  ⟨((s.proposer.leader.getEntry given.1).map LogEntry.data).getD [],
    given.2.bind (s.closures[·]?)⟩

/-- The batch goes through `on_apply`. A rollback has no result here. -/
def run (setting : Setting) (s : Server) (count : Nat) : Option Server := do
  let proposer ← s.proposer.step setting.currentTerm setting.lookBack (.run count)
  let given := proposer.leader.caller.handed.drop s.proposer.leader.caller.handed.length
  let (file, all) ← onApply setting.codec s.file
    (given.map fun index => (s.entry index, setting.disk index.1))
  if all then some { s with proposer := proposer, file := file } else none

def step (setting : Setting) (s : Server) : Event → Option Server
  | .write closure ballot =>
      match logData setting.codec closure with
      | none => some s
      | some log =>
          (s.proposer.step setting.currentTerm setting.lookBack
            (.apply ⟨log, closure.request.offset.toInt, -1⟩ (some s.closures.length) ballot)).map
              fun proposer => { s with proposer := proposer, closures := s.closures ++ [closure] }
  | .commitAt ack =>
      (s.proposer.step setting.currentTerm setting.lookBack (.commitAt ack)).map
        fun proposer => { s with proposer := proposer }
  | .load position =>
      (s.proposer.step setting.currentTerm setting.lookBack (.load position)).map
        fun proposer => { s with proposer := proposer }
  | .onCommitted position =>
      (s.proposer.step setting.currentTerm setting.lookBack (.onCommitted position)).map
        fun proposer => { s with proposer := proposer }
  | .run count => s.run setting count

def first (s : Server) : Int := s.proposer.leader.ledger.first

def request (s : Server) (index : Int) : Option StateMachineClosure :=
  item s.closures (index - s.first)

/-- The requests that the state machine got so far, in the order of the log. -/
def executed (s : Server) : List StateMachineClosure :=
  ((indexRange s.first (s.first + s.closures.length - 1)).filter
    (· ∈ s.proposer.delivered)).filterMap s.request

/-- A write that overlaps an earlier one comes at most the look-back behind a write at its
own offset, and this one is the earlier write or overlaps it. -/
def Tracked (lookBack : Nat) (s : Server) (closure : StateMachineClosure) : Prop :=
  ∀ j < s.closures.length, ∀ other ∈ s.closures[j]?, closure.asWrite.Overlaps other.asWrite →
    ∃ k < s.closures.length, j ≤ k ∧ s.closures.length ≤ k + lookBack ∧
      ∃ latest ∈ s.closures[k]?, latest.request.offset = closure.request.offset ∧
        (k = j ∨ latest.asWrite.Overlaps other.asWrite)

/-- The calls for the entry of the next request move all its bytes. -/
def Writable (disk : Int → List Call) (s : Server) (closure : StateMachineClosure) : Prop :=
  0 ≤ closure.asWrite.offset ∧ closure.data.length ≤ moved (disk (s.first + s.closures.length))

/-- The condition on one step: writes that overlap are tracked, the disk takes them, and
the quorums and the calls of `on_committed` come in order. -/
def Orderly (setting : Setting) (s : Server) : Event → Prop
  | .write closure _ => s.Tracked setting.lookBack closure ∧ s.Writable setting.disk closure
  | .commitAt ack => s.proposer.Ordered (.commitAt ack)
  | .load position => s.proposer.Ordered (.load position)
  | .onCommitted position => s.proposer.Ordered (.onCommitted position)
  | .run count => s.proposer.Ordered (.run count)

instance trackedDecidable (lookBack : Nat) (s : Server) (closure : StateMachineClosure) :
    Decidable (s.Tracked lookBack closure) :=
  inferInstanceAs (Decidable (∀ j < s.closures.length, _))

instance writableDecidable (disk : Int → List Call) (s : Server) (closure : StateMachineClosure) :
    Decidable (s.Writable disk closure) :=
  inferInstanceAs (Decidable (_ ∧ _))

instance orderlyDecidable (setting : Setting) (s : Server) :
    ∀ event, Decidable (s.Orderly setting event)
  | .write _ _ => inferInstanceAs (Decidable (_ ∧ _))
  | .commitAt ack => inferInstanceAs (Decidable (s.proposer.Ordered (.commitAt ack)))
  | .load position => inferInstanceAs (Decidable (s.proposer.Ordered (.load position)))
  | .onCommitted position => inferInstanceAs (Decidable (s.proposer.Ordered (.onCommitted position)))
  | .run count => inferInstanceAs (Decidable (s.proposer.Ordered (.run count)))

end Server

def runIndex (s : Server) (file : List UInt8) (index : Int) : List UInt8 :=
  match s.request index with
  | none => file
  | some closure => closure.asWrite.run file

/-- The file so far, and what the masks make of the requests. `ids` are the identifiers
from before the leadership. -/
structure Inv (setting : Setting) (ids : List Int) (earlier : List UInt8) (s : Server) : Prop where
  proposer : Commit.OrderedDelivery.Inv s.proposer
  within : s.first + s.closures.length = s.proposer.leader.ledger.bound
  appended : s.proposer.leader.appended = (List.range s.closures.length).map some
  dependencies : s.proposer.written.map TaskEntry.dependencyId =
    s.closures.map fun closure => closure.request.offset.toInt
  queue : s.proposer.dependencyIdQueue =
    lastIds setting.lookBack (ids ++ s.proposer.written.map TaskEntry.dependencyId)
  logged : ∀ (k : Nat) (closure : StateMachineClosure), s.closures[k]? = some closure →
    ∃ entry, s.proposer.leader.getEntry (s.first + k) = some entry ∧
      logData setting.codec closure = some entry.data
  writable : ∀ (k : Nat) (closure : StateMachineClosure), s.closures[k]? = some closure →
    0 ≤ closure.asWrite.offset ∧ closure.data.length ≤ moved (setting.disk (s.first + k))
  linked : ∀ (j k : Nat) (closure other : StateMachineClosure), s.closures[k]? = some closure →
    s.closures[j]? = some other → j < k → closure.asWrite.Overlaps other.asWrite →
      Relation.TransGen (Depends s.proposer.entries) (s.first + k) (s.first + j)
  file : s.file = s.proposer.delivered.foldl (runIndex s) earlier

/-- The proposer has moved on without a new request; its state machine got `given`. -/
structure MovedOn (p q : Proposer) (given : List (Int × Option Nat)) : Prop where
  log : q.leader.log = p.leader.log
  written : q.written = p.written
  queue : q.dependencyIdQueue = p.dependencyIdQueue
  appended : q.leader.appended = p.leader.appended
  first : q.leader.ledger.first = p.leader.ledger.first
  bound : q.leader.ledger.bound = p.leader.ledger.bound
  handed : q.leader.caller.handed = p.leader.caller.handed ++ given

section Steps

variable {setting : Setting} {ids : List Int} {earlier : List UInt8} {s t : Server}

private theorem Inv.movedOn {q : Proposer} {given : List (Int × Option Nat)}
    (h : Inv setting ids earlier s) (hq : Commit.OrderedDelivery.Inv q)
    (hmoved : MovedOn s.proposer q given) :
    Inv setting ids earlier
      ⟨q, s.closures, (given.map Prod.fst).foldl (runIndex s) s.file⟩ := by
  set t : Server := ⟨q, s.closures, (given.map Prod.fst).foldl (runIndex s) s.file⟩ with ht
  have hfirst : t.first = s.first := hmoved.first
  have hrun : runIndex t = runIndex s := by
    funext file i
    simp only [runIndex, Server.request, hfirst]
    rfl
  have hentries : q.entries = s.proposer.entries := by
    simp only [Proposer.entries, Proposer.before, hmoved.first, hmoved.written]
  refine ⟨hq, ?_, ?_, ?_, ?_, ?_, ?_, ?_, ?_⟩
  · rw [hfirst]
    exact h.within.trans hmoved.bound.symm
  · exact hmoved.appended.trans h.appended
  · show q.written.map TaskEntry.dependencyId = _
    rw [hmoved.written]
    exact h.dependencies
  · show q.dependencyIdQueue = lastIds _ (ids ++ q.written.map TaskEntry.dependencyId)
    rw [hmoved.written, hmoved.queue]
    exact h.queue
  · intro k closure hclosure
    show ∃ entry, item q.leader.log (t.first + k - 1) = some entry ∧ _
    rw [hfirst, hmoved.log]
    exact h.logged k closure hclosure
  · rw [hfirst]
    exact h.writable
  · rw [hfirst]
    show ∀ (j k : Nat) (closure other : StateMachineClosure), _ → _ → _ → _ →
      Relation.TransGen (Depends q.entries) _ _
    rw [hentries]
    exact h.linked
  · show (given.map Prod.fst).foldl (runIndex s) s.file = q.delivered.foldl (runIndex t) earlier
    rw [hrun, Proposer.delivered, hmoved.handed, List.map_append, List.foldl_append, h.file]
    rfl

theorem Inv.given (h : Inv setting ids earlier s) {index : Int × Option Nat}
    (hin : index ∈ s.proposer.leader.caller.handed) :
    ∃ k : Nat, ∃ closure, index = (s.first + k, some k) ∧ s.closures[k]? = some closure := by
  have hitem := h.proposer.leader.given.matched index hin
  have hbounds := item_eq_some_bounds hitem
  rw [h.appended, item, if_pos hbounds.1] at hitem
  obtain ⟨k, hk, heq⟩ := List.mem_map.mp (List.mem_of_getElem? hitem)
  obtain ⟨j, hj, hdone⟩ : ∃ j, (index.1 - s.proposer.leader.ledger.first).toNat = j ∧
      (List.range s.closures.length)[j]? = some k := by
    refine ⟨_, rfl, ?_⟩
    rw [List.getElem?_map, Option.map_eq_some_iff] at hitem
    obtain ⟨k', hk', hsome⟩ := hitem
    rw [hk']
    exact congrArg some (Option.some.inj (hsome.trans heq.symm))
  have hjk : j = k := by
    obtain ⟨_, hget⟩ := List.getElem?_eq_some_iff.mp hdone
    rw [List.getElem_range] at hget
    exact hget
  have hlength : k < s.closures.length := List.mem_range.mp hk
  refine ⟨k, s.closures[k], ?_, List.getElem?_eq_getElem hlength⟩
  refine Prod.ext ?_ heq.symm
  have := hbounds.1
  show index.1 = s.first + k
  unfold Server.first
  omega

theorem request_of_closure {k : Nat} {closure : StateMachineClosure}
    (hclosure : s.closures[k]? = some closure) : s.request (s.first + k) = some closure := by
  rw [Server.request, show s.first + (k : Int) - s.first = k by omega, item,
    if_pos (Int.natCast_nonneg k), Int.toNat_natCast]
  exact hclosure

theorem inv_run (h : Inv setting ids earlier s) (count : Nat) :
    ∃ t, s.step setting (.run count) = some t ∧ Inv setting ids earlier t := by
  obtain ⟨q, hstep, hq⟩ := Commit.OrderedDelivery.inv_step setting.currentTerm setting.lookBack
    s.proposer (.run count) h.proposer trivial
  obtain ⟨leader, hleader, rfl⟩ := Option.map_eq_some_iff.mp hstep
  obtain ⟨hlog, happended, hfirst, hbound, given, hgiven⟩ :=
    leader_keeps (by simp) hleader
  have hinv := h.movedOn hq ⟨hlog, rfl, rfl, happended, hfirst, hbound, hgiven⟩
  have hdrop : leader.caller.handed.drop s.proposer.leader.caller.handed.length = given := by
    rw [hgiven, List.drop_left]
  have hfirst' : Server.first ⟨{ s.proposer with leader := leader }, s.closures,
      (given.map Prod.fst).foldl (runIndex s) s.file⟩ = s.first := hfirst
  let writeOf : Int × Option Nat → Write := fun index =>
    ((s.request index.1).map StateMachineClosure.asWrite).getD ⟨0, []⟩
  -- Every index comes with the closure of its own request.
  have hclosures : ∀ index ∈ given, ∃ closure, s.request index.1 = some closure ∧
      (s.entry index).done = some closure ∧ 0 ≤ closure.asWrite.offset ∧
        closure.data.length ≤ moved (setting.disk index.1) := by
    intro index hin
    obtain ⟨k, closure, rfl, hclosure⟩ := hinv.given (hgiven ▸ List.mem_append_right _ hin)
    rw [hfirst']
    exact ⟨closure, request_of_closure hclosure, hclosure, h.writable k closure hclosure⟩
  have htakes : onApply setting.codec s.file
      (given.map fun index => (s.entry index, setting.disk index.1)) =
        some ((given.map writeOf).foldl Write.run s.file, true) := by
    refine onApply_takes ?_
    rw [List.forall₂_map_left_iff, List.forall₂_map_right_iff, List.forall₂_same]
    intro index hin
    obtain ⟨closure, hrequest, hdone, hoffset, hmoves⟩ := hclosures index hin
    have hwrite : writeOf index = closure.asWrite := by simp [writeOf, hrequest]
    rw [hwrite]
    exact ⟨by rw [Entry.asWrite, hdone], hoffset, hmoves⟩
  have hfile : (given.map writeOf).foldl Write.run s.file =
      (given.map Prod.fst).foldl (runIndex s) s.file := by
    rw [List.foldl_map, List.foldl_map]
    refine List.foldl_ext _ _ _ fun file index hin => ?_
    obtain ⟨closure, hrequest, -, -, -⟩ := hclosures index hin
    simp [writeOf, runIndex, hrequest]
  refine ⟨_, ?_, hinv⟩
  rw [Server.step, Server.run, hstep]
  simp only [Option.bind_eq_bind, Option.bind_some, hdrop, htakes, hfile, if_true]

private theorem inv_moved {event : Commit.OrderedDelivery.Event}
    {leaderEvent : Commit.LeaderApply.Event}
    (h : Inv setting ids earlier s) (hordered : s.proposer.Ordered event)
    (hsame : s.proposer.step setting.currentTerm setting.lookBack event =
      (s.proposer.leader.step leaderEvent).map fun leader => { s.proposer with leader := leader })
    (happly : ∀ entry done ballot, leaderEvent ≠ .apply entry done ballot)
    (hrun : ∀ count, leaderEvent ≠ .run count) :
    ∃ q, s.proposer.step setting.currentTerm setting.lookBack event = some q ∧
      Inv setting ids earlier { s with proposer := q } := by
  obtain ⟨q, hstep, hq⟩ := Commit.OrderedDelivery.inv_step setting.currentTerm setting.lookBack
    s.proposer event h.proposer hordered
  have hstep' := hsame ▸ hstep
  obtain ⟨leader, hleader, rfl⟩ := Option.map_eq_some_iff.mp hstep'
  obtain ⟨hlog, happended, hfirst, hbound, -⟩ := leader_keeps happly hleader
  have hhanded := leader_handed hrun hleader
  exact ⟨_, hstep, h.movedOn hq ⟨hlog, rfl, rfl, happended, hfirst, hbound,
    hhanded.trans (List.append_nil _).symm⟩⟩

private theorem depends_grow {log : List TaskEntry} {entry : TaskEntry} {i j : Int}
    (h : Depends log i j) : Depends (log ++ [entry]) i j := by
  obtain ⟨k, rfl, mine, hmine, other, hother, hbit, hids⟩ := h
  have grow : ∀ {d : Int} {old : TaskEntry}, old ∈ item log d → old ∈ item (log ++ [entry]) d := by
    intro d old hold
    have := (item_eq_some_bounds hold).2
    rw [item_push, if_neg (by omega)]
    exact hold
  exact ⟨k, rfl, mine, grow hmine, other, grow hother, hbit, hids⟩

private theorem item_entries {p : Proposer} (hfirst : 0 < p.leader.ledger.first) (k : Nat) :
    item p.entries (p.leader.ledger.first + k - 1) = p.written[k]? := by
  have hlength : (p.before.map fun _ => Proposer.blank).length =
      (p.leader.ledger.first - 1).toNat := by
    rw [List.length_map, Proposer.before, Commit.StateMachineCaller.length_indexRange]
    omega
  rw [item, if_pos (by omega), Proposer.entries, List.getElem?_append_right (by omega), hlength]
  congr 1
  omega

/-- The mask of the next entry points at a request with the same offset that is not too far
behind. -/
private theorem depends_next (hlook : setting.lookBack ≤ 63) (h : Inv setting ids earlier s)
    {q : Proposer} {k : Nat} {latest closure : StateMachineClosure} {entry : TaskEntry}
    (hwritten : q.written = s.proposer.written ++ [entry])
    (hfirst : q.leader.ledger.first = s.first)
    (hlatest : s.closures[k]? = some latest) (hnear : s.closures.length ≤ k + setting.lookBack)
    (hoffset : latest.request.offset = closure.request.offset)
    (hid : entry.dependencyId = closure.request.offset.toInt)
    (hmask : entry.entry.dependency = (checkDependency setting.lookBack
      s.proposer.dependencyIdQueue closure.request.offset.toInt).1) :
    Depends q.entries (s.first + s.closures.length) (s.first + k) := by
  have hpos : 0 < s.first := h.proposer.leader.positive
  have hk : k < s.closures.length := (List.getElem?_eq_some_iff.mp hlatest).1
  have hdeps := h.dependencies
  have hlength : s.proposer.written.length = s.closures.length := by
    simpa using congrArg List.length hdeps
  have hdep : (s.proposer.written.map TaskEntry.dependencyId)[k]? =
      some closure.request.offset.toInt := by
    rw [hdeps, List.getElem?_map, hlatest, Option.map_some, hoffset]
  obtain ⟨other, hother, hotherId⟩ : ∃ other, s.proposer.written[k]? = some other ∧
      other.dependencyId = closure.request.offset.toInt := by
    rw [List.getElem?_map] at hdep
    exact Option.map_eq_some_iff.mp hdep
  refine ⟨s.closures.length - k, by omega, entry, ?_, other, ?_, ?_, ?_⟩
  · show item q.entries (s.first + s.closures.length - 1) = some entry
    rw [← hfirst, item_entries (by omega), hwritten, ← hlength,
      List.getElem?_append_right (Nat.le_refl _), Nat.sub_self]
    rfl
  · show item q.entries _ = some other
    rw [show s.first + (s.closures.length : Int) - ((s.closures.length - k : Nat) : Int) - 1 =
      s.first + k - 1 by omega, ← hfirst, item_entries (by omega), hwritten,
      List.getElem?_append_left (by omega)]
    exact hother
  · rw [hmask, h.queue, checkDependency_bit hlook, List.length_append, List.length_map, hlength]
    refine ⟨by omega, by omega, by omega, ?_⟩
    rw [List.getElem?_append_right (by omega), show ids.length + s.closures.length -
      (s.closures.length - k) - ids.length = k by omega]
    exact hdep
  · rw [hid, hotherId]

/-- The proposer has one more entry, for a task of the server. -/
structure Proposed (setting : Setting) (s : Server) (closure : StateMachineClosure)
    (log : List UInt8) (q : Proposer) (entry : TaskEntry) : Prop where
  entries : q.leader.log = s.proposer.leader.log ++ [entry.entry]
  data : entry.entry.data = log
  written : q.written = s.proposer.written ++ [entry]
  dependencyId : entry.dependencyId = closure.request.offset.toInt
  mask : entry.entry.dependency = (checkDependency setting.lookBack
    s.proposer.dependencyIdQueue closure.request.offset.toInt).1
  queue : q.dependencyIdQueue = (checkDependency setting.lookBack
    s.proposer.dependencyIdQueue closure.request.offset.toInt).2
  first : q.leader.ledger.first = s.first
  bound : q.leader.ledger.bound = s.proposer.leader.ledger.bound + 1
  appended : q.leader.appended = s.proposer.leader.appended ++ [some s.closures.length]
  delivered : q.delivered = s.proposer.delivered

private theorem proposed_of_step {q : Proposer} {closure : StateMachineClosure} {log : List UInt8}
    {ballot : Commit.QuorumLedger.Task}
    (hstep : s.proposer.step setting.currentTerm setting.lookBack
      (.apply ⟨log, closure.request.offset.toInt, -1⟩ (some s.closures.length) ballot) = some q) :
    ∃ entry, Proposed setting s closure log q entry := by
  have hterm : ¬ ((-1 : Int) ≠ -1 ∧ (-1 : Int) ≠ setting.currentTerm) := fun hne => hne.1 rfl
  rw [Proposer.step, Proposer.appendTask, if_neg hterm] at hstep
  obtain ⟨leader, hleader, rfl⟩ := Option.map_eq_some_iff.mp hstep
  cases hleader
  refine ⟨_, rfl, rfl, rfl, rfl, rfl, rfl, rfl, ?_, rfl, rfl⟩
  simp only [Commit.QuorumLedger.Ledger.bound, Commit.QuorumLedger.Ledger.append,
    List.length_append, List.length_singleton]
  omega

private theorem Inv.proposed (hlook : setting.lookBack ≤ 63) (h : Inv setting ids earlier s)
    {closure : StateMachineClosure} {log : List UInt8} {q : Proposer} {entry : TaskEntry}
    (hlog : logData setting.codec closure = some log)
    (hq : Commit.OrderedDelivery.Inv q) (hnew : Proposed setting s closure log q entry)
    (htracked : s.Tracked setting.lookBack closure) (hwritable : s.Writable setting.disk closure) :
    Inv setting ids earlier ⟨q, s.closures ++ [closure], s.file⟩ := by
  set t : Server := ⟨q, s.closures ++ [closure], s.file⟩ with ht
  have hfirst : t.first = s.first := hnew.first
  have hlength : (s.closures ++ [closure]).length = s.closures.length + 1 := by simp
  -- A request of the longer list is an old one, or the new one behind all of them.
  have hcases : ∀ {k : Nat} {c : StateMachineClosure}, t.closures[k]? = some c →
      s.closures[k]? = some c ∨ (k = s.closures.length ∧ c = closure) := by
    intro k c hc
    have hc : (s.closures ++ [closure])[k]? = some c := hc
    have hlt := (List.getElem?_eq_some_iff.mp hc).1
    rcases Nat.lt_or_ge k s.closures.length with hold | hge
    · exact .inl (by rwa [List.getElem?_append_left hold] at hc)
    · obtain rfl : k = s.closures.length := by omega
      rw [List.getElem?_append_right (Nat.le_refl _), Nat.sub_self] at hc
      exact .inr ⟨rfl, (Option.some.inj hc).symm⟩
  have hentries : q.entries = s.proposer.entries ++ [entry] := by
    have hfirst : q.leader.ledger.first = s.proposer.leader.ledger.first := hnew.first
    rw [Proposer.entries, Proposer.before, hfirst, hnew.written, ← List.append_assoc]
    rfl
  have hold : ∀ {i j : Int}, Relation.TransGen (Depends s.proposer.entries) i j →
      Relation.TransGen (Depends q.entries) i j := by
    intro i j hij
    rw [hentries]
    exact Relation.TransGen.mono (fun _ _ => depends_grow) i j hij
  refine ⟨hq, ?_, ?_, ?_, ?_, ?_, ?_, ?_, ?_⟩
  · show t.first + ((s.closures ++ [closure]).length : Int) = q.leader.ledger.bound
    have := h.within
    rw [hfirst, hnew.bound, hlength]
    omega
  · show q.leader.appended = (List.range (s.closures ++ [closure]).length).map some
    rw [hnew.appended, h.appended, hlength, List.range_succ, List.map_append]
    rfl
  · show q.written.map _ = (s.closures ++ [closure]).map _
    rw [hnew.written, List.map_append, List.map_append, h.dependencies]
    simp [hnew.dependencyId]
  · show q.dependencyIdQueue = lastIds _ (ids ++ q.written.map TaskEntry.dependencyId)
    rw [hnew.queue, hnew.written, h.queue, checkDependency_queue, List.map_append,
      List.append_assoc]
    simp [hnew.dependencyId]
  · intro k c hc
    show ∃ e, item q.leader.log (t.first + k - 1) = some e ∧ _
    rw [hfirst, hnew.entries, item_push]
    have hend := h.within.trans h.proposer.leader.logged
    rcases hcases hc with hc | ⟨rfl, rfl⟩
    · have hk := (List.getElem?_eq_some_iff.mp hc).1
      rw [if_neg (by omega)]
      exact h.logged k c hc
    · rw [if_pos (by omega)]
      exact ⟨entry.entry, rfl, hnew.data ▸ hlog⟩
  · intro k c hc
    rw [hfirst]
    rcases hcases hc with hc | ⟨rfl, rfl⟩
    · exact h.writable k c hc
    · exact hwritable
  · intro j k c other hc hother hjk hoverlap
    rw [hfirst]
    have hk : k < (s.closures ++ [closure]).length := (List.getElem?_eq_some_iff.mp hc).1
    have hearlier : s.closures[j]? = some other := by
      rcases hcases hother with hother | ⟨rfl, -⟩
      · exact hother
      · omega
    rcases hcases hc with hc | ⟨rfl, rfl⟩
    · exact hold (h.linked j k c other hc hearlier hjk hoverlap)
    · obtain ⟨m, hm, hjm, hnear, latest, hlatest, hoffset, hchain⟩ :=
        htracked j hjk other hearlier hoverlap
      have hdirect := depends_next hlook h hnew.written hnew.first hlatest hnear hoffset
        hnew.dependencyId hnew.mask
      rcases Nat.eq_or_lt_of_le hjm with rfl | hlt
      · exact .single hdirect
      · have hover := hchain.resolve_left (by omega)
        exact .head hdirect (hold (h.linked j m latest other hlatest hearlier hlt hover))
  · show s.file = q.delivered.foldl (runIndex t) earlier
    rw [hnew.delivered, h.file, Proposer.delivered, List.foldl_map, List.foldl_map]
    refine List.foldl_ext _ _ _ fun file index hin => ?_
    obtain ⟨k, c, rfl, hc⟩ := h.given hin
    have hc' : t.closures[k]? = some c := by
      show (s.closures ++ [closure])[k]? = some c
      rw [List.getElem?_append_left (List.getElem?_eq_some_iff.mp hc).1]
      exact hc
    have hrequest := request_of_closure hc'
    rw [hfirst] at hrequest
    simp only [runIndex, request_of_closure hc, hrequest]

private theorem inv_write (hlook : setting.lookBack ≤ 63) (h : Inv setting ids earlier s)
    (closure : StateMachineClosure) (ballot : Commit.QuorumLedger.Task)
    (htracked : s.Tracked setting.lookBack closure) (hwritable : s.Writable setting.disk closure) :
    ∃ t, s.step setting (.write closure ballot) = some t ∧ Inv setting ids earlier t := by
  cases hlog : logData setting.codec closure with
  | none => exact ⟨s, by rw [Server.step, hlog], h⟩
  | some log =>
    obtain ⟨q, hstep, hq⟩ := Commit.OrderedDelivery.inv_step setting.currentTerm setting.lookBack
      s.proposer (.apply ⟨log, closure.request.offset.toInt, -1⟩ (some s.closures.length) ballot)
      h.proposer trivial
    obtain ⟨entry, hnew⟩ := proposed_of_step hstep
    refine ⟨⟨q, s.closures ++ [closure], s.file⟩, ?_, h.proposed hlook hlog hq hnew htracked hwritable⟩
    rw [Server.step, hlog]
    simp only [hstep, Option.map_some]

theorem inv_step (hlook : setting.lookBack ≤ 63) (s : Server) (event : Event)
    (h : Inv setting ids earlier s) (horderly : s.Orderly setting event) :
    ∃ t, s.step setting event = some t ∧ Inv setting ids earlier t := by
  cases event with
  | write closure ballot => exact inv_write hlook h closure ballot horderly.1 horderly.2
  | commitAt ack =>
    obtain ⟨q, hstep, hinv⟩ := @inv_moved _ _ _ _ (.commitAt ack) (.commitAt ack) h horderly rfl
      (by simp) (by simp)
    exact ⟨_, by rw [Server.step, hstep, Option.map_some], hinv⟩
  | load position =>
    obtain ⟨q, hstep, hinv⟩ := @inv_moved _ _ _ _ (.load position) (.load position) h horderly rfl
      (by simp) (by simp)
    exact ⟨_, by rw [Server.step, hstep, Option.map_some], hinv⟩
  | onCommitted position =>
    obtain ⟨q, hstep, hinv⟩ := @inv_moved _ _ _ _ (.onCommitted position) (.onCommitted position) h
      horderly rfl (by simp) (by simp)
    exact ⟨_, by rw [Server.step, hstep, Option.map_some], hinv⟩
  | run count => exact inv_run h count

end Steps

section Execution

variable {setting : Setting} {ids : List Int} {earlier : List UInt8} {s : Server}

private theorem Inv.depends_first (h : Inv setting ids earlier s) {i j : Int}
    (hij : Depends s.proposer.entries i j) : s.first ≤ i := by
  obtain ⟨k, -, entry, hentry, other, -, hbit, -⟩ := hij
  by_contra hlt
  have hbounds := item_eq_some_bounds hentry
  have hpos : 0 < s.first := h.proposer.leader.positive
  have hbefore : (i - 1).toNat < (s.proposer.before.map fun _ => Proposer.blank).length := by
    rw [List.length_map, Proposer.before, Commit.StateMachineCaller.length_indexRange]
    unfold Server.first at hlt hpos
    omega
  rw [Option.mem_def, item, if_pos hbounds.1, Proposer.entries,
    List.getElem?_append_left hbefore] at hentry
  obtain ⟨_, -, rfl⟩ := List.mem_map.mp (List.mem_of_getElem? hentry)
  simp [Proposer.blank] at hbit

private theorem Inv.depends_lt (h : Inv setting ids earlier s) {i j : Int}
    (hdep : Relation.TransGen (Depends s.proposer.entries) i j) : j < i := by
  have one : ∀ {i j : Int}, Depends s.proposer.entries i j → j < i := fun hij =>
    h.proposer.pipeline.backwards _ _ (h.depends_first hij) hij
  induction hdep with
  | single hij => exact one hij
  | tail _ hjk ih => exact (one hjk).trans ih

theorem Inv.chains (h : Inv setting ids earlier s) {xs : List Int}
    (hxs : Supplied (Depends s.proposer.entries) (· ∈ s.proposer.before) xs) :
    Supplied (Relation.TransGen (Depends s.proposer.entries)) (· ∈ s.proposer.before) xs := by
  have hbefore : Supplied (Depends s.proposer.entries) (fun _ => False) s.proposer.before := by
    intro pre i post hsplit j hij
    have hlow := h.depends_first hij
    have hin : i ∈ s.proposer.before := by simp [hsplit]
    have hhigh := (mem_indexRange.mp hin).2
    unfold Server.first at hlow
    omega
  refine (supplied_append.mp (supplied_transGen (supplied_of_known hbefore hxs))).2.mono ?_
  rintro i (hfalse | hi)
  · exact hfalse.elim
  · exact hi

theorem Inv.supplied (h : Inv setting ids earlier s) :
    Supplied (Relation.TransGen (Depends s.proposer.entries)) (· ∈ s.proposer.before)
      s.proposer.delivered :=
  h.chains h.proposer.supplied.2

private theorem Inv.delivered_bounds (h : Inv setting ids earlier s) {i : Int}
    (hi : i ∈ s.proposer.delivered) : s.first ≤ i ∧ i < s.first + s.closures.length := by
  obtain ⟨index, hin, rfl⟩ := List.mem_map.mp hi
  obtain ⟨k, closure, rfl, hclosure⟩ := h.given hin
  have := (List.getElem?_eq_some_iff.mp hclosure).1
  constructor <;> (dsimp only; omega)

private theorem perm_sorted (h : Inv setting ids earlier s) : s.proposer.delivered.Perm
    ((indexRange s.first (s.first + s.closures.length - 1)).filter
      (· ∈ s.proposer.delivered)) := by
  have hsorted := (indexRange_ascending s.first (s.first + s.closures.length - 1)).imp ne_of_lt
  refine (List.perm_ext_iff_of_nodup h.proposer.leader.given.once (hsorted.filter _)).mpr ?_
  intro i
  rw [List.mem_filter, mem_indexRange, decide_eq_true_eq]
  constructor
  · intro hi
    have := h.delivered_bounds hi
    exact ⟨⟨this.1, by omega⟩, hi⟩
  · exact And.right

theorem Inv.supplied_ascending (h : Inv setting ids earlier s) {xs : List Int}
    (hsorted : xs.Pairwise (· < ·)) (hmem : ∀ i, i ∈ xs ↔ i ∈ s.proposer.delivered) :
    Supplied (Relation.TransGen (Depends s.proposer.entries)) (· ∈ s.proposer.before) xs := by
  rintro pre i post rfl j hij
  obtain ⟨front, back, hfront⟩ := List.append_of_mem ((hmem i).mp (by simp))
  refine (h.supplied front i back hfront j hij).imp_right fun hj => ?_
  have hlt := h.depends_lt hij
  have hin : j ∈ pre ++ i :: post := (hmem j).mpr (by simp [hfront, hj])
  rcases List.mem_append.mp hin with hpre | hpost
  · exact hpre
  · rcases List.mem_cons.mp hpost with rfl | hpost
    · exact absurd hlt (lt_irrefl _)
    · have := (List.pairwise_cons.mp (List.pairwise_append.mp hsorted).2.1).1 j hpost
      omega

private theorem Inv.swappable (h : Inv setting ids earlier s) {i j : Int}
    (hi : i ∈ s.proposer.delivered) (hj : j ∈ s.proposer.delivered) (hne : i ≠ j)
    (hij : ¬ Relation.TransGen (Depends s.proposer.entries) i j)
    (hji : ¬ Relation.TransGen (Depends s.proposer.entries) j i) :
    Swappable (runIndex s) i j := by
  obtain ⟨index, hindex, rfl⟩ := List.mem_map.mp hi
  obtain ⟨other, hother, rfl⟩ := List.mem_map.mp hj
  obtain ⟨k, closure, rfl, hclosure⟩ := h.given hindex
  obtain ⟨m, closure', rfl, hclosure'⟩ := h.given hother
  have hrun : ∀ (k : Nat) (closure : StateMachineClosure) (file : List UInt8),
      s.closures[k]? = some closure →
        runIndex s file (s.first + k) = closure.asWrite.run file := by
    intro k closure file hclosure
    rw [runIndex, request_of_closure hclosure]
  intro file
  rw [hrun k closure _ hclosure, hrun m closure' _ hclosure', hrun k closure _ hclosure,
    hrun m closure' _ hclosure']
  rcases Nat.lt_or_gt_of_ne (show k ≠ m by rintro rfl; exact hne rfl) with hlt | hgt
  · exact ((swappable_of_apart fun hover =>
      hji (h.linked k m closure' closure hclosure' hclosure hlt hover)).symm) file
  · exact (swappable_of_apart fun hover =>
      hij (h.linked m k closure closure' hclosure hclosure' hgt hover)) file

theorem Inv.file_eq (h : Inv setting ids earlier s) {xs : List Int}
    (hxs : Supplied (Relation.TransGen (Depends s.proposer.entries)) (· ∈ s.proposer.before) xs)
    (hperm : s.proposer.delivered.Perm xs) : s.file = xs.foldl (runIndex s) earlier := by
  have hnew : ∀ i ∈ s.proposer.delivered, i ∉ s.proposer.before := by
    intro i hi hbefore
    have hlow := (h.delivered_bounds hi).1
    have hhigh := (mem_indexRange.mp hbefore).2
    unfold Server.first at hlow
    omega
  rw [h.file]
  exact foldl_eq_of_supplied h.supplied hxs hperm h.proposer.leader.given.once hnew
    (fun i hi j hj => h.swappable hi hj) earlier

theorem Inv.executed (h : Inv setting ids earlier s) :
    s.file = (s.executed.map StateMachineClosure.asWrite).foldl Write.run earlier := by
  have hperm := perm_sorted h
  have hsorted := (indexRange_ascending s.first (s.first + s.closures.length - 1)).filter
    fun index => decide (index ∈ s.proposer.delivered)
  rw [h.file_eq (h.supplied_ascending hsorted fun i => hperm.mem_iff.symm) hperm, Server.executed,
    List.foldl_map, List.foldl_filterMap]
  refine List.foldl_ext _ _ _ fun file i _ => ?_
  unfold runIndex
  cases s.request i <;> rfl

private theorem filterMap_range_getElem (xs : List StateMachineClosure) :
    (List.range xs.length).filterMap (fun k => xs[k]?) = xs := by
  induction xs using List.reverseRecOn with
  | nil => rfl
  | append_singleton xs x ih =>
    have hfront : (List.range xs.length).filterMap (fun k => (xs ++ [x])[k]?) =
        (List.range xs.length).filterMap (fun k => xs[k]?) := by
      refine List.filterMap_congr fun k hk => ?_
      exact List.getElem?_append_left (List.mem_range.mp hk)
    rw [List.length_append, List.length_singleton, List.range_succ, List.filterMap_append, hfront,
      ih]
    simp

private theorem executed_all
    (hall : ∀ k < s.closures.length, s.first + (k : Int) ∈ s.proposer.delivered) :
    s.executed = s.closures := by
  have hfilter : (indexRange s.first (s.first + s.closures.length - 1)).filter
      (· ∈ s.proposer.delivered) = indexRange s.first (s.first + s.closures.length - 1) := by
    refine List.filter_eq_self.mpr fun i hi => ?_
    have hbounds := mem_indexRange.mp hi
    have := hall (i - s.first).toNat (by omega)
    rw [decide_eq_true_eq]
    rwa [show s.first + ((i - s.first).toNat : Int) = i by omega] at this
  have hrange : indexRange s.first (s.first + s.closures.length - 1) =
      (List.range s.closures.length).map fun k : Nat => s.first + (k : Int) := by
    unfold indexRange
    congr 2
    omega
  have hrequests : ∀ k ∈ List.range s.closures.length,
      s.request (s.first + (k : Int)) = s.closures[k]? := by
    intro k hk
    have hget := List.getElem?_eq_getElem (List.mem_range.mp hk)
    rw [hget, request_of_closure hget]
  rw [Server.executed, hfilter, hrange, List.filterMap_map]
  exact (List.filterMap_congr hrequests).trans (filterMap_range_getElem s.closures)

end Execution

theorem inv_start {setting : Setting} {earlier : List LogEntry} {lastCommittedIndex
    lastAppliedIndex : Int} {ooApplyQueue : List Bool} (ids : List Int) (file : List UInt8)
    (h : CaughtUp earlier lastCommittedIndex lastAppliedIndex ooApplyQueue) :
    Inv setting ids file (.start earlier (lastIds setting.lookBack ids) lastCommittedIndex
      lastAppliedIndex ooApplyQueue file) := by
  refine ⟨Commit.OrderedDelivery.inv_start _ h, ?_, rfl, rfl, ?_, by simp [Server.start],
    by simp [Server.start], by simp [Server.start], rfl⟩
  · show ((earlier.length : Int) + 1) + ((0 : Nat) : Int) = _
    simp [Server.start, Proposer.start, Commit.LeaderApply.Leader.start,
      Commit.QuorumLedger.Ledger.bound, Commit.QuorumLedger.Ledger.start]
  · simp [Server.start, Proposer.start]

section Runs

variable {setting : Setting} {earlier : List LogEntry} {ids : List Int}
  {lastCommittedIndex lastAppliedIndex : Int} {ooApplyQueue : List Bool} {file : List UInt8}
  {events : List Event}

theorem inv_of_run (hlook : setting.lookBack ≤ 63)
    (hstart : CaughtUp earlier lastCommittedIndex lastAppliedIndex ooApplyQueue)
    (hguard : Guarded (Server.step setting) (Server.Orderly setting)
      (.start earlier (lastIds setting.lookBack ids) lastCommittedIndex lastAppliedIndex
        ooApplyQueue file) events) :
    ∃ s, runEvents (Server.step setting) (.start earlier (lastIds setting.lookBack ids)
        lastCommittedIndex lastAppliedIndex ooApplyQueue file) events = some s ∧
      Inv setting ids file s :=
  run_defined_of_step (inv_step hlook) (inv_start ids file hstart) hguard

/-- Over any orderly run the file is that of the requests executed so far, one after the
other in the order of the log; once every quorum is complete and nothing is on its way,
these are all requests. -/
theorem executes_in_log_order (setting : Setting) (hlook : setting.lookBack ≤ 63)
    (earlier : List LogEntry) (ids : List Int) (lastCommittedIndex lastAppliedIndex : Int)
    (ooApplyQueue : List Bool) (file : List UInt8) (events : List Event)
    (hstart : CaughtUp earlier lastCommittedIndex lastAppliedIndex ooApplyQueue)
    (hguard : Guarded (Server.step setting) (Server.Orderly setting)
      (.start earlier (lastIds setting.lookBack ids) lastCommittedIndex lastAppliedIndex
        ooApplyQueue file) events) :
    ∃ s, runEvents (Server.step setting) (.start earlier (lastIds setting.lookBack ids)
        lastCommittedIndex lastAppliedIndex ooApplyQueue file) events = some s ∧
      s.file = (s.executed.map StateMachineClosure.asWrite).foldl Write.run file ∧
      (s.proposer.leader.reports = [] → s.proposer.leader.calls = [] →
        s.proposer.leader.tasks = [] →
        (∀ k < s.closures.length, s.proposer.leader.ledger.Reached (s.first + (k : Int))) →
          s.executed = s.closures) := by
  obtain ⟨s, hrun, hinv⟩ := inv_of_run hlook hstart hguard
  refine ⟨s, hrun, hinv.executed, fun hreports hcalls htasks hreached => ?_⟩
  have honce := hinv.proposer.leader.exactlyOnce
  exact executed_all fun k hk => honce.delivered hreports hcalls htasks _ (hreached k hk)

def replicas : Commit.QuorumLedger.Task :=
  ⟨Group.Peers.Configuration.three, none⟩

def blockSetting : Setting := ⟨wireCodec, 1, 63, fun _ => [.moves 2, .interrupted, .moves 9]⟩

def acknowledgedBy (indexes : List Int) (h : indexes.Pairwise (· < ·)) : List Event :=
  [.commitAt ⟨indexes, ⟨1, 8000, 0⟩, h⟩, .commitAt ⟨indexes, ⟨2, 8000, 0⟩, h⟩, .load 0,
    .onCommitted 0, .run 1]

/-- Three requests, the first and the last at one offset; the second one overtakes. -/
def overtakingWrite : List Event :=
  [.write ⟨⟨0, none⟩, [1, 2, 3]⟩ replicas, .write ⟨⟨4, none⟩, [9]⟩ replicas,
    .write ⟨⟨0, none⟩, [7]⟩ replicas] ++
      acknowledgedBy [2] (by decide) ++ acknowledgedBy [1, 3] (by decide)

theorem executes_in_log_order_sample : ∃ s, runEvents (Server.step blockSetting)
      (.start [] (lastIds 63 []) 0 0 [] []) overtakingWrite = some s ∧
    s.proposer.delivered = [2, 1, 3] ∧ s.file = [7, 2, 3, 0, 9] ∧
      s.file = (s.executed.map StateMachineClosure.asWrite).foldl Write.run [] := by
  have hguard : Guarded (Server.step blockSetting) (Server.Orderly blockSetting)
      (.start [] (lastIds 63 []) 0 0 [] []) overtakingWrite := by
    decide +kernel
  obtain ⟨s, hrun, hfile, -⟩ := executes_in_log_order blockSetting (by decide) [] [] 0 0 [] []
    overtakingWrite ⟨rfl, rfl, by simp [Commit.StateMachineCaller.Quiet]⟩ hguard
  have hvalue : (runEvents (Server.step blockSetting) (.start [] (lastIds 63 []) 0 0 [] [])
      overtakingWrite).map (fun s => (s.proposer.delivered, s.file)) =
        some ([2, 1, 3], [7, 2, 3, 0, 9]) := by
    decide +kernel
  have hrun : runEvents (Server.step blockSetting) (.start [] (lastIds 63 []) 0 0 [] [])
      overtakingWrite = some s := hrun
  rw [hrun] at hvalue
  obtain ⟨hdelivered, hbytes⟩ := Prod.mk.inj (Option.some.inj hvalue)
  exact ⟨s, hrun, hdelivered, hbytes, hfile⟩

/-- Overlapping writes at different offsets have no mask between them. -/
example : (runEvents (Server.step blockSetting) (.start [] (lastIds 63 []) 0 0 [] [])
    ([.write ⟨⟨0, none⟩, [1, 2]⟩ replicas, .write ⟨⟨1, none⟩, [9]⟩ replicas] ++
      acknowledgedBy [2] (by decide) ++ acknowledgedBy [1] (by decide))).map
        (fun s => (s.file, (s.executed.map StateMachineClosure.asWrite).foldl Write.run [])) =
      some ([1, 2], [1, 9]) := by
  decide +kernel

/-- A read between the steps of an orderly run has, at every byte, the last executed
request that covers it, in the order of the log, and else what the file had before. -/
theorem reads_last_executed (setting : Setting) (hlook : setting.lookBack ≤ 63)
    (earlier : List LogEntry) (ids : List Int) (lastCommittedIndex lastAppliedIndex : Int)
    (ooApplyQueue : List Bool) (file : List UInt8) (events : List Event)
    (hstart : CaughtUp earlier lastCommittedIndex lastAppliedIndex ooApplyQueue)
    (hguard : Guarded (Server.step setting) (Server.Orderly setting)
      (.start earlier (lastIds setting.lookBack ids) lastCommittedIndex lastAppliedIndex
        ooApplyQueue file) events)
    {s : Server} (hrun : runEvents (Server.step setting) (.start earlier
      (lastIds setting.lookBack ids) lastCommittedIndex lastAppliedIndex ooApplyQueue file)
        events = some s)
    {calls : List Call} {request : StateMachineRequest} {buf : List UInt8}
    (hread : readRequest calls s.file request = some (true, buf)) :
    (buf.length : Int) = (request.size.map Int32.toInt).getD 0 ∧
      ∀ i < buf.length, byteAt buf i =
        (((s.executed.map StateMachineClosure.asWrite).filter fun write =>
          write.Covers (request.offset.toInt.toNat + i)).getLast?.map fun write =>
            byteAt write.data (request.offset.toInt.toNat + i - write.offset.toNat)).getD
              (byteAt file (request.offset.toInt.toNat + i)) := by
  obtain ⟨s', hrun', hinv⟩ := inv_of_run hlook hstart hguard
  cases hrun.symm.trans hrun'
  obtain ⟨-, hlength, hbytes⟩ := readRequest_reads hread
  refine ⟨hlength, fun i hi => ?_⟩
  rw [hbytes i hi, hinv.executed, byteAt_foldl_run]

theorem reads_last_executed_sample : ∃ s, runEvents (Server.step blockSetting)
      (.start [] (lastIds 63 []) 0 0 [] []) overtakingWrite = some s ∧
    readRequest [.moves 1, .moves 9] s.file ⟨0, some 2⟩ = some (true, [7, 2]) ∧
      byteAt [7, 2] 1 = (((s.executed.map StateMachineClosure.asWrite).filter fun write =>
        write.Covers 1).getLast?.map fun write => byteAt write.data (1 - write.offset.toNat)).getD
          (byteAt [] 1) := by
  have hguard : Guarded (Server.step blockSetting) (Server.Orderly blockSetting)
      (.start [] (lastIds 63 []) 0 0 [] []) overtakingWrite := by
    decide +kernel
  have hvalue : (runEvents (Server.step blockSetting) (.start [] (lastIds 63 []) 0 0 [] [])
      overtakingWrite).map (fun s => readRequest [.moves 1, .moves 9] s.file ⟨0, some 2⟩) =
        some (some (true, [7, 2])) := by
    decide +kernel
  obtain ⟨s, hrun, hread⟩ := Option.map_eq_some_iff.mp hvalue
  have hbytes := (reads_last_executed blockSetting (by decide) [] [] 0 0 [] [] overtakingWrite
    ⟨rfl, rfl, by simp [Commit.StateMachineCaller.Quiet]⟩ hguard hrun hread).2 1 (by decide)
  exact ⟨s, hrun, hread, hbytes⟩

end Runs

end HitConsistency.Application.OutOfOrderServer
