/- GID: HitConsistency/Node/RoleState
   digest: Role, term and vote of one node, its persisted meta, and stepping down. -/

import HitConsistency.Group.Peers
import Mathlib.Algebra.GroupWithZero.Nat
import Mathlib.Algebra.Ring.Int.Defs

set_option autoImplicit false
set_option relaxedAutoImplicit false

namespace HitConsistency.Node.RoleState

open HitConsistency.Group.Peers

inductive State
  | leader | transferring | candidate | follower | error | uninitialized | shutting | shutdown
  deriving DecidableEq, Repr

/-- `_state <= STATE_TRANSFERRING`. -/
def State.leading : State → Bool
  | .leader | .transferring => true
  | _ => false

/-- What the meta storage holds on disk; terms are 64 bits wide there. -/
structure MetaStorage where
  term : Int
  votedfor : PeerId
  deriving DecidableEq

/-- `_current_term` is an `int`: a 64-bit term loses its upper half. -/
def toInt32 (term : Int) : Int := term.bmod (2 ^ 32)

theorem toInt32_of_lt {term : Int} (h0 : 0 ≤ term) (h : term < 2 ^ 31) : toInt32 term = term := by
  unfold toInt32
  rw [Int.bmod_eq_of_le (by omega) (by omega)]

/-- The part of a node that its role changes touch. -/
structure Role where
  serverId : PeerId
  state : State
  currentTerm : Int
  votedId : PeerId
  leaderId : PeerId
  metaStorage : MetaStorage
  deriving DecidableEq

namespace Role

/-- The term moves up only; moving it forgets the vote and saves both. -/
def stepDown (r : Role) (term : Int) : Role :=
  let r := { r with leaderId := .empty, state := .follower }
  if r.currentTerm < term then
    { r with currentTerm := toInt32 term, votedId := .empty, metaStorage := ⟨term, .empty⟩ }
  else r

/-- A message of a leader: fall in behind it, and remember it as the leader. -/
def checkStepDown (r : Role) (requestTerm : Int) (serverId : PeerId) : Role :=
  let r :=
    if r.currentTerm < requestTerm then r.stepDown requestTerm
    else if r.state ≠ .follower then r.stepDown requestTerm
    else if r.leaderId.isEmpty then r.stepDown requestTerm
    else r
  if r.leaderId.isEmpty then { r with leaderId := serverId } else r

end Role

theorem stepDown_state (r : Role) (term : Int) : (r.stepDown term).state = .follower := by
  unfold Role.stepDown
  dsimp only
  split
  · rfl
  · rfl

theorem checkStepDown_state (r : Role) (requestTerm : Int) (serverId : PeerId) :
    (r.checkStepDown requestTerm serverId).state = .follower := by
  have hkept : ∀ q : Role, q.state = .follower →
      (if q.leaderId.isEmpty then { q with leaderId := serverId } else q).state = .follower := by
    intro q hq
    split
    · exact hq
    · exact hq
  apply hkept
  split_ifs with hhigher hstate hempty
  · exact stepDown_state r requestTerm
  · exact stepDown_state r requestTerm
  · exact stepDown_state r requestTerm
  · exact not_not.mp hstate

theorem checkStepDown_term {r : Role} {requestTerm : Int} (h0 : 0 ≤ requestTerm)
    (hfit : requestTerm < 2 ^ 31) (hterm : r.currentTerm ≤ requestTerm) (serverId : PeerId) :
    (r.checkStepDown requestTerm serverId).currentTerm = requestTerm := by
  have hkept : ∀ q : Role, (if q.leaderId.isEmpty then { q with leaderId := serverId }
      else q).currentTerm = q.currentTerm := by
    intro q
    split
    · rfl
    · rfl
  have hdown : (r.stepDown requestTerm).currentTerm = requestTerm := by
    unfold Role.stepDown
    dsimp only
    split
    · exact toInt32_of_lt h0 hfit
    · rename_i hnot
      exact le_antisymm hterm (not_lt.mp hnot)
  apply (hkept _).trans
  split_ifs with hhigher hstate hempty
  · exact hdown
  · exact hdown
  · exact hdown
  · exact le_antisymm hterm (not_lt.mp hhigher)

end HitConsistency.Node.RoleState
