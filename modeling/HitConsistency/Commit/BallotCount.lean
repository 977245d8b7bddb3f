/- GID: HitConsistency/Commit/BallotCount
   digest: One ballot counts distinct granting members, whatever the position hints. -/

import HitConsistency.Group.Peers
import Mathlib.Data.List.FinRange
import Mathlib.Tactic.SplitIfs

set_option autoImplicit false
set_option relaxedAutoImplicit false

namespace HitConsistency.Commit.BallotCount

open HitConsistency.Base.MajorityQuorum
open HitConsistency.Group.Peers

structure UnfoundPeerId where
  peerId : PeerId
  found : Bool
  deriving DecidableEq

/-- Positions at which the last grant found its peer; a hint may be stale. -/
structure PosHint where
  pos0 : Int
  pos1 : Int
  deriving DecidableEq

def PosHint.new : PosHint := ⟨-1, -1⟩

structure Ballot where
  peers : List UnfoundPeerId
  quorum : Int
  oldPeers : List UnfoundPeerId
  oldQuorum : Int
  deriving DecidableEq

namespace Ballot

/-- The default constructor; both counters are already down. -/
def new : Ballot := ⟨[], 0, [], 0⟩

private def unfound (conf : Configuration) : List UnfoundPeerId :=
  conf.peers.map (⟨·, false⟩)

def init (conf : Configuration) : Option Configuration → Ballot
  | none => ⟨unfound conf, (conf.size / 2 + 1 : Nat), [], 0⟩
  | some oldConf =>
      ⟨unfound conf, (conf.size / 2 + 1 : Nat), unfound oldConf, (oldConf.size / 2 + 1 : Nat)⟩

/-- Use the hinted position when it really holds the peer, otherwise scan. -/
def findPeer (peer : PeerId) (peers : List UnfoundPeerId) (posHint : Int) :
    Option (Fin peers.length) :=
  if h : 0 ≤ posHint ∧ posHint < peers.length then
    let pos : Fin peers.length := ⟨posHint.toNat, by omega⟩
    if (peers.get pos).peerId = peer then some pos
    else peers.findFinIdx? (fun u => u.peerId = peer)
  else peers.findFinIdx? (fun u => u.peerId = peer)

/-- One half of `grant`: the member list, its remaining count and its hint. -/
def grantIn (peers : List UnfoundPeerId) (quorum : Int) (peer : PeerId) (posHint : Int) :
    List UnfoundPeerId × Int × Int :=
  match findPeer peer peers posHint with
  | none => (peers, quorum, -1)
  | some pos =>
      if (peers.get pos).found then (peers, quorum, pos.val)
      else (peers.set pos.val ⟨(peers.get pos).peerId, true⟩, quorum - 1, pos.val)

def grant (b : Ballot) (peer : PeerId) (hint : PosHint) : Ballot × PosHint :=
  let (peers, quorum, pos0) := grantIn b.peers b.quorum peer hint.pos0
  if b.oldPeers.isEmpty then
    (⟨peers, quorum, b.oldPeers, b.oldQuorum⟩, ⟨pos0, -1⟩)
  else
    let (oldPeers, oldQuorum, pos1) := grantIn b.oldPeers b.oldQuorum peer hint.pos1
    (⟨peers, quorum, oldPeers, oldQuorum⟩, ⟨pos0, pos1⟩)

def granted (b : Ballot) : Bool := b.quorum ≤ 0 && b.oldQuorum ≤ 0

end Ballot

/-- The purpose of a ballot: a majority of the configuration and, in a joint
stage, a majority of the old configuration as well. -/
def ReachedQuorum (conf : Configuration) (oldConf : Option Configuration)
    (voters : Finset PeerId) : Prop :=
  Majority conf.members voters ∧ ∀ old ∈ oldConf, Majority old.members voters

instance reachedQuorumDecidable (conf : Configuration) (oldConf : Option Configuration)
    (voters : Finset PeerId) : Decidable (ReachedQuorum conf oldConf voters) :=
  inferInstanceAs (Decidable (_ ∧ _))

theorem ReachedQuorum.mono {conf : Configuration} {oldConf : Option Configuration}
    {voters more : Finset PeerId} (h : ReachedQuorum conf oldConf voters)
    (sub : voters ⊆ more) : ReachedQuorum conf oldConf more :=
  ⟨h.1.mono sub, fun old hold => (h.2 old hold).mono sub⟩

theorem not_reachedQuorum_empty (conf : Configuration) (oldConf : Option Configuration) :
    ¬ ReachedQuorum conf oldConf ∅ :=
  fun h => not_majority_empty _ h.1

/-- A member list carries exactly the marks of `voters`, and its counter is the
majority size less the marked members. -/
def Tally (conf : Configuration) (voters : Finset PeerId) (peers : List UnfoundPeerId)
    (quorum : Int) : Prop :=
  peers = conf.peers.map (fun p => ⟨p, decide (p ∈ voters)⟩) ∧
    quorum = (conf.size / 2 + 1 : Nat) - ((conf.members ∩ voters).card : Int)

/-- The ballot was opened for these configurations and granted by these voters. -/
structure Counts (b : Ballot) (conf : Configuration) (oldConf : Option Configuration)
    (voters : Finset PeerId) : Prop where
  current : Tally conf voters b.peers b.quorum
  old : match oldConf with
    | none => b.oldPeers = [] ∧ b.oldQuorum = 0
    | some old => Tally old voters b.oldPeers b.oldQuorum

private theorem findPeer_some {peer : PeerId} {peers : List UnfoundPeerId} {posHint : Int}
    {pos : Fin peers.length} (h : Ballot.findPeer peer peers posHint = some pos) :
    (peers.get pos).peerId = peer := by
  have scan : ∀ q : Fin peers.length,
      peers.findFinIdx? (fun u => u.peerId = peer) = some q → (peers.get q).peerId = peer := by
    intro q hq
    have := (List.findFinIdx?_eq_some_iff.mp hq).1
    simpa using this
  unfold Ballot.findPeer at h
  split at h
  · dsimp only at h
    split at h
    · rename_i hp
      cases h
      exact hp
    · exact scan pos h
  · exact scan pos h

private theorem findPeer_none {peer : PeerId} {peers : List UnfoundPeerId} {posHint : Int}
    (h : Ballot.findPeer peer peers posHint = none) : ∀ u ∈ peers, u.peerId ≠ peer := by
  have scan : peers.findFinIdx? (fun u => u.peerId = peer) = none →
      ∀ u ∈ peers, u.peerId ≠ peer := by
    intro hq u hu
    have := List.findFinIdx?_eq_none_iff.mp hq u hu
    simpa using this
  unfold Ballot.findPeer at h
  split at h
  · dsimp only at h
    split at h
    · cases h
    · exact scan h
  · exact scan h

private theorem card_inter_insert {conf : Configuration} {voters : Finset PeerId}
    {peer : PeerId} (hmem : peer ∈ conf.peers) (hnew : peer ∉ voters) :
    (conf.members ∩ insert peer voters).card = (conf.members ∩ voters).card + 1 := by
  rw [Finset.inter_insert_of_mem (by simpa using hmem)]
  exact Finset.card_insert_of_notMem (by simp [hnew])

private theorem tally_grantIn {conf : Configuration} {voters : Finset PeerId}
    {peers : List UnfoundPeerId} {quorum : Int} (h : Tally conf voters peers quorum)
    (peer : PeerId) (posHint : Int) :
    Tally conf (insert peer voters) (Ballot.grantIn peers quorum peer posHint).1
      (Ballot.grantIn peers quorum peer posHint).2.1 := by
  obtain ⟨hpeers, hquorum⟩ := h
  unfold Ballot.grantIn
  cases hf : Ballot.findPeer peer peers posHint with
  | none =>
    -- A peer outside the configuration leaves marks and counter alone.
    have habsent : peer ∉ conf.peers := by
      intro hm
      refine findPeer_none hf ⟨peer, decide (peer ∈ voters)⟩ ?_ rfl
      rw [hpeers]
      exact List.mem_map.mpr ⟨peer, hm, rfl⟩
    refine ⟨?_, ?_⟩
    · rw [hpeers]
      refine List.map_congr_left fun p hp => ?_
      have hne : p ≠ peer := fun e => habsent (e ▸ hp)
      simp [hne]
    · rw [hquorum, Finset.inter_insert_of_notMem (by simpa using habsent)]
  | some pos =>
    have hpos := findPeer_some hf
    have hlen : pos.val < conf.peers.length := by
      have := pos.isLt
      simpa [hpeers] using this
    have hget : peers.get pos = ⟨conf.peers[pos.val], decide (conf.peers[pos.val] ∈ voters)⟩ := by
      simp only [List.get_eq_getElem, hpeers, List.getElem_map]
    have hpeer : conf.peers[pos.val] = peer := by
      rw [hget] at hpos
      exact hpos
    have hmem : peer ∈ conf.peers := hpeer ▸ List.getElem_mem hlen
    dsimp only
    by_cases hv : peer ∈ voters
    · have hfound : (peers.get pos).found = true := by
        rw [hget]
        simp [hpeer, hv]
      rw [if_pos hfound, Finset.insert_eq_of_mem hv]
      exact ⟨hpeers, hquorum⟩
    · have hfound : ¬ (peers.get pos).found = true := by
        rw [hget]
        simp [hpeer, hv]
      rw [if_neg hfound]
      refine ⟨?_, ?_⟩
      · apply List.ext_getElem
        · simp [hpeers]
        · intro k hk hk'
          have hkc : k < conf.peers.length := by simpa using hk'
          rw [List.getElem_set]
          by_cases hkp : pos.val = k
          · subst hkp
            rw [if_pos rfl, hpos]
            simp [hpeer]
          · have hne : conf.peers[k] ≠ peer := by
              rw [← hpeer]
              exact fun e => hkp ((List.Nodup.getElem_inj_iff conf.nodup).mp e).symm
            simp [hkp, hpeers, hne]
      · rw [hquorum, card_inter_insert hmem hv]
        push_cast
        omega

theorem counts_init (conf : Configuration) (oldConf : Option Configuration) :
    Counts (Ballot.init conf oldConf) conf oldConf ∅ := by
  cases oldConf <;> constructor <;> simp [Ballot.init, Ballot.unfound, Tally]

theorem counts_grant {b : Ballot} {conf : Configuration} {oldConf : Option Configuration}
    {voters : Finset PeerId} (h : Counts b conf oldConf voters) (peer : PeerId)
    (hint : PosHint) : Counts (b.grant peer hint).1 conf oldConf (insert peer voters) := by
  have hcur := tally_grantIn h.current peer hint.pos0
  unfold Ballot.grant
  dsimp only
  split
  · rename_i hempty
    refine ⟨hcur, ?_⟩
    cases oldConf with
    | none => exact h.old
    | some old =>
      obtain ⟨hpeers, hquorum⟩ := h.old
      have hnil : old.peers = [] := by
        have : b.oldPeers = [] := by simpa using hempty
        simpa [this] using hpeers.symm
      refine ⟨by simp [hpeers, hnil], ?_⟩
      simpa [Configuration.members, hnil] using hquorum
  · rename_i hempty
    refine ⟨hcur, ?_⟩
    cases oldConf with
    | none => exact absurd (by simp [h.old.1]) hempty
    | some old => exact tally_grantIn h.old peer hint.pos1

private theorem tally_done {conf : Configuration} {voters : Finset PeerId}
    {peers : List UnfoundPeerId} {quorum : Int} (h : Tally conf voters peers quorum) :
    quorum ≤ 0 ↔ Majority conf.members voters := by
  rw [h.2, Majority, conf.card_members]
  omega

theorem granted_iff {b : Ballot} {conf : Configuration} {oldConf : Option Configuration}
    {voters : Finset PeerId} (h : Counts b conf oldConf voters) :
    b.granted = true ↔ ReachedQuorum conf oldConf voters := by
  simp only [Ballot.granted, Bool.and_eq_true, decide_eq_true_eq, ReachedQuorum]
  rw [tally_done h.current]
  refine and_congr_right fun _ => ?_
  cases oldConf with
  | none =>
    have : b.oldQuorum = 0 := h.old.2
    simp [this]
  | some old =>
    have := tally_done h.old
    simpa using this

/-- A ballot after a sequence of `grant` calls, each with its own hint. -/
def Ballot.grantAll (b : Ballot) (grants : List (PeerId × PosHint)) : Ballot :=
  grants.foldl (fun b grant => (b.grant grant.1 grant.2).1) b

def granters (grants : List (PeerId × PosHint)) : Finset PeerId := (grants.map Prod.fst).toFinset

private theorem counts_grantAll {b : Ballot} {conf : Configuration} {oldConf : Option Configuration}
    {voters : Finset PeerId} (h : Counts b conf oldConf voters) (grants : List (PeerId × PosHint)) :
    Counts (b.grantAll grants) conf oldConf (voters ∪ granters grants) := by
  induction grants generalizing b voters with
  | nil => simpa [Ballot.grantAll, granters] using h
  | cons grant grants ih =>
    have hstep := ih (counts_grant h grant.1 grant.2)
    have hsame : insert grant.1 voters ∪ granters grants = voters ∪ granters (grant :: grants) := by
      ext peer
      simp only [granters, Finset.mem_union, Finset.mem_insert, List.map_cons, List.toFinset_cons]
      tauto
    rw [hsame] at hstep
    exact hstep

/-- A ballot is granted exactly when the distinct peers that granted it are a majority of
the configuration and of the old one, if there is one. The hints play no part in it, and
two granted ballots of one configuration share a member that granted both. -/
theorem granted_iff_majorities (conf : Configuration) (oldConf : Option Configuration)
    (grants : List (PeerId × PosHint)) :
    (((Ballot.init conf oldConf).grantAll grants).granted = true ↔
      conf.size / 2 + 1 ≤ (conf.members ∩ granters grants).card ∧
        ∀ old ∈ oldConf, old.size / 2 + 1 ≤ (old.members ∩ granters grants).card) ∧
    (∀ others, others.map Prod.fst = grants.map Prod.fst →
      ((Ballot.init conf oldConf).grantAll others).granted =
        ((Ballot.init conf oldConf).grantAll grants).granted) ∧
    ∀ oldConf' others, ((Ballot.init conf oldConf).grantAll grants).granted = true →
      ((Ballot.init conf oldConf').grantAll others).granted = true →
        ∃ member ∈ conf.members, member ∈ granters grants ∧ member ∈ granters others := by
  have hcount : ∀ old grants, ((Ballot.init conf old).grantAll grants).granted = true ↔
      ReachedQuorum conf old (granters grants) := by
    intro old grants
    have hcounts := counts_grantAll (counts_init conf old) grants
    rw [Finset.empty_union] at hcounts
    exact granted_iff hcounts
  refine ⟨?_, fun others hsame => ?_, fun oldConf' others hgranted hother => ?_⟩
  · rw [hcount, ReachedQuorum]
    simp only [Majority, Configuration.card_members]
  · have hgranters : granters others = granters grants := by rw [granters, granters, hsame]
    rw [Bool.eq_iff_iff, hcount, hcount, hgranters]
  · exact ((hcount _ _).mp hgranted).1.common_member ((hcount _ _).mp hother).1

/-- A repeated grant under a stale hint, one by a stranger, and then the second member. -/
example : (((Ballot.init .three none).grantAll [(⟨1, 8000, 0⟩, ⟨2, 7⟩), (⟨1, 8000, 0⟩, ⟨-5, 0⟩),
    (⟨9, 8000, 0⟩, ⟨0, 0⟩)]).granted = false) ∧
    ((Ballot.init .three none).grantAll [(⟨1, 8000, 0⟩, ⟨2, 7⟩), (⟨9, 8000, 0⟩, ⟨0, 0⟩),
    (⟨3, 8000, 0⟩, ⟨100, 0⟩)]).granted = true := by
  decide

end HitConsistency.Commit.BallotCount
