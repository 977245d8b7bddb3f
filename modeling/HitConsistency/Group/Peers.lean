/- GID: HitConsistency/Group/Peers
   digest: Peer identities, ordered peer sets and stable or joint configuration entries. -/

import HitConsistency.Base.MajorityQuorum
import Mathlib.Data.List.Pairwise
import Mathlib.Data.List.Nodup

set_option autoImplicit false
set_option relaxedAutoImplicit false

namespace HitConsistency.Group.Peers

/-- A participant of the group: an IPv4 address, a port and an index at that address. -/
structure PeerId where
  ip : UInt32
  port : Int
  idx : Int
  deriving DecidableEq, Repr

namespace PeerId

/-- The reset identity `0.0.0.0:0:0`, which stands for "no peer". -/
def empty : PeerId := ⟨0, 0, 0⟩

def isEmpty (id : PeerId) : Bool := id.ip = 0 && id.port = 0 && id.idx = 0

theorem isEmpty_iff (id : PeerId) : id.isEmpty = true ↔ id = empty := by
  cases id
  simp [isEmpty, empty, and_assoc]

/-- `operator<`: addresses first, then the index at that address. -/
def Before (a b : PeerId) : Prop :=
  a.ip < b.ip ∨ (a.ip = b.ip ∧ (a.port < b.port ∨ (a.port = b.port ∧ a.idx < b.idx)))

instance beforeDecidable (a b : PeerId) : Decidable (Before a b) :=
  inferInstanceAs (Decidable (_ ∨ _))

theorem Before.irrefl (a : PeerId) : ¬ Before a a := by
  rintro (h | ⟨-, h | ⟨-, h⟩⟩)
  · exact (UInt32.lt_irrefl _) h
  · omega
  · omega

theorem Before.trans {a b c : PeerId} (hab : Before a b) (hbc : Before b c) : Before a c := by
  unfold Before at *
  simp only [UInt32.lt_iff_toNat_lt, ← UInt32.toNat_inj] at *
  omega

private theorem Before.total {a b : PeerId} (hne : a ≠ b) (h : ¬ Before a b) : Before b a := by
  have hfields : ¬ (a.ip = b.ip ∧ a.port = b.port ∧ a.idx = b.idx) := by
    rintro ⟨hi, hp, hx⟩
    exact hne (by cases a; cases b; simp_all)
  unfold Before at *
  simp only [UInt32.lt_iff_toNat_lt, ← UInt32.toNat_inj] at *
  omega

end PeerId

/-- A set of peers, kept in the iteration order of `std::set`. -/
structure Configuration where
  peers : List PeerId
  ordered : peers.Pairwise PeerId.Before
  deriving DecidableEq

namespace Configuration

def none : Configuration := ⟨[], .nil⟩

def size (conf : Configuration) : Nat := conf.peers.length

def contains (conf : Configuration) (peer : PeerId) : Bool := conf.peers.contains peer

def isEmpty (conf : Configuration) : Bool := conf.peers.isEmpty

theorem nodup (conf : Configuration) : conf.peers.Nodup :=
  conf.ordered.imp fun {a b} (h : PeerId.Before a b) (e : a = b) =>
    PeerId.Before.irrefl b (e ▸ h)

def members (conf : Configuration) : Finset PeerId := conf.peers.toFinset

@[simp] theorem mem_members (conf : Configuration) (peer : PeerId) :
    peer ∈ conf.members ↔ peer ∈ conf.peers := by
  simp [members]

theorem card_members (conf : Configuration) : conf.members.card = conf.size :=
  List.toFinset_card_of_nodup conf.nodup

private def insertPeer (peer : PeerId) : List PeerId → List PeerId
  | [] => [peer]
  | q :: qs =>
      if peer = q then q :: qs
      else if PeerId.Before peer q then peer :: q :: qs
      else q :: insertPeer peer qs

private theorem mem_insertPeer (peer x : PeerId) (qs : List PeerId) :
    x ∈ insertPeer peer qs ↔ x = peer ∨ x ∈ qs := by
  induction qs with
  | nil => simp [insertPeer]
  | cons q qs ih =>
    unfold insertPeer
    split_ifs with he hb
    · subst he
      simp
    · simp
    · simp only [List.mem_cons, ih]
      tauto

private theorem insertPeer_ordered (peer : PeerId) (qs : List PeerId)
    (h : qs.Pairwise PeerId.Before) : (insertPeer peer qs).Pairwise PeerId.Before := by
  induction qs with
  | nil => simp [insertPeer]
  | cons q qs ih =>
    obtain ⟨hq, hqs⟩ := List.pairwise_cons.mp h
    unfold insertPeer
    split_ifs with he hb
    · exact h
    · refine List.pairwise_cons.mpr ⟨?_, h⟩
      intro x hx
      rcases List.mem_cons.mp hx with rfl | hx
      · exact hb
      · exact hb.trans (hq x hx)
    · refine List.pairwise_cons.mpr ⟨?_, ih hqs⟩
      intro x hx
      rcases (mem_insertPeer peer x qs).mp hx with rfl | hx
      · exact PeerId.Before.total he hb
      · exact hq x hx

/-- `add_peer`: insertion keeps the order and is idempotent. -/
def addPeer (conf : Configuration) (peer : PeerId) : Configuration :=
  ⟨insertPeer peer conf.peers, insertPeer_ordered peer conf.peers conf.ordered⟩

private theorem mem_addPeer (conf : Configuration) (peer x : PeerId) :
    x ∈ (conf.addPeer peer).peers ↔ x = peer ∨ x ∈ conf.peers :=
  mem_insertPeer peer x conf.peers

def ofPeers (peers : List PeerId) : Configuration := peers.foldl addPeer none

def three : Configuration := .ofPeers [⟨1, 8000, 0⟩, ⟨2, 8000, 0⟩, ⟨3, 8000, 0⟩]

theorem mem_foldl_addPeer (conf : Configuration) (qs : List PeerId) (x : PeerId) :
    x ∈ (qs.foldl addPeer conf).peers ↔ x ∈ conf.peers ∨ x ∈ qs := by
  induction qs generalizing conf with
  | nil => simp
  | cons q qs ih =>
    rw [List.foldl_cons, ih, mem_addPeer, List.mem_cons]
    tauto

end Configuration

end HitConsistency.Group.Peers
