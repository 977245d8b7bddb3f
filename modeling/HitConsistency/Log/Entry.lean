/- GID: HitConsistency/Log/Entry
   digest: Log entries, their identities, and the append messages that carry them. -/

import HitConsistency.Group.Peers

set_option autoImplicit false
set_option relaxedAutoImplicit false

namespace HitConsistency.Log.Entry

open HitConsistency.Group.Peers

/-- The identity of an entry; terms and indexes start from 1, `⟨0, 0⟩` stands for no entry. -/
structure LogId where
  index : Int
  term : Int
  deriving DecidableEq, Repr

namespace LogId

def zero : LogId := ⟨0, 0⟩

/-- `operator<`: by term, then by index. -/
def Before (a b : LogId) : Prop :=
  if a.term = b.term then a.index < b.index else a.term < b.term

instance beforeDecidable (a b : LogId) : Decidable (Before a b) :=
  inferInstanceAs (Decidable (if a.term = b.term then _ else _))

theorem before_iff {a b : LogId} :
    Before a b ↔ a.term < b.term ∨ a.term = b.term ∧ a.index < b.index := by
  unfold Before
  split <;> omega

end LogId

inductive EntryType
  | unknown | noOp | data | configuration | o3
  deriving DecidableEq, Repr

/-- A log entry. Bit `k` of the dependency mask points at the entry `k` places before. -/
structure LogEntry where
  type : EntryType
  id : LogId
  dependency : BitVec 64
  peers : Option (List PeerId)
  oldPeers : Option (List PeerId)
  data : List UInt8
  deriving DecidableEq

/-- An entry on the wire: the index is implied by its position in the request. -/
structure EntryMeta where
  term : Int
  type : EntryType
  peers : Option (List PeerId)
  oldPeers : Option (List PeerId)
  dependency : BitVec 64
  data : List UInt8
  deriving DecidableEq

def LogEntry.toMeta (entry : LogEntry) : EntryMeta :=
  ⟨entry.id.term, entry.type, entry.peers, entry.oldPeers, entry.dependency, entry.data⟩

structure AppendEntriesRequest where
  serverId : PeerId
  peerId : PeerId
  term : Int
  prevLogTerm : Int
  prevLogIndex : Int
  entries : List EntryMeta
  committedIndex : Int
  committedOoIndex : List Int
  dependency : BitVec 64
  deriving DecidableEq

structure AppendEntriesResponse where
  term : Int
  success : Bool
  lastLogIndex : Int
  deriving DecidableEq

/-- `serialize_configuration_meta`, over what writes a message of the two lists. The peers are
read through a pointer; an entry without them has no result. -/
def serializeConfigurationMeta {ρ : Type} (serialize : List PeerId → List PeerId → ρ)
    (entry : LogEntry) : Option ρ :=
  entry.peers.map fun peers => serialize peers (entry.oldPeers.getD [])

def sampleEntry (index term : Int) : LogEntry :=
  ⟨.data, ⟨index, term⟩, 0, none, none, [1, 2, 3]⟩

end HitConsistency.Log.Entry
