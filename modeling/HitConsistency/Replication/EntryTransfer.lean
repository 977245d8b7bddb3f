/- GID: HitConsistency/Replication/EntryTransfer
   digest: Entries on the wire: messages and one attachment at the leader, a list again at the follower. -/

import HitConsistency.Base.WireFields
import HitConsistency.Group.PeerText
import HitConsistency.Node.AppendHandler
import HitConsistency.Replication.PeerSender

set_option autoImplicit false
set_option relaxedAutoImplicit false

/-!
The payloads of a request lie one behind the other in the attachment of its call. The
call delivers the messages and the attachment as they were sent. A CHECK that fails has
no result.
-/

namespace HitConsistency.Replication.EntryTransfer

open HitConsistency.Base.WireFields
open HitConsistency.Group.Peers
open HitConsistency.Group.PeerText
open HitConsistency.Log.Entry
open HitConsistency.Node.AppendHandler

/-- `EntryMeta` as a message: peers are texts, and of the payload there is the length. -/
structure EntryMetaMessage where
  term : Int
  type : EntryType
  peers : List (List Char)
  dataLen : Option Int
  oldPeers : List (List Char)
  dependency : BitVec 64
  deriving DecidableEq

/-- The two results of `_prepare_entry` other than 0. -/
inductive Unprepared
  | erange | enoent
  deriving DecidableEq

section Leader

variable (addresses : AddressText) (raftMaxBodySize : Nat) (getEntry : Int → Option LogEntry)
  (nextIndex : Int)

def printPeers (entry : LogEntry) : Option (List (List Char) × List (List Char)) :=
  match entry.peers with
  | some peers =>
      if peers = [] then none
      else some (peers.map (toString addresses),
        (entry.oldPeers.getD []).map (toString addresses))
  | none => if entry.type = .configuration then none else some ([], [])

/-- `_prepare_entry`: the message, and the attachment behind it. -/
def prepareEntry (offset : Nat) (data : List UInt8) :
    Option (Except Unprepared (EntryMetaMessage × List UInt8)) :=
  if raftMaxBodySize ≤ data.length then some (.error .erange)
  else match getEntry (nextIndex + offset) with
  | none => some (.error .enoent)
  | some entry =>
      (printPeers addresses entry).map fun (peers, oldPeers) =>
        .ok (⟨entry.id.term, entry.type, peers, some entry.data.length, oldPeers,
          entry.dependency⟩, data ++ entry.data)

/-- The loop of `_send_entries`, which ends at the first entry that is not prepared. Its
`max_entries_size` is 1. -/
def prepareEntries : Nat → Nat → List UInt8 → Option (List EntryMetaMessage × List UInt8)
  | 0, _, data => some ([], data)
  | count + 1, offset, data => do
      match ← prepareEntry addresses raftMaxBodySize getEntry nextIndex offset data with
      | .error _ => some ([], data)
      | .ok (em, data) =>
          (prepareEntries count (offset + 1) data).map fun (rest, data) => (em :: rest, data)

end Leader

section Follower

/-- `IOBuf::cutn`: as many bytes as there are. The length is converted to `size_t`. -/
def cutn (buf : List UInt8) (len : Int) : List UInt8 × List UInt8 :=
  let n := (len % 2 ^ 64).toNat
  (buf.take n, buf.drop n)

variable (addresses : AddressText)

/-- The constructor of `PeerId` from a string. -/
def peerOf (text : List Char) : Option PeerId :=
  (parse addresses text).bind fun (id, ok) => if ok then some id else none

def readPeers (message : EntryMetaMessage) :
    Option (Option (List PeerId) × Option (List PeerId)) :=
  if message.peers ≠ [] then do
    let peers ← message.peers.mapM (peerOf addresses)
    if message.type ≠ .configuration then none
    else if message.oldPeers ≠ [] then
      (message.oldPeers.mapM (peerOf addresses)).map fun oldPeers => (some peers, some oldPeers)
    else some (some peers, none)
  else if message.type = .configuration then none
  else some (none, none)

/-- The payload is cut by a length of type `int`. -/
def readEntry (index : Int) (message : EntryMetaMessage) (dataBuf : List UInt8) :
    Option (LogEntry × List UInt8) :=
  (readPeers addresses message).map fun (peers, oldPeers) =>
    let (data, dataBuf) :=
      match message.dataLen with
      | some len => cutn dataBuf (len.bmod (2 ^ 32))
      | none => ([], dataBuf)
    (⟨message.type, ⟨index, message.term⟩, message.dependency, peers, oldPeers, data⟩, dataBuf)

/-- The parsing loop of `handle_append_entries_request`: the entries, and what is left of
the attachment. -/
def readEntries : Int → List EntryMetaMessage → List UInt8 → Option (List LogEntry × List UInt8)
  | _, [], dataBuf => some ([], dataBuf)
  | index, message :: rest, dataBuf =>
      if message.type ≠ .unknown then do
        let (entry, dataBuf) ← readEntry addresses (index + 1) message dataBuf
        let (entries, dataBuf) ← readEntries (index + 1) rest dataBuf
        some (entry :: entries, dataBuf)
      else readEntries (index + 1) rest dataBuf

end Follower

/-- An entry that can be sent under an index: a configuration has peers, and no other
type has. -/
structure Sendable (index : Int) (entry : LogEntry) : Prop where
  index : entry.id.index = index
  known : entry.type ≠ .unknown
  configuration : entry.type = .configuration →
    (∃ peers, entry.peers = some peers ∧ peers ≠ []) ∧ entry.oldPeers ≠ some []
  plain : entry.type ≠ .configuration → entry.peers = none ∧ entry.oldPeers = none
  fits : ∀ id ∈ entry.peers.getD [] ++ entry.oldPeers.getD [], Fits id
  payload : entry.data.length < 2 ^ 31

/-- Entries that can be sent under an index and the next ones. -/
def SendableFrom (first : Int) (entries : List LogEntry) : Prop :=
  ∀ (k : Nat) entry, entries[k]? = some entry → Sendable (first + k) entry

variable {addresses : AddressText} {raftMaxBodySize : Nat} {getEntry : Int → Option LogEntry}
variable {nextIndex index : Int} {entry : LogEntry} {entries : List LogEntry}

def messageOf (addresses : AddressText) (entry : LogEntry) : EntryMetaMessage :=
  ⟨entry.id.term, entry.type, (entry.peers.getD []).map (toString addresses),
    some entry.data.length,
    if entry.peers.isSome then (entry.oldPeers.getD []).map (toString addresses) else [],
    entry.dependency⟩

theorem SendableFrom.head {first : Int} (h : SendableFrom first (entry :: entries)) :
    Sendable first entry := by
  have hzero := h 0 entry rfl
  rwa [Nat.cast_zero, add_zero] at hzero

theorem SendableFrom.tail {first : Int} (h : SendableFrom first (entry :: entries)) :
    SendableFrom (first + 1) entries := by
  intro k other hother
  have hnext := h (k + 1) other hother
  rwa [Nat.cast_add, Nat.cast_one, add_comm (k : Int) 1, ← add_assoc] at hnext

section Prepared

theorem printPeers_eq {texts : List (List Char) × List (List Char)}
    (h : printPeers addresses entry = some texts) :
    texts = ((messageOf addresses entry).peers, (messageOf addresses entry).oldPeers) := by
  unfold printPeers at h
  unfold messageOf
  cases hpeers : entry.peers with
  | none =>
    rw [hpeers] at h
    dsimp only at h
    split at h
    · cases h
    · cases h
      rfl
  | some peers =>
    rw [hpeers] at h
    dsimp only at h
    split at h
    · cases h
    · cases h
      rfl

/-- The calls of `_prepare_entry` put the messages of the entries into the request, and
their payloads behind what is in the attachment. -/
private theorem prepareEntries_eq {count offset : Nat} {data attachment : List UInt8}
    {messages : List EntryMetaMessage}
    (hlog : ∀ k entry, entries[k]? = some entry →
      getEntry (nextIndex + (offset + k : Nat)) = some entry)
    (hlength : messages.length = entries.length)
    (hprepare : prepareEntries addresses raftMaxBodySize getEntry nextIndex count offset data =
      some (messages, attachment)) :
    messages = entries.map (messageOf addresses) ∧
      attachment = data ++ (entries.map LogEntry.data).flatten := by
  have hnothing : ∀ {data : List UInt8} {entries : List LogEntry},
      ([] : List EntryMetaMessage).length = entries.length →
        [] = entries.map (messageOf addresses) ∧
          data = data ++ (entries.map LogEntry.data).flatten := by
    intro data entries hlength
    cases List.length_eq_zero_iff.mp hlength.symm
    simp
  induction count generalizing entries offset data messages with
  | zero =>
    cases hprepare
    exact hnothing hlength
  | succ count ih =>
    obtain ⟨result, hone, hrest⟩ := Option.bind_eq_some_iff.mp hprepare
    unfold prepareEntry at hone
    split at hone
    · cases hone
      cases hrest
      exact hnothing hlength
    · split at hone
      · cases hone
        cases hrest
        exact hnothing hlength
      · rename_i found hfound
        obtain ⟨texts, htexts, hresult⟩ := Option.map_eq_some_iff.mp hone
        cases printPeers_eq htexts
        cases hresult
        obtain ⟨⟨rest, behind⟩, hnext, heq⟩ := Option.map_eq_some_iff.mp hrest
        cases heq
        cases entries with
        | nil => cases hlength
        | cons entry entries =>
          have hentry := hlog 0 entry rfl
          rw [Nat.add_zero, hfound] at hentry
          cases hentry
          have hshift : ∀ k other, entries[k]? = some other →
              getEntry (nextIndex + (offset + 1 + k : Nat)) = some other := by
            intro k other hother
            rw [Nat.add_assoc, Nat.add_comm 1 k]
            exact hlog (k + 1) other hother
          obtain ⟨hmessages, hbehind⟩ := ih hshift (Nat.succ.inj hlength) hnext
          rw [hmessages, hbehind]
          simp [messageOf]

private theorem request_eq {count : Nat} {attachment : List UInt8}
    {messages : List EntryMetaMessage}
    (hlog : ∀ (k : Nat) entry, entries[k]? = some entry →
      getEntry (nextIndex + k) = some entry)
    (hlength : messages.length = entries.length)
    (hprepare : prepareEntries addresses raftMaxBodySize getEntry nextIndex count 0 [] =
      some (messages, attachment)) :
    messages = entries.map (messageOf addresses) ∧
      attachment = (entries.map LogEntry.data).flatten ++ [] := by
  have hfound : ∀ (k : Nat) entry, entries[k]? = some entry →
      getEntry (nextIndex + (0 + k : Nat)) = some entry := by
    intro k entry hentry
    rw [Nat.zero_add]
    exact hlog k entry hentry
  obtain ⟨hmessages, hattachment⟩ := prepareEntries_eq hfound hlength hprepare
  exact ⟨hmessages, by rw [hattachment, List.nil_append, List.append_nil]⟩

end Prepared

section Read

private theorem cutn_append (front behind : List UInt8) (h : front.length < 2 ^ 31) :
    cutn (front ++ behind) ((front.length : Int).bmod (2 ^ 32)) = (front, behind) := by
  have hint : (front.length : Int).bmod (2 ^ 32) = front.length :=
    Int.bmod_eq_of_le (by omega) (by omega)
  have hsize : ((front.length : Int) % 2 ^ 64).toNat = front.length := by omega
  unfold cutn
  rw [hint]
  simp only [hsize, List.take_left', List.drop_left']

private theorem peerOf_toString {id : PeerId} (h : Fits id) :
    peerOf addresses (toString addresses id) = some id := by
  unfold peerOf
  rw [parse_toString h]
  rfl

private theorem mapM_peerOf_toString {peers : List PeerId} (hfits : ∀ id ∈ peers, Fits id) :
    (peers.map (toString addresses)).mapM (peerOf addresses) = some peers :=
  mapM_map_of_forall fun id hid => peerOf_toString (hfits id hid)

private theorem Sendable.readPeers (h : Sendable index entry) :
    readPeers addresses (messageOf addresses entry) = some (entry.peers, entry.oldPeers) := by
  unfold EntryTransfer.readPeers
  by_cases htype : entry.type = .configuration
  · obtain ⟨⟨peers, hpeers, hne⟩, hold⟩ := h.configuration htype
    have hfits := h.fits
    rw [hpeers, Option.getD_some] at hfits
    have hfront : (peers.map (toString addresses)).mapM (peerOf addresses) = some peers :=
      mapM_peerOf_toString fun id hid => hfits id (List.mem_append_left _ hid)
    have hback : ((entry.oldPeers.getD []).map (toString addresses)).mapM (peerOf addresses) =
        some (entry.oldPeers.getD []) :=
      mapM_peerOf_toString fun id hid => hfits id (List.mem_append_right _ hid)
    simp only [messageOf, hpeers, htype, Option.getD_some, Option.isSome_some, if_true]
    rw [if_pos (by simpa using hne), hfront]
    cases holdPeers : entry.oldPeers with
    | none => simp
    | some old =>
      have hsome : old ≠ [] := by
        rintro rfl
        exact hold holdPeers
      rw [holdPeers, Option.getD_some] at hback
      simp [hsome, hback]
  · obtain ⟨hpeers, hold⟩ := h.plain htype
    simp [messageOf, hpeers, hold, htype]

private theorem Sendable.readEntry (h : Sendable index entry) (behind : List UInt8) :
    readEntry addresses index (messageOf addresses entry) (entry.data ++ behind) =
      some (entry, behind) := by
  have hcut := cutn_append entry.data behind h.payload
  have hindex := h.index
  unfold EntryTransfer.readEntry
  rw [h.readPeers, Option.map_some]
  simp only [messageOf, hcut]
  subst hindex
  rfl

private theorem readEntries_messages (addresses : AddressText) {first : Int} (behind : List UInt8)
    (hsendable : SendableFrom first entries) :
    readEntries addresses (first - 1) (entries.map (messageOf addresses))
      ((entries.map LogEntry.data).flatten ++ behind) = some (entries, behind) := by
  induction entries generalizing first with
  | nil => rfl
  | cons entry rest ih =>
    have hentry : Sendable (first - 1 + 1) entry := by
      rw [sub_add_cancel]
      exact hsendable.head
    have hrest := ih hsendable.tail
    rw [add_sub_cancel_right] at hrest
    have hknown : (messageOf addresses entry).type ≠ .unknown := hentry.known
    rw [List.map_cons, List.map_cons, List.flatten_cons, List.append_assoc, readEntries,
      if_pos hknown, hentry.readEntry, sub_add_cancel]
    simp only [Option.bind_eq_bind, Option.bind_some, hrest]

end Read

/-- Entries that consecutive calls of `_prepare_entry` put into a request are rebuilt by the
follower, and its attachment is used up. -/
theorem readEntries_prepared (addresses : AddressText) (raftMaxBodySize : Nat)
    (getEntry : Int → Option LogEntry) (nextIndex : Int) (maxEntriesSize : Nat)
    {entries : List LogEntry} {messages : List EntryMetaMessage} {attachment : List UInt8}
    (hlog : ∀ (k : Nat) entry, entries[k]? = some entry →
      getEntry (nextIndex + k) = some entry)
    (hsendable : SendableFrom nextIndex entries)
    (hprepare : prepareEntries addresses raftMaxBodySize getEntry nextIndex maxEntriesSize 0 [] =
      some (messages, attachment))
    (hlength : messages.length = entries.length) :
    readEntries addresses (nextIndex - 1) messages attachment = some (entries, []) := by
  obtain ⟨rfl, rfl⟩ := request_eq hlog hlength hprepare
  exact readEntries_messages addresses [] hsendable

section Refinement

private theorem parseEntries_toMeta {first : Int} (hsendable : SendableFrom first entries) :
    Follower.parseEntries (first - 1) (entries.map LogEntry.toMeta) = entries := by
  induction entries generalizing first with
  | nil => rfl
  | cons entry rest ih =>
    have hentry := hsendable.head
    have hparse := ih hsendable.tail
    have hold : (if entry.toMeta.peers.isSome then entry.toMeta.oldPeers else none) =
        entry.oldPeers := by
      by_cases htype : entry.type = .configuration
      · obtain ⟨⟨peers, hpeers, -⟩, -⟩ := hentry.configuration htype
        simp [LogEntry.toMeta, hpeers]
      · simp [LogEntry.toMeta, (hentry.plain htype).2]
    rw [add_sub_cancel_right] at hparse
    have hknown : entry.toMeta.type ≠ .unknown := hentry.known
    rw [List.map_cons, Follower.parseEntries, if_pos hknown, sub_add_cancel, hparse, hold]
    simp only [LogEntry.toMeta, ← hentry.index]

/-- The wire form is faithful: a request of the replicator, sent as a message with its
attachment, is parsed to what the handler makes of the request itself. -/
private theorem readEntries_refines {flags : PeerSender.Flags} {r : PeerSender.Replicator}
    {log : PeerSender.LogView} {em : EntryMeta} {messages : List EntryMetaMessage}
    {attachment : List UInt8} (hem : r.prepareEntry flags log = some em)
    (hsendable : ∀ (k : Nat) entry, log.getEntry (r.nextIndex + k) = some entry →
      Sendable (r.nextIndex + k) entry)
    (hprepare : prepareEntries addresses flags.raftMaxBodySize log.getEntry r.nextIndex 1 0 [] =
      some (messages, attachment)) :
    readEntries addresses (r.nextIndex - 1) messages attachment =
      some (Follower.parseEntries (r.nextIndex - 1) [em], []) := by
  unfold PeerSender.Replicator.prepareEntry at hem
  split at hem
  · cases hem
  · rename_i hroom
    obtain ⟨entry, hentry, rfl⟩ := Option.map_eq_some_iff.mp hem
    have hlog : ∀ (k : Nat) other, [entry][k]? = some other →
        log.getEntry (r.nextIndex + k) = some other := by
      intro k other hother
      cases k with
      | zero =>
        cases hother
        rwa [Nat.cast_zero, add_zero]
      | succ k => cases hother
    have hone : SendableFrom r.nextIndex [entry] := by
      intro k other hother
      exact hsendable k other (hlog k other hother)
    have hlength : messages.length = [entry].length := by
      obtain ⟨result, hresult, hrest⟩ := Option.bind_eq_some_iff.mp hprepare
      unfold prepareEntry at hresult
      rw [if_neg (by simpa using hroom), Nat.cast_zero, add_zero, hentry] at hresult
      obtain ⟨texts, -, rfl⟩ := Option.map_eq_some_iff.mp hresult
      cases hrest
      rfl
    have hparse := parseEntries_toMeta hone
    rw [List.map_singleton] at hparse
    obtain ⟨rfl, rfl⟩ := request_eq hlog hlength hprepare
    rw [hparse]
    exact readEntries_messages addresses [] hone

end Refinement

section Samples

private def firstPeer : PeerId := ⟨0x7f000001, 8000, 0⟩

private def secondPeer : PeerId := ⟨0x0a000001, 8001, -1⟩

private def sampleEntries : List LogEntry :=
  [⟨.data, ⟨5, 2⟩, 3, none, none, [1, 2, 3]⟩,
    ⟨.configuration, ⟨6, 3⟩, 0, some [firstPeer, secondPeer], some [firstPeer], []⟩,
    ⟨.noOp, ⟨7, 3⟩, 1, none, none, []⟩, ⟨.data, ⟨8, 3⟩, 1, none, none, [9]⟩]

private def sampleLog (index : Int) : Option LogEntry := sampleEntries[(index - 5).toNat]?

/-- Three of four entries fit into the request. -/
theorem readEntries_prepared_three : ∃ messages attachment,
    prepareEntries dottedDecimals 100 sampleLog 5 3 0 [] = some (messages, attachment) ∧
      readEntries dottedDecimals 4 messages attachment = some (sampleEntries.take 3, []) := by
  refine ⟨_, _, rfl, ?_⟩
  refine readEntries_prepared dottedDecimals 100 sampleLog 5 3 ?_ ?_ rfl rfl
  · intro k entry hentry
    match k, hentry with
    | 0, rfl | 1, rfl | 2, rfl => rfl
  · intro k entry hentry
    match k, hentry with
    | 0, rfl | 2, rfl => exact ⟨rfl, by decide, by decide, by decide, by decide, by decide⟩
    | 1, rfl =>
      exact ⟨rfl, by decide, fun _ => ⟨⟨_, rfl, by decide⟩, by decide⟩, by decide, by decide,
        by decide⟩

end Samples

end HitConsistency.Replication.EntryTransfer
