/- GID: HitConsistency/Node/DurableMeta
   digest: Term and vote on disk survive a crash inside of any call as one pair. -/

import HitConsistency.Base.CrashFiles
import HitConsistency.Base.GuardedRuns
import HitConsistency.Base.WireFields
import HitConsistency.Group.PeerText
import HitConsistency.Node.RoleState

set_option autoImplicit false
set_option relaxedAutoImplicit false

/-!
Term and vote are saved together: the message is written behind its length to a
temporary file, which then takes the name of the real one. File operations succeed
unless a crash cuts them short. The directory exists.
-/

namespace HitConsistency.Node.DurableMeta

open HitConsistency.Base.CrashFiles
open HitConsistency.Base.GuardedRuns
open HitConsistency.Base.WireFields
open HitConsistency.Group.Peers
open HitConsistency.Group.PeerText
open HitConsistency.Node.RoleState

structure StablePBMeta where
  term : Int64
  votedfor : List Char
  deriving DecidableEq

def StablePBMeta.Plain (message : StablePBMeta) : Prop :=
  (∀ c ∈ message.votedfor, c.toNat < 128) ∧ message.votedfor.length < 2 ^ 31

/-- Serialising and parsing of protobuf. The result of a failed parse is not looked at,
so parsing always leaves some message. -/
structure MetaCodec where
  serialize : StablePBMeta → List UInt8
  parse : List UInt8 → StablePBMeta
  parse_serialize : ∀ message : StablePBMeta, message.Plain → parse (serialize message) = message
  length_serialize : ∀ message : StablePBMeta, message.Plain →
    (serialize message).length ≤ 22 + message.votedfor.length

namespace ProtoBufFile

/-- `HostToNet32` of a length: four bytes, the highest first. -/
def hostToNet32 (n : Nat) : List UInt8 :=
  [UInt8.ofNat (n / 256 ^ 3), UInt8.ofNat (n / 256 ^ 2), UInt8.ofNat (n / 256), UInt8.ofNat n]

/-- `NetToHost32` into an `int32_t`. -/
def netToHost32 (bytes : List UInt8) : Int :=
  let value : Nat := bytes.foldl (fun n byte => 256 * n + byte.toNat) 0
  Int.bmod value (2 ^ 32)

def tmpPath (path : String) : String := path ++ ".tmp"

/-- What `save` does up to the rename. -/
def writeOps (path : String) (sync : Bool) (message : List UInt8) : List (FileOp String) :=
  [.create (tmpPath path), .write (tmpPath path) 0 (hostToNet32 message.length),
    .write (tmpPath path) 4 message] ++ if sync then [.sync (tmpPath path)] else []

def saveOps (path : String) (sync : Bool) (message : List UInt8) : List (FileOp String) :=
  writeOps path sync message ++ [.rename (tmpPath path) path]

inductive Loaded
  | message (bytes : List UInt8)
  | noEntry
  | failed

/-- A negative length reads nothing, and that is not what was asked for. -/
def load (fs : FileSystem String) (path : String) : Loaded :=
  match fs path with
  | none => .noEntry
  | some content =>
      let header := pread content 0 4
      if header.length ≠ 4 then .failed
      else
        let leftLen := netToHost32 header
        let body := pread content 4 leftLen.toNat
        if leftLen ≠ body.length then .failed else .message body

private theorem load_congr {fs fs' : FileSystem String} {path : String} (h : fs path = fs' path) :
    load fs path = load fs' path := by
  unfold load
  rw [h]

private theorem tmpPath_ne (path : String) : tmpPath path ≠ path := by
  intro h
  have hlength := congrArg String.length h
  simp [tmpPath, String.length_append] at hlength

theorem writeOps_spares (path : String) (sync : Bool) (message : List UInt8) :
    ∀ op ∈ writeOps path sync message, op.Spares path := by
  intro op hop
  have hne := tmpPath_ne path
  cases sync with
  | true =>
    simp only [writeOps, if_true, List.cons_append, List.nil_append, List.mem_cons,
      List.not_mem_nil, or_false] at hop
    rcases hop with rfl | rfl | rfl | rfl <;> exact hne
  | false =>
    simp only [writeOps, Bool.false_eq_true, if_false, List.append_nil, List.mem_cons,
      List.not_mem_nil, or_false] at hop
    rcases hop with rfl | rfl | rfl <;> exact hne

private theorem saved_content (fs : FileSystem String) (path : String) (sync : Bool)
    (message : List UInt8) : runAll fs (saveOps path sync message) path =
      some (hostToNet32 message.length ++ message) := by
  have hne := tmpPath_ne path
  have hheader : pwrite [] 0 (hostToNet32 message.length) = hostToNet32 message.length :=
    pwrite_end [] _
  have hbody : pwrite (hostToNet32 message.length) 4 message =
      hostToNet32 message.length ++ message := pwrite_end (hostToNet32 message.length) message
  cases sync <;>
    simp [saveOps, writeOps, runAll, FileOp.run, Function.update_of_ne hne.symm, hheader, hbody]

private theorem netToHost32_hostToNet32 {n : Nat} (h : n < 2 ^ 31) : netToHost32
    (hostToNet32 n) = n := by
  have hvalue : (hostToNet32 n).foldl (fun n byte => 256 * n + byte.toNat) 0 = n := by
    simp only [hostToNet32, List.foldl_cons, List.foldl_nil, UInt8.toNat_ofNat']
    omega
  unfold netToHost32
  rw [hvalue, Int.bmod_eq_of_le (by omega) (by omega)]

private theorem load_saved {message : List UInt8} (h : message.length < 2 ^ 31)
    (fs : FileSystem String) (path : String) (sync : Bool) :
    load (runAll fs (saveOps path sync message)) path = .message message := by
  have hheader : pread (hostToNet32 message.length ++ message) 0 4 = hostToNet32 message.length :=
    pread_front (hostToNet32 message.length) message
  have hbody : pread (hostToNet32 message.length ++ message) 4 message.length = message :=
    pread_back (hostToNet32 message.length) message
  unfold load
  rw [saved_content]
  simp only [hheader, netToHost32_hostToNet32 h, Int.toNat_natCast, hbody]
  rw [if_neg (by simp [hostToNet32]), if_neg (by simp)]

end ProtoBufFile

structure LocalRaftMetaStorage where
  isInited : Bool
  path : String
  term : Int64
  votedfor : PeerId

/-- A peer whose port and index are of type `int`. -/
abbrev IntPeer : Type := { id : PeerId // Fits id }

inductive Call
  | setTerm (term : Int64)
  | setVotedfor (peerId : IntPeer)
  | setTermAndVotedfor (term : Int64) (peerId : IntPeer)

/-- What the call is to do to the pair of term and vote. -/
def Call.effect (pair : MetaStorage) : Call → MetaStorage
  | .setTerm term => ⟨term.toInt, pair.votedfor⟩
  | .setVotedfor peerId => ⟨pair.term, peerId⟩
  | .setTermAndVotedfor term peerId => ⟨term.toInt, peerId⟩

namespace LocalRaftMetaStorage

def new (path : String) : LocalRaftMetaStorage := ⟨false, path, 1, .empty⟩

def metaPath (s : LocalRaftMetaStorage) : String := s.path ++ "/" ++ "raft_meta"

/-- `get_term` and `get_votedfor`; an instance that is not initialised has an error. -/
def pair (s : LocalRaftMetaStorage) : Option MetaStorage :=
  if s.isInited then some ⟨s.term.toInt, s.votedfor⟩ else none

/-- The assignments of a call, in front of its `save`. -/
def assign (s : LocalRaftMetaStorage) : Call → LocalRaftMetaStorage
  | .setTerm term => { s with term := term }
  | .setVotedfor peerId => { s with votedfor := peerId }
  | .setTermAndVotedfor term peerId => { s with term := term, votedfor := peerId }

variable (addresses : AddressText) (codec : MetaCodec)

/-- The result is the instance and whether the call returns 0. A file that is not there
leaves what the constructor has set. -/
def load (fs : FileSystem String) (s : LocalRaftMetaStorage) :
    Option (LocalRaftMetaStorage × Bool) :=
  match ProtoBufFile.load fs s.metaPath with
  | .message bytes =>
      let message := codec.parse bytes
      (parse addresses message.votedfor).map fun (votedfor, ok) =>
        ({ s with term := message.term, votedfor := votedfor }, ok)
  | .noEntry => some (s, true)
  | .failed => some (s, false)

def init (fs : FileSystem String) (s : LocalRaftMetaStorage) :
    Option (LocalRaftMetaStorage × Bool) :=
  if s.isInited then some (s, true)
  else (s.load addresses codec fs).map fun (s, ok) => ({ s with isInited := ok }, ok)

/-- The message that `save` writes. -/
def message (s : LocalRaftMetaStorage) : StablePBMeta := ⟨s.term, toString addresses s.votedfor⟩

/-- The file operations of `save`. -/
def saveOps (sync : Bool) (s : LocalRaftMetaStorage) : List (FileOp String) :=
  ProtoBufFile.saveOps s.metaPath sync (codec.serialize (s.message addresses))

end LocalRaftMetaStorage

structure Host where
  fs : FileSystem String
  storage : LocalRaftMetaStorage

/-- A call that completes, a crash inside of a call, or a stop between two calls. A crash
and a stop are followed by a new instance on the same path. -/
inductive Event
  | call (call : Call)
  | crash (call : Call) (point : CrashPoint)
  | restart

namespace Host

variable (addresses : AddressText) (codec : MetaCodec) (sync : Bool)

def reopen (path : String) (fs : FileSystem String) : Option Host :=
  ((LocalRaftMetaStorage.new path).init addresses codec fs).map fun (storage, _) => ⟨fs, storage⟩

def step (h : Host) : Event → Option Host
  | .call call =>
      if h.storage.isInited then
        let storage := h.storage.assign call
        some ⟨runAll h.fs (storage.saveOps addresses codec sync), storage⟩
      else some h
  | .crash call point =>
      let ops :=
        if h.storage.isInited then (h.storage.assign call).saveOps addresses codec sync else []
      reopen addresses codec h.storage.path (crashAt h.fs ops point)
  | .restart => reopen addresses codec h.storage.path h.fs

end Host

/-- What an event may do to the pair: an interrupted call has happened or it has not. -/
def Event.Effect (pair pair' : MetaStorage) : Event → Prop
  | .call c => pair' = c.effect pair
  | .crash c _ => pair' = pair ∨ pair' = c.effect pair
  | .restart => pair' = pair

def Follows : MetaStorage → List Event → MetaStorage → Prop
  | pair, [], pair' => pair' = pair
  | pair, event :: events, pair' => ∃ next, event.Effect pair next ∧ Follows next events pair'

section Durable

variable {addresses : AddressText} {codec : MetaCodec} {sync : Bool}

private theorem ascii_of_isDigit {c : Char} (h : c.isDigit = true) : c.toNat < 128 := by
  simp only [Char.isDigit, Bool.and_eq_true, decide_eq_true_eq] at h
  have hle : c.toNat ≤ 57 := UInt32.le_iff_toNat_le.mp h.2
  omega

private theorem message_plain {s : LocalRaftMetaStorage} (h : Fits s.votedfor) :
    (s.message addresses).Plain ∧ (s.message addresses).votedfor.length ≤ 127 := by
  have hshort : (toString addresses s.votedfor).length ≤ 127 := List.length_take_le _ _
  refine ⟨⟨fun c hc => ?_, ?_⟩, hshort⟩
  · rcases mem_toString h hc with rfl | rfl | rfl | hdigit
    · decide
    · decide
    · decide
    · exact ascii_of_isDigit hdigit
  · show (toString addresses s.votedfor).length < 2 ^ 31
    omega

theorem init_saved {s : LocalRaftMetaStorage} (hfits : Fits s.votedfor) (hinit : s.isInited = true)
    {fs fs' : FileSystem String}
    (hfile : fs' s.metaPath = runAll fs (s.saveOps addresses codec sync) s.metaPath) :
    (LocalRaftMetaStorage.new s.path).init addresses codec fs' = some (s, true) := by
  obtain ⟨hplain, hshort⟩ : (s.message addresses).Plain ∧
    (s.message addresses).votedfor.length ≤ 127 := message_plain hfits
  have hlength := codec.length_serialize _ hplain
  have hload : ProtoBufFile.load fs' (LocalRaftMetaStorage.new s.path).metaPath =
      .message (codec.serialize (s.message addresses)) :=
    (ProtoBufFile.load_congr hfile).trans (ProtoBufFile.load_saved (by omega) fs s.metaPath sync)
  have hparse : parse addresses (s.message addresses).votedfor = some (s.votedfor, true) :=
    parse_toString hfits
  unfold LocalRaftMetaStorage.init LocalRaftMetaStorage.load
  rw [if_neg (by simp [LocalRaftMetaStorage.new])]
  rw [hload]
  dsimp only
  rw [codec.parse_serialize _ hplain, hparse]
  cases s
  cases hinit
  rfl

theorem init_congr {path : String} {fs fs' : FileSystem String}
    (h : fs' (LocalRaftMetaStorage.new path).metaPath = fs (LocalRaftMetaStorage.new path).metaPath) :
    (LocalRaftMetaStorage.new path).init addresses codec fs' =
      (LocalRaftMetaStorage.new path).init addresses codec fs := by
  unfold LocalRaftMetaStorage.init LocalRaftMetaStorage.load
  rw [ProtoBufFile.load_congr h]

structure Durable (addresses : AddressText) (codec : MetaCodec) (h : Host) : Prop where
  reopens : (LocalRaftMetaStorage.new h.storage.path).init addresses codec h.fs =
    some (h.storage, true)
  inited : h.storage.isInited = true
  fits : Fits h.storage.votedfor

namespace Durable

variable {h : Host}

private theorem of_init {path : String} {fs : FileSystem String} {s : LocalRaftMetaStorage}
    (h : (LocalRaftMetaStorage.new path).init addresses codec fs = some (s, true)) :
    Durable addresses codec ⟨fs, s⟩ := by
  have hraw := h
  unfold LocalRaftMetaStorage.init at hraw
  rw [if_neg (by simp [LocalRaftMetaStorage.new])] at hraw
  obtain ⟨⟨loaded, ok⟩, hload, heq⟩ := Option.map_eq_some_iff.mp hraw
  cases heq
  unfold LocalRaftMetaStorage.load at hload
  split at hload
  · obtain ⟨⟨votedfor, ok⟩, hparse, heq⟩ := Option.map_eq_some_iff.mp hload
    cases heq
    exact ⟨h, rfl, fits_of_parse hparse⟩
  · cases hload
    exact ⟨h, rfl, show Fits .empty by decide⟩
  · cases hload

private theorem pair_eq (hd : Durable addresses codec h) :
    h.storage.pair = some ⟨h.storage.term.toInt, h.storage.votedfor⟩ := by
  unfold LocalRaftMetaStorage.pair
  rw [if_pos hd.inited]

private theorem assign_fits (hd : Durable addresses codec h) (c : Call) :
    Fits (h.storage.assign c).votedfor := by
  cases c with
  | setTerm term => exact hd.fits
  | setVotedfor peerId => exact peerId.2
  | setTermAndVotedfor term peerId => exact peerId.2

private theorem assign_frame (s : LocalRaftMetaStorage) (c : Call) :
    (s.assign c).isInited = s.isInited ∧ (s.assign c).path = s.path := by
  cases c <;> exact ⟨rfl, rfl⟩

private theorem assign_pair (hd : Durable addresses codec h) (c : Call) :
    (h.storage.assign c).pair = h.storage.pair.map c.effect := by
  rw [hd.pair_eq]
  unfold LocalRaftMetaStorage.pair
  rw [if_pos ((assign_frame _ c).1.trans hd.inited)]
  cases c <;> rfl

private theorem of_saved (hd : Durable addresses codec h) (c : Call) {fs fs' : FileSystem String}
    (hfile : fs' (h.storage.assign c).metaPath =
      runAll fs ((h.storage.assign c).saveOps addresses codec sync) (h.storage.assign c).metaPath) :
    Durable addresses codec ⟨fs', h.storage.assign c⟩ := by
  have hinit := (assign_frame h.storage c).1.trans hd.inited
  exact ⟨init_saved (hd.assign_fits c) hinit hfile, hinit, hd.assign_fits c⟩

private theorem of_same (hd : Durable addresses codec h) {fs : FileSystem String}
    (hfile : fs h.storage.metaPath = h.fs h.storage.metaPath) :
    Durable addresses codec ⟨fs, h.storage⟩ :=
  ⟨(init_congr hfile).trans hd.reopens, hd.inited, hd.fits⟩

private theorem reopen_eq (hd : Durable addresses codec h) :
    Host.reopen addresses codec h.storage.path h.fs = some h := by
  unfold Host.reopen
  rw [hd.reopens]
  rfl

theorem step (hd : Durable addresses codec h) (event : Event) :
    ∃ h', h.step addresses codec sync event = some h' ∧ Durable addresses codec h' ∧
      ∃ pair pair', h.storage.pair = some pair ∧ h'.storage.pair = some pair' ∧
        event.Effect pair pair' := by
  have hpair := hd.pair_eq
  cases event with
  | call c =>
    refine ⟨⟨_, h.storage.assign c⟩, if_pos hd.inited, hd.of_saved c rfl, _, _, hpair, ?_, rfl⟩
    rw [hd.assign_pair, hpair]
    rfl
  | crash c point =>
    have hpath := (assign_frame h.storage c).2
    have hmeta : (h.storage.assign c).metaPath = h.storage.metaPath := by
      unfold LocalRaftMetaStorage.metaPath
      rw [hpath]
    have hops : h.step addresses codec sync (.crash c point) = Host.reopen addresses codec
        h.storage.path (crashAt h.fs ((h.storage.assign c).saveOps addresses codec sync) point) := by
      unfold Host.step
      dsimp only
      rw [if_pos hd.inited]
    -- The crash left the old file or the new one.
    rcases crashAt_replace (ProtoBufFile.writeOps_spares (h.storage.assign c).metaPath sync
        (codec.serialize ((h.storage.assign c).message addresses))) h.fs point with hfile | hfile
    · have hkept : Durable addresses codec
          ⟨crashAt h.fs ((h.storage.assign c).saveOps addresses codec sync) point, h.storage⟩ :=
        hd.of_same (by rw [← hmeta]; exact hfile)
      exact ⟨_, hops.trans hkept.reopen_eq, hkept, _, _, hpair, hpair, .inl rfl⟩
    · have hsaved : Durable addresses codec
          ⟨crashAt h.fs ((h.storage.assign c).saveOps addresses codec sync) point,
            h.storage.assign c⟩ := hd.of_saved c hfile
      refine ⟨_, ?_, hsaved, _, _, hpair, ?_, .inr rfl⟩
      · rw [hops, ← hpath]
        exact hsaved.reopen_eq
      · rw [hd.assign_pair, hpair]
        rfl
  | restart => exact ⟨h, hd.reopen_eq, hd, _, _, hpair, hpair, rfl⟩

end Durable

/-- Term and vote are durable: from any instance that has initialised, every run of calls,
crashes inside of calls and restarts ends in an instance that has initialised, and its pair
is one that the calls, each of them done as a whole or not at all, lead to. -/
theorem term_and_vote_durable (addresses : AddressText) (codec : MetaCodec) (sync : Bool)
    (path : String) (fs : FileSystem String) (s : LocalRaftMetaStorage)
    (h : (LocalRaftMetaStorage.new path).init addresses codec fs = some (s, true))
    (events : List Event) :
    ∃ host pair pair', runEvents (Host.step addresses codec sync) ⟨fs, s⟩ events = some host ∧
      s.pair = some pair ∧ host.storage.pair = some pair' ∧ Follows pair events pair' := by
  have hrun : ∀ (start : Host), Durable addresses codec start → ∃ host pair pair',
      runEvents (Host.step addresses codec sync) start events = some host ∧
      start.storage.pair = some pair ∧ host.storage.pair = some pair' ∧
        Follows pair events pair' := by
    induction events with
    | nil => exact fun start hd => ⟨start, _, _, rfl, hd.pair_eq, hd.pair_eq, rfl⟩
    | cons event events ih =>
      intro start hd
      obtain ⟨mid, hstep, hmid, pair, next, hpair, hnext, heffect⟩ := hd.step event
      obtain ⟨host, next', pair', hrest, hnext', hpair', hfollows⟩ := ih mid hmid
      cases hnext.symm.trans hnext'
      exact ⟨host, pair, pair', runEvents_cons_eq_some.mpr ⟨mid, hstep, hrest⟩, hpair, hpair',
        next, heffect, hfollows⟩
  exact hrun ⟨fs, s⟩ (.of_init h)

end Durable

section Wire

private def wireSerialize (message : StablePBMeta) : List UInt8 :=
  0x08 :: (varint 9 message.term.toUInt64.toNat ++ 0x12 :: (varint 9 message.votedfor.length ++
    message.votedfor.map fun c => UInt8.ofNat c.toNat))

private def wireParse (bytes : List UInt8) : StablePBMeta :=
  let fields : Option StablePBMeta := do
    let (term, rest) ← scanVarint bytes.tail
    let (length, rest) ← scanVarint rest.tail
    some (StablePBMeta.mk (UInt64.ofNat term).toInt64
      ((rest.take length).map fun byte => Char.ofNat byte.toNat))
  fields.getD ⟨0, []⟩

/-- The two fields on the wire: a number under tag 1, a text under tag 2. -/
private def wire : MetaCodec where
  serialize := wireSerialize
  parse := wireParse
  parse_serialize := by
    rintro ⟨term, votedfor⟩ ⟨hascii, hlength⟩
    have hterm := term.toUInt64.toNat_lt
    have hchars : (votedfor.map fun c => UInt8.ofNat c.toNat).map
        (fun byte => Char.ofNat byte.toNat) = votedfor := bytesText_textBytes hascii
    have hfirst := scanVarint_varint 9 term.toUInt64.toNat (by omega)
      (0x12 :: (varint 9 votedfor.length ++ votedfor.map fun c => UInt8.ofNat c.toNat))
    have hsecond := scanVarint_varint 9 votedfor.length (by dsimp only at hlength; omega)
      (votedfor.map fun c => UInt8.ofNat c.toNat)
    have htake : (votedfor.map fun c => UInt8.ofNat c.toNat).take votedfor.length =
        votedfor.map fun c => UInt8.ofNat c.toNat := List.take_of_length_le (by simp)
    simp only [wireParse, wireSerialize, List.tail_cons, hfirst, hsecond, htake, hchars,
      Option.bind_eq_bind, Option.bind_some, Option.getD_some, UInt64.ofNat_toNat,
      Int64.toInt64_toUInt64]
  length_serialize := by
    rintro ⟨term, votedfor⟩ -
    have hterm := length_varint 9 term.toUInt64.toNat
    have hlength := length_varint 9 votedfor.length
    simp only [wireSerialize, List.length_cons, List.length_append, List.length_map]
    omega

private def samplePeer : IntPeer := ⟨⟨0x0a000001, 8000, 0⟩, by decide⟩

/-- A vote in term 3 is saved; a crash comes inside of the next call, behind one byte of
the message. -/
theorem term_and_vote_durable_crash :
    ∃ host pair pair', runEvents (Host.step dottedDecimals wire true)
        ⟨fun _ => none, ⟨true, "data", 1, .empty⟩⟩
        [.call (.setTermAndVotedfor 3 samplePeer), .crash (.setTerm 4) ⟨2, 1⟩] = some host ∧
      some ⟨1, .empty⟩ = some pair ∧ host.storage.pair = some pair' ∧
      Follows pair [.call (.setTermAndVotedfor 3 samplePeer), .crash (.setTerm 4) ⟨2, 1⟩] pair' :=
  term_and_vote_durable dottedDecimals wire true "data" (fun _ => none)
    ⟨true, "data", 1, .empty⟩ rfl _

end Wire

end HitConsistency.Node.DurableMeta
