/- GID: HitConsistency/Application/BlockFile
   digest: The state machine of the server: requests as log data, and a file written by on_apply. -/

import HitConsistency.Application.FileTransfers
import HitConsistency.Base.ByteFields
import HitConsistency.Base.CommutingRuns
import HitConsistency.Base.WireFields
import Mathlib.Data.List.Induction

set_option autoImplicit false
set_option relaxedAutoImplicit false

/-!
A request to write travels as the length of its message, the message and the bytes. A
node that has the closure of a request takes the offset and the bytes from there; every
other node parses them out of its log.
-/

namespace HitConsistency.Application.BlockFile

open HitConsistency.Application.FileTransfers
open HitConsistency.Base.ByteFields (packBytes unpackBytes length_packBytes unpackBytes_packBytes)
open HitConsistency.Base.CommutingRuns
open HitConsistency.Base.CrashFiles (pread)
open HitConsistency.Base.SparseFile
open HitConsistency.Base.WireFields

structure StateMachineRequest where
  offset : Int64
  size : Option Int32
  deriving DecidableEq

/-- `SerializeToZeroCopyStream` and `ParseFromZeroCopyStream`. A message has less than
2 GiB. -/
structure RequestCodec where
  serialize : StateMachineRequest → Option (List UInt8)
  parse : List UInt8 → Option StateMachineRequest
  length_lt : ∀ request data, serialize request = some data → data.length < 2 ^ 31
  parse_serialize : ∀ request data, serialize request = some data → parse data = some request

structure StateMachineClosure where
  request : StateMachineRequest
  data : List UInt8
  deriving DecidableEq

structure Write where
  offset : Int
  data : List UInt8
  deriving DecidableEq

def StateMachineClosure.asWrite (closure : StateMachineClosure) : Write :=
  ⟨closure.request.offset.toInt, closure.data⟩

section Log

variable (codec : RequestCodec)

/-- The data of the task that `write` hands to raft. -/
def logData (closure : StateMachineClosure) : Option (List UInt8) :=
  (codec.serialize closure.request).map fun message =>
    packBytes 4 message.length ++ message ++ closure.data

/-- The branch of `on_apply` without a closure. `cutn` takes what there is; a message
that is not parsed ends the process. -/
def parseLog (log : List UInt8) : Option Write :=
  let metaSize := unpackBytes (log.take 4 ++ List.replicate (4 - log.length) 0)
  (codec.parse ((log.drop 4).take metaSize)).map fun request =>
    ⟨request.offset.toInt, (log.drop 4).drop metaSize⟩

/-- An entry of the iterator: the data in the log, and the closure if this node has it. -/
structure Entry where
  log : List UInt8
  done : Option StateMachineClosure

def Entry.asWrite (entry : Entry) : Option Write :=
  match entry.done with
  | some closure => some closure.asWrite
  | none => parseLog codec entry.log

/-- The loop of `on_apply`, with the file behind it and whether it took every entry. Each
entry comes with the calls that its `file_pwrite` makes. -/
def onApply : List UInt8 → List (Entry × List Call) → Option (List UInt8 × Bool)
  | file, [] => some (file, true)
  | file, (entry, calls) :: rest => do
      let write ← entry.asWrite codec
      let (file, nw) ← filePwrite calls file write.data write.offset
      if nw < 0 then some (file, false) else onApply file rest

/-- `read`: whether it succeeds, and the attachment of the response. A negative size has
no result. -/
def readRequest (calls : List Call) (file : List UInt8) (request : StateMachineRequest) :
    Option (Bool × List UInt8) :=
  let size := (request.size.map Int32.toInt).getD 0
  if request.offset < 0 then some (false, [])
  else if size < 0 then none
  else (filePread calls file request.offset.toInt size.toNat).map fun (portal, nr) =>
    if nr < 0 then (false, [])
    else (true, portal ++ List.replicate (size.toNat - portal.length) 0)

end Log

def Write.run (file : List UInt8) (write : Write) : List UInt8 :=
  writeAt file write.offset.toNat write.data

def Write.Covers (write : Write) (position : Nat) : Prop :=
  write.offset.toNat ≤ position ∧ position < write.offset.toNat + write.data.length

instance coversDecidable (write : Write) (position : Nat) : Decidable (write.Covers position) :=
  inferInstanceAs (Decidable (_ ∧ _))

def Write.Overlaps (write other : Write) : Prop :=
  ¬ Apart write.offset.toNat write.data.length other.offset.toNat other.data.length

instance overlapsDecidable (write other : Write) : Decidable (write.Overlaps other) :=
  inferInstanceAs (Decidable (¬ _))

section Requests

variable {codec : RequestCodec} {closure : StateMachineClosure} {log : List UInt8}

theorem parseLog_logData (h : logData codec closure = some log) :
    parseLog codec log = some closure.asWrite := by
  obtain ⟨message, hmessage, rfl⟩ := Option.map_eq_some_iff.mp h
  have hlength := codec.length_lt _ _ hmessage
  have hpacked : (packBytes 4 message.length).length = 4 := length_packBytes ..
  have hsize : unpackBytes (packBytes 4 message.length) = message.length := by
    rw [unpackBytes_packBytes, Nat.mod_eq_of_lt (by omega)]
  have hnone : 4 - (packBytes 4 message.length ++ message ++ closure.data).length = 0 := by
    simp only [List.length_append, hpacked]
    omega
  have htake : (packBytes 4 message.length ++ message ++ closure.data).take 4 =
      packBytes 4 message.length := by
    rw [List.append_assoc, List.take_left' hpacked]
  have hdrop : (packBytes 4 message.length ++ message ++ closure.data).drop 4 =
      message ++ closure.data := by
    rw [List.append_assoc, List.drop_left' hpacked]
  unfold parseLog
  simp only [hnone, htake, hdrop, List.replicate_zero, List.append_nil, hsize,
    List.take_left' rfl, List.drop_left' rfl, codec.parse_serialize _ _ hmessage, Option.map_some]
  rfl

end Requests

section Files

variable {codec : RequestCodec} {file : List UInt8} {entries : List (Entry × List Call)}

theorem onApply_takes {writes : List Write} (h : List.Forall₂ (fun entry write =>
      entry.1.asWrite codec = some write ∧ 0 ≤ write.offset ∧ write.data.length ≤ moved entry.2)
        entries writes) :
    onApply codec file entries = some (writes.foldl Write.run file, true) := by
  induction h generalizing file with
  | nil => rfl
  | @cons entry write entries writes hentry _ ih =>
    obtain ⟨hwrite, hoffset, hmoved⟩ := hentry
    have hfile : filePwrite entry.2 file write.data write.offset =
        some (write.run file, (write.data.length : Int)) :=
      (filePwrite_eq_iff hoffset).mpr ⟨hmoved, rfl⟩
    obtain ⟨entry, calls⟩ := entry
    rw [onApply, hwrite]
    simp only [Option.bind_eq_bind, Option.bind_some, hfile]
    rw [if_neg (by omega), ih]
    rfl

theorem swappable_of_apart {write other : Write} (h : ¬ write.Overlaps other) :
    Swappable Write.run write other :=
  fun _ => writeAt_comm (not_not.mp h)

theorem byteAt_foldl_run (writes : List Write) (position : Nat) :
    byteAt (writes.foldl Write.run file) position =
      ((writes.filter fun write => write.Covers position).getLast?.map fun write =>
        byteAt write.data (position - write.offset.toNat)).getD (byteAt file position) := by
  induction writes using List.reverseRecOn with
  | nil => rfl
  | append_singleton writes last ih =>
    have hbyte : byteAt (last.run (writes.foldl Write.run file)) position =
        if last.Covers position then byteAt last.data (position - last.offset.toNat)
        else byteAt (writes.foldl Write.run file) position := byteAt_writeAt ..
    rw [List.foldl_append, List.foldl_cons, List.foldl_nil, List.filter_append]
    show byteAt (last.run _) position = _
    rw [hbyte]
    by_cases hlast : last.Covers position
    · simp [hlast]
    · simp [hlast, ih]

theorem readRequest_reads {calls : List Call} {request : StateMachineRequest}
    {buf : List UInt8} (h : readRequest calls file request = some (true, buf)) :
    0 ≤ request.offset.toInt ∧ buf.length = (request.size.map Int32.toInt).getD 0 ∧
      ∀ i < buf.length, byteAt buf i = byteAt file (request.offset.toInt.toNat + i) := by
  unfold readRequest at h
  dsimp only at h
  split at h
  · cases h
  · rename_i hoffset
    split at h
    · cases h
    · rename_i hsize
      obtain ⟨⟨portal, nr⟩, hread, h⟩ := Option.map_eq_some_iff.mp h
      have hnonneg : 0 ≤ request.offset.toInt := by
        have := mt Int64.lt_iff_toInt_lt.mpr hoffset
        simpa using this
      dsimp only at h
      split at h
      · cases h
      · rename_i hnr
        obtain ⟨-, rfl⟩ := Prod.mk.inj h
        obtain ⟨rfl, -⟩ := filePread_eq hnonneg hread (by omega)
        set size := ((request.size.map Int32.toInt).getD 0).toNat with hsizeNat
        have hportal : (pread file request.offset.toInt.toNat size).length =
            min size (file.length - request.offset.toInt.toNat) := by
          rw [pread, List.length_take, List.length_drop]
        refine ⟨hnonneg, ?_, fun i hi => ?_⟩
        · rw [List.length_append, List.length_replicate]
          omega
        · rw [List.length_append, List.length_replicate] at hi
          rw [byteAt_append]
          split
          · rw [pread, byteAt_take, if_pos (by omega), byteAt_drop]
          · rw [byteAt_replicate_zero, byteAt_of_le]
            omega

end Files

section Wire

/-- The fields of `state_machine.proto` as numbers behind their tags. -/
def wireSerialize (request : StateMachineRequest) : List UInt8 :=
  8 :: varint 9 request.offset.toUInt64.toNat ++
    (match request.size with
    | none => []
    | some size => 16 :: varint 9 size.toInt64.toUInt64.toNat)

def wireParse : List UInt8 → Option StateMachineRequest
  | 8 :: rest => do
      let (offset, rest) ← scanVarint rest
      match rest with
      | [] => some ⟨(UInt64.ofNat offset).toInt64, none⟩
      | 16 :: rest =>
          let (size, rest) ← scanVarint rest
          if rest = [] then
            some ⟨(UInt64.ofNat offset).toInt64, some (UInt64.ofNat size).toInt64.toInt32⟩
          else none
      | _ => none
  | _ => none

private theorem wireParse_wireSerialize (request : StateMachineRequest) :
    wireParse (wireSerialize request) = some request := by
  obtain ⟨offset, size⟩ := request
  have hscan : ∀ (n : UInt64) rest, scanVarint (varint 9 n.toNat ++ rest) = some (n.toNat, rest) :=
    fun n rest => scanVarint_varint 9 n.toNat (by have := n.toNat_lt; omega) rest
  have hint : ∀ n : Int64, (UInt64.ofNat n.toUInt64.toNat).toInt64 = n := by
    intro n
    rw [UInt64.ofNat_toNat]
    rfl
  have hend : ∀ n : Int64, scanVarint (varint 9 n.toUInt64.toNat) = some (n.toUInt64.toNat, []) := by
    intro n
    have hlast := hscan n.toUInt64 []
    rwa [List.append_nil] at hlast
  cases size with
  | none =>
    simp only [wireSerialize, List.append_nil, wireParse, hend, Option.bind_eq_bind,
      Option.bind_some, hint]
  | some size =>
    simp only [wireSerialize, List.cons_append, wireParse, hscan, hend, Option.bind_eq_bind,
      Option.bind_some, hint, if_true, Int32.toInt32_toInt64]

def wireCodec : RequestCodec where
  serialize request := some (wireSerialize request)
  parse := wireParse
  length_lt := by
    intro request data h
    cases h
    have hoffset := length_varint 9 request.offset.toUInt64.toNat
    unfold wireSerialize
    split
    · simp only [List.append_nil, List.length_cons]
      omega
    · rename_i size _
      have hsize := length_varint 9 size.toInt64.toUInt64.toNat
      simp only [List.length_append, List.length_cons]
      omega
  parse_serialize := by
    intro request data h
    cases h
    exact wireParse_wireSerialize request

end Wire

end HitConsistency.Application.BlockFile
