/- GID: HitConsistency/Log/SegmentImage
   digest: What the loop of load makes of the bytes that a file of entries was written as. -/

import HitConsistency.Log.SegmentBytes
import HitConsistency.Log.SegmentReload

set_option autoImplicit false
set_option relaxedAutoImplicit false

namespace HitConsistency.Log.SegmentImage

open HitConsistency.Base.ByteFields
open HitConsistency.Base.RecordFile
open HitConsistency.Log.Entry
open HitConsistency.Log.MemoryLog
open HitConsistency.Log.SegmentBytes
open HitConsistency.Log.SegmentFile
open HitConsistency.Log.SegmentReload

/-- The term, the index and the length of the data fit their fields. -/
def Packable (r : EntryRecord) : Prop :=
  (-2 ^ 63 ≤ r.term ∧ r.term < 2 ^ 63) ∧ (-2 ^ 63 ≤ r.index ∧ r.index < 2 ^ 63) ∧
    r.data.length < 2 ^ 32

instance packableDecidable (r : EntryRecord) : Decidable (Packable r) :=
  inferInstanceAs (Decidable ((_ ∧ _) ∧ (_ ∧ _) ∧ _))

variable {lib : ByteLibrary} {codec : ConfigurationCodec} {checksumType : CheckSumType}
  {r : EntryRecord} {pre post : List UInt8}

section Header

def headerOf (lib : ByteLibrary) (checksumType : CheckSumType) (r : EntryRecord) : EntryHeader :=
  ⟨r.term, r.index, r.dependency, typeCode r.type, checksumType.code, r.data.length,
    getChecksum lib checksumType r.data⟩

private theorem length_packFields (lib : ByteLibrary) (checksumType : CheckSumType)
    (r : EntryRecord) :
    (packFields lib checksumType r).length = 36 := by
  simp [packFields, lib.length_pack32, lib.length_pack64]

private theorem length_packHeader (lib : ByteLibrary) (checksumType : CheckSumType)
    (r : EntryRecord) :
    (packHeader lib checksumType r).length = entryHeaderSize := by
  simp [packHeader, length_packFields, lib.length_pack32, entryHeaderSize]

theorem length_packEntry (lib : ByteLibrary) (checksumType : CheckSumType) (r : EntryRecord) :
    (packEntry lib checksumType r).length = r.size := by
  rw [packEntry, List.length_append, length_packHeader]
  rfl

private theorem toInt_ofInt_64 {n : Int} (h : -2 ^ 63 ≤ n ∧ n < 2 ^ 63) :
    (BitVec.ofInt 64 n).toInt = n := by
  rw [BitVec.toInt_ofInt]
  exact Int.bmod_eq_of_le (by omega) (by omega)

private theorem metaField_type (type : EntryType) (checksumType : CheckSumType) :
    (metaField type checksumType >>> 24).toNat = typeCode type := by
  cases type <;> cases checksumType <;> rfl

private theorem metaField_checksumType (type : EntryType) (checksumType : CheckSumType) :
    (metaField type checksumType <<< 8 >>> 24).toNat = checksumType.code := by
  cases type <;> cases checksumType <;> rfl

private theorem unpackHeader_packHeader (hpack : Packable r) :
    unpackHeader lib (packHeader lib checksumType r) = headerOf lib checksumType r := by
  obtain ⟨hterm, hindex, hdata⟩ := hpack
  have hlen : (BitVec.ofNat 32 r.data.length).toNat = r.data.length := by
    rw [BitVec.toNat_ofNat]
    exact Nat.mod_eq_of_lt hdata
  have h32 := lib.length_pack32
  have h64 := lib.length_pack64
  have hsplit (a b : List UInt8) (offset size : Nat) (ha : a.length ≤ offset) :
      slice (a ++ b) offset size = slice b (offset - a.length) size := slice_skip ha
  simp (disch := simp [h32, h64]) only [unpackHeader, packHeader, packFields, List.append_assoc,
    hsplit, slice_start, h32, h64, Nat.reduceSub, lib.unpack32_pack32, lib.unpack64_pack64,
    toInt_ofInt_64 hterm, toInt_ofInt_64 hindex, hlen, metaField_type, metaField_checksumType]
  rfl

private theorem headerChecksum_packHeader :
    headerChecksum lib (packHeader lib checksumType r) =
      getChecksum lib checksumType (packFields lib checksumType r) := by
  rw [headerChecksum, packHeader, slice_skip (by rw [length_packFields]), length_packFields]
  rw [← List.append_nil (lib.pack32 _), slice_start (lib.length_pack32 _), lib.unpack32_pack32]

private theorem take_packHeader :
    (packHeader lib checksumType r).take (entryHeaderSize - 4) =
      packFields lib checksumType r :=
  List.take_left' (length_packFields lib checksumType r)

private theorem verifyChecksum_getChecksum (data : List UInt8) :
    verifyChecksum lib checksumType.code data (getChecksum lib checksumType data) = true := by
  cases checksumType <;> simp [verifyChecksum, getChecksum, CheckSumType.code]

end Header

section Read

private theorem loadHeader_packHeader {sizeHint : Nat} (hpack : Packable r) (hterm : r.term ≠ 0)
    (hhint : sizeHint ≤ entryHeaderSize + post.length) :
    loadHeader lib (pre ++ (packHeader lib checksumType r ++ post)) pre.length sizeHint =
      .ok (headerOf lib checksumType r,
        packHeader lib checksumType r ++ post.take (sizeHint - entryHeaderSize)) := by
  have hhead := length_packHeader lib checksumType r
  have hbuf : slice (pre ++ (packHeader lib checksumType r ++ post)) pre.length
      (max sizeHint entryHeaderSize) =
        packHeader lib checksumType r ++ post.take (sizeHint - entryHeaderSize) := by
    rw [slice, List.drop_left' rfl, List.take_append, hhead, List.take_of_length_le (by omega)]
    congr 2
    omega
  have hlen : (packHeader lib checksumType r ++ post.take (sizeHint - entryHeaderSize)).length =
      max sizeHint entryHeaderSize := by
    rw [List.length_append, List.length_take, hhead]
    omega
  have htake : (packHeader lib checksumType r ++ post.take (sizeHint - entryHeaderSize)).take
      entryHeaderSize = packHeader lib checksumType r :=
    List.take_left' hhead
  simp only [loadHeader, hbuf, hlen, ne_eq, not_true_eq_false, if_false, htake,
    unpackHeader_packHeader hpack, take_packHeader, headerChecksum_packHeader]
  simp [headerOf, hterm, verifyChecksum_getChecksum]

private theorem ok_bind {α β : Type} (a : α) (f : α → Except Int β) :
    (Except.ok a >>= f) = f a := rfl

theorem loadEntry_packEntry (hpack : Packable r) (hterm : r.term ≠ 0) :
    loadEntry lib (pre ++ (packEntry lib checksumType r ++ post)) pre.length r.size =
      .ok (headerOf lib checksumType r, r.data) := by
  have hwhole : entryHeaderSize + (headerOf lib checksumType r).dataLen = r.size := rfl
  have hdata : (r.data ++ post).take (r.size - entryHeaderSize) = r.data :=
    List.take_left' (Nat.add_sub_cancel_left _ _).symm
  have hentry : packHeader lib checksumType r ++ r.data = packEntry lib checksumType r := rfl
  have htake : (packEntry lib checksumType r).take r.size = packEntry lib checksumType r := by
    apply List.take_of_length_le
    rw [length_packEntry]
  have hdrop : (packEntry lib checksumType r).drop entryHeaderSize = r.data :=
    List.drop_left' (length_packHeader lib checksumType r)
  rw [loadEntry, packEntry, List.append_assoc, loadHeader_packHeader hpack hterm
    (by rw [List.length_append]; simp only [EntryRecord.size, entryHeaderSize]; omega)]
  simp only [ok_bind, hdata, hentry, hwhole, length_packEntry, lt_irrefl, if_false, htake, ne_eq,
    not_true_eq_false, hdrop]
  simp [headerOf, verifyChecksum_getChecksum]

private theorem loadHeader_short {torn : List UInt8} (htorn : torn.length < entryHeaderSize) :
    loadHeader lib (pre ++ torn) pre.length entryHeaderSize = .error 1 := by
  have hlen : (slice (pre ++ torn) pre.length (max entryHeaderSize entryHeaderSize)).length ≠
      max entryHeaderSize entryHeaderSize := by
    rw [length_slice, List.length_append]
    omega
  rw [loadHeader, if_pos hlen]

private theorem loadHeader_dead {chunk : List UInt8} (hsize : entryHeaderSize ≤ chunk.length)
    (hterm : lib.unpack64 (slice chunk 0 8) = 0) :
    loadHeader lib (pre ++ (chunk ++ post)) pre.length entryHeaderSize = .error (-2) := by
  have hbuf : slice (pre ++ (chunk ++ post)) pre.length (max entryHeaderSize entryHeaderSize) =
      chunk.take entryHeaderSize := by
    rw [max_self]
    exact slice_part rfl hsize
  have hlen : (chunk.take entryHeaderSize).length = max entryHeaderSize entryHeaderSize := by
    rw [List.length_take, max_self, min_eq_left hsize]
  have hfield : slice ((chunk.take entryHeaderSize).take entryHeaderSize) 0 8 =
      slice chunk 0 8 := by
    simp [slice, List.take_take, entryHeaderSize]
  simp only [loadHeader, hbuf, hlen, ne_eq, not_true_eq_false, if_false, unpackHeader, hfield,
    hterm]
  rfl

end Read

/-- The bytes of an entry: as they were written, or with zero over the term. -/
def Holds (lib : ByteLibrary) (checksumType : CheckSumType) (r : EntryRecord)
    (chunk : List UInt8) : Prop :=
  chunk.length = r.size ∧ (r.term ≠ 0 → Packable r ∧ chunk = packEntry lib checksumType r) ∧
    (r.term = 0 → lib.unpack64 (slice chunk 0 8) = 0)

inductive Stored (lib : ByteLibrary) (checksumType : CheckSumType) :
    List EntryRecord → List UInt8 → Prop
  | nil : Stored lib checksumType [] []
  | cons {r : EntryRecord} {rest : List EntryRecord} {chunk bytes : List UInt8} :
      Holds lib checksumType r chunk → Stored lib checksumType rest bytes →
        Stored lib checksumType (r :: rest) (chunk ++ bytes)

def Torn (lib : ByteLibrary) (checksumType : CheckSumType) (torn : List UInt8) : Prop :=
  torn = [] ∨ ∃ r n, Packable r ∧ r.term ≠ 0 ∧ n < r.size ∧
    torn = (packEntry lib checksumType r).take n

theorem holds_packEntry (hpack : Packable r) :
    Holds lib checksumType r (packEntry lib checksumType r) := by
  refine ⟨length_packEntry lib checksumType r, fun _ => ⟨hpack, rfl⟩, fun hterm => ?_⟩
  have hfront : slice (packEntry lib checksumType r) 0 8 = lib.pack64 0 := by
    rw [packEntry, packHeader, packFields, hterm, List.append_assoc, List.append_assoc]
    exact slice_start (lib.length_pack64 _)
  rw [hfront, lib.unpack64_pack64]

theorem Stored.push {rs : List EntryRecord} {bytes chunk : List UInt8}
    (h : Stored lib checksumType rs bytes) (hr : Holds lib checksumType r chunk) :
    Stored lib checksumType (rs ++ [r]) (bytes ++ chunk) := by
  induction h with
  | nil => simpa using Stored.cons hr .nil
  | cons hhead _ ih =>
    rw [List.append_assoc]
    exact .cons hhead ih

def image (lib : ByteLibrary) (checksumType : CheckSumType) (rs : List EntryRecord) : List UInt8 :=
  rs.flatMap (packEntry lib checksumType)

theorem Stored.eq_image {rs : List EntryRecord} {bytes : List UInt8}
    (h : Stored lib checksumType rs bytes) (hintact : Intact rs) :
    bytes = image lib checksumType rs := by
  induction h with
  | nil => rfl
  | @cons r rest chunk bytes hchunk _ ih =>
    obtain ⟨-, rfl⟩ := hchunk.2.1 (hintact r (by simp))
    rw [ih fun r' hr' => hintact r' (by simp [hr']), image, image, List.flatMap_cons]

theorem Stored.invalidateAt {rs : List EntryRecord} {bytes : List UInt8} {offset : Nat}
    (h : Stored lib checksumType rs bytes)
    (hr : recordAt EntryRecord.size rs offset = some r) :
    Stored lib checksumType (rewriteAt EntryRecord.size EntryRecord.invalidate rs offset)
      (overwrite bytes offset (lib.pack64 0)) := by
  induction h generalizing offset with
  | nil => cases hr
  | @cons head rest chunk bytes hchunk hrest ih =>
    have hlen := hchunk.1
    simp only [recordAt] at hr
    simp only [rewriteAt]
    by_cases hzero : offset = 0
    · have hfits : (lib.pack64 0).length ≤ chunk.length := by
        rw [hlen, lib.length_pack64]
        exact Nat.le_add_right_of_le (by decide)
      have hbytes : overwrite (chunk ++ bytes) offset (lib.pack64 0) =
          lib.pack64 0 ++ chunk.drop (lib.pack64 0).length ++ bytes := by
        rw [hzero]
        exact overwrite_start hfits
      rw [if_pos hzero, hbytes]
      refine .cons ⟨?_, fun hne => absurd rfl hne, fun _ => ?_⟩ hrest
      · rw [EntryRecord.size_invalidate, ← hlen, List.length_append, List.length_drop]
        omega
      · rw [slice_start (lib.length_pack64 0), lib.unpack64_pack64]
    · rw [if_neg hzero] at hr ⊢
      split at hr
      · cases hr
      · rename_i hbeyond
        rw [if_neg hbeyond, overwrite_skip (by omega), hlen]
        exact .cons hchunk (ih hr)

theorem Stored.length {rs : List EntryRecord} {bytes : List UInt8}
    (h : Stored lib checksumType rs bytes) :
    bytes.length = fileSize EntryRecord.size rs := by
  induction h with
  | nil => rfl
  | cons hhead _ ih => rw [List.length_append, fileSize_cons, hhead.1, ih]

section Loop

variable {first i : Int} {l l' : Loading} {torn : List UInt8}

private theorem typeCode_configuration (type : EntryType) :
    typeCode type = typeCode .configuration ↔ type = .configuration := by
  cases type <;> decide

private theorem enterHeader_headerOf (first : Int) (l : Loading) :
    enterHeader first l (headerOf lib checksumType r) = l.enter first r := rfl

private theorem loadConfiguration_packEntry (hpack : Packable r) (hterm : r.term ≠ 0)
    (hoff : l.entryOff = pre.length) (hconf : l.addConfiguration codec i r = some l') :
    loadConfiguration lib codec (pre ++ (packEntry lib checksumType r ++ post)) i l
      (headerOf lib checksumType r) = .ok l' := by
  have hwhole : entryHeaderSize + (headerOf lib checksumType r).dataLen = r.size := rfl
  have htype : (headerOf lib checksumType r).type = typeCode r.type := rfl
  have hread : loadEntry lib (pre ++ (packEntry lib checksumType r ++ post)) l.entryOff r.size =
      .ok (headerOf lib checksumType r, r.data) := by
    rw [hoff]
    exact loadEntry_packEntry hpack hterm
  rw [Loading.addConfiguration] at hconf
  rw [loadConfiguration, htype, hwhole, hread]
  by_cases hconfiguration : r.type = .configuration
  · rw [if_pos hconfiguration] at hconf
    obtain ⟨⟨peers, oldPeers⟩, hparse, rfl⟩ := Option.map_eq_some_iff.mp hconf
    rw [if_pos (by rw [hconfiguration])]
    simp only [hparse, hconfiguration]
    rfl
  · rw [if_neg hconfiguration] at hconf
    cases hconf
    rw [if_neg (by rwa [typeCode_configuration])]

theorem addConfiguration_entryOff (hconf : l.addConfiguration codec i r = some l') :
    l'.entryOff = l.entryOff := by
  rw [Loading.addConfiguration] at hconf
  split at hconf
  · obtain ⟨_, -, rfl⟩ := Option.map_eq_some_iff.mp hconf
    rfl
  · cases hconf
    rfl

private theorem loadLoop_torn (fuel : Nat) (hoff : l.entryOff = pre.length)
    (htorn : Torn lib checksumType torn) :
    loadLoop lib codec first (pre ++ torn) (fuel + 1) i l = some (0, l) := by
  rw [loadLoop, hoff]
  rcases htorn with rfl | ⟨r, n, hpack, hterm, hn, rfl⟩
  · rw [if_pos (by simp)]
  · have hlen : ((packEntry lib checksumType r).take n).length = n := by
      rw [List.length_take, length_packEntry]
      omega
    by_cases hzero : n = 0
    · rw [if_pos (by simp [hzero])]
    · rw [if_neg (by rw [List.length_append, hlen]; omega)]
      by_cases hshort : n < entryHeaderSize
      · rw [loadHeader_short (by rw [hlen]; exact hshort)]
        rfl
      · -- The header is whole: the length in it goes beyond the end of the file.
        have hcut : (packEntry lib checksumType r).take n =
            packHeader lib checksumType r ++ r.data.take (n - entryHeaderSize) := by
          rw [packEntry, List.take_append, length_packHeader, List.take_of_length_le]
          rw [length_packHeader]
          omega
        have hread : loadHeader lib (pre ++ (packEntry lib checksumType r).take n) pre.length
            entryHeaderSize = .ok (headerOf lib checksumType r, packHeader lib checksumType r ++
              (r.data.take (n - entryHeaderSize)).take (entryHeaderSize - entryHeaderSize)) := by
          rw [hcut]
          exact loadHeader_packHeader hpack hterm (Nat.le_add_right _ _)
        have hbeyond : (pre ++ (packEntry lib checksumType r).take n).length <
            pre.length + (entryHeaderSize + (headerOf lib checksumType r).dataLen) := by
          rw [List.length_append, hlen]
          exact Nat.add_lt_add_left hn _
        rw [hread]
        simp only [if_pos hbeyond]

private theorem loadLoop_entry {fuel : Nat} (hpack : Packable r) (hterm : r.term ≠ 0)
    (hoff : l.entryOff = pre.length) (hconf : l.addConfiguration codec i r = some l') :
    loadLoop lib codec first (pre ++ (packEntry lib checksumType r ++ post)) (fuel + 1) i l =
      if 0 ≤ r.index - first ∧ r.index - first < arraySize then
        loadLoop lib codec first (pre ++ (packEntry lib checksumType r ++ post)) fuel (i + 1)
          (l'.enter first r)
      else none := by
  have hread : loadHeader lib (pre ++ (packEntry lib checksumType r ++ post)) l.entryOff
      entryHeaderSize = .ok (headerOf lib checksumType r, packHeader lib checksumType r ++
        (r.data ++ post).take (entryHeaderSize - entryHeaderSize)) := by
    rw [hoff, packEntry, List.append_assoc]
    exact loadHeader_packHeader hpack hterm (Nat.le_add_right _ _)
  have hlen : (pre ++ (packEntry lib checksumType r ++ post)).length =
      pre.length + r.size + post.length := by
    rw [List.length_append, List.length_append, length_packEntry, Nat.add_assoc]
  have hwhole : entryHeaderSize + (headerOf lib checksumType r).dataLen = r.size := rfl
  have hpos := r.size_pos
  rw [loadLoop, if_neg (by omega), hread]
  dsimp only
  rw [hwhole, if_neg (by omega), loadConfiguration_packEntry hpack hterm hoff hconf]
  dsimp only
  rw [enterHeader_headerOf]
  rfl

variable {rs : List EntryRecord} {bytes : List UInt8}

theorem loadLoop_stored (hstored : Stored lib checksumType rs bytes)
    (htorn : Torn lib checksumType torn) {fuel : Nat} (hfuel : rs.length < fuel)
    (hoff : l.entryOff = pre.length) (hrecords : Loading.records codec first i l rs = some l') :
    loadLoop lib codec first (pre ++ (bytes ++ torn)) fuel i l = some (0, l') := by
  induction hstored generalizing pre fuel i l with
  | nil =>
    cases hrecords
    obtain ⟨fuel, rfl⟩ := Nat.exists_eq_add_of_lt hfuel
    exact loadLoop_torn _ hoff htorn
  | @cons r rest chunk bytes hchunk _ ih =>
    obtain ⟨fuel, rfl⟩ : ∃ n, fuel = n + 1 := ⟨fuel - 1, by omega⟩
    rw [Loading.records] at hrecords
    split at hrecords
    · cases hrecords
    · rename_i hterm
      obtain ⟨hpack, rfl⟩ := hchunk.2.1 hterm
      split at hrecords
      · rename_i hfits
        obtain ⟨next, hconf, hrest⟩ := Option.bind_eq_some_iff.mp hrecords
        have hnext := addConfiguration_entryOff hconf
        rw [List.append_assoc, loadLoop_entry hpack hterm hoff hconf, if_pos hfits,
          ← List.append_assoc]
        refine ih (by simpa using hfuel) ?_ hrest
        rw [List.length_append, length_packEntry, ← hoff, ← hnext]
        rfl
      · cases hrecords

private theorem loadLoop_dead {chunk : List UInt8} (hsize : entryHeaderSize ≤ chunk.length)
    (hterm : lib.unpack64 (slice chunk 0 8) = 0) (hoff : l.entryOff = pre.length) (fuel : Nat) :
    loadLoop lib codec first (pre ++ (chunk ++ post)) fuel i l = none := by
  induction fuel generalizing i with
  | zero => rfl
  | succ fuel ih =>
    have hpos : 0 < chunk.length := lt_of_lt_of_le (by decide) hsize
    have hmore : ¬ (pre ++ (chunk ++ post)).length ≤ l.entryOff := by
      rw [hoff, List.length_append, List.length_append]
      omega
    rw [loadLoop, if_neg hmore, hoff, loadHeader_dead hsize hterm]
    exact ih

theorem loadLoop_truncated (hstored : Stored lib checksumType rs bytes)
    (hparses : ∀ r ∈ rs, r.type = .configuration → (parseConfigurationMeta codec r.data).isSome)
    (hbroken : ¬ Intact rs) (hoff : l.entryOff = pre.length) (fuel : Nat) :
    loadLoop lib codec first (pre ++ bytes) fuel i l = none := by
  induction hstored generalizing pre fuel i l with
  | nil => exact absurd (fun r hr => by cases hr) hbroken
  | @cons r rest chunk bytes hchunk _ ih =>
    by_cases hterm : r.term = 0
    · have hsize : entryHeaderSize ≤ chunk.length := by
        rw [hchunk.1]
        exact Nat.le_add_right _ _
      exact loadLoop_dead hsize (hchunk.2.2 hterm) hoff fuel
    · obtain ⟨hpack, rfl⟩ := hchunk.2.1 hterm
      have hrest : ¬ Intact rest := by
        intro hintact
        apply hbroken
        intro r' hr'
        rcases List.mem_cons.mp hr' with rfl | hr'
        · exact hterm
        · exact hintact r' hr'
      obtain ⟨cm, hconf⟩ := addConfiguration_eq l i (hparses r (by simp))
      cases fuel with
      | zero => rfl
      | succ fuel =>
        rw [loadLoop_entry hpack hterm hoff hconf]
        split
        · rw [← List.append_assoc]
          refine ih (fun r' hr' => hparses r' (by simp [hr'])) hrest ?_ fuel
          rw [List.length_append, length_packEntry, ← hoff]
          rfl
        · rfl

end Loop

end HitConsistency.Log.SegmentImage
