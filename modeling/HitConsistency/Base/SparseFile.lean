/- GID: HitConsistency/Base/SparseFile
   digest: Files seen byte by byte: writes at offsets, over each other or side by side. -/

import HitConsistency.Base.CrashFiles
import Mathlib.Data.List.GetD

set_option autoImplicit false
set_option relaxedAutoImplicit false

namespace HitConsistency.Base.SparseFile

open HitConsistency.Base.CrashFiles

/-- The byte at a position; behind the end there are zeros. -/
def byteAt (content : List UInt8) (position : Nat) : UInt8 := content.getD position 0

/-- A write of at least one byte; a write of nothing leaves the length as it is. -/
def writeAt (content : List UInt8) (offset : Nat) (data : List UInt8) : List UInt8 :=
  if data = [] then content else pwrite content offset data

/-- The ranges of two writes have no byte in common. -/
def Apart (offset size offset' size' : Nat) : Prop :=
  offset + size ≤ offset' ∨ offset' + size' ≤ offset

instance apartDecidable (offset size offset' size' : Nat) :
    Decidable (Apart offset size offset' size') :=
  inferInstanceAs (Decidable (_ ∨ _))

variable {content data data' : List UInt8} {offset offset' size : Nat}

private theorem eq_of_byteAt {a b : List UInt8} (hlength : a.length = b.length)
    (h : ∀ i < a.length, byteAt a i = byteAt b i) : a = b := by
  refine List.ext_getElem hlength fun i hi hi' => ?_
  have hbyte := h i hi
  rwa [byteAt, byteAt, List.getD_eq_getElem _ _ hi, List.getD_eq_getElem _ _ hi'] at hbyte

theorem byteAt_of_le {i : Nat} (h : content.length ≤ i) : byteAt content i = 0 :=
  List.getD_eq_default _ _ h

theorem byteAt_append (a b : List UInt8) (i : Nat) :
    byteAt (a ++ b) i = if i < a.length then byteAt a i else byteAt b (i - a.length) := by
  unfold byteAt
  split
  · rename_i h
    exact List.getD_append _ _ _ _ h
  · rename_i h
    exact List.getD_append_right _ _ _ _ (Nat.le_of_not_lt h)

theorem byteAt_take (n i : Nat) :
    byteAt (content.take n) i = if i < n then byteAt content i else 0 := by
  simp only [byteAt, List.getD_eq_getElem?_getD, List.getElem?_take]
  split <;> rfl

theorem byteAt_drop (n i : Nat) : byteAt (content.drop n) i = byteAt content (n + i) := by
  simp only [byteAt, List.getD_eq_getElem?_getD, List.getElem?_drop]

theorem byteAt_replicate_zero (n i : Nat) : byteAt (List.replicate n 0) i = 0 := by
  simp only [byteAt, List.getD_eq_getElem?_getD, List.getElem?_replicate]
  split <;> rfl

section Pwrite

private theorem length_pwrite :
    (pwrite content offset data).length = max content.length (offset + data.length) := by
  simp only [pwrite, List.length_append, List.length_take, List.length_replicate,
    List.length_drop]
  omega

private theorem byteAt_pwrite (i : Nat) :
    byteAt (pwrite content offset data) i =
      if offset ≤ i ∧ i < offset + data.length then byteAt data (i - offset)
      else byteAt content i := by
  have hfront : (content.take offset ++ List.replicate (offset - content.length) 0).length =
      offset := by
    rw [List.length_append, List.length_take, List.length_replicate]
    omega
  have hzero : ∀ j, ¬ j < content.length → byteAt content j = 0 :=
    fun j hj => byteAt_of_le (Nat.le_of_not_lt hj)
  rw [pwrite, byteAt_append, byteAt_append, List.length_append, hfront, byteAt_drop]
  by_cases hlow : i < offset
  · rw [if_pos (by omega), if_pos hlow, if_neg (by omega), byteAt_append, byteAt_take, if_pos hlow,
      List.length_take, byteAt_replicate_zero]
    split
    · rfl
    · exact (hzero i (by omega)).symm
  · by_cases hhigh : i < offset + data.length
    · rw [if_pos hhigh, if_neg hlow, if_pos ⟨by omega, hhigh⟩]
    · rw [if_neg hhigh, if_neg (by omega)]
      congr 1
      omega

private theorem pwrite_append (content data data' : List UInt8) (offset : Nat) :
    pwrite (pwrite content offset data) (offset + data.length) data' =
      pwrite content offset (data ++ data') := by
  refine eq_of_byteAt ?_ fun i _ => ?_
  · rw [length_pwrite, length_pwrite, length_pwrite, List.length_append]
    omega
  · rw [byteAt_pwrite, byteAt_pwrite, byteAt_pwrite, byteAt_append, List.length_append]
    by_cases hlow : offset ≤ i
    · by_cases hmid : i < offset + data.length
      · rw [if_neg (by omega), if_pos ⟨hlow, hmid⟩, if_pos (by omega), if_pos (by omega)]
      · by_cases hhigh : i < offset + data.length + data'.length
        · rw [if_pos (by omega), if_pos (by omega), if_neg (by omega), Nat.sub_add_eq]
        · rw [if_neg (by omega), if_neg (by omega), if_neg (by omega)]
    · rw [if_neg (by omega), if_neg (by omega), if_neg (by omega)]

private theorem pread_pwrite (content data : List UInt8) (offset : Nat) :
    pread (pwrite content offset data) offset data.length = data := by
  have hlength : (pread (pwrite content offset data) offset data.length).length =
      data.length := by
    rw [pread, List.length_take, List.length_drop, length_pwrite]
    omega
  refine eq_of_byteAt hlength fun i hi => ?_
  rw [hlength] at hi
  rw [pread, byteAt_take, if_pos hi, byteAt_drop, byteAt_pwrite,
    if_pos ⟨Nat.le_add_right offset i, by omega⟩, Nat.add_sub_cancel_left]

end Pwrite

section Writes

private theorem length_writeAt (hdata : data ≠ []) :
    (writeAt content offset data).length = max content.length (offset + data.length) := by
  rw [writeAt, if_neg hdata, length_pwrite]

theorem byteAt_writeAt (i : Nat) :
    byteAt (writeAt content offset data) i =
      if offset ≤ i ∧ i < offset + data.length then byteAt data (i - offset)
      else byteAt content i := by
  unfold writeAt
  split
  · rename_i hnil
    rw [hnil, List.length_nil, if_neg (by omega)]
  · exact byteAt_pwrite i

theorem writeAt_append (content data data' : List UInt8) (offset : Nat) :
    writeAt (writeAt content offset data) (offset + data.length) data' =
      writeAt content offset (data ++ data') := by
  by_cases hdata : data = []
  · simp [writeAt, hdata]
  by_cases hdata' : data' = []
  · simp [writeAt, hdata']
  rw [writeAt, writeAt, writeAt, if_neg hdata, if_neg hdata', if_neg (by simp [hdata]),
    pwrite_append]

theorem pread_writeAt (content data : List UInt8) (offset : Nat) :
    pread (writeAt content offset data) offset data.length = data := by
  unfold writeAt
  split
  · rename_i hnil
    rw [hnil]
    exact List.take_zero
  · exact pread_pwrite content data offset

theorem writeAt_comm (h : Apart offset data.length offset' data'.length) :
    writeAt (writeAt content offset data) offset' data' =
      writeAt (writeAt content offset' data') offset data := by
  by_cases hdata : data = []
  · simp [writeAt, hdata]
  by_cases hdata' : data' = []
  · simp [writeAt, hdata']
  refine eq_of_byteAt ?_ fun i _ => ?_
  · rw [length_writeAt hdata', length_writeAt hdata, length_writeAt hdata, length_writeAt hdata']
    omega
  · rw [byteAt_writeAt, byteAt_writeAt, byteAt_writeAt, byteAt_writeAt]
    unfold Apart at h
    by_cases hin : offset ≤ i ∧ i < offset + data.length
    · rw [if_neg (by omega), if_pos hin, if_pos hin]
    · rw [if_neg hin, if_neg hin]

end Writes

end HitConsistency.Base.SparseFile
