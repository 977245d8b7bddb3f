/- GID: HitConsistency/Base/ByteFields
   digest: Numbers as fields of bytes, and reads and writes at byte offsets. -/

import Mathlib.Data.Nat.ModEq
import Mathlib.Tactic.Ring

set_option autoImplicit false
set_option relaxedAutoImplicit false

/-!
A field has a fixed width and holds the low bytes of its number, the highest first.
-/

namespace HitConsistency.Base.ByteFields

def packBytes : Nat → Nat → List UInt8
  | 0, _ => []
  | width + 1, n => UInt8.ofNat (n / 256 ^ width) :: packBytes width n

def unpackBytes (bytes : List UInt8) : Nat := bytes.foldl (fun n b => n * 256 + b.toNat) 0

@[simp] theorem length_packBytes (width n : Nat) : (packBytes width n).length = width := by
  induction width with
  | zero => rfl
  | succ width ih => rw [packBytes, List.length_cons, ih]

private theorem foldl_packBytes (width n acc : Nat) :
    (packBytes width n).foldl (fun n b => n * 256 + b.toNat) acc =
      acc * 256 ^ width + n % 256 ^ width := by
  induction width generalizing acc with
  | zero => simp [packBytes, Nat.mod_one]
  | succ width ih =>
    have hbyte : (UInt8.ofNat (n / 256 ^ width)).toNat = n / 256 ^ width % 256 :=
      UInt8.toNat_ofNat'
    have hsplit : n % 256 ^ (width + 1) = n % 256 ^ width + 256 ^ width * (n / 256 ^ width % 256) :=
      Nat.mod_pow_succ
    rw [packBytes, List.foldl_cons, ih, hbyte, hsplit]
    ring

theorem unpackBytes_packBytes (width n : Nat) :
    unpackBytes (packBytes width n) = n % 256 ^ width := by
  rw [unpackBytes, foldl_packBytes, Nat.zero_mul, Nat.zero_add]

variable {α : Type*}

/-- The part of a file from an offset on, or what there is of it. -/
def slice (bytes : List α) (offset size : Nat) : List α := (bytes.drop offset).take size

def overwrite (bytes : List α) (offset : Nat) (part : List α) : List α :=
  bytes.take offset ++ part ++ bytes.drop (offset + part.length)

variable {pre mid post part bytes : List α} {offset size : Nat}

theorem slice_part (hpre : pre.length = offset) (hmid : size ≤ mid.length) :
    slice (pre ++ (mid ++ post)) offset size = mid.take size := by
  rw [slice, List.drop_left' hpre, List.take_append_of_le_length hmid]

theorem slice_start (hmid : mid.length = size) : slice (mid ++ post) 0 size = mid := by
  rw [slice, List.drop_zero, List.take_left' hmid]

theorem slice_skip (hpre : pre.length ≤ offset) :
    slice (pre ++ post) offset size = slice post (offset - pre.length) size := by
  rw [slice, List.drop_append, List.drop_eq_nil_of_le hpre, List.nil_append]
  rfl

theorem length_slice (bytes : List α) (offset size : Nat) :
    (slice bytes offset size).length = min size (bytes.length - offset) := by
  rw [slice, List.length_take, List.length_drop]

private theorem overwrite_append (hpre : pre.length = offset) (hfits : part.length ≤ mid.length) :
    overwrite (pre ++ (mid ++ post)) offset part =
      pre ++ (part ++ mid.drop part.length ++ post) := by
  have hback : (pre ++ (mid ++ post)).drop (offset + part.length) =
      mid.drop part.length ++ post := by
    rw [← hpre, List.drop_append, List.drop_eq_nil_of_le (by omega), List.nil_append,
      Nat.add_sub_cancel_left, List.drop_append_of_le_length hfits]
  rw [overwrite, List.take_left' hpre, hback]
  simp

theorem overwrite_start (hfits : part.length ≤ mid.length) :
    overwrite (mid ++ post) 0 part = part ++ mid.drop part.length ++ post := by
  have hstart : overwrite ([] ++ (mid ++ post)) 0 part =
      [] ++ (part ++ mid.drop part.length ++ post) := overwrite_append rfl hfits
  exact hstart

theorem overwrite_skip (hpre : pre.length ≤ offset) :
    overwrite (pre ++ post) offset part = pre ++ overwrite post (offset - pre.length) part := by
  have hmove : offset + part.length - pre.length = offset - pre.length + part.length := by omega
  rw [overwrite, overwrite, List.take_append, List.take_of_length_le hpre, List.drop_append,
    List.drop_eq_nil_of_le (by omega), hmove]
  simp

end HitConsistency.Base.ByteFields
