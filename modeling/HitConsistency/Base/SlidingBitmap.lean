/- GID: HitConsistency/Base/SlidingBitmap
   digest: A fixed-width bitmap of the positions below a moving top. -/

import Mathlib.Data.BitVec

set_option autoImplicit false
set_option relaxedAutoImplicit false

/-!
Bit `j` of the map speaks about the position `top - j`. Raising the top shifts the
map by one; positions that fall off its width are forgotten.
-/

namespace HitConsistency.Base.SlidingBitmap

variable {w : Nat}

/-- The bit of position `i` under the top `top`; positions above the top have none. -/
def present (map : BitVec w) (top i : Int) : Bool :=
  decide (i ≤ top) && map.getLsbD (top - i).toNat

/-- Raise the top by one, with `b` as the bit of the new top. -/
def shiftIn (map : BitVec w) (b : Bool) : BitVec w :=
  if b then (map <<< 1) ||| BitVec.twoPow w 0 else map <<< 1

/-- Set one bit; a subscript outside the width is an error. -/
def mark (map : BitVec w) (j : Int) : Option (BitVec w) :=
  if 0 ≤ j ∧ j < w then some (map ||| BitVec.twoPow w j.toNat) else none

theorem present_of_top_lt (map : BitVec w) {top i : Int} (h : top < i) :
    present map top i = false := by
  simp [present, h]

theorem present_shiftIn_top (hw : 0 < w) (map : BitVec w) (b : Bool) (top : Int) :
    present (shiftIn map b) (top + 1) (top + 1) = b := by
  cases b <;> simp [present, shiftIn, hw]

theorem present_shiftIn_below (map : BitVec w) (b : Bool) {top i : Int} (h : i ≤ top)
    (hi : top + 1 - i < w) : present (shiftIn map b) (top + 1) i = present map top i := by
  have h' : i ≤ top + 1 := by omega
  have hj : (top + 1 - i).toNat = (top - i).toNat + 1 := by omega
  have hlt : (top - i).toNat + 1 < w := by omega
  have hbit : (shiftIn map b).getLsbD ((top - i).toNat + 1) = map.getLsbD (top - i).toNat := by
    unfold shiftIn
    split
    · rw [BitVec.getLsbD_or, BitVec.getLsbD_shiftLeft, BitVec.getLsbD_twoPow]
      simp [hlt]
    · rw [BitVec.getLsbD_shiftLeft]
      simp [hlt]
  simp only [present, h, h', hj, hbit]

theorem mark_defined (map : BitVec w) {j : Int} (h0 : 0 ≤ j) (hw : j < w) :
    ∃ map', mark map j = some map' :=
  ⟨_, if_pos ⟨h0, hw⟩⟩

theorem present_mark {map map' : BitVec w} {top i : Int} (h : mark map (top - i) = some map')
    (k : Int) : present map' top k = (decide (k = i) || present map top k) := by
  unfold mark at h
  split at h
  · rename_i hb
    cases h
    by_cases hk : k ≤ top
    · have hj : (top - i).toNat = (top - k).toNat ↔ k = i := by omega
      have hi : i ≤ top := by omega
      by_cases hki : k = i
      · subst hki
        have : (top - k).toNat < w := by omega
        simp [present, hk, this]
      · have : ¬ (top - i).toNat = (top - k).toNat := fun e => hki (hj.mp e)
        simp [present, hk, hki, BitVec.getLsbD_twoPow, this]
    · have : ¬ k = i := by omega
      simp [present, hk, this]
  · cases h

private theorem and_eq_right_iff {x mask : BitVec w} :
    x &&& mask = mask ↔ ∀ k, mask.getLsbD k = true → x.getLsbD k = true := by
  constructor
  · intro h k hk
    rw [← h, BitVec.getLsbD_and] at hk
    exact (Bool.and_eq_true_iff.mp hk).1
  · intro h
    apply BitVec.eq_of_getLsbD_eq
    intro k _
    rw [BitVec.getLsbD_and]
    cases hk : mask.getLsbD k with
    | false => rw [Bool.and_false]
    | true => rw [h k hk, Bool.and_true]

variable {v : Nat}

/-- The positions that a mask points at, counted down from position `i`, are all set. -/
def Marked (map : BitVec w) (top i : Int) (mask : BitVec v) : Prop :=
  ∀ k : Nat, mask.getLsbD k = true → present map top (i - k) = true

instance markedDecidable (map : BitVec w) (top i : Int) (mask : BitVec v) :
    Decidable (Marked map top i mask) :=
  decidable_of_iff (∀ k < v, mask.getLsbD k = true → present map top (i - k) = true)
    ⟨fun h k hk => h k (BitVec.lt_of_getLsbD hk) hk, fun h k _ hk => h k hk⟩

private theorem getLsbD_wider (hv : v ≤ w) (mask : BitVec v) (k : Nat) :
    (mask.setWidth w).getLsbD k = mask.getLsbD k := by
  rw [BitVec.getLsbD_setWidth]
  cases hk : mask.getLsbD k with
  | false => rw [Bool.and_false]
  | true =>
    have := BitVec.lt_of_getLsbD hk
    simp
    omega

theorem shiftLeft_covers_iff (hv : v ≤ w) (map : BitVec w) {top i : Int} (hi : top ≤ i)
    (mask : BitVec v) :
    (map <<< (i - top).toNat) &&& mask.setWidth w = mask.setWidth w ↔ Marked map top i mask := by
  rw [and_eq_right_iff]
  refine forall_congr' fun k => ?_
  rw [getLsbD_wider hv]
  refine imp_congr_right fun hk => ?_
  have hlt := BitVec.lt_of_getLsbD hk
  rw [BitVec.getLsbD_shiftLeft, present]
  have hpos : (top - (i - (k : Int))).toNat = k - (i - top).toNat := by omega
  rw [hpos]
  simp only [Bool.and_eq_true, decide_eq_true_eq, Bool.not_eq_true', decide_eq_false_iff_not,
    not_lt]
  constructor
  · rintro ⟨⟨-, hle⟩, hbit⟩
    exact ⟨by omega, hbit⟩
  · rintro ⟨hle, hbit⟩
    exact ⟨⟨by omega, by omega⟩, hbit⟩

theorem ushiftRight_covers_iff (hv : v ≤ w) (map : BitVec w) {top i : Int} (hi : i ≤ top)
    (mask : BitVec v) :
    (map >>> (top - i).toNat) &&& mask.setWidth w = mask.setWidth w ↔ Marked map top i mask := by
  rw [and_eq_right_iff]
  refine forall_congr' fun k => ?_
  rw [getLsbD_wider hv]
  refine imp_congr_right fun _ => ?_
  rw [BitVec.getLsbD_ushiftRight, present]
  have hpos : (top - (i - (k : Int))).toNat = (top - i).toNat + k := by omega
  have hle : i - (k : Int) ≤ top := by omega
  simp [hpos, hle]

end HitConsistency.Base.SlidingBitmap
