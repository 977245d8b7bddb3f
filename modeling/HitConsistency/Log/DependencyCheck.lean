/- GID: HitConsistency/Log/DependencyCheck
   digest: The dependency check of the log manager means membership in the log, up to a far-behind gate. -/

import HitConsistency.Log.MemoryLog

set_option autoImplicit false
set_option relaxedAutoImplicit false

namespace HitConsistency.Log.DependencyCheck

open HitConsistency.Base.SlidingBitmap
open HitConsistency.Log.MemoryLog

variable {γ : Type}

/-- So far below the largest index that an entry within the look-back may lie outside of
the bitmap; the check then lets every mask through. -/
def FarBehind (m : LogManager γ) (thisLogIndex : Int) : Prop :=
  thisLogIndex ≤ m.maxLogIndex ∧ 1024 ≤ m.maxLogIndex - thisLogIndex + m.dependencyLookBack

instance farBehindDecidable (m : LogManager γ) (thisLogIndex : Int) :
    Decidable (FarBehind m thisLogIndex) :=
  inferInstanceAs (Decidable (_ ∧ _))

private theorem marked_zero (map : BitVec 1024) (top i : Int) : Marked map top i
    (0 : BitVec 64) := by
  intro k hk
  simp at hk

theorem checkDependency_iff (m : LogManager γ) (thisLogIndex : Int) (dependency : BitVec 64) :
    m.checkDependency thisLogIndex dependency = true ↔ FarBehind m thisLogIndex ∨
      Marked m.dependencyBitmap m.maxLogIndex thisLogIndex dependency := by
  unfold LogManager.checkDependency FarBehind
  dsimp only
  split
  · rename_i hzero
    rw [hzero]
    exact iff_of_true rfl (.inr (marked_zero _ _ _))
  · split
    · rename_i habove
      have hnear : ¬ (thisLogIndex ≤ m.maxLogIndex ∧
          1024 ≤ m.maxLogIndex - thisLogIndex + m.dependencyLookBack) := by omega
      rw [decide_eq_true_eq, shiftLeft_covers_iff (by decide) _ (by omega), or_iff_right hnear]
    · rename_i hbelow
      split
      · rename_i hfar
        exact iff_of_true rfl (.inl ⟨by omega, hfar⟩)
      · rename_i hnear
        rw [decide_eq_true_eq, ushiftRight_covers_iff (by decide) _ (by omega),
          or_iff_right fun h => hnear h.2]

/-- The bitmap tells the truth about the last 1024 indexes of a log. -/
structure Truthful (m : LogManager γ) (inLog : Int → Prop) : Prop where
  top : ∀ i, inLog i → i ≤ m.maxLogIndex
  bits : ∀ j : Nat, j < 1024 →
    (m.dependencyBitmap.getLsbD j = true ↔ inLog (m.maxLogIndex - j))

private theorem Truthful.present_iff {m : LogManager γ} {inLog : Int → Prop} (h : Truthful m inLog)
    {i : Int} :
    present m.dependencyBitmap m.maxLogIndex i = true ↔ inLog i ∧ m.maxLogIndex - i < 1024 := by
  unfold present
  rw [Bool.and_eq_true, decide_eq_true_eq]
  constructor
  · rintro ⟨hle, hbit⟩
    have hwidth := BitVec.lt_of_getLsbD hbit
    have hin := (h.bits _ hwidth).mp hbit
    rw [show m.maxLogIndex - ((m.maxLogIndex - i).toNat : Int) = i by omega] at hin
    exact ⟨hin, by omega⟩
  · rintro ⟨hin, hwidth⟩
    have hle := h.top i hin
    refine ⟨hle, (h.bits _ (by omega)).mpr ?_⟩
    rw [show m.maxLogIndex - ((m.maxLogIndex - i).toNat : Int) = i by omega]
    exact hin

/-- A check that passes names present entries only, unless the index is far behind, where
it passes whatever the mask; and it passes when all of them are present in the window. -/
theorem checkDependency_sound_complete (m : LogManager γ) (inLog : Int → Prop)
    (h : Truthful m inLog) (thisLogIndex : Int) (dependency : BitVec 64) :
    (FarBehind m thisLogIndex → m.checkDependency thisLogIndex dependency = true) ∧
    (¬ FarBehind m thisLogIndex → m.checkDependency thisLogIndex dependency = true →
      ∀ k : Nat, dependency.getLsbD k = true → inLog (thisLogIndex - k)) ∧
    ((∀ k : Nat, dependency.getLsbD k = true → inLog (thisLogIndex - k) ∧
      m.maxLogIndex - (thisLogIndex - k) < 1024) →
        m.checkDependency thisLogIndex dependency = true) := by
  rw [checkDependency_iff]
  refine ⟨.inl, fun hnear hpass k hk => ?_, fun hin => .inr fun k hk => ?_⟩
  · have hmarked := hpass.resolve_left hnear
    exact (h.present_iff.mp (hmarked k hk)).1
  · exact h.present_iff.mpr (hin k hk)

/-- The log holds index 3 only, and 1000 is the largest one heard of. -/
private def gapped : LogManager Unit :=
  { (LogManager.fresh 63 : LogManager Unit) with
    maxLogIndex := 1000
    dependencyBitmap := 1#1024 <<< 997 }

private theorem gapped_truthful : Truthful gapped (· = 3) := by
  refine ⟨fun i hi => ?_, fun j hj => ?_⟩
  · rw [hi]
    decide
  · show (1#1024 <<< 997).getLsbD j = true ↔ (1000 : Int) - j = 3
    rw [BitVec.getLsbD_shiftLeft]
    simp only [Bool.and_eq_true, decide_eq_true_eq, Bool.not_eq_true', decide_eq_false_iff_not,
      BitVec.getLsbD_one]
    omega

theorem checkDependency_sound_complete_gapped :
    ¬ FarBehind gapped 1003 ∧ gapped.checkDependency 1003 (1#64 <<< 3) = false ∧
    ((FarBehind gapped 4 → gapped.checkDependency 4 2 = true) ∧
      (¬ FarBehind gapped 4 → gapped.checkDependency 4 2 = true →
        ∀ k : Nat, (2 : BitVec 64).getLsbD k = true → (4 : Int) - k = 3) ∧
      ((∀ k : Nat, (2 : BitVec 64).getLsbD k = true → (4 : Int) - k = 3 ∧
        (1000 : Int) - (4 - k) < 1024) → gapped.checkDependency 4 2 = true)) :=
  ⟨by decide, by decide +kernel,
    checkDependency_sound_complete gapped (· = 3) gapped_truthful 4 2⟩

/-- Index 5 is let through although index 4, which its mask points at, is not there. -/
theorem far_behind_unsound : Truthful gapped (· = 3) ∧ gapped.checkDependency 5 2 = true ∧
    (2 : BitVec 64).getLsbD 1 = true ∧ ¬ ((5 : Int) - (1 : Nat) = 3) :=
  ⟨gapped_truthful, by decide +kernel, by decide, by decide⟩

end HitConsistency.Log.DependencyCheck
