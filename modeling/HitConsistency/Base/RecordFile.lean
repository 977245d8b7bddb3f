/- GID: HitConsistency/Base/RecordFile
   digest: Files of sized records, read and rewritten at byte offsets. -/

import Mathlib.Algebra.GroupWithZero.Nat
import Mathlib.Data.List.Basic

set_option autoImplicit false
set_option relaxedAutoImplicit false

/-!
A file is a list of records, each of a known positive size. An offset names the
record that starts there; an offset inside a record names none.
-/

namespace HitConsistency.Base.RecordFile

variable {ρ : Type*} (size : ρ → Nat)

def fileSize (file : List ρ) : Nat := (file.map size).sum

def recordAt : List ρ → Nat → Option ρ
  | [], _ => none
  | r :: rest, offset =>
      if offset = 0 then some r
      else if offset < size r then none
      else recordAt rest (offset - size r)

/-- Change the record that starts at an offset in place. -/
def rewriteAt (f : ρ → ρ) : List ρ → Nat → List ρ
  | [], _ => []
  | r :: rest, offset =>
      if offset = 0 then f r :: rest
      else if offset < size r then r :: rest
      else r :: rewriteAt f rest (offset - size r)

variable {size}

@[simp] theorem fileSize_nil : fileSize size [] = 0 := rfl

@[simp] theorem fileSize_cons (r : ρ) (rest : List ρ) :
    fileSize size (r :: rest) = size r + fileSize size rest := by
  simp [fileSize]

theorem fileSize_push (file : List ρ) (r : ρ) :
    fileSize size (file ++ [r]) = fileSize size file + size r := by
  simp [fileSize]

theorem recordAt_lt {file : List ρ} {offset : Nat} {r : ρ} (hpos : ∀ r, 0 < size r)
    (h : recordAt size file offset = some r) : offset < fileSize size file := by
  induction file generalizing offset with
  | nil => cases h
  | cons head rest ih =>
    have hhead := hpos head
    rw [fileSize_cons]
    simp only [recordAt] at h
    split at h
    · omega
    · split at h
      · omega
      · have hlt := ih h
        omega

theorem mem_of_recordAt {file : List ρ} {offset : Nat} {r : ρ}
    (h : recordAt size file offset = some r) : r ∈ file := by
  induction file generalizing offset with
  | nil => cases h
  | cons head rest ih =>
    simp only [recordAt] at h
    split at h
    · cases h
      exact List.mem_cons_self
    · split at h
      · cases h
      · exact List.mem_cons_of_mem _ (ih h)

theorem recordAt_push (hpos : ∀ r, 0 < size r) (file : List ρ) (r : ρ) (offset : Nat) :
    recordAt size (file ++ [r]) offset =
      if offset = fileSize size file then some r else recordAt size file offset := by
  induction file generalizing offset with
  | nil =>
    by_cases h0 : offset = 0
    · simp [recordAt, h0]
    · simp [recordAt, h0]
  | cons head rest ih =>
    have hhead := hpos head
    simp only [List.cons_append, recordAt, fileSize_cons]
    by_cases h0 : offset = 0
    · rw [if_pos h0, if_neg (by omega)]
      simp [h0]
    · by_cases hin : offset < size head
      · rw [if_neg h0, if_pos hin, if_neg (by omega), if_neg h0, if_pos hin]
      · rw [if_neg h0, if_neg hin, ih, if_neg h0, if_neg hin]
        by_cases hend : offset = size head + fileSize size rest
        · rw [if_pos (by omega), if_pos hend]
        · rw [if_neg (by omega), if_neg hend]

section Rewrite

variable {f : ρ → ρ}

theorem fileSize_rewriteAt (hsize : ∀ r, size (f r) = size r) (file : List ρ) (offset : Nat) :
    fileSize size (rewriteAt size f file offset) = fileSize size file := by
  induction file generalizing offset with
  | nil => rfl
  | cons head rest ih =>
    simp only [rewriteAt]
    split
    · simp [hsize]
    · split
      · rfl
      · simp [ih]

theorem recordAt_rewriteAt (hsize : ∀ r, size (f r) = size r) (file : List ρ)
    (offset other : Nat) :
    recordAt size (rewriteAt size f file offset) other =
      if other = offset then (recordAt size file other).map f else recordAt size file other := by
  induction file generalizing offset other with
  | nil => simp [rewriteAt, recordAt]
  | cons head rest ih =>
    by_cases h0 : offset = 0
    · subst h0
      simp only [rewriteAt, if_true, recordAt, hsize]
      by_cases hother : other = 0
      · simp [hother]
      · simp [hother]
    · by_cases hin : offset < size head
      · simp only [rewriteAt, if_neg h0, if_pos hin]
        by_cases hsame : other = offset
        · subst hsame
          simp [recordAt, h0, hin]
        · simp [hsame]
      · simp only [rewriteAt, if_neg h0, if_neg hin, recordAt]
        by_cases hother : other = 0
        · have hne : other ≠ offset := by omega
          simp [hother, Ne.symm h0]
        · simp only [if_neg hother]
          by_cases hshort : other < size head
          · have hne : other ≠ offset := by omega
            simp [hshort, hne]
          · simp only [if_neg hshort, ih]
            by_cases hsame : other = offset
            · simp [hsame]
            · rw [if_neg (by omega), if_neg hsame]

theorem mem_rewriteAt {file : List ρ} {offset : Nat} {r : ρ}
    (h : recordAt size file offset = some r) : f r ∈ rewriteAt size f file offset := by
  induction file generalizing offset with
  | nil => cases h
  | cons head rest ih =>
    simp only [recordAt] at h
    simp only [rewriteAt]
    split at h
    · cases h
      simp_all
    · split at h
      · cases h
      · rename_i h0 hin
        rw [if_neg h0, if_neg hin]
        exact List.mem_cons_of_mem _ (ih h)

end Rewrite

end HitConsistency.Base.RecordFile
