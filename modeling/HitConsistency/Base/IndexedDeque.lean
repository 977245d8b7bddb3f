/- GID: HitConsistency/Base/IndexedDeque
   digest: Deques read and written through signed subscripts, with out-of-range access undefined. -/

import Mathlib.Data.List.Basic
import Mathlib.Data.List.Infix

set_option autoImplicit false
set_option relaxedAutoImplicit false

/-!
A deque that tracks the log positions `base, base + 1, ...` is subscripted with
`position - base`. The subscript is a signed difference: below the base or past
the end the access is undefined, and both operations return `none` there.
-/

namespace HitConsistency.Base.IndexedDeque

variable {α : Type*}

def item (q : List α) (d : Int) : Option α :=
  if 0 ≤ d then q[d.toNat]? else none

def store (q : List α) (d : Int) (v : α) : Option (List α) :=
  if 0 ≤ d ∧ d < q.length then some (q.set d.toNat v) else none

theorem item_eq_some_bounds {q : List α} {d : Int} {v : α} (h : item q d = some v) :
    0 ≤ d ∧ d < q.length := by
  unfold item at h
  split at h
  · obtain ⟨hl, -⟩ := List.getElem?_eq_some_iff.mp h
    omega
  · cases h

theorem exists_item {q : List α} {d : Int} (h0 : 0 ≤ d) (h1 : d < q.length) :
    ∃ v, item q d = some v := by
  have hl : d.toNat < q.length := by omega
  exact ⟨q[d.toNat], by simp [item, h0, hl]⟩

theorem mem_of_item {q : List α} {d : Int} {v : α} (h : item q d = some v) : v ∈ q := by
  obtain ⟨hlow, -⟩ := item_eq_some_bounds h
  rw [item, if_pos hlow] at h
  exact List.mem_of_getElem? h

theorem item_none_of_le {q : List α} {d : Int} (h : (q.length : Int) ≤ d) : item q d = none := by
  unfold item
  split
  · exact List.getElem?_eq_none (by omega)
  · rfl

theorem item_none_of_neg (q : List α) {d : Int} (h : d < 0) : item q d = none :=
  if_neg (by omega)

theorem item_cons_zero (v : α) (q : List α) : item (v :: q) 0 = some v := rfl

theorem item_cons_pos (v : α) (q : List α) {d : Int} (h : 0 < d) :
    item (v :: q) d = item q (d - 1) := by
  have hd : d.toNat = (d - 1).toNat + 1 := by omega
  have h0 : 0 ≤ d := by omega
  have h1 : 0 ≤ d - 1 := by omega
  rw [item, item, if_pos h0, if_pos h1, hd, List.getElem?_cons_succ]

theorem item_push (q : List α) (v : α) (d : Int) :
    item (q ++ [v]) d = if d = q.length then some v else item q d := by
  unfold item
  by_cases h0 : 0 ≤ d
  · by_cases hd : d = q.length
    · subst hd
      simp
    · rw [if_pos h0, if_pos h0, if_neg hd]
      by_cases hl : d.toNat < q.length
      · rw [List.getElem?_append_left hl]
      · rw [List.getElem?_eq_none (by simp; omega), List.getElem?_eq_none (by omega)]
  · have : ¬ d = (q.length : Int) := by omega
    simp [h0, this]

theorem item_drop (q : List α) (n : Nat) {d : Int} (h : 0 ≤ d) :
    item (q.drop n) d = item q (d + n) := by
  have h' : 0 ≤ d + n := by omega
  have e : (d + n).toNat = n + d.toNat := by omega
  simp [item, h, h', e]

theorem store_defined {q : List α} {d : Int} (v : α) (h0 : 0 ≤ d) (h1 : d < q.length) :
    store q d v = some (q.set d.toNat v) := by
  simp [store, h0, h1]

theorem store_length {q r : List α} {d : Int} {v : α} (h : store q d v = some r) :
    r.length = q.length := by
  unfold store at h
  split at h
  · cases h
    simp
  · cases h

theorem item_store {q r : List α} {d : Int} {v : α} (h : store q d v = some r) (e : Int) :
    item r e = if e = d then some v else item q e := by
  unfold store at h
  split at h
  · rename_i hb
    cases h
    unfold item
    by_cases he : 0 ≤ e
    · by_cases hd : e = d
      · subst hd
        have hl : e.toNat < q.length := by omega
        simp [he, hl]
      · have hne : d.toNat ≠ e.toNat := by omega
        simp [he, hd, List.getElem?_set_ne hne]
    · have hd : ¬ e = d := by omega
      simp [he, hd]
  · cases h

end HitConsistency.Base.IndexedDeque
