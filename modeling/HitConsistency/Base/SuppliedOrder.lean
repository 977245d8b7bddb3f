/- GID: HitConsistency/Base/SuppliedOrder
   digest: Sequences in which every element stands behind the elements it depends on. -/

import Mathlib.Data.List.Basic

set_option autoImplicit false
set_option relaxedAutoImplicit false

/-!
A sequence is supplied when, for each of its elements, everything the element
depends on either was known before the sequence began or stands earlier in it.
Repetitions are allowed: an element that comes again needs nothing new.
-/

namespace HitConsistency.Base.SuppliedOrder

variable {α : Type*}

/-- Every element stands behind what it depends on, unless that was known before. -/
def Supplied (dep : α → α → Prop) (known : α → Prop) (xs : List α) : Prop :=
  ∀ pre x post, xs = pre ++ x :: post → ∀ y, dep x y → known y ∨ y ∈ pre

variable {dep : α → α → Prop} {known : α → Prop} {x : α} {xs ys : List α}

theorem supplied_nil : Supplied dep known [] := by
  intro pre x post hsplit
  simp at hsplit

theorem supplied_cons :
    Supplied dep known (x :: xs) ↔
      (∀ y, dep x y → known y) ∧ Supplied dep (fun y => known y ∨ y = x) xs := by
  constructor
  · intro h
    constructor
    · intro y hy
      simpa using h [] x xs rfl y hy
    · intro pre z post hsplit y hy
      have := h (x :: pre) z post (by rw [hsplit, List.cons_append]) y hy
      rw [List.mem_cons] at this
      tauto
  · rintro ⟨hx, hrest⟩ pre z post hsplit y hy
    cases pre with
    | nil =>
      cases hsplit
      exact .inl (hx y hy)
    | cons w pre =>
      cases hsplit
      have := hrest pre z post rfl y hy
      rw [List.mem_cons]
      tauto

theorem Supplied.mono {known' : α → Prop} (h : Supplied dep known xs)
    (himp : ∀ y, known y → known' y) : Supplied dep known' xs :=
  fun pre x post hsplit y hy => (h pre x post hsplit y hy).imp_left (himp y)

theorem Supplied.congr {dep' : α → α → Prop} (h : Supplied dep known xs)
    (himp : ∀ x ∈ xs, ∀ y, dep' x y → dep x y) : Supplied dep' known xs :=
  fun pre x post hsplit y hy => h pre x post hsplit y (himp x (by simp [hsplit]) y hy)

theorem supplied_append :
    Supplied dep known (xs ++ ys) ↔
      Supplied dep known xs ∧ Supplied dep (fun y => known y ∨ y ∈ xs) ys := by
  induction xs generalizing known with
  | nil => simp [supplied_nil]
  | cons x xs ih =>
    rw [List.cons_append, supplied_cons, supplied_cons, ih, and_assoc]
    simp only [List.mem_cons, or_assoc]

theorem Supplied.repeat (h : Supplied dep known xs) (hmem : ∀ y ∈ ys, y ∈ xs) :
    Supplied dep known (xs ++ ys) := by
  refine supplied_append.mpr ⟨h, fun pre x post hsplit y hy => ?_⟩
  obtain ⟨before, behind, hxs⟩ := List.append_of_mem (hmem x (by simp [hsplit]))
  rcases h before x behind hxs y hy with hknown | hbefore
  · exact .inl (.inl hknown)
  · exact .inl (.inr (by simp [hxs, hbefore]))

theorem supplied_of_known (hxs : Supplied dep (fun _ => False) xs)
    (hys : Supplied dep (· ∈ xs) ys) : Supplied dep (fun _ => False) (xs ++ ys) :=
  supplied_append.mpr ⟨hxs, hys.mono fun _ hy => .inr hy⟩

theorem Supplied.take (h : Supplied dep known xs) (n : Nat) : Supplied dep known (xs.take n) := by
  rw [← List.take_append_drop n xs] at h
  exact (supplied_append.mp h).1

end HitConsistency.Base.SuppliedOrder
