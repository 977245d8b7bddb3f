/- GID: HitConsistency/Base/CommutingRuns
   digest: Runs of the same steps that keep dependent steps in order end in the same state. -/

import HitConsistency.Base.SuppliedOrder
import Mathlib.Data.List.Perm.Basic
import Mathlib.Logic.Relation

set_option autoImplicit false
set_option relaxedAutoImplicit false

/-!
Steps that do not depend on each other commute. A run in which every step stands behind
what it depends on can then be rearranged into any other such run of the same steps.
-/

namespace HitConsistency.Base.CommutingRuns

open HitConsistency.Base.SuppliedOrder

variable {σ α : Type*}

def Swappable (step : σ → α → σ) (x y : α) : Prop := ∀ s, step (step s x) y = step (step s y) x

variable {step : σ → α → σ} {dep : α → α → Prop} {known : α → Prop} {x : α} {xs ys pre post : List α}

theorem Swappable.symm {y : α} (h : Swappable step x y) : Swappable step y x :=
  fun s => (h s).symm

private theorem foldl_swap (h : ∀ y ∈ xs, Swappable step x y) (s : σ) :
    xs.foldl step (step s x) = step (xs.foldl step s) x := by
  induction xs generalizing s with
  | nil => rfl
  | cons y ys ih =>
    rw [List.foldl_cons, List.foldl_cons, h y List.mem_cons_self s]
    exact ih (fun z hz => h z (List.mem_cons_of_mem y hz)) (step s y)

private theorem supplied_remove (h : Supplied dep known (pre ++ x :: post)) :
    Supplied dep (fun y => known y ∨ y = x) (pre ++ post) := by
  obtain ⟨hpre, hrest⟩ := supplied_append.mp h
  obtain ⟨-, hpost⟩ := supplied_cons.mp hrest
  refine supplied_append.mpr ⟨hpre.mono fun y hy => .inl hy, hpost.mono ?_⟩
  rintro y ((hy | hy) | rfl)
  · exact .inl (.inl hy)
  · exact .inr hy
  · exact .inl (.inr rfl)

/-- Two supplied sequences of the same distinct steps lead to the same state, if steps
that do not depend on each other may be swapped. -/
theorem foldl_eq_of_supplied (hxs : Supplied dep known xs) (hys : Supplied dep known ys)
    (hperm : xs.Perm ys) (hnodup : xs.Nodup) (hnew : ∀ y ∈ xs, ¬ known y)
    (hswap : ∀ y ∈ xs, ∀ z ∈ xs, y ≠ z → ¬ dep y z → ¬ dep z y → Swappable step y z) (s : σ) :
    xs.foldl step s = ys.foldl step s := by
  induction xs generalizing ys known s with
  | nil =>
    rw [List.Perm.nil_eq hperm]
  | cons x xs ih =>
    obtain ⟨hx, hrest⟩ := supplied_cons.mp hxs
    obtain ⟨hfresh, hnodup'⟩ := List.nodup_cons.mp hnodup
    obtain ⟨pre, post, rfl⟩ := List.append_of_mem (hperm.mem_iff.mp List.mem_cons_self)
    have hperm' : xs.Perm (pre ++ post) :=
      (List.perm_cons x).mp (hperm.trans List.perm_middle)
    -- What stands before `x` neither needs it nor is needed by it.
    have hbefore : ∀ y ∈ pre, Swappable step x y := by
      intro y hy
      have hmem : y ∈ xs := hperm'.mem_iff.mpr (List.mem_append_left post hy)
      have hne : x ≠ y := fun h => hfresh (h ▸ hmem)
      refine hswap x List.mem_cons_self y (List.mem_cons_of_mem x hmem) hne (fun hdep => ?_) ?_
      · exact hnew y (List.mem_cons_of_mem x hmem) (hx y hdep)
      · intro hdep
        obtain ⟨front, back, hsplit⟩ := List.append_of_mem hy
        have hneeds := hys front y (back ++ x :: post) (by rw [hsplit]; simp) x hdep
        rcases hneeds with hknown | hfront
        · exact hnew x List.mem_cons_self hknown
        · have hin : x ∈ pre := by
            rw [hsplit]
            exact List.mem_append_left _ hfront
          exact hfresh (hperm'.mem_iff.mpr (List.mem_append_left post hin))
    have hsame := ih hrest (supplied_remove hys) hperm' hnodup'
      (fun y hy => by
        rintro (hknown | rfl)
        · exact hnew y (List.mem_cons_of_mem x hy) hknown
        · exact hfresh hy)
      (fun y hy z hz => hswap y (List.mem_cons_of_mem x hy) z (List.mem_cons_of_mem x hz))
      (step s x)
    rw [List.foldl_cons, hsame, List.foldl_append, foldl_swap hbefore, List.foldl_append,
      List.foldl_cons]

theorem supplied_transGen (h : Supplied dep (fun _ => False) xs) :
    Supplied (Relation.TransGen dep) (fun _ => False) xs := by
  intro pre x post hsplit y hdep
  refine .inr ?_
  induction hdep using Relation.TransGen.head_induction_on generalizing pre post with
  | single hxy => exact (h pre _ post hsplit y hxy).resolve_left id
  | @head x z hxz _ ih =>
    obtain ⟨front, back, rfl⟩ := List.append_of_mem ((h pre x post hsplit z hxz).resolve_left id)
    exact List.mem_append_left _ (ih front (back ++ x :: post) (by rw [hsplit]; simp))

end HitConsistency.Base.CommutingRuns
