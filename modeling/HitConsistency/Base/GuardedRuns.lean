/- GID: HitConsistency/Base/GuardedRuns
   digest: Event runs of partial machines, guards met along a run, and the invariant rule. -/

import Mathlib.Data.List.Basic

set_option autoImplicit false
set_option relaxedAutoImplicit false

/-!
A machine executes one event at a time. A step that yields `none` has no defined
result, so a run through it has none either. A guard is a condition on the event
and the state it meets; `Guarded` says that a run never meets an event whose
guard fails.
-/

namespace HitConsistency.Base.GuardedRuns

variable {σ α : Type*}

def runEvents (step : σ → α → Option σ) : σ → List α → Option σ
  | s, [] => some s
  | s, a :: as => (step s a).bind fun t => runEvents step t as

/-- Every event of the run meets its guard in the state that executes it. -/
def Guarded (step : σ → α → Option σ) (guard : σ → α → Prop) : σ → List α → Prop
  | _, [] => True
  | s, a :: as => guard s a ∧ ∀ t ∈ step s a, Guarded step guard t as

instance guardedDecidable (step : σ → α → Option σ) (guard : σ → α → Prop)
    [∀ s a, Decidable (guard s a)] : ∀ (s : σ) (as : List α), Decidable (Guarded step guard s as)
  | _, [] => inferInstanceAs (Decidable True)
  | s, a :: as =>
      have rest : Decidable (∀ t ∈ step s a, Guarded step guard t as) :=
        match h : step s a with
        | none => .isTrue (by simp)
        | some t =>
            match guardedDecidable step guard t as with
            | .isTrue ht => .isTrue (by simpa using ht)
            | .isFalse ht => .isFalse (by simpa using ht)
      inferInstanceAs (Decidable (guard s a ∧ ∀ t ∈ step s a, Guarded step guard t as))

variable {step : σ → α → Option σ} {guard : σ → α → Prop}

@[simp] theorem runEvents_nil (s : σ) : runEvents step s [] = some s := rfl

theorem runEvents_cons_eq_some {s u : σ} {a : α} {as : List α} :
    runEvents step s (a :: as) = some u ↔
      ∃ t, step s a = some t ∧ runEvents step t as = some u := by
  simp [runEvents, Option.bind_eq_some_iff]

theorem runEvents_append_eq_some {s u : σ} {as bs : List α} :
    runEvents step s (as ++ bs) = some u ↔
      ∃ t, runEvents step s as = some t ∧ runEvents step t bs = some u := by
  induction as generalizing s with
  | nil => simp
  | cons a as ih =>
    rw [List.cons_append, runEvents_cons_eq_some]
    simp only [ih, runEvents_cons_eq_some]
    constructor
    · rintro ⟨t, ht, m, hm, hu⟩
      exact ⟨m, ⟨t, ht, hm⟩, hu⟩
    · rintro ⟨m, ⟨t, ht, hm⟩, hu⟩
      exact ⟨t, ht, m, hm, hu⟩

theorem step_defined_of_mem {s u : σ} {a : α} {as : List α} (hrun : runEvents step s as = some u)
    (ha : a ∈ as) : ∃ t m, step t a = some m := by
  obtain ⟨pre, post, rfl⟩ := List.append_of_mem ha
  obtain ⟨t, -, hrest⟩ := runEvents_append_eq_some.mp hrun
  obtain ⟨m, hm, -⟩ := runEvents_cons_eq_some.mp hrest
  exact ⟨t, m, hm⟩

theorem guarded_append_left {s : σ} {as bs : List α}
    (h : Guarded step guard s (as ++ bs)) : Guarded step guard s as := by
  induction as generalizing s with
  | nil => trivial
  | cons a as ih =>
    obtain ⟨ha, hrest⟩ := h
    exact ⟨ha, fun t ht => ih (hrest t ht)⟩

theorem guarded_append_right {s t : σ} {as bs : List α}
    (h : Guarded step guard s (as ++ bs)) (hrun : runEvents step s as = some t) :
    Guarded step guard t bs := by
  induction as generalizing s with
  | nil =>
    cases hrun
    exact h
  | cons a as ih =>
    obtain ⟨m, hm, hmt⟩ := runEvents_cons_eq_some.mp hrun
    exact ih (h.2 m hm) hmt

theorem guarded_iff {s : σ} {as : List α} :
    Guarded step guard s as ↔
      ∀ pre a post t, as = pre ++ a :: post → runEvents step s pre = some t → guard t a := by
  induction as generalizing s with
  | nil => simp [Guarded]
  | cons b as ih =>
    constructor
    · rintro ⟨hb, hrest⟩ pre a post t hsplit hrun
      cases pre with
      | nil =>
        cases hsplit
        cases hrun
        exact hb
      | cons c pre =>
        cases hsplit
        obtain ⟨m, hm, hmt⟩ := runEvents_cons_eq_some.mp hrun
        exact ih.mp (hrest m hm) pre a post t rfl hmt
    · intro h
      refine ⟨h [] b as s rfl rfl, fun m hm => ih.mpr ?_⟩
      rintro pre a post t rfl hrun
      exact h (b :: pre) a post t rfl (runEvents_cons_eq_some.mpr ⟨m, hm, hrun⟩)

theorem guarded_and {other : σ → α → Prop} {s : σ} {as : List α} :
    Guarded step (fun t a => guard t a ∧ other t a) s as ↔
      Guarded step guard s as ∧ Guarded step other s as := by
  simp only [guarded_iff]
  constructor
  · intro h
    exact ⟨fun pre a post t hsplit hrun => (h pre a post t hsplit hrun).1,
      fun pre a post t hsplit hrun => (h pre a post t hsplit hrun).2⟩
  · rintro ⟨hguard, hother⟩ pre a post t hsplit hrun
    exact ⟨hguard pre a post t hsplit hrun, hother pre a post t hsplit hrun⟩

theorem guarded_of_forall {event : α → Prop} {s : σ} {as : List α} (h : ∀ a ∈ as, event a) :
    Guarded step (fun _ a => event a) s as :=
  guarded_iff.mpr fun _ a _ _ hsplit _ => h a (by simp [hsplit])

theorem invariant_of_step {Inv : σ → Prop}
    (keep : ∀ s a t, Inv s → guard s a → step s a = some t → Inv t)
    {s t : σ} {as : List α} (h0 : Inv s) (hg : Guarded step guard s as)
    (hrun : runEvents step s as = some t) : Inv t := by
  induction as generalizing s with
  | nil =>
    cases hrun
    exact h0
  | cons a as ih =>
    obtain ⟨m, hm, hmt⟩ := runEvents_cons_eq_some.mp hrun
    exact ih (keep s a m h0 hg.1 hm) (hg.2 m hm) hmt

theorem invariant_of_every_step {Inv : σ → Prop}
    (keep : ∀ s a t, Inv s → step s a = some t → Inv t)
    {s t : σ} {as : List α} (h0 : Inv s) (hrun : runEvents step s as = some t) : Inv t := by
  induction as generalizing s with
  | nil =>
    cases hrun
    exact h0
  | cons a as ih =>
    obtain ⟨m, hm, hmt⟩ := runEvents_cons_eq_some.mp hrun
    exact ih (keep s a m h0 hm) hmt

theorem run_defined_of_step {Inv : σ → Prop}
    (progress : ∀ s a, Inv s → guard s a → ∃ t, step s a = some t ∧ Inv t)
    {s : σ} {as : List α} (h0 : Inv s) (hg : Guarded step guard s as) :
    ∃ t, runEvents step s as = some t ∧ Inv t := by
  induction as generalizing s with
  | nil => exact ⟨s, rfl, h0⟩
  | cons a as ih =>
    obtain ⟨m, hm, hinv⟩ := progress s a h0 hg.1
    obtain ⟨t, ht, hti⟩ := ih hinv (hg.2 m hm)
    exact ⟨t, runEvents_cons_eq_some.mpr ⟨m, hm, ht⟩, hti⟩

theorem guarded_of_run {Inv : σ → Prop}
    (meets : ∀ s a t, Inv s → step s a = some t → guard s a ∧ Inv t)
    {s t : σ} {as : List α} (h0 : Inv s) (hrun : runEvents step s as = some t) :
    Guarded step guard s as := by
  induction as generalizing s with
  | nil => trivial
  | cons a as ih =>
    obtain ⟨m, hm, hmt⟩ := runEvents_cons_eq_some.mp hrun
    refine ⟨(meets s a m h0 hm).1, fun m' hm' => ?_⟩
    cases hm.symm.trans hm'
    exact ih (meets s a m h0 hm).2 hmt

/-- Steps that are matched one by one in a second system make a run that is matched
there. -/
theorem matched_of_step {τ β : Type*} {apply : τ → β → τ} {Related : σ → τ → Prop}
    {Matches : α → β → Prop}
    (keep : ∀ s m a t, Related s m → guard s a → step s a = some t →
      ∃ b, Matches a b ∧ Related t (apply m b))
    {s t : σ} {m : τ} {as : List α} (h0 : Related s m) (hg : Guarded step guard s as)
    (hrun : runEvents step s as = some t) :
    ∃ bs, List.Forall₂ Matches as bs ∧ Related t (bs.foldl apply m) := by
  induction as generalizing s m with
  | nil =>
    cases hrun
    exact ⟨[], .nil, h0⟩
  | cons a as ih =>
    obtain ⟨u, hu, hut⟩ := runEvents_cons_eq_some.mp hrun
    obtain ⟨b, hmatch, hrelated⟩ := keep s m a u h0 hg.1 hu
    obtain ⟨bs, hmatches, hend⟩ := ih hrelated (hg.2 u hu) hut
    exact ⟨b :: bs, .cons hmatch hmatches, hend⟩

section Exact

variable {Inv Good : σ → Prop} (keep : ∀ s a t, Inv s → step s a = some t → Inv t)
include keep

theorem guarded_iff_passes_good
    (exact : ∀ s a, Inv s → Good s → (guard s a ↔ ∀ t, step s a = some t → Good t))
    {s : σ} {as : List α} (h0 : Inv s) (hgood : Good s) :
    Guarded step guard s as ↔
      ∀ pre post t, as = pre ++ post → runEvents step s pre = some t → Good t := by
  constructor
  · rintro hguarded pre post t rfl hrun
    have hstep : ∀ u a v, Inv u ∧ Good u → guard u a → step u a = some v → Inv v ∧ Good v := by
      rintro u a v ⟨hinv, hgood⟩ hguard hstep
      exact ⟨keep u a v hinv hstep, (exact u a hinv hgood).mp hguard v hstep⟩
    have hwell := invariant_of_step hstep ⟨h0, hgood⟩ (guarded_append_left hguarded) hrun
    exact hwell.2
  · intro hall
    refine guarded_iff.mpr fun pre a post t hsplit hrun => ?_
    have hinv := invariant_of_every_step keep h0 hrun
    refine (exact t a hinv (hall pre (a :: post) t hsplit hrun)).mpr fun u hstep => ?_
    refine hall (pre ++ [a]) post u (by simp [hsplit]) ?_
    exact runEvents_append_eq_some.mpr ⟨t, hrun, runEvents_cons_eq_some.mpr ⟨u, hstep, rfl⟩⟩

theorem guarded_iff_reaches_good
    (exact : ∀ s a, Inv s → Good s → (guard s a ↔ ∃ t, step s a = some t ∧ Good t))
    {s : σ} {as : List α} (h0 : Inv s) (hgood : Good s) :
    Guarded step guard s as ↔
      ∀ pre post, as = pre ++ post → ∃ t, runEvents step s pre = some t ∧ Good t := by
  constructor
  · rintro hguarded pre post rfl
    have hprogress : ∀ u a, Inv u ∧ Good u → guard u a →
        ∃ v, step u a = some v ∧ Inv v ∧ Good v := by
      rintro u a ⟨hinv, hgood⟩ hguard
      obtain ⟨v, hstep, hv⟩ := (exact u a hinv hgood).mp hguard
      exact ⟨v, hstep, keep u a v hinv hstep, hv⟩
    obtain ⟨t, hrun, -, ht⟩ :=
      run_defined_of_step hprogress ⟨h0, hgood⟩ (guarded_append_left hguarded)
    exact ⟨t, hrun, ht⟩
  · intro hall
    refine guarded_iff.mpr fun pre a post t hsplit hrun => ?_
    have hinv := invariant_of_every_step keep h0 hrun
    obtain ⟨t', hrun', ht⟩ := hall pre (a :: post) hsplit
    cases hrun.symm.trans hrun'
    obtain ⟨u, hrunu, hu⟩ := hall (pre ++ [a]) post (by simp [hsplit])
    obtain ⟨t', hrun', hone⟩ := runEvents_append_eq_some.mp hrunu
    cases hrun.symm.trans hrun'
    obtain ⟨v, hstep, hv⟩ := runEvents_cons_eq_some.mp hone
    cases hv
    exact (exact t a hinv ht).mpr ⟨u, hstep, hu⟩

end Exact

end HitConsistency.Base.GuardedRuns
