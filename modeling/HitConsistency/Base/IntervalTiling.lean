/- GID: HitConsistency/Base/IntervalTiling
   digest: Lists of ranges that lie one behind the other, and the range an index falls into. -/

import Mathlib.Data.List.DropRight

set_option autoImplicit false
set_option relaxedAutoImplicit false

/-!
Each tile has a first and a last index; an empty one ends right before it begins. A
list of tiles covers the half-open interval from `a` to `e` if the first begins at
`a`, each begins where the one before it ended, and the last ends at `e`.
-/

namespace HitConsistency.Base.IntervalTiling

variable {τ : Type*} (first last : τ → Int)

def Tiles : Int → Int → List τ → Prop
  | a, e, [] => a = e
  | a, e, t :: rest => first t = a ∧ a ≤ last t + 1 ∧ Tiles (last t + 1) e rest

variable {first last} {a e i : Int} {t : τ} {ts us : List τ}

theorem tiles_append :
    Tiles first last a e (ts ++ us) ↔ ∃ c, Tiles first last a c ts ∧ Tiles first last c e us := by
  induction ts generalizing a with
  | nil => simp [Tiles]
  | cons t ts ih =>
    simp only [List.cons_append, Tiles, ih]
    constructor
    · rintro ⟨hfirst, hle, c, hts, hus⟩
      exact ⟨c, ⟨hfirst, hle, hts⟩, hus⟩
    · rintro ⟨c, ⟨hfirst, hle, hts⟩, hus⟩
      exact ⟨hfirst, hle, c, hts, hus⟩

theorem Tiles.le (h : Tiles first last a e ts) : a ≤ e := by
  induction ts generalizing a with
  | nil => exact Int.le_of_eq h
  | cons t ts ih =>
    have hrest := ih h.2.2
    have hhead := h.2.1
    omega

theorem Tiles.bounds (h : Tiles first last a e ts) (ht : t ∈ ts) :
    a ≤ first t ∧ first t ≤ last t + 1 ∧ last t + 1 ≤ e := by
  induction ts generalizing a with
  | nil => cases ht
  | cons head rest ih =>
    obtain ⟨hfirst, hle, hrest⟩ := h
    rcases List.mem_cons.mp ht with rfl | hmem
    · have hend := hrest.le
      omega
    · have hb := ih hrest hmem
      omega

theorem Tiles.end_le {k : Int} (h : Tiles first last a e ts) (ha : a ≤ k)
    (hlast : ∀ t ∈ ts, last t < k) : e ≤ k := by
  induction ts generalizing a with
  | nil =>
    have hae : a = e := h
    omega
  | cons t ts ih =>
    have ht := hlast t (by simp)
    exact ih h.2.2 (by omega) fun u hu => hlast u (by simp [hu])

theorem Tiles.pairwise (h : Tiles first last a e ts) :
    ts.Pairwise fun t u => last t < first u := by
  induction ts generalizing a with
  | nil => exact .nil
  | cons t ts ih =>
    refine List.Pairwise.cons ?_ (ih h.2.2)
    intro u hu
    have hb := h.2.2.bounds hu
    omega

theorem Tiles.map {f : τ → τ} (h : Tiles first last a e ts)
    (hsame : ∀ t ∈ ts, first (f t) = first t ∧ last (f t) = last t) :
    Tiles first last a e (ts.map f) := by
  induction ts generalizing a with
  | nil => exact h
  | cons t ts ih =>
    obtain ⟨hfirst, hle, hrest⟩ := h
    obtain ⟨hfirst', hlast'⟩ := hsame t (by simp)
    refine ⟨by omega, by omega, ?_⟩
    rw [hlast']
    exact ih hrest fun u hu => hsame u (by simp [hu])

/-- The tiles around one tile: those before it end where it begins, those behind it begin
where it ends. -/
theorem tiles_around :
    Tiles first last a e (ts ++ t :: us) ↔ Tiles first last a (first t) ts ∧
      first t ≤ last t + 1 ∧ Tiles first last (last t + 1) e us := by
  rw [tiles_append]
  constructor
  · rintro ⟨c, hts, rfl, hle, hus⟩
    exact ⟨hts, hle, hus⟩
  · rintro ⟨hts, hle, hus⟩
    exact ⟨first t, hts, rfl, hle, hus⟩

theorem Tiles.replace {t' : τ} (h : Tiles first last a e (ts ++ t :: us))
    (hfirst : first t' = first t) (hlast : last t' = last t) :
    Tiles first last a e (ts ++ t' :: us) := by
  rw [tiles_around] at h ⊢
  rw [hfirst, hlast]
  exact h

theorem Tiles.split (h : Tiles first last a e ts) (hlow : a ≤ i) (hhigh : i < e) :
    ∃ before t behind, ts = before ++ t :: behind ∧ first t ≤ i ∧ i ≤ last t := by
  induction ts generalizing a with
  | nil =>
    have hae : a = e := h
    omega
  | cons t ts ih =>
    obtain ⟨hfirst, -, hrest⟩ := h
    by_cases hi : i ≤ last t
    · exact ⟨[], t, ts, rfl, by omega, hi⟩
    · obtain ⟨before, u, behind, rfl, hu⟩ := ih hrest (by omega)
      exact ⟨t :: before, u, behind, rfl, hu⟩

theorem Tiles.takeWhile_first (h : Tiles first last a e (ts ++ t :: us)) (hlow : first t ≤ i)
    (hhigh : i ≤ last t) :
    (ts ++ t :: us).takeWhile (fun t => first t ≤ i) = ts ++ [t] := by
  obtain ⟨hts, -, hus⟩ := tiles_around.mp h
  rw [List.takeWhile_append_of_pos]
  · rw [List.takeWhile_cons_of_pos (by simpa using hlow)]
    congr 2
    cases us with
    | nil => rfl
    | cons u us =>
      have hu := hus.1
      rw [List.takeWhile_cons_of_neg]
      simp only [decide_eq_true_eq]
      omega
  · intro u hu
    have hb := hts.bounds hu
    simp only [decide_eq_true_eq]
    omega

theorem Tiles.rdropWhile_first (h : Tiles first last a e (ts ++ t :: us)) (hlow : first t ≤ i)
    (hhigh : i ≤ last t) :
    (ts ++ t :: us).rdropWhile (fun t => i < first t) = ts ++ [t] := by
  obtain ⟨-, -, hus⟩ := tiles_around.mp h
  have hbehind : ∀ u ∈ us.reverse, decide (i < first u) = true := by
    intro u hu
    have hb := hus.bounds (List.mem_reverse.mp hu)
    simp only [decide_eq_true_eq]
    omega
  have hdrop : (us.reverse ++ t :: ts.reverse).dropWhile (fun t => decide (i < first t)) =
      t :: ts.reverse := by
    rw [List.dropWhile_append_of_pos hbehind, List.dropWhile_cons_of_neg]
    simp only [decide_eq_true_eq]
    omega
  rw [List.rdropWhile, List.reverse_append, List.reverse_cons, List.append_assoc,
    List.singleton_append, hdrop]
  simp

section Lookup

variable {β : Type*} {get : τ → Int → Option β}

def lookup (get : τ → Int → Option β) (ts : List τ) (i : Int) : Option β :=
  ts.findSome? fun t => get t i

theorem lookup_around (h : Tiles first last a e (ts ++ t :: us)) (hlow : first t ≤ i)
    (hhigh : i ≤ last t)
    (hrange : ∀ u ∈ ts ++ t :: us, ∀ b, get u i = some b → first u ≤ i ∧ i ≤ last u) :
    lookup get (ts ++ t :: us) i = get t i := by
  obtain ⟨hts, -, hus⟩ := tiles_around.mp h
  have hbefore : lookup get ts i = none := by
    rw [lookup, List.findSome?_eq_none_iff]
    intro u hu
    by_contra hne
    obtain ⟨b, hb⟩ := Option.ne_none_iff_exists'.mp hne
    have hin := hrange u (by simp [hu]) b hb
    have hbounds := hts.bounds hu
    omega
  have hbehind : lookup get us i = none := by
    rw [lookup, List.findSome?_eq_none_iff]
    intro u hu
    by_contra hne
    obtain ⟨b, hb⟩ := Option.ne_none_iff_exists'.mp hne
    have hin := hrange u (by simp [hu]) b hb
    have hbounds := hus.bounds hu
    omega
  unfold lookup at *
  rw [List.findSome?_append, hbefore, List.findSome?_cons, hbehind]
  cases get t i with
  | none => rfl
  | some b => rfl

end Lookup

end HitConsistency.Base.IntervalTiling
