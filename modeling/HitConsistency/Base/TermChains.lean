/- GID: HitConsistency/Base/TermChains
   digest: Logs whose entries all come from the logs of their terms, and what agreement follows. -/

import Mathlib.Data.List.Basic
import Mathlib.Data.List.Infix
import Mathlib.Order.Lattice

set_option autoImplicit false
set_option relaxedAutoImplicit false

/-!
Each term has one origin, the log of whoever writes entries of that term. A log is
chained when each of its entries is found in the origin of its term, with the same
entries before it. Two chained logs that meet in a term therefore agree up to there.
-/

namespace HitConsistency.Base.TermChains

variable {α ι : Type*} {term : α → ι} {origin origin' : ι → List α} {a b : List α}

/-- Every entry, with all entries before it, is as in the origin of its term. -/
def Chained (term : α → ι) (origin : ι → List α) (log : List α) : Prop :=
  ∀ k e, log[k]? = some e → log.take (k + 1) <+: origin (term e)

theorem getElem?_of_isPrefix (h : a <+: b) {i : Nat} (hi : i < a.length) : b[i]? = a[i]? := by
  obtain ⟨rest, rfl⟩ := h
  exact List.getElem?_append_left hi

theorem Chained.nil : Chained term origin [] := by
  intro k e he
  cases he

theorem Chained.isPrefix (h : Chained term origin a) (hb : b <+: a) : Chained term origin b := by
  intro k e he
  have hk : k < b.length := (List.getElem?_eq_some_iff.mp he).1
  have hsame := h k e (by rw [getElem?_of_isPrefix hb hk, he])
  obtain ⟨rest, rfl⟩ := hb
  rwa [List.take_append_of_le_length (by omega)] at hsame

theorem Chained.mono (h : Chained term origin a) (hgrow : ∀ t, origin t <+: origin' t) :
    Chained term origin' a :=
  fun k e he => (h k e he).trans (hgrow (term e))

theorem Chained.last (h : Chained term origin a) {e : α} (he : a.getLast? = some e) :
    a <+: origin (term e) := by
  have hne : a ≠ [] := by
    intro hnil
    rw [hnil] at he
    cases he
  have hlength : 0 < a.length := List.length_pos_of_ne_nil hne
  have hget : a[a.length - 1]? = some e := by rw [← List.getLast?_eq_getElem?, he]
  have hinit := h _ e hget
  rwa [Nat.sub_add_cancel hlength, List.take_length] at hinit

theorem Chained.append (h : Chained term origin a) {more : List α} {t : ι}
    (hterm : ∀ e ∈ more, term e = t) (hinit : a ++ more <+: origin t) :
    Chained term origin (a ++ more) := by
  intro k e he
  rcases lt_or_ge k a.length with hk | hk
  · rw [List.getElem?_append_left hk] at he
    rw [List.take_append_of_le_length (by omega)]
    exact h k e he
  · rw [List.getElem?_append_right hk] at he
    rw [hterm e (List.mem_of_getElem? he)]
    exact (List.take_prefix _ _).trans hinit

theorem Chained.eq_of_last (ha : Chained term origin a) (hb : Chained term origin b)
    (hlength : a.length = b.length) (hlast : a.getLast?.map term = b.getLast?.map term) :
    a = b := by
  cases hx : a.getLast? with
  | none =>
    rw [List.getLast?_eq_none_iff] at hx
    subst hx
    exact (List.length_eq_zero_iff.mp hlength.symm).symm
  | some x =>
    rw [hx, Option.map_some] at hlast
    obtain ⟨y, hy, hterm⟩ := Option.map_eq_some_iff.mp hlast.symm
    have hpa := ha.last hx
    have hpb := hb.last hy
    rw [hterm] at hpb
    exact (List.prefix_of_prefix_length_le hpa hpb hlength.le).eq_of_length hlength

theorem lt_length_of_sorted [LinearOrder ι] (h : b <+: a)
    (hordered : a.Pairwise fun x y => term x ≤ term y) {y e : α} {i : Nat}
    (hy : b.getLast? = some y) (he : a[i]? = some e) (hlt : term e < term y) : i < b.length := by
  have hlength : 0 < b.length := by
    apply List.length_pos_of_ne_nil
    rintro rfl
    cases hy
  by_contra hge
  have hlast : a[b.length - 1]? = some y := by
    rw [getElem?_of_isPrefix h (by omega), ← List.getLast?_eq_getElem?, hy]
  obtain ⟨hi, rfl⟩ := List.getElem?_eq_some_iff.mp he
  obtain ⟨hl, rfl⟩ := List.getElem?_eq_some_iff.mp hlast
  exact absurd (List.pairwise_iff_getElem.mp hordered _ _ hl hi (by omega)) (not_le.mpr hlt)

/-- A log that ends no earlier, by term and then by length, holds what a log holds at an
index, if that is so for the origin of a later term in which it ends. -/
theorem Chained.holds [LinearOrder ι] (ha : Chained term origin a) (hb : Chained term origin b)
    (hordered : a.Pairwise fun x y => term x ≤ term y) {x y e : α} {i : Nat}
    (hx : a.getLast? = some x) (hy : b.getLast? = some y) (he : a[i]? = some e)
    (hlater : term x < term y ∨ term x = term y ∧ a.length ≤ b.length)
    (horigin : term e < term y → i < b.length ∧ (origin (term y))[i]? = some e) :
    b[i]? = some e := by
  have hi : i < a.length := (List.getElem?_eq_some_iff.mp he).1
  have hpb := hb.last hy
  rcases hlater with hlt | ⟨hsame, hlength⟩
  · have hle : term e ≤ term x := by
      have hget : a[a.length - 1]? = some x := by rw [← List.getLast?_eq_getElem?, hx]
      obtain ⟨hi', rfl⟩ := List.getElem?_eq_some_iff.mp he
      obtain ⟨hl, rfl⟩ := List.getElem?_eq_some_iff.mp hget
      rcases Nat.lt_or_ge i (a.length - 1) with hlow | hhigh
      · exact List.pairwise_iff_getElem.mp hordered _ _ hi' hl hlow
      · have : i = a.length - 1 := by omega
        subst this
        exact le_rfl
    obtain ⟨hb', horig⟩ := horigin (lt_of_le_of_lt hle hlt)
    rw [← getElem?_of_isPrefix hpb hb']
    exact horig
  · have hpa := ha.last hx
    rw [hsame] at hpa
    rw [getElem?_of_isPrefix (List.prefix_of_prefix_length_le hpa hpb hlength) hi]
    exact he

end HitConsistency.Base.TermChains
