/- GID: HitConsistency/Base/MajorityQuorum
   digest: Majorities of a finite member set, their monotonicity and their intersection. -/

import Mathlib.Data.Finset.Card
import Mathlib.Data.Finset.Lattice.Lemmas

set_option autoImplicit false
set_option relaxedAutoImplicit false

namespace HitConsistency.Base.MajorityQuorum

variable {α : Type*} [DecidableEq α]

/-- The members of `voters` make up more than half of `members`. -/
def Majority (members voters : Finset α) : Prop :=
  members.card / 2 + 1 ≤ (members ∩ voters).card

instance majorityDecidable (members voters : Finset α) : Decidable (Majority members voters) :=
  inferInstanceAs (Decidable (_ ≤ _))

theorem Majority.mono {members voters more : Finset α} (h : Majority members voters)
    (sub : voters ⊆ more) : Majority members more :=
  h.trans (Finset.card_le_card (Finset.inter_subset_inter_left sub))

theorem not_majority_empty (members : Finset α) : ¬ Majority members ∅ := by
  simp [Majority]

theorem Majority.common_member {members A B : Finset α}
    (hA : Majority members A) (hB : Majority members B) :
    ∃ m ∈ members, m ∈ A ∧ m ∈ B := by
  have large : members.card < (members ∩ A).card + (members ∩ B).card := by
    unfold Majority at hA hB
    omega
  obtain ⟨m, hm⟩ := Finset.inter_nonempty_of_card_lt_card_add_card
    (s := members) Finset.inter_subset_left Finset.inter_subset_left large
  simp only [Finset.mem_inter] at hm
  exact ⟨m, hm.1.1, hm.1.2, hm.2.2⟩

end HitConsistency.Base.MajorityQuorum
