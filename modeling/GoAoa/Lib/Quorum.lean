import Mathlib.Data.Finset.Card

/-!
# Quorums

Counting facts about subsets of a finite electorate: two large subsets overlap, a large
overlap has a member outside any small faulty set, and the bound on the overlap is attained.
-/

namespace GoAoa.Quorum

open Finset

variable {α : Type} [DecidableEq α] {U S T B : Finset α}

theorem card_add_card_le (hS : S ⊆ U) (hT : T ⊆ U) : S.card + T.card ≤ U.card + (S ∩ T).card := by
  have hU := card_le_card (union_subset hS hT)
  have h := card_union_add_card_inter S T
  omega

theorem exists_correct (hB : B.card < (S ∩ T).card) : ∃ a ∈ S, a ∈ T ∧ a ∉ B := by
  obtain ⟨a, ha, hab⟩ := exists_mem_notMem_of_card_lt_card hB
  rw [mem_inter] at ha
  exact ⟨a, ha.1, ha.2, hab⟩

/-- **The overlap bound is attained**: any electorate of at most `2 * k` members has two
subsets of size `k` that share exactly `2 * k - |U|` members. -/
theorem exists_card_inter_eq {k : Nat} (hk : k ≤ U.card) (hU : U.card ≤ 2 * k) :
    ∃ S T : Finset α, S ⊆ U ∧ T ⊆ U ∧ S.card = k ∧ T.card = k ∧ (S ∩ T).card = 2 * k - U.card := by
  obtain ⟨S, hSU, hS⟩ := exists_subset_card_eq hk
  obtain ⟨R, hRS, hR⟩ := exists_subset_card_eq (show 2 * k - U.card ≤ S.card by omega)
  have hdisj : Disjoint R (U \ S) := disjoint_of_subset_left hRS disjoint_sdiff
  have hcard : (U \ S).card = U.card - k := by rw [card_sdiff_of_subset hSU, hS]
  refine ⟨S, R ∪ U \ S, hSU, union_subset (hRS.trans hSU) sdiff_subset, hS, ?_, ?_⟩
  · rw [card_union_of_disjoint hdisj, hR, hcard]; omega
  · rw [inter_union_distrib_left, inter_eq_right.2 hRS, inter_sdiff_self, union_empty, hR]

end GoAoa.Quorum
