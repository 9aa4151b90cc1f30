import AllocationKeys.BruteForce.Rounds
import Mathlib.Algebra.Field.Rat
import Mathlib.Algebra.Order.Field.Rat
import Mathlib.Data.Fin.VecNotation

/-!
# Conservation of energy, whatever the readings

A distribution function conserves energy if it hands out the profile of its iteration, no more and
no less, at every time step. `egalitaire` and `prorata_total` always do. `prorata` divides by the
sum of all readings of a time step but gives a share only to the positive ones, so a negative
reading among them makes the shares add up to more than one (`post_conserves_iff`).
-/

namespace AllocationKeys.BruteForce

open EnergyRounds

variable {n T : ℕ} {K : Type*} [Field K] [LinearOrder K]

/-- The allocations of an iteration add up to `profile`, and so do what is consumed of them and the
surplus. -/
structure Conserves (profile : Fin T → K) (it : Iteration n T K) : Prop where
  allocated : ∀ t, ∑ i, (it.consumers i).energyAllocated t = profile t
  accounted : ∀ t, it.surplus t + ∑ i, (it.consumers i).energyAllocatedConsumed t = profile t

/-- At a time step with energy to distribute, whose readings sum to something positive, no reading
is negative. -/
def NoNegativeReading (it : Iteration n T K) : Prop :=
  ∀ t, energyProfile it t ≠ 0 → 0 < ∑ j, (it.consumers j).consumption t →
    ∀ i, 0 ≤ (it.consumers i).consumption t

variable [IsStrictOrderedRing K]

/-- What is consumed and the surplus add up to what is allocated. -/
theorem accounted_of_settled {it : Iteration n T K} (h : Settled it) (t : Fin T) :
    it.surplus t + ∑ i, (it.consumers i).energyAllocatedConsumed t
      = ∑ i, (it.consumers i).energyAllocated t := by
  rw [h.surplus, ← Finset.sum_add_distrib]
  refine Finset.sum_congr rfl fun i _ => ?_
  rw [h.consumed, add_comm]
  exact served_add_unused _ _

theorem conserves_iff_of_settled {profile : Fin T → K} {it : Iteration n T K} (h : Settled it) :
    Conserves profile it ↔ ∀ t, ∑ i, (it.consumers i).energyAllocated t = profile t :=
  ⟨Conserves.allocated, fun hall => ⟨hall, fun t => (accounted_of_settled h t).trans (hall t)⟩⟩

/-- The positive part of a sum is the sum exactly when no summand is negative. -/
theorem sum_positive_eq_iff {ι : Type*} [Fintype ι] {c : ι → K} :
    ∑ i, (if 0 < c i then c i else 0) = ∑ i, c i ↔ ∀ i, 0 ≤ c i := by
  have hle : ∀ i ∈ Finset.univ, c i ≤ if 0 < c i then c i else 0 := by
    intro i _
    split
    · exact le_rfl
    · exact not_lt.mp ‹_›
  rw [eq_comm, Finset.sum_eq_sum_iff_of_le hle]
  constructor
  · intro h i
    have hi := h i (Finset.mem_univ i)
    split at hi
    · exact le_of_lt ‹_›
    · exact hi.ge
  · intro h i _
    rcases (h i).eq_or_lt with hzero | hpos
    · rw [← hzero, if_neg (lt_irrefl _)]
    · rw [if_pos hpos]

/-- `prorata` hands out the profile of a time step exactly when no negative reading stands among
readings that sum to something positive. -/
theorem sum_prorataAllocated_iff (consumers : Fin (n + 1) → Consumer T K) (profile : Fin T → K)
    (t : Fin T) :
    ∑ i, prorataAllocated consumers profile i t = profile t ↔
      (profile t ≠ 0 → 0 < ∑ j, (consumers j).consumption t →
        ∀ i, 0 ≤ (consumers i).consumption t) := by
  by_cases hsum : 0 < ∑ j, (consumers j).consumption t
  swap
  · have hfirst : ∀ i, prorataAllocated consumers profile i t = if i = 0 then profile t else 0 := by
      intro i
      rw [prorataAllocated, if_neg hsum]
    simp only [hfirst, sum_if_zero, hsum, false_implies, implies_true]
  have hshare : ∀ i, prorataAllocated consumers profile i t =
      profile t / (∑ j, (consumers j).consumption t) *
        (if 0 < (consumers i).consumption t then (consumers i).consumption t else 0) := by
    intro i
    rw [prorataAllocated, if_pos hsum]
    split
    · rw [prorataShare, if_pos hsum, if_pos ‹_›]
      ring
    · rw [mul_zero]
  simp only [hshare, hsum, true_implies]
  rw [← Finset.mul_sum, ← sum_positive_eq_iff]
  by_cases hprofile : profile t = 0
  · simp [hprofile]
  · rw [div_mul_eq_mul_div, div_eq_iff hsum.ne', mul_right_inj' hprofile]
    simp [hprofile]

/-- **Energy is conserved, except by `prorata` where a negative reading stands among readings that
sum to something positive**: for every iteration, whatever its readings and its profile. -/
theorem post_conserves_iff (algo : AlgoName) (it : Iteration n T K) :
    Conserves (energyProfile it) (post algo it) ↔ (algo = .prorata → NoNegativeReading it) := by
  have hallocated : ∀ t, ∑ i, ((post algo it).consumers i).energyAllocated t
      = ∑ i, allocation algo it i t := fun t =>
    Finset.sum_congr rfl fun i _ => congrFun ((post_fields algo it).2.2 i).2.1 t
  rw [conserves_iff_of_settled (post_settled algo it)]
  simp only [hallocated]
  cases algo with
  | egalitaire => exact iff_of_true (fun t => sum_egalitaire it t) (by simp)
  | prorataTotal => exact iff_of_true (fun t => sum_prorataTotal it t) (by simp)
  | prorata =>
    simp only [allocation, true_implies]
    exact forall_congr' fun t => sum_prorataAllocated_iff it.consumers (energyProfile it) t

/-- Two meters, one of which injects: with readings of `3` and `-1`, the whole energy of `4` goes to
the first one and a half times. -/
def injectingMeter : Iteration 1 1 ℚ := makeRootIteration ![![3], ![-1]] fun _ _ => 4

theorem post_conserves_iff_injectingMeter :
    Conserves (energyProfile injectingMeter) (post .prorataTotal injectingMeter) ∧
      ¬ Conserves (energyProfile injectingMeter) (post .prorata injectingMeter) := by
  refine ⟨(post_conserves_iff .prorataTotal injectingMeter).mpr (by simp), fun h => ?_⟩
  have hnonneg := (post_conserves_iff .prorata injectingMeter).mp h rfl 0 (by decide +kernel)
    (by decide +kernel) 1
  exact absurd hnonneg (by decide +kernel)

theorem prorata_not_conserves : ¬ ∀ (algo : AlgoName) (it : Iteration 1 1 ℚ),
    Conserves (energyProfile it) (post algo it) := by
  intro h
  have hsum := (h .prorata injectingMeter).allocated 0
  exact absurd hsum (by decide +kernel)

end AllocationKeys.BruteForce
