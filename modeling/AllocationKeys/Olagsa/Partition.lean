import AllocationKeys.Olagsa.Geometry
import Mathlib.Data.Int.Cast.Lemmas
import Mathlib.Data.List.Pairwise

/-!
# The parts of the triangle as a partition

The cells of a divided triangle, as the sets of points they are: each point of the triangle is in
one of them (`cells_cover`), and a point inside one is in no other (`cells_apart`).

`Triangle.point_within` compares distances, and accepts more than the triangle: next to each side
it adds the cap between the side and the arc around the opposite corner (`pointWithin_iff`). A cap
lies inside the neighbouring cell. That is shown on the grid of the cells: the barycentric
coordinates of a point of a cap are no integers, so they are none in any other cell either
(`offGrid_cells`), and no such point is on a side (`inside_of_cap`).
-/

namespace AllocationKeys.Olagsa

variable {K : Type} [Field K]

/-! ### Barycentric coordinates -/

/-- The point has these barycentric coordinates in the triangle. -/
structure Triangle.At (t : Triangle K) (p : Coordinate K) (α β γ : K) : Prop where
  sum : α + β + γ = 1
  eq : p = barycentric t.pointA t.pointB t.pointC α β γ

def midOf (a b : Coordinate K) : Coordinate K := (sumCoordinates3d a b).divide 2

/-- The four triangles that `divideTriangle` goes on with. -/
def Triangle.parts (t : Triangle K) : List (Triangle K) :=
  [⟨t.pointA, midOf t.pointA t.pointB, midOf t.pointA t.pointC⟩,
    ⟨t.pointB, midOf t.pointA t.pointB, midOf t.pointB t.pointC⟩,
    ⟨t.pointC, midOf t.pointA t.pointC, midOf t.pointB t.pointC⟩,
    ⟨midOf t.pointA t.pointB, midOf t.pointA t.pointC, midOf t.pointB t.pointC⟩]

def Triangle.cells (t : Triangle K) (depth : ℕ) : List (Triangle K) :=
  divideTriangle t.pointA t.pointB t.pointC depth

theorem cells_succ (t : Triangle K) (depth : ℕ) :
    t.cells (depth + 1) = t.parts.flatMap fun s => s.cells depth := by
  simp only [Triangle.cells, Triangle.parts, divideTriangle, List.flatMap_cons, List.flatMap_nil,
    List.append_nil, List.append_assoc]
  rfl

section Order

variable [LinearOrder K]

/-- The closed triangle. -/
def Triangle.Contains (t : Triangle K) (p : Coordinate K) : Prop :=
  ∃ α β γ, t.At p α β γ ∧ 0 ≤ α ∧ 0 ≤ β ∧ 0 ≤ γ

/-- The triangle without its sides. -/
def Triangle.Inside (t : Triangle K) (p : Coordinate K) : Prop :=
  ∃ α β γ, t.At p α β γ ∧ 0 < α ∧ 0 < β ∧ 0 < γ

/-- Beyond one side, but not further away from the opposite corner than the others are. -/
def Triangle.Cap (t : Triangle K) (p : Coordinate K) : Prop :=
  ∃ α β γ, t.At p α β γ ∧
    (α < 0 ∧ 0 ≤ β ∧ 0 ≤ γ ∧ distance3dSq t.pointA p ≤ t.sideLengthSq ∨
      β < 0 ∧ 0 ≤ α ∧ 0 ≤ γ ∧ distance3dSq t.pointB p ≤ t.sideLengthSq ∨
      γ < 0 ∧ 0 ≤ α ∧ 0 ≤ β ∧ distance3dSq t.pointC p ≤ t.sideLengthSq)

/-- Equilateral, and no single point. -/
structure Triangle.Regular (t : Triangle K) : Prop where
  equilateral : Equilateral t.pointA t.pointB t.pointC
  pos : 0 < t.sideLengthSq

variable [IsStrictOrderedRing K] {t : Triangle K} {p : Coordinate K} {α β γ : K}

theorem eq_zero_of_form {u v : K} (h : u ^ 2 + u * v + v ^ 2 = 0) :
    u = 0 ∧ v = 0 := by
  have hsq : (2 * u + v) ^ 2 + 3 * v ^ 2 = 0 := by linear_combination 4 * h
  have hv : v = 0 := pow_eq_zero_iff two_ne_zero |>.mp (by nlinarith [sq_nonneg (2 * u + v)])
  subst hv
  have hu : u ^ 2 = 0 := by linear_combination h
  exact ⟨pow_eq_zero_iff two_ne_zero |>.mp hu, rfl⟩

theorem at_unique (h : t.Regular) {α' β' γ' : K} (hat : t.At p α β γ) (hat' : t.At p α' β' γ') :
    α' = α ∧ β' = β ∧ γ' = γ := by
  obtain ⟨⟨hac, hbc⟩, hpos⟩ := h
  obtain ⟨hsum, heq⟩ := hat
  obtain ⟨hsum', heq'⟩ := hat'
  obtain rfl : α = 1 - β - γ := by linear_combination hsum
  obtain rfl : α' = 1 - β' - γ' := by linear_combination hsum'
  have hboth := heq.symm.trans heq'
  simp only [barycentric, Coordinate.mk.injEq] at hboth
  obtain ⟨hx, hy, hz⟩ := hboth
  -- the two offsets from the first corner are equal, so their difference has length 0
  have hexpand : ((β' - β) ^ 2 + (β' - β) * (γ' - γ) + (γ' - γ) ^ 2) *
      distance3dSq t.pointA t.pointB = 0 := by
    have hlength : (β' - β) ^ 2 * distance3dSq t.pointA t.pointB +
        (γ' - γ) ^ 2 * distance3dSq t.pointA t.pointC + (β' - β) * (γ' - γ) *
          (distance3dSq t.pointA t.pointB + distance3dSq t.pointA t.pointC -
            distance3dSq t.pointB t.pointC) = 0 := by
      have hx0 : (β' - β) * (t.pointB.x - t.pointA.x) +
          (γ' - γ) * (t.pointC.x - t.pointA.x) = 0 := by linear_combination -hx
      have hy0 : (β' - β) * (t.pointB.y - t.pointA.y) +
          (γ' - γ) * (t.pointC.y - t.pointA.y) = 0 := by linear_combination -hy
      have hz0 : (β' - β) * (t.pointB.z - t.pointA.z) +
          (γ' - γ) * (t.pointC.z - t.pointA.z) = 0 := by linear_combination -hz
      simp only [distance3dSq]
      linear_combination
        ((β' - β) * (t.pointB.x - t.pointA.x) + (γ' - γ) * (t.pointC.x - t.pointA.x)) * hx0 +
          ((β' - β) * (t.pointB.y - t.pointA.y) + (γ' - γ) * (t.pointC.y - t.pointA.y)) * hy0 +
          ((β' - β) * (t.pointB.z - t.pointA.z) + (γ' - γ) * (t.pointC.z - t.pointA.z)) * hz0
    rw [hac, hbc] at hlength
    linear_combination hlength
  have hzero : (β' - β) ^ 2 + (β' - β) * (γ' - γ) + (γ' - γ) ^ 2 = 0 :=
    (mul_eq_zero.mp hexpand).resolve_right hpos.ne'
  obtain ⟨hβ, hγ⟩ := eq_zero_of_form hzero
  refine ⟨?_, by linear_combination hβ, by linear_combination hγ⟩
  linear_combination -hβ - hγ

theorem contains_iff (h : t.Regular) (hat : t.At p α β γ) :
    t.Contains p ↔ 0 ≤ α ∧ 0 ≤ β ∧ 0 ≤ γ := by
  constructor
  · rintro ⟨α', β', γ', hat', hnonneg⟩
    obtain ⟨rfl, rfl, rfl⟩ := at_unique h hat hat'
    exact hnonneg
  · exact fun hnonneg => ⟨α, β, γ, hat, hnonneg⟩

theorem inside_iff (h : t.Regular) (hat : t.At p α β γ) :
    t.Inside p ↔ 0 < α ∧ 0 < β ∧ 0 < γ := by
  constructor
  · rintro ⟨α', β', γ', hat', hpos⟩
    obtain ⟨rfl, rfl, rfl⟩ := at_unique h hat hat'
    exact hpos
  · exact fun hpos => ⟨α, β, γ, hat, hpos⟩

omit [IsStrictOrderedRing K] in
theorem Triangle.Inside.contains (h : t.Inside p) : t.Contains p := by
  obtain ⟨α, β, γ, hat, hα, hβ, hγ⟩ := h
  exact ⟨α, β, γ, hat, hα.le, hβ.le, hγ.le⟩

/-! ### Distances -/

/-- The distances to the corners, by the coordinates. -/
theorem distances_at (h : Equilateral t.pointA t.pointB t.pointC) (hat : t.At p α β γ) :
    distance3dSq t.pointA p = (β ^ 2 + β * γ + γ ^ 2) * t.sideLengthSq ∧
      distance3dSq t.pointB p = (α ^ 2 + α * γ + γ ^ 2) * t.sideLengthSq ∧
      distance3dSq t.pointC p = (α ^ 2 + α * β + β ^ 2) * t.sideLengthSq := by
  obtain ⟨hba, hca⟩ := equilateral_perm h
  obtain ⟨hsum, rfl⟩ := hat
  have hB := distance3dSq_barycentric hba (α := β) (β := α) (γ := γ) (by linear_combination hsum)
  have hC := distance3dSq_barycentric hca (α := γ) (β := α) (γ := β) (by linear_combination hsum)
  rw [(barycentric_perm _ _ _ α β γ).1, distance3dSq_comm t.pointB t.pointA] at hB
  rw [(barycentric_perm _ _ _ α β γ).2, distance3dSq_comm t.pointC t.pointA, h.1] at hC
  exact ⟨distance3dSq_barycentric h hsum, hB, hC⟩

theorem cap_iff (h : t.Regular) (hat : t.At p α β γ) :
    t.Cap p ↔
      α < 0 ∧ 0 ≤ β ∧ 0 ≤ γ ∧ distance3dSq t.pointA p ≤ t.sideLengthSq ∨
        β < 0 ∧ 0 ≤ α ∧ 0 ≤ γ ∧ distance3dSq t.pointB p ≤ t.sideLengthSq ∨
        γ < 0 ∧ 0 ≤ α ∧ 0 ≤ β ∧ distance3dSq t.pointC p ≤ t.sideLengthSq := by
  constructor
  · rintro ⟨α', β', γ', hat', hcap⟩
    obtain ⟨rfl, rfl, rfl⟩ := at_unique h hat hat'
    exact hcap
  · exact fun hcap => ⟨α, β, γ, hat, hcap⟩

/-- A point beyond one side that is near the opposite corner is not beyond another side. -/
theorem nonneg_of_near (hsum : α + β + γ = 1) (hα : α < 0)
    (hnear : β ^ 2 + β * γ + γ ^ 2 ≤ 1) : 0 ≤ β ∧ 0 ≤ γ := by
  constructor
  · by_contra! hβ
    nlinarith [mul_pos_of_neg_of_neg hα hβ]
  · by_contra! hγ
    nlinarith [mul_pos_of_neg_of_neg hα hγ]

/-- A point of a cap is near the two other corners. -/
theorem near_of_cap (hsum : α + β + γ = 1) (hα : α < 0) (hβ : 0 ≤ β) (hγ : 0 ≤ γ)
    (hnear : β ^ 2 + β * γ + γ ^ 2 ≤ 1) :
    α ^ 2 + α * γ + γ ^ 2 ≤ 1 ∧ α ^ 2 + α * β + β ^ 2 ≤ 1 := by
  obtain rfl : α = 1 - β - γ := by linear_combination hsum
  constructor
  · linarith
  · linarith

/-- The coordinates of a point of a cap are properly between integers. -/
theorem between_of_cap (hsum : α + β + γ = 1) (hα : α < 0) (hβ : 0 ≤ β) (hγ : 0 ≤ γ)
    (hnear : β ^ 2 + β * γ + γ ^ 2 ≤ 1) : -1 < α ∧ 0 < β ∧ β < 1 ∧ 0 < γ ∧ γ < 1 := by
  have hβγ : 0 ≤ β * γ := mul_nonneg hβ hγ
  have hβ1 : β < 1 := by
    by_contra! hβ1
    nlinarith
  have hγ1 : γ < 1 := by
    by_contra! hγ1
    nlinarith
  refine ⟨?_, ?_, hβ1, ?_, hγ1⟩ <;> linarith

/-- **What `point_within` accepts**: the triangle and its caps. -/
theorem pointWithin_iff (h : t.Regular) (hat : t.At p α β γ) :
    t.pointWithin p = true ↔ t.Contains p ∨ t.Cap p := by
  obtain ⟨hA, hB, hC⟩ := distances_at h.equilateral hat
  have hle : ∀ q : K, q * t.sideLengthSq ≤ t.sideLengthSq ↔ q ≤ 1 := fun q => by
    rw [mul_le_iff_le_one_left h.pos]
  have hsum := hat.sum
  have hsumB : β + α + γ = 1 := by linear_combination hsum
  have hsumC : γ + α + β = 1 := by linear_combination hsum
  rw [contains_iff h hat, cap_iff h hat]
  simp only [Triangle.pointWithin, Bool.and_eq_true, decide_eq_true_eq, hA, hB, hC, hle]
  constructor
  · rintro ⟨⟨hA1, hB1⟩, hC1⟩
    by_cases hα : α < 0
    · obtain ⟨hβ, hγ⟩ := nonneg_of_near hsum hα hA1
      exact Or.inr (Or.inl ⟨hα, hβ, hγ, hA1⟩)
    by_cases hβ : β < 0
    · obtain ⟨hα, hγ⟩ := nonneg_of_near hsumB hβ hB1
      exact Or.inr (Or.inr (Or.inl ⟨hβ, hα, hγ, hB1⟩))
    by_cases hγ : γ < 0
    · obtain ⟨hα, hβ⟩ := nonneg_of_near hsumC hγ hC1
      exact Or.inr (Or.inr (Or.inr ⟨hγ, hα, hβ, hC1⟩))
    · exact Or.inl ⟨not_lt.mp hα, not_lt.mp hβ, not_lt.mp hγ⟩
  · rintro (⟨hα, hβ, hγ⟩ | ⟨hα, hβ, hγ, hA1⟩ | ⟨hβ, hα, hγ, hB1⟩ | ⟨hγ, hα, hβ, hC1⟩)
    · obtain rfl : α = 1 - β - γ := by linear_combination hsum
      refine ⟨⟨?_, ?_⟩, ?_⟩ <;> nlinarith [mul_nonneg hβ hγ]
    · obtain ⟨hB1, hC1⟩ := near_of_cap hsum hα hβ hγ hA1
      exact ⟨⟨hA1, hB1⟩, hC1⟩
    · obtain ⟨hA1, hC1⟩ := near_of_cap hsumB hβ hα hγ hB1
      refine ⟨⟨hA1, hB1⟩, ?_⟩
      linear_combination hC1
    · obtain ⟨hA1, hB1⟩ := near_of_cap hsumC hγ hα hβ hC1
      refine ⟨⟨?_, ?_⟩, hC1⟩
      · linear_combination hA1
      · linear_combination hB1

/-! ### The four parts -/

omit [LinearOrder K] [IsStrictOrderedRing K] in
theorem at_perm (a b c : Coordinate K) :
    ((Triangle.mk b a c).At p β α γ ↔ (Triangle.mk a b c).At p α β γ) ∧
      ((Triangle.mk c a b).At p γ α β ↔ (Triangle.mk a b c).At p α β γ) := by
  obtain ⟨hba, hca⟩ := barycentric_perm a b c α β γ
  refine ⟨⟨fun h => ⟨?_, ?_⟩, fun h => ⟨?_, ?_⟩⟩, fun h => ⟨?_, ?_⟩, fun h => ⟨?_, ?_⟩⟩
  · linear_combination h.sum
  · rw [← hba]
    exact h.eq
  · linear_combination h.sum
  · rw [hba]
    exact h.eq
  · linear_combination h.sum
  · rw [← hca]
    exact h.eq
  · linear_combination h.sum
  · rw [hca]
    exact h.eq

theorem at_corner (a b c : Coordinate K) :
    (Triangle.mk a (midOf a b) (midOf a c)).At p (2 * α - 1) (2 * β) (2 * γ) ↔
      (Triangle.mk a b c).At p α β γ := by
  constructor
  · intro h
    have hsum : α + β + γ = 1 := by linarith [h.sum]
    refine ⟨hsum, ?_⟩
    rw [barycentric_corner a b c hsum]
    exact h.eq
  · intro h
    refine ⟨by linear_combination 2 * h.sum, ?_⟩
    show p = barycentric a ((sumCoordinates3d a b).divide 2) ((sumCoordinates3d a c).divide 2)
      (2 * α - 1) (2 * β) (2 * γ)
    rw [← barycentric_corner a b c h.sum]
    exact h.eq

theorem at_middle (a b c : Coordinate K) :
    (Triangle.mk (midOf a b) (midOf a c) (midOf b c)).At p (1 - 2 * γ) (1 - 2 * β) (1 - 2 * α) ↔
      (Triangle.mk a b c).At p α β γ := by
  constructor
  · intro h
    have hsum : α + β + γ = 1 := by linarith [h.sum]
    refine ⟨hsum, ?_⟩
    rw [barycentric_middle a b c hsum]
    exact h.eq
  · intro h
    refine ⟨by linear_combination -2 * h.sum, ?_⟩
    show p = barycentric ((sumCoordinates3d a b).divide 2) ((sumCoordinates3d a c).divide 2)
      ((sumCoordinates3d b c).divide 2) (1 - 2 * γ) (1 - 2 * β) (1 - 2 * α)
    rw [← barycentric_middle a b c h.sum]
    exact h.eq

omit [LinearOrder K] [IsStrictOrderedRing K] in
theorem midOf_comm (a b : Coordinate K) : midOf a b = midOf b a := by
  rw [midOf, midOf, sumCoordinates3d_comm]

/-- How the coordinates in a part follow from those in the triangle. -/
def Follows (t s : Triangle K) (f : K → K → K → K × K × K) : Prop :=
  ∀ p α β γ, s.At p (f α β γ).1 (f α β γ).2.1 (f α β γ).2.2 ↔ t.At p α β γ

theorem follows_parts (t : Triangle K) :
    Follows t ⟨t.pointA, midOf t.pointA t.pointB, midOf t.pointA t.pointC⟩
        (fun α β γ => (2 * α - 1, 2 * β, 2 * γ)) ∧
      Follows t ⟨t.pointB, midOf t.pointA t.pointB, midOf t.pointB t.pointC⟩
        (fun α β γ => (2 * β - 1, 2 * α, 2 * γ)) ∧
      Follows t ⟨t.pointC, midOf t.pointA t.pointC, midOf t.pointB t.pointC⟩
        (fun α β γ => (2 * γ - 1, 2 * α, 2 * β)) ∧
      Follows t ⟨midOf t.pointA t.pointB, midOf t.pointA t.pointC, midOf t.pointB t.pointC⟩
        (fun α β γ => (1 - 2 * γ, 1 - 2 * β, 1 - 2 * α)) := by
  obtain ⟨a, b, c⟩ := t
  refine ⟨fun p α β γ => at_corner a b c, fun p α β γ => ?_, fun p α β γ => ?_,
    fun p α β γ => at_middle a b c⟩
  · rw [← (at_perm a b c).1, ← at_corner b a c, midOf_comm b a]
  · rw [← (at_perm a b c).2, ← at_corner c a b, midOf_comm c a, midOf_comm c b]

theorem regular_parts (h : t.Regular) : ∀ s ∈ t.parts, s.Regular := by
  obtain ⟨a, b, c⟩ := t
  obtain ⟨hequilateral, hpos⟩ := h
  obtain ⟨hA, hB, hC, hmiddle⟩ := equilateral_parts hequilateral
  have hquarter : 0 < distance3dSq a b / 4 := div_pos hpos (by norm_num)
  simp only [Triangle.parts, List.mem_cons, List.not_mem_nil, or_false]
  rintro s (rfl | rfl | rfl | rfl)
  · refine ⟨hA, ?_⟩
    show 0 < distance3dSq a ((sumCoordinates3d a b).divide 2)
    rw [distance3dSq_mid]
    exact hquarter
  · refine ⟨hB, ?_⟩
    show 0 < distance3dSq b ((sumCoordinates3d a b).divide 2)
    rw [sumCoordinates3d_comm, distance3dSq_mid, distance3dSq_comm]
    exact hquarter
  · refine ⟨hC, ?_⟩
    show 0 < distance3dSq c ((sumCoordinates3d a c).divide 2)
    rw [sumCoordinates3d_comm, distance3dSq_mid, distance3dSq_comm, hequilateral.1]
    exact hquarter
  · refine ⟨hmiddle, ?_⟩
    show 0 < distance3dSq ((sumCoordinates3d a b).divide 2) ((sumCoordinates3d a c).divide 2)
    rw [distance3dSq_mids, hequilateral.2]
    exact hquarter

/-! ### Covering, and keeping apart -/

/-- No point is inside one of the two and in the other. -/
def Apart (p : Coordinate K) (s s' : Triangle K) : Prop :=
  ¬ (s.Inside p ∧ s'.Contains p) ∧ ¬ (s'.Inside p ∧ s.Contains p)

/-- The coordinates in the triangle follow from those in a part. -/
theorem at_of_parts {s : Triangle K} (hs : s ∈ t.parts) {α' β' γ' : K} (hat : s.At p α' β' γ') :
    ∃ α β γ, t.At p α β γ ∧ (0 ≤ α' ∧ 0 ≤ β' ∧ 0 ≤ γ' → 0 ≤ α ∧ 0 ≤ β ∧ 0 ≤ γ) ∧
      (0 < α' ∧ 0 < β' ∧ 0 < γ' → 0 < α ∧ 0 < β ∧ 0 < γ) := by
  obtain ⟨hA, hB, hC, hmiddle⟩ := follows_parts t
  have hsum := hat.sum
  have hdouble : ∀ x : K, 2 * (x / 2) = x := fun x => by ring
  have hopposite : ∀ x : K, 1 - 2 * ((1 - x) / 2) = x := fun x => by ring
  have hhalf : (0 ≤ α' ∧ 0 ≤ β' ∧ 0 ≤ γ' → 0 ≤ (α' + 1) / 2 ∧ 0 ≤ β' / 2 ∧ 0 ≤ γ' / 2) ∧
      (0 < α' ∧ 0 < β' ∧ 0 < γ' → 0 < (α' + 1) / 2 ∧ 0 < β' / 2 ∧ 0 < γ' / 2) := by
    constructor
    · rintro ⟨hα, hβ, hγ⟩
      refine ⟨?_, ?_, ?_⟩ <;> linarith
    · rintro ⟨hα, hβ, hγ⟩
      refine ⟨?_, ?_, ?_⟩ <;> linarith
  simp only [Triangle.parts, List.mem_cons, List.not_mem_nil, or_false] at hs
  rcases hs with rfl | rfl | rfl | rfl
  · refine ⟨(α' + 1) / 2, β' / 2, γ' / 2, (hA _ _ _ _).mp ?_, hhalf⟩
    simpa only [hdouble, add_sub_cancel_right] using hat
  · refine ⟨β' / 2, (α' + 1) / 2, γ' / 2, (hB _ _ _ _).mp ?_, fun h => ?_, fun h => ?_⟩
    · simpa only [hdouble, add_sub_cancel_right] using hat
    · exact ⟨(hhalf.1 h).2.1, (hhalf.1 h).1, (hhalf.1 h).2.2⟩
    · exact ⟨(hhalf.2 h).2.1, (hhalf.2 h).1, (hhalf.2 h).2.2⟩
  · refine ⟨β' / 2, γ' / 2, (α' + 1) / 2, (hC _ _ _ _).mp ?_, fun h => ?_, fun h => ?_⟩
    · simpa only [hdouble, add_sub_cancel_right] using hat
    · exact ⟨(hhalf.1 h).2.1, (hhalf.1 h).2.2, (hhalf.1 h).1⟩
    · exact ⟨(hhalf.2 h).2.1, (hhalf.2 h).2.2, (hhalf.2 h).1⟩
  · refine ⟨(1 - γ') / 2, (1 - β') / 2, (1 - α') / 2, (hmiddle _ _ _ _).mp ?_, ?_, ?_⟩
    · simpa only [hopposite] using hat
    · rintro ⟨hα, hβ, hγ⟩
      refine ⟨?_, ?_, ?_⟩ <;> linarith
    · rintro ⟨hα, hβ, hγ⟩
      refine ⟨?_, ?_, ?_⟩ <;> linarith

/-- The parts of a triangle are in it. -/
theorem of_parts {s : Triangle K} (hs : s ∈ t.parts) :
    (s.Contains p → t.Contains p) ∧ (s.Inside p → t.Inside p) := by
  constructor
  · rintro ⟨α', β', γ', hat', hnonneg⟩
    obtain ⟨α, β, γ, hat, hle, -⟩ := at_of_parts hs hat'
    exact ⟨α, β, γ, hat, hle hnonneg⟩
  · rintro ⟨α', β', γ', hat', hpos⟩
    obtain ⟨α, β, γ, hat, -, hlt⟩ := at_of_parts hs hat'
    exact ⟨α, β, γ, hat, hlt hpos⟩

/-- The parts of a triangle cover it. -/
theorem contains_parts (h : t.Contains p) : ∃ s ∈ t.parts, s.Contains p := by
  obtain ⟨hA, hB, hC, hmiddle⟩ := follows_parts t
  obtain ⟨α, β, γ, hat, hα, hβ, hγ⟩ := h
  simp only [Triangle.parts, List.mem_cons, List.not_mem_nil, or_false, exists_eq_or_imp,
    exists_eq_left]
  have hsum := hat.sum
  rcases le_total (1 / 2) α with hα2 | hα2
  · exact Or.inl ⟨_, _, _, (hA p α β γ).mpr hat, by linarith, by linarith, by linarith⟩
  rcases le_total (1 / 2) β with hβ2 | hβ2
  · exact Or.inr (Or.inl ⟨_, _, _, (hB p α β γ).mpr hat, by linarith, by linarith, by linarith⟩)
  rcases le_total (1 / 2) γ with hγ2 | hγ2
  · exact Or.inr (Or.inr (Or.inl
      ⟨_, _, _, (hC p α β γ).mpr hat, by linarith, by linarith, by linarith⟩))
  · exact Or.inr (Or.inr (Or.inr
      ⟨_, _, _, (hmiddle p α β γ).mpr hat, by linarith, by linarith, by linarith⟩))

/-- The parts of a triangle are apart. -/
theorem apart_parts (h : t.Regular) : t.parts.Pairwise (Apart p) := by
  by_cases hat : ∃ α β γ, t.At p α β γ
  · obtain ⟨α, β, γ, hat⟩ := hat
    obtain ⟨hA, hB, hC, hmiddle⟩ := follows_parts t
    have hregular := regular_parts h
    have hsum := hat.sum
    simp only [Triangle.parts, List.mem_cons, List.not_mem_nil, or_false, forall_eq_or_imp,
      forall_eq] at hregular
    obtain ⟨hrA, hrB, hrC, hrM⟩ := hregular
    simp only [Triangle.parts, List.pairwise_cons, List.mem_cons, List.not_mem_nil, or_false,
      forall_eq_or_imp, forall_eq, false_imp_iff, implies_true, List.Pairwise.nil, and_true, Apart,
      inside_iff hrA ((hA p α β γ).mpr hat), contains_iff hrA ((hA p α β γ).mpr hat),
      inside_iff hrB ((hB p α β γ).mpr hat), contains_iff hrB ((hB p α β γ).mpr hat),
      inside_iff hrC ((hC p α β γ).mpr hat), contains_iff hrC ((hC p α β γ).mpr hat),
      inside_iff hrM ((hmiddle p α β γ).mpr hat), contains_iff hrM ((hmiddle p α β γ).mpr hat)]
    refine ⟨⟨⟨?_, ?_⟩, ⟨?_, ?_⟩, ?_, ?_⟩, ⟨⟨?_, ?_⟩, ?_, ?_⟩, ?_, ?_⟩ <;>
      rintro ⟨⟨h1, h2, h3⟩, h4, h5, h6⟩ <;> linarith
  · -- the point is not in the plane of the triangle
    have hnone : ∀ s ∈ t.parts, ¬ s.Contains p := by
      rintro s hs ⟨α', β', γ', hat', -⟩
      obtain ⟨α, β, γ, hat', -⟩ := at_of_parts hs hat'
      exact hat ⟨α, β, γ, hat'⟩
    exact List.Pairwise.imp_of_mem (fun {s s'} hs hs' _ =>
      ⟨fun hboth => hnone s' hs' hboth.2, fun hboth => hnone s hs hboth.2⟩)
      (List.pairwise_of_forall (R := fun _ _ => True) fun _ _ => trivial)

theorem regular_cells :
    ∀ (depth : ℕ) {t : Triangle K}, t.Regular → ∀ s ∈ t.cells depth, s.Regular := by
  intro depth
  induction depth with
  | zero =>
    intro t h s hs
    rw [List.mem_singleton.mp hs]
    exact h
  | succ depth ih =>
    intro t h s hs
    rw [cells_succ, List.mem_flatMap] at hs
    obtain ⟨part, hpart, hs⟩ := hs
    exact ih (regular_parts h part hpart) s hs

theorem of_cells :
    ∀ (depth : ℕ) {t : Triangle K}, ∀ s ∈ t.cells depth,
      (s.Contains p → t.Contains p) ∧ (s.Inside p → t.Inside p) := by
  intro depth
  induction depth with
  | zero =>
    intro t s hs
    rw [List.mem_singleton.mp hs]
    exact ⟨id, id⟩
  | succ depth ih =>
    intro t s hs
    rw [cells_succ, List.mem_flatMap] at hs
    obtain ⟨part, hpart, hs⟩ := hs
    obtain ⟨hcontains, hinside⟩ := ih s hs
    obtain ⟨hcontains', hinside'⟩ := of_parts (p := p) hpart
    exact ⟨fun h => hcontains' (hcontains h), fun h => hinside' (hinside h)⟩

/-- **The cells cover the triangle.** -/
theorem cells_cover :
    ∀ (depth : ℕ) {t : Triangle K}, t.Contains p → ∃ s ∈ t.cells depth, s.Contains p := by
  intro depth
  induction depth with
  | zero => exact fun {t} h => ⟨t, List.mem_singleton_self t, h⟩
  | succ depth ih =>
    intro t h
    obtain ⟨part, hpart, hcontains⟩ := contains_parts h
    obtain ⟨s, hs, hcontains⟩ := ih hcontains
    exact ⟨s, by rw [cells_succ, List.mem_flatMap]; exact ⟨part, hpart, hs⟩, hcontains⟩

/-- **The cells are apart.** -/
theorem cells_apart :
    ∀ (depth : ℕ) {t : Triangle K}, t.Regular → (t.cells depth).Pairwise (Apart p) := by
  intro depth
  induction depth with
  | zero => exact fun _ => List.pairwise_singleton _ _
  | succ depth ih =>
    intro t h
    rw [cells_succ, List.pairwise_flatMap]
    refine ⟨fun part hpart => ih (regular_parts h part hpart), ?_⟩
    -- cells of different parts are apart as the parts are
    have hparts : t.parts.Pairwise (Apart p) := apart_parts h
    refine hparts.imp fun {part part'} hapart s hs s' hs' => ⟨?_, ?_⟩
    · rintro ⟨hinside, hcontains⟩
      exact hapart.1 ⟨(of_cells depth s hs).2 hinside, (of_cells depth s' hs').1 hcontains⟩
    · rintro ⟨hinside, hcontains⟩
      exact hapart.2 ⟨(of_cells depth s' hs').2 hinside, (of_cells depth s hs).1 hcontains⟩

/-! ### The grid -/

/-- None of the coordinates is a multiple of `1 / N`. -/
def OffGrid (N α β γ : K) : Prop := ∀ m : ℤ, N * α ≠ m ∧ N * β ≠ m ∧ N * γ ≠ m

/-- The grid of a part is the grid of the triangle. -/
theorem offGrid_parts {s : Triangle K} (hs : s ∈ t.parts) (k : ℕ) (hat : t.At p α β γ) :
    ∃ α' β' γ', s.At p α' β' γ' ∧
      (OffGrid (2 ^ k) α' β' γ' ↔ OffGrid (2 ^ (k + 1)) α β γ) := by
  obtain ⟨hA, hB, hC, hmiddle⟩ := follows_parts t
  -- the grid of a part is the finer grid of the triangle, shifted or mirrored
  have hdouble : ∀ (x : K) (m : ℤ), 2 ^ k * (2 * x) = m ↔ 2 ^ (k + 1) * x = m := fun x m => by
    rw [pow_succ, mul_assoc]
  have hshift : ∀ x : K, (∀ m : ℤ, 2 ^ k * (2 * x - 1) ≠ m) ↔ ∀ m : ℤ, 2 ^ (k + 1) * x ≠ m := by
    intro x
    constructor
    · intro h m hm
      refine h (m - 2 ^ k) ?_
      push_cast
      rw [← hm]
      ring
    · intro h m hm
      refine h (m + 2 ^ k) ?_
      push_cast
      rw [← hm]
      ring
  have hmirror : ∀ x : K, (∀ m : ℤ, 2 ^ k * (1 - 2 * x) ≠ m) ↔ ∀ m : ℤ, 2 ^ (k + 1) * x ≠ m := by
    intro x
    constructor
    · intro h m hm
      refine h (2 ^ k - m) ?_
      push_cast
      rw [← hm]
      ring
    · intro h m hm
      refine h (2 ^ k - m) ?_
      push_cast
      rw [← hm]
      ring
  simp only [Triangle.parts, List.mem_cons, List.not_mem_nil, or_false] at hs
  rcases hs with rfl | rfl | rfl | rfl
  · refine ⟨_, _, _, (hA p α β γ).mpr hat, ?_⟩
    simp only [OffGrid, forall_and, hshift, ne_eq, hdouble]
  · refine ⟨_, _, _, (hB p α β γ).mpr hat, ?_⟩
    simp only [OffGrid, forall_and, hshift, ne_eq, hdouble]
    exact and_left_comm
  · refine ⟨_, _, _, (hC p α β γ).mpr hat, ?_⟩
    simp only [OffGrid, forall_and, hshift, ne_eq, hdouble]
    exact ⟨fun ⟨h1, h2, h3⟩ => ⟨h2, h3, h1⟩, fun ⟨h1, h2, h3⟩ => ⟨h3, h1, h2⟩⟩
  · refine ⟨_, _, _, (hmiddle p α β γ).mpr hat, ?_⟩
    simp only [OffGrid, forall_and, hmirror]
    exact ⟨fun ⟨h1, h2, h3⟩ => ⟨h3, h2, h1⟩, fun ⟨h1, h2, h3⟩ => ⟨h3, h2, h1⟩⟩

theorem offGrid_cells :
    ∀ (depth : ℕ) {t : Triangle K} {α β γ : K}, t.At p α β γ → ∀ s ∈ t.cells depth,
      ∃ α' β' γ', s.At p α' β' γ' ∧ (OffGrid 1 α' β' γ' ↔ OffGrid (2 ^ depth) α β γ) := by
  intro depth
  induction depth with
  | zero =>
    intro t α β γ hat s hs
    rw [List.mem_singleton.mp hs]
    exact ⟨α, β, γ, hat, by rw [pow_zero]⟩
  | succ depth ih =>
    intro t α β γ hat s hs
    rw [cells_succ, List.mem_flatMap] at hs
    obtain ⟨part, hpart, hs⟩ := hs
    obtain ⟨α', β', γ', hat', hgrid⟩ := offGrid_parts hpart depth hat
    obtain ⟨α'', β'', γ'', hat'', hgrid'⟩ := ih hat' s hs
    exact ⟨α'', β'', γ'', hat'', hgrid'.trans hgrid⟩

/-- Every point of the triangle has coordinates in every cell. -/
theorem exists_at_cells {depth : ℕ} (h : t.Contains p) {s : Triangle K} (hs : s ∈ t.cells depth) :
    ∃ α β γ, s.At p α β γ := by
  obtain ⟨α, β, γ, hat, -⟩ := h
  obtain ⟨α', β', γ', hat', -⟩ := offGrid_cells depth hat s hs
  exact ⟨α', β', γ', hat'⟩

theorem offGrid_of_cap (h : t.Regular) (hat : t.At p α β γ) (hcap : t.Cap p) :
    OffGrid 1 α β γ := by
  obtain ⟨hA, hB, hC⟩ := distances_at h.equilateral hat
  have hsum := hat.sum
  have hle : ∀ q : K, q * t.sideLengthSq ≤ t.sideLengthSq ↔ q ≤ 1 := fun q => by
    rw [mul_le_iff_le_one_left h.pos]
  have hlow : ∀ (x : K) (m : ℤ), -1 < x → x < 0 → 1 * x ≠ m := by
    intro x m h1 h2 hm
    rw [one_mul] at hm
    rw [hm] at h1 h2
    have h1 : -1 < m := by exact_mod_cast h1
    have h2 : m < 0 := by exact_mod_cast h2
    omega
  have hhigh : ∀ (x : K) (m : ℤ), 0 < x → x < 1 → 1 * x ≠ m := by
    intro x m h1 h2 hm
    rw [one_mul] at hm
    rw [hm] at h1 h2
    have h1 : 0 < m := by exact_mod_cast h1
    have h2 : m < 1 := by exact_mod_cast h2
    omega
  rw [cap_iff h hat, hA, hB, hC, hle, hle, hle] at hcap
  intro m
  rcases hcap with ⟨hα, hβ, hγ, hnear⟩ | ⟨hβ, hα, hγ, hnear⟩ | ⟨hγ, hα, hβ, hnear⟩
  · obtain ⟨h1, h2, h3, h4, h5⟩ := between_of_cap hsum hα hβ hγ hnear
    exact ⟨hlow α m h1 hα, hhigh β m h2 h3, hhigh γ m h4 h5⟩
  · obtain ⟨h1, h2, h3, h4, h5⟩ :=
      between_of_cap (by linear_combination hsum) hβ hα hγ hnear
    exact ⟨hhigh α m h2 h3, hlow β m h1 hβ, hhigh γ m h4 h5⟩
  · obtain ⟨h1, h2, h3, h4, h5⟩ :=
      between_of_cap (by linear_combination hsum) hγ hα hβ hnear
    exact ⟨hhigh α m h2 h3, hhigh β m h4 h5, hlow γ m h1 hγ⟩

/-- **A point of a cap is inside another cell.** -/
theorem inside_of_cap {depth : ℕ} (h : t.Regular) (hcontains : t.Contains p) {s : Triangle K}
    (hs : s ∈ t.cells depth) (hcap : s.Cap p) : ∃ s' ∈ t.cells depth, s'.Inside p := by
  obtain ⟨s', hs', α', β', γ', hat', hα, hβ, hγ⟩ := cells_cover depth hcontains
  obtain ⟨α, β, γ, hat, -⟩ := hcontains
  have hregular := regular_cells depth h
  -- off the grid in one cell, so in the whole triangle, so in the cell with the point
  obtain ⟨x, y, z, hxyz, hgrid⟩ := offGrid_cells depth hat s hs
  obtain ⟨x', y', z', hxyz', hgrid'⟩ := offGrid_cells depth hat s' hs'
  obtain ⟨rfl, rfl, rfl⟩ := at_unique (hregular s' hs') hat' hxyz'
  have hoff := hgrid'.mpr (hgrid.mp (offGrid_of_cap (hregular s hs) hxyz hcap))
  obtain ⟨h1, h2, h3⟩ := hoff 0
  simp only [one_mul, Int.cast_zero] at h1 h2 h3
  exact ⟨s', hs', x', y', z', hxyz', lt_of_le_of_ne hα (Ne.symm h1),
    lt_of_le_of_ne hβ (Ne.symm h2), lt_of_le_of_ne hγ (Ne.symm h3)⟩

/-- The triangle does not contain its caps. -/
theorem not_contains_of_cap (h : t.Regular) (hcap : t.Cap p) : ¬ t.Contains p := by
  obtain ⟨α, β, γ, hat, hsides⟩ := hcap
  rw [contains_iff h hat]
  rintro ⟨hα, hβ, hγ⟩
  rcases hsides with ⟨hneg, -⟩ | ⟨hneg, -⟩ | ⟨hneg, -⟩
  · exact absurd hα (not_le.mpr hneg)
  · exact absurd hβ (not_le.mpr hneg)
  · exact absurd hγ (not_le.mpr hneg)

end Order

end AllocationKeys.Olagsa
