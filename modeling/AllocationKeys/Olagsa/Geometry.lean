import AllocationKeys.Algorithms.Base
import Mathlib.Algebra.Order.Field.Basic
import Mathlib.Algebra.Order.Ring.Abs
import Mathlib.Tactic.Linarith
import Mathlib.Tactic.LinearCombination
import Mathlib.Tactic.Ring

/-!
# Regions of the simplex

`olagsa/_impl/coordinate.py`, `segment.py` and the constructions of `ga.py` on them: the line
from `(0, 1)` to `(1, 0)` cut into segments, and the triangle of the three unit points divided
by its midpoints, as often as asked.

* `segments_cover`: every point of the line lies within one of the segments;
* `divideTriangle_covers`: every point of the triangle lies within one of its parts.

A point of the plane is a `Coordinate` with `z = 0`, which is what `getattr(_, "z", 0)` reads.
Distances are only ever compared, so they stand here by their squares.
-/

namespace AllocationKeys.Olagsa

variable {K : Type} [Field K]

structure Coordinate (K : Type) where
  x : K
  y : K
  z : K

namespace Coordinate

def divide (c : Coordinate K) (d : K) : Coordinate K := ⟨c.x / d, c.y / d, c.z / d⟩

end Coordinate

def sumCoordinates3d (a b : Coordinate K) : Coordinate K := ⟨a.x + b.x, a.y + b.y, a.z + b.z⟩

/-- The square of `_distance_3d`. -/
def distance3dSq (a b : Coordinate K) : K :=
  (a.x - b.x) ^ 2 + (a.y - b.y) ^ 2 + (a.z - b.z) ^ 2

/-! ### Segments and triangles -/

structure Segment (K : Type) where
  pointA : Coordinate K
  pointB : Coordinate K

structure Triangle (K : Type) where
  pointA : Coordinate K
  pointB : Coordinate K
  pointC : Coordinate K

/-- The square of the `side_length` that the constructor measures between its first two
points. -/
def Triangle.sideLengthSq (t : Triangle K) : K := distance3dSq t.pointA t.pointB

section Order

variable [LinearOrder K]

/-- Nearly on the line through the end points, and between them. -/
def Segment.pointWithin (s : Segment K) (c : Coordinate K) : Bool :=
  let crossproduct := (c.y - s.pointA.y) * (s.pointB.x - s.pointA.x)
    - (c.x - s.pointA.x) * (s.pointB.y - s.pointA.y)
  if 1 / 100 < |crossproduct| then false
  else
    let dotproduct := (c.x - s.pointA.x) * (s.pointB.x - s.pointA.x)
      + (c.y - s.pointA.y) * (s.pointB.y - s.pointA.y)
    if dotproduct < 0 then false
    else
      let squaredLength := (s.pointB.x - s.pointA.x) ^ 2 + (s.pointB.y - s.pointA.y) ^ 2
      dotproduct ≤ squaredLength

/-- At most a side length away from each of the three corners. -/
def Triangle.pointWithin (t : Triangle K) (point : Coordinate K) : Bool :=
  distance3dSq t.pointA point ≤ t.sideLengthSq && distance3dSq t.pointB point ≤ t.sideLengthSq &&
    distance3dSq t.pointC point ≤ t.sideLengthSq

/-- The region that a specie's `is_same_specie` closes over. -/
inductive Region (K : Type) where
  | segment (seg : Segment K)
  | triangle (tri : Triangle K)

def Region.pointWithin : Region K → Coordinate K → Bool
  | segment seg => seg.pointWithin
  | triangle tri => tri.pointWithin

end Order

/-! ### Cutting the line -/

def lineFunc (x : K) : K := -x + 1

/-- The loop of `_find_midpoints`, with `value` the abscissa of the next point. -/
def midpointsFrom (baseValue : K) : ℕ → K → List (Coordinate K)
  | 0, _ => []
  | k + 1, value => ⟨value, lineFunc value, 0⟩ :: midpointsFrom baseValue k (value + baseValue)

def findMidpoints (depth : ℕ) : List (Coordinate K) :=
  midpointsFrom (1 / (depth : K)) (depth - 1) (1 / (depth : K))

/-- The segments from `start` over the points `mids` to `(1, 0)`. -/
def segmentsFrom (start : Coordinate K) : List (Coordinate K) → List (Segment K)
  | [] => [⟨start, ⟨1, 0, 0⟩⟩]
  | mid :: mids => ⟨start, mid⟩ :: segmentsFrom mid mids

def buildSegments (mids : List (Coordinate K)) : List (Segment K) := segmentsFrom ⟨0, 1, 0⟩ mids

section Cover

variable [LinearOrder K] [IsStrictOrderedRing K]

/-- On the line, a point lies within a segment when its abscissa lies between theirs. -/
theorem pointWithin_of_line {a b x : K} (ha : a ≤ x) (hb : x ≤ b) :
    Segment.pointWithin ⟨⟨a, lineFunc a, 0⟩, ⟨b, lineFunc b, 0⟩⟩ ⟨x, lineFunc x, 0⟩ = true := by
  have hcross : (lineFunc x - lineFunc a) * (b - a) - (x - a) * (lineFunc b - lineFunc a) = 0 := by
    simp only [lineFunc]
    ring
  have hdot : (x - a) * (b - a) + (lineFunc x - lineFunc a) * (lineFunc b - lineFunc a)
      = 2 * ((x - a) * (b - a)) := by
    simp only [lineFunc]
    ring
  have hlength : (b - a) ^ 2 + (lineFunc b - lineFunc a) ^ 2 = 2 * ((b - a) * (b - a)) := by
    simp only [lineFunc]
    ring
  have hxa : 0 ≤ x - a := sub_nonneg.mpr ha
  have hba : 0 ≤ b - a := sub_nonneg.mpr (ha.trans hb)
  simp only [Segment.pointWithin, hcross, abs_zero, hdot, hlength]
  rw [if_neg (by norm_num), if_neg (by linarith [mul_nonneg hxa hba])]
  have hle : (x - a) * (b - a) ≤ (b - a) * (b - a) :=
    mul_le_mul_of_nonneg_right (by linarith) hba
  simpa using hle

theorem segmentsFrom_cover {x : K} (hx : x ≤ 1) :
    ∀ (mids : List (Coordinate K)) (start : K), start ≤ x →
      (∀ mid ∈ mids, mid = ⟨mid.x, lineFunc mid.x, 0⟩) →
        ∃ s ∈ segmentsFrom ⟨start, lineFunc start, 0⟩ mids,
          s.pointWithin ⟨x, lineFunc x, 0⟩ = true := by
  intro mids
  induction mids with
  | nil =>
    intro start hstart _
    refine ⟨⟨⟨start, lineFunc start, 0⟩, ⟨1, 0, 0⟩⟩, List.mem_singleton_self _, ?_⟩
    have h := pointWithin_of_line hstart hx
    rwa [show lineFunc (1 : K) = 0 by simp [lineFunc]] at h
  | cons mid mids ih =>
    intro start hstart hmids
    have hmid := hmids mid (List.mem_cons_self ..)
    rcases le_total x mid.x with hle | hge
    · refine ⟨⟨⟨start, lineFunc start, 0⟩, mid⟩, List.mem_cons_self .., ?_⟩
      rw [hmid]
      exact pointWithin_of_line hstart hle
    · obtain ⟨s, hs, hwithin⟩ := ih mid.x hge fun m hm => hmids m (List.mem_cons_of_mem mid hm)
      rw [← hmid] at hs
      exact ⟨s, List.mem_cons_of_mem _ hs, hwithin⟩

omit [LinearOrder K] [IsStrictOrderedRing K] in
theorem midpointsFrom_line (baseValue : K) :
    ∀ (k : ℕ) (value : K), ∀ mid ∈ midpointsFrom baseValue k value,
      mid = ⟨mid.x, lineFunc mid.x, 0⟩ := by
  intro k
  induction k with
  | zero => intro value mid hmid; cases hmid
  | succ k ih =>
    intro value mid hmid
    rcases List.mem_cons.mp hmid with rfl | hmid
    · rfl
    · exact ih _ mid hmid

/-- **The segments cover the line.** -/
theorem segments_cover (depth : ℕ) {x : K} (h0 : 0 ≤ x) (h1 : x ≤ 1) :
    ∃ s ∈ buildSegments (findMidpoints depth : List (Coordinate K)),
      s.pointWithin ⟨x, lineFunc x, 0⟩ = true := by
  have h := segmentsFrom_cover h1 (findMidpoints depth) 0 h0 (midpointsFrom_line _ _ _)
  rwa [show lineFunc (0 : K) = 1 by simp [lineFunc]] at h

end Cover

/-! ### Dividing the triangle -/

def divideTriangle (a b c : Coordinate K) : ℕ → List (Triangle K)
  | 0 => [⟨a, b, c⟩]
  | depth + 1 =>
      let abMid := (sumCoordinates3d a b).divide 2
      let acMid := (sumCoordinates3d a c).divide 2
      let bcMid := (sumCoordinates3d b c).divide 2
      divideTriangle a abMid acMid depth ++ divideTriangle b abMid bcMid depth ++
        divideTriangle c acMid bcMid depth ++ divideTriangle abMid acMid bcMid depth

/-- The point with barycentric coordinates `α`, `β`, `γ`. -/
def barycentric (a b c : Coordinate K) (α β γ : K) : Coordinate K :=
  ⟨α * a.x + β * b.x + γ * c.x, α * a.y + β * b.y + γ * c.y, α * a.z + β * b.z + γ * c.z⟩

/-- All three sides have the same length. -/
def Equilateral (a b c : Coordinate K) : Prop :=
  distance3dSq a c = distance3dSq a b ∧ distance3dSq b c = distance3dSq a b

section Cover

variable [LinearOrder K] [IsStrictOrderedRing K]

omit [LinearOrder K] [IsStrictOrderedRing K] in
theorem distance3dSq_comm (a b : Coordinate K) : distance3dSq a b = distance3dSq b a := by
  simp only [distance3dSq]
  ring

omit [LinearOrder K] [IsStrictOrderedRing K] in
/-- The distance of a point from the first corner of an equilateral triangle. -/
theorem distance3dSq_barycentric {a b c : Coordinate K} (h : Equilateral a b c) {α β γ : K}
    (hsum : α + β + γ = 1) :
    distance3dSq a (barycentric a b c α β γ)
      = (β ^ 2 + β * γ + γ ^ 2) * distance3dSq a b := by
  obtain ⟨hac, hbc⟩ := h
  obtain rfl : α = 1 - β - γ := by linear_combination hsum
  have hexpand : distance3dSq a (barycentric a b c (1 - β - γ) β γ)
      = (β ^ 2 + β * γ) * distance3dSq a b + (γ ^ 2 + β * γ) * distance3dSq a c
        - β * γ * distance3dSq b c := by
    simp only [distance3dSq, barycentric]
    ring
  rw [hexpand, hac, hbc]
  ring

/-- A point of an equilateral triangle is at most a side away from its first corner. -/
theorem distance3dSq_corner {a b c : Coordinate K} (h : Equilateral a b c) {α β γ : K}
    (hα : 0 ≤ α) (hβ : 0 ≤ β) (hγ : 0 ≤ γ) (hsum : α + β + γ = 1) :
    distance3dSq a (barycentric a b c α β γ) ≤ distance3dSq a b := by
  have hside : 0 ≤ distance3dSq a b := by
    simp only [distance3dSq]
    positivity
  have hcoefficient : β ^ 2 + β * γ + γ ^ 2 ≤ 1 := by nlinarith [mul_nonneg hβ hγ]
  rw [distance3dSq_barycentric h hsum]
  exact mul_le_of_le_one_left hside hcoefficient

omit [LinearOrder K] [IsStrictOrderedRing K] in
theorem equilateral_perm {a b c : Coordinate K} (h : Equilateral a b c) :
    Equilateral b a c ∧ Equilateral c a b := by
  obtain ⟨hac, hbc⟩ := h
  refine ⟨⟨?_, ?_⟩, ?_, ?_⟩
  · rw [hbc, distance3dSq_comm]
  · rw [hac, distance3dSq_comm]
  · rw [distance3dSq_comm c b, distance3dSq_comm c a, hbc, hac]
  · rw [distance3dSq_comm c a, hac]

omit [LinearOrder K] [IsStrictOrderedRing K] in
theorem barycentric_perm (a b c : Coordinate K) (α β γ : K) :
    barycentric b a c β α γ = barycentric a b c α β γ ∧
      barycentric c a b γ α β = barycentric a b c α β γ := by
  simp only [barycentric, Coordinate.mk.injEq]
  refine ⟨⟨?_, ?_, ?_⟩, ?_, ?_, ?_⟩ <;> ring

/-- A point of an equilateral triangle lies within it. -/
theorem pointWithin_barycentric {a b c : Coordinate K} (h : Equilateral a b c) {α β γ : K}
    (hα : 0 ≤ α) (hβ : 0 ≤ β) (hγ : 0 ≤ γ) (hsum : α + β + γ = 1) :
    (Triangle.mk a b c).pointWithin (barycentric a b c α β γ) = true := by
  obtain ⟨hba, hca⟩ := equilateral_perm h
  have hA := distance3dSq_corner h hα hβ hγ hsum
  have hB := distance3dSq_corner hba hβ hα hγ (by linarith)
  have hC := distance3dSq_corner hca hγ hα hβ (by linarith)
  rw [(barycentric_perm a b c α β γ).1, distance3dSq_comm b a] at hB
  rw [(barycentric_perm a b c α β γ).2, distance3dSq_comm c a, h.1] at hC
  simp only [Triangle.pointWithin, Triangle.sideLengthSq, Bool.and_eq_true]
  exact ⟨⟨decide_eq_true hA, decide_eq_true hB⟩, decide_eq_true hC⟩

omit [LinearOrder K] [IsStrictOrderedRing K] in
theorem sumCoordinates3d_comm (a b : Coordinate K) :
    sumCoordinates3d a b = sumCoordinates3d b a := by
  simp only [sumCoordinates3d, add_comm]

/-- A corner is half a side away from the middle of the side. -/
theorem distance3dSq_mid (a b : Coordinate K) :
    distance3dSq a ((sumCoordinates3d a b).divide 2) = distance3dSq a b / 4 := by
  simp only [distance3dSq, sumCoordinates3d, Coordinate.divide]
  ring

/-- The middles of two sides are half the third side apart. -/
theorem distance3dSq_mids (a b c : Coordinate K) :
    distance3dSq ((sumCoordinates3d a b).divide 2) ((sumCoordinates3d a c).divide 2)
      = distance3dSq b c / 4 := by
  simp only [distance3dSq, sumCoordinates3d, Coordinate.divide]
  ring

/-- The four parts of an equilateral triangle are equilateral. -/
theorem equilateral_parts {a b c : Coordinate K} (h : Equilateral a b c) :
    let abMid := (sumCoordinates3d a b).divide 2
    let acMid := (sumCoordinates3d a c).divide 2
    let bcMid := (sumCoordinates3d b c).divide 2
    Equilateral a abMid acMid ∧ Equilateral b abMid bcMid ∧ Equilateral c acMid bcMid ∧
      Equilateral abMid acMid bcMid := by
  obtain ⟨hac, hbc⟩ := h
  have hbMid : distance3dSq b ((sumCoordinates3d a b).divide 2) = distance3dSq a b / 4 := by
    rw [sumCoordinates3d_comm, distance3dSq_mid, distance3dSq_comm]
  have hcMid : distance3dSq c ((sumCoordinates3d a c).divide 2) = distance3dSq a b / 4 := by
    rw [sumCoordinates3d_comm, distance3dSq_mid, distance3dSq_comm, hac]
  have hcMid' : distance3dSq c ((sumCoordinates3d b c).divide 2) = distance3dSq a b / 4 := by
    rw [sumCoordinates3d_comm, distance3dSq_mid, distance3dSq_comm, hbc]
  have hmids : distance3dSq ((sumCoordinates3d a b).divide 2) ((sumCoordinates3d b c).divide 2)
      = distance3dSq a b / 4 := by
    rw [sumCoordinates3d_comm a b, distance3dSq_mids, hac]
  have hmids' : distance3dSq ((sumCoordinates3d a c).divide 2) ((sumCoordinates3d b c).divide 2)
      = distance3dSq a b / 4 := by
    rw [sumCoordinates3d_comm a c, sumCoordinates3d_comm b c, distance3dSq_mids]
  refine ⟨⟨?_, ?_⟩, ⟨?_, ?_⟩, ⟨?_, ?_⟩, ⟨?_, ?_⟩⟩
  · rw [distance3dSq_mid, distance3dSq_mid, hac]
  · rw [distance3dSq_mid, distance3dSq_mids, hbc]
  · rw [distance3dSq_mid, hbMid, hbc]
  · rw [hmids, hbMid]
  · rw [hcMid', hcMid]
  · rw [hmids', hcMid]
  · rw [hmids, distance3dSq_mids, hbc]
  · rw [hmids', distance3dSq_mids, hbc]

/-- A point with weight at least one half on a corner lies in that corner's part. -/
theorem barycentric_corner (a b c : Coordinate K) {α β γ : K} (hsum : α + β + γ = 1) :
    barycentric a b c α β γ = barycentric a ((sumCoordinates3d a b).divide 2)
      ((sumCoordinates3d a c).divide 2) (2 * α - 1) (2 * β) (2 * γ) := by
  obtain rfl : α = 1 - β - γ := by linear_combination hsum
  simp only [barycentric, sumCoordinates3d, Coordinate.divide, Coordinate.mk.injEq]
  refine ⟨?_, ?_, ?_⟩ <;> ring

/-- Any other point lies in the part in the middle. -/
theorem barycentric_middle (a b c : Coordinate K) {α β γ : K} (hsum : α + β + γ = 1) :
    barycentric a b c α β γ = barycentric ((sumCoordinates3d a b).divide 2)
      ((sumCoordinates3d a c).divide 2) ((sumCoordinates3d b c).divide 2)
      (1 - 2 * γ) (1 - 2 * β) (1 - 2 * α) := by
  obtain rfl : α = 1 - β - γ := by linear_combination hsum
  simp only [barycentric, sumCoordinates3d, Coordinate.divide, Coordinate.mk.injEq]
  refine ⟨?_, ?_, ?_⟩ <;> ring

/-- **The parts cover the triangle.**  However often it is divided, a point of an equilateral
triangle lies within one of the parts. -/
theorem divideTriangle_covers :
    ∀ (depth : ℕ) {a b c : Coordinate K}, Equilateral a b c → ∀ {α β γ : K}, 0 ≤ α → 0 ≤ β →
      0 ≤ γ → α + β + γ = 1 →
        ∃ tri ∈ divideTriangle a b c depth, tri.pointWithin (barycentric a b c α β γ) = true := by
  intro depth
  induction depth with
  | zero =>
    intro a b c h α β γ hα hβ hγ hsum
    exact ⟨⟨a, b, c⟩, List.mem_singleton_self _, pointWithin_barycentric h hα hβ hγ hsum⟩
  | succ depth ih =>
    intro a b c h α β γ hα hβ hγ hsum
    obtain ⟨hA, hB, hC, hmiddle⟩ := equilateral_parts h
    simp only [divideTriangle, List.mem_append]
    rcases le_total (1 / 2) α with hα2 | hα2
    · obtain ⟨tri, htri, hwithin⟩ := ih hA (α := 2 * α - 1) (β := 2 * β) (γ := 2 * γ)
        (by linarith) (by linarith) (by linarith) (by linarith)
      rw [← barycentric_corner a b c hsum] at hwithin
      exact ⟨tri, Or.inl (Or.inl (Or.inl htri)), hwithin⟩
    rcases le_total (1 / 2) β with hβ2 | hβ2
    · obtain ⟨tri, htri, hwithin⟩ := ih hB (α := 2 * β - 1) (β := 2 * α) (γ := 2 * γ)
        (by linarith) (by linarith) (by linarith) (by linarith)
      rw [sumCoordinates3d_comm a b, ← barycentric_corner b a c (by linarith),
        (barycentric_perm a b c α β γ).1] at hwithin
      exact ⟨tri, Or.inl (Or.inl (Or.inr htri)), hwithin⟩
    rcases le_total (1 / 2) γ with hγ2 | hγ2
    · obtain ⟨tri, htri, hwithin⟩ := ih hC (α := 2 * γ - 1) (β := 2 * α) (γ := 2 * β)
        (by linarith) (by linarith) (by linarith) (by linarith)
      rw [sumCoordinates3d_comm a c, sumCoordinates3d_comm b c,
        ← barycentric_corner c a b (by linarith), (barycentric_perm a b c α β γ).2] at hwithin
      exact ⟨tri, Or.inl (Or.inr htri), hwithin⟩
    · obtain ⟨tri, htri, hwithin⟩ := ih hmiddle (α := 1 - 2 * γ) (β := 1 - 2 * β)
        (γ := 1 - 2 * α) (by linarith) (by linarith) (by linarith) (by linarith)
      rw [← barycentric_middle a b c hsum] at hwithin
      exact ⟨tri, Or.inr htri, hwithin⟩

end Cover

end AllocationKeys.Olagsa
