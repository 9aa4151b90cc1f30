import AllocationKeys.Olagsa.Partition
import AllocationKeys.Olagsa.Species

/-!
# The species of an individual

`_initialize_species` builds one species for each segment of the line or cell of the triangle, and
`_assign_species` puts an individual into the first one that accepts it.

* `initial_species_cover`: the numbers of species, their ids, and that an initial population is
  assigned without an error, each individual to exactly one species;
* `findsItsRegion_iff`: the region of that species contains the individual, and no other species
  accepts an individual inside a region, exactly when the chromosome is in no cap of a cell. On the
  line that is always so.
-/

namespace AllocationKeys.Olagsa

variable {K : Type} [Field K] [LinearOrder K]

/-! ### Regions as sets of points -/

/-- The point that divides the segment in this ratio. -/
def Segment.along (s : Segment K) (r : K) : Coordinate K :=
  ⟨s.pointA.x + r * (s.pointB.x - s.pointA.x), s.pointA.y + r * (s.pointB.y - s.pointA.y),
    s.pointA.z + r * (s.pointB.z - s.pointA.z)⟩

def Segment.Contains (s : Segment K) (p : Coordinate K) : Prop :=
  ∃ r, 0 ≤ r ∧ r ≤ 1 ∧ p = s.along r

/-- The segment without its ends. -/
def Segment.Inside (s : Segment K) (p : Coordinate K) : Prop :=
  ∃ r, 0 < r ∧ r < 1 ∧ p = s.along r

def Region.Contains : Region K → Coordinate K → Prop
  | segment seg => seg.Contains
  | triangle tri => tri.Contains

def Region.Inside : Region K → Coordinate K → Prop
  | segment seg => seg.Inside
  | triangle tri => tri.Inside

/-! ### The segments of the line -/

/-- The segment between two points of the line. -/
def lineSegment (a b : K) : Segment K := ⟨⟨a, lineFunc a, 0⟩, ⟨b, lineFunc b, 0⟩⟩

variable [IsStrictOrderedRing K] {a b x : K}

omit [LinearOrder K] [IsStrictOrderedRing K] in
theorem along_lineSegment {r : K} :
    (⟨x, lineFunc x, 0⟩ : Coordinate K) = (lineSegment a b).along r ↔ x = a + r * (b - a) := by
  simp only [Segment.along, lineSegment, lineFunc, Coordinate.mk.injEq]
  constructor
  · exact fun h => h.1
  · intro h
    refine ⟨h, ?_, ?_⟩
    · rw [h]
      ring
    · ring

theorem contains_lineSegment (hab : a < b) :
    (lineSegment a b).Contains ⟨x, lineFunc x, 0⟩ ↔ a ≤ x ∧ x ≤ b := by
  have hpos : 0 < b - a := sub_pos.mpr hab
  constructor
  · rintro ⟨r, h0, h1, hr⟩
    rw [along_lineSegment] at hr
    constructor
    · nlinarith
    · nlinarith
  · rintro ⟨ha, hb⟩
    refine ⟨(x - a) / (b - a), div_nonneg (sub_nonneg.mpr ha) hpos.le, ?_, ?_⟩
    · rw [div_le_one hpos]
      linarith
    · rw [along_lineSegment, div_mul_cancel₀ _ hpos.ne']
      ring

theorem inside_lineSegment (hab : a < b) :
    (lineSegment a b).Inside ⟨x, lineFunc x, 0⟩ ↔ a < x ∧ x < b := by
  have hpos : 0 < b - a := sub_pos.mpr hab
  constructor
  · rintro ⟨r, h0, h1, hr⟩
    rw [along_lineSegment] at hr
    constructor
    · nlinarith
    · nlinarith
  · rintro ⟨ha, hb⟩
    refine ⟨(x - a) / (b - a), div_pos (sub_pos.mpr ha) hpos, ?_, ?_⟩
    · rw [div_lt_one hpos]
      linarith
    · rw [along_lineSegment, div_mul_cancel₀ _ hpos.ne']
      ring

theorem pointWithin_lineSegment (hab : a < b) :
    (lineSegment a b).pointWithin ⟨x, lineFunc x, 0⟩ = true ↔ a ≤ x ∧ x ≤ b := by
  constructor
  · intro h
    have hdot : (x - a) * (b - a) + (lineFunc x - lineFunc a) * (lineFunc b - lineFunc a)
        = 2 * ((x - a) * (b - a)) := by
      simp only [lineFunc]
      ring
    have hlength : (b - a) ^ 2 + (lineFunc b - lineFunc a) ^ 2 = 2 * ((b - a) * (b - a)) := by
      simp only [lineFunc]
      ring
    simp only [lineSegment, Segment.pointWithin, hdot, hlength] at h
    split at h
    · cases h
    · split at h
      · cases h
      · rename_i hdot0
        have hpos : 0 < b - a := sub_pos.mpr hab
        have hle : 2 * ((x - a) * (b - a)) ≤ 2 * ((b - a) * (b - a)) := by simpa using h
        constructor
        · nlinarith
        · nlinarith
  · exact fun h => pointWithin_of_line h.1 h.2

/-- The segments from `start` on, when `k` points follow at the same distance. -/
structure Cut (start : K) (k : ℕ) (segments : List (Segment K)) : Prop where
  length : segments.length = k + 1
  shape : ∀ s ∈ segments, ∃ a b, s = lineSegment a b ∧ a < b ∧ start ≤ a
  sorted : segments.Pairwise fun s s' => s.pointB.x ≤ s'.pointA.x

theorem cut_segmentsFrom {baseValue : K} (hbase : 0 < baseValue) :
    ∀ (k : ℕ) (start : K), start + (k + 1) * baseValue = 1 →
      Cut start k (segmentsFrom ⟨start, lineFunc start, 0⟩
        (midpointsFrom baseValue k (start + baseValue))) := by
  intro k
  induction k with
  | zero =>
    intro start hend
    have hlast : (⟨⟨start, lineFunc start, 0⟩, ⟨1, 0, 0⟩⟩ : Segment K) = lineSegment start 1 := by
      simp [lineSegment, lineFunc]
    simp only [midpointsFrom, segmentsFrom, hlast]
    refine ⟨rfl, fun s hs => ?_, List.pairwise_singleton _ _⟩
    refine ⟨start, 1, List.mem_singleton.mp hs, ?_, le_refl start⟩
    simp only [Nat.cast_zero, zero_add, one_mul] at hend
    linarith
  | succ k ih =>
    intro start hend
    obtain ⟨hlength, hshape, hsorted⟩ := ih (start + baseValue) (by
      push_cast at hend
      linear_combination hend)
    refine ⟨by simp only [midpointsFrom, segmentsFrom, List.length_cons, hlength], ?_, ?_⟩
    · intro s hs
      rcases List.mem_cons.mp hs with rfl | hs
      · exact ⟨start, start + baseValue, rfl, by linarith, le_refl start⟩
      · obtain ⟨a, b, rfl, hab, ha⟩ := hshape s hs
        exact ⟨a, b, rfl, hab, by linarith⟩
    · refine List.pairwise_cons.mpr ⟨fun s hs => ?_, hsorted⟩
      obtain ⟨a, b, rfl, -, ha⟩ := hshape s hs
      exact ha

theorem cut_buildSegments {depth : ℕ} (hdepth : 1 ≤ depth) :
    Cut (0 : K) (depth - 1) (buildSegments (findMidpoints depth)) := by
  have hpos : (0 : K) < 1 / (depth : K) := one_div_pos.mpr (by exact_mod_cast hdepth)
  have hend : (0 : K) + (((depth - 1 : ℕ) : K) + 1) * (1 / (depth : K)) = 1 := by
    have hcast : ((depth - 1 : ℕ) : K) + 1 = (depth : K) := by
      exact_mod_cast Nat.sub_add_cancel hdepth
    rw [hcast, zero_add, mul_one_div_cancel]
    exact_mod_cast (show depth ≠ 0 by omega)
  have h := cut_segmentsFrom hpos (depth - 1) 0 hend
  rwa [zero_add, show lineFunc (0 : K) = 1 by simp [lineFunc]] at h

/-! ### The cells of the triangle -/

/-- The triangle of the three unit points. -/
def simplex : Triangle K := ⟨⟨1, 0, 0⟩, ⟨0, 1, 0⟩, ⟨0, 0, 1⟩⟩

theorem regular_simplex : (simplex : Triangle K).Regular := by
  refine ⟨⟨?_, ?_⟩, ?_⟩ <;> simp only [simplex, Triangle.sideLengthSq, distance3dSq] <;> norm_num

omit [LinearOrder K] [IsStrictOrderedRing K] in
theorem at_simplex {α β γ : K} (hsum : α + β + γ = 1) :
    (simplex : Triangle K).At ⟨α, β, γ⟩ α β γ :=
  ⟨hsum, by simp [simplex, barycentric]⟩

omit [LinearOrder K] [IsStrictOrderedRing K] in
theorem length_cells (depth : ℕ) : ∀ t : Triangle K, (t.cells depth).length = 4 ^ depth := by
  induction depth with
  | zero => exact fun _ => rfl
  | succ depth ih =>
    intro t
    rw [cells_succ, List.length_flatMap]
    simp only [ih, List.map_const', Triangle.parts, List.length_cons, List.length_nil,
      List.sum_replicate, smul_eq_mul]
    rw [pow_succ, mul_comm]

/-! ### The first assignment -/

omit [LinearOrder K] [IsStrictOrderedRing K] in
theorem initializeSpecies_line {ga : OlagsaGA K} (hk : ga.numKeyIteration = 2)
    (hwaited : 1 ≤ ga.speciesWaited) :
    ∃ ga', initializeSpecies ga = .ok ((buildSegments (findMidpoints ga.speciesWaited)).mapIdx
      fun j seg => segmentSpecie (ga.lastSpecieId + j) seg, ga') :=
  ⟨_, by rw [initializeSpecies, if_pos hk, if_neg (by omega)]⟩

omit [LinearOrder K] [IsStrictOrderedRing K] in
theorem initializeSpecies_triangle {ga : OlagsaGA K} (hk : ga.numKeyIteration = 3) :
    ∃ ga', initializeSpecies ga = .ok ((simplex.cells ga.speciesWaited).mapIdx
      fun j tri => triangleSpecie (ga.lastSpecieId + j) tri, ga') := by
  rw [initializeSpecies, if_neg (by omega), if_pos hk]
  exact ⟨_, rfl⟩

/-- What is known of the first species. -/
structure Initial (ga : OlagsaGA K) (species : List (Specie K)) : Prop where
  segments : ga.numKeyIteration = 2 → species.length = ga.speciesWaited
  cells : ga.numKeyIteration = 3 → species.length = 4 ^ ga.speciesWaited
  ids : (species.map Specie.id).Nodup
  accepted : ∀ chromosomes, Distribution ga.numKeyIteration chromosomes →
    ∃ point, chromosomeToCoordinate chromosomes = .ok point ∧
      ∃ s ∈ species, s.isSameSpecie.pointWithin point = true
  assigned : ∀ population : List (Individual K),
    (∀ x ∈ population, Distribution ga.numKeyIteration x.chromosomes) →
      ∃ next, assignSpecies population species = .ok next ∧ Appended population species next ∧
        (next.flatMap Specie.individuals).Perm population ∧
        (next.map fun s => s.individuals.length).sum = population.length

omit [Field K] [LinearOrder K] [IsStrictOrderedRing K] in
theorem flatMap_individuals_of_empty {species : List (Specie K)}
    (h : ∀ s ∈ species, s.individuals = []) : species.flatMap Specie.individuals = [] :=
  List.flatMap_eq_nil_iff.mpr h

/-- **The first species cover the simplex**: as many as asked for, with different ids, and every
population of shares is assigned without an error, each individual to exactly one species. -/
theorem initial_species_cover {ga : OlagsaGA K}
    (hk : ga.numKeyIteration = 2 ∨ ga.numKeyIteration = 3) (hwaited : 1 ≤ ga.speciesWaited) :
    ∃ species ga', initializeSpecies ga = .ok (species, ga') ∧ Initial ga species := by
  have hlies : ∀ {species ga'}, initializeSpecies ga = .ok (species, ga') →
      (ga.numKeyIteration = 2 → species.length = ga.speciesWaited) →
      (ga.numKeyIteration = 3 → species.length = 4 ^ ga.speciesWaited) → Initial ga species := by
    intro species ga' hinitial hsegments hcells
    have hinitialized := initialized_of_initializeSpecies hinitial
    refine ⟨hsegments, hcells, hinitialized.ids, fun chromosomes h => ?_, fun population h => ?_⟩
    · obtain ⟨s, hs, point, hpoint, hwithin⟩ :=
        exists_initial_species (x := Individual.make chromosomes) hinitial h
      exact ⟨point, hpoint, s, hs, hwithin⟩
    · rcases assignSpecies_cases population species fun x hx => (h x hx).point hk with
        ⟨-, next, hnext, happended⟩ | ⟨hnot, -⟩
      · have hperm := happended.once
        rw [flatMap_individuals_of_empty hinitialized.empty, List.nil_append] at hperm
        refine ⟨next, hnext, happended, hperm, ?_⟩
        rw [← hperm.length_eq, List.length_flatMap]
      · exact absurd (fun x hx => exists_initial_species hinitial (h x hx)) hnot
  rcases hk with hk | hk
  · obtain ⟨ga', hinitial⟩ := initializeSpecies_line hk hwaited
    refine ⟨_, ga', hinitial, hlies hinitial (fun _ => ?_) fun h => by omega⟩
    rw [List.length_mapIdx, (cut_buildSegments hwaited).length]
    omega
  · obtain ⟨ga', hinitial⟩ := initializeSpecies_triangle hk
    refine ⟨_, ga', hinitial, hlies hinitial (fun h => by omega) fun _ => ?_⟩
    rw [List.length_mapIdx, length_cells]

/-! ### The region of an individual -/

/-- The individual is put into a species whose region contains it, and inside a region no other
species accepts it. -/
def FindsItsRegion (ga : OlagsaGA K) (chromosomes : List K) : Prop :=
  ∀ species ga' point, initializeSpecies ga = .ok (species, ga') →
    chromosomeToCoordinate chromosomes = .ok point →
      (∀ population next, assignSpecies population species = .ok next →
        ∀ s ∈ next, ∀ x ∈ s.individuals, x.chromosomes = chromosomes →
          s.isSameSpecie.Contains point) ∧
      ∀ s ∈ species, s.isSameSpecie.Inside point →
        ∀ s' ∈ species, s'.isSameSpecie.pointWithin point = true → s' = s

/-- The chromosome lies in a cap of a cell. -/
def InCap (ga : OlagsaGA K) (chromosomes : List K) : Prop :=
  ga.numKeyIteration = 3 ∧ ∃ point, chromosomeToCoordinate chromosomes = .ok point ∧
    ∃ tri ∈ simplex.cells ga.speciesWaited, tri.Cap point

omit [IsStrictOrderedRing K] in
/-- In a species that was empty, every individual lies in its region. -/
theorem Appended.lies {population : List (Individual K)} {species next : List (Specie K)}
    (h : Appended population species next) (hempty : ∀ s ∈ species, s.individuals = []) :
    ∀ s' ∈ next, ∃ s ∈ species, s'.isSameSpecie = s.isSameSpecie ∧
      ∀ x ∈ s'.individuals, Lies x s := by
  have hgrown := h.grown
  clear h
  induction hgrown with
  | nil => exact fun _ hs' => by cases hs'
  | @cons s s' species next hhead _ ih =>
    intro s'' hs''
    rcases List.mem_cons.mp hs'' with rfl | hs''
    · obtain ⟨new, rfl, hnew⟩ := hhead
      refine ⟨s, List.mem_cons_self .., rfl, fun x hx => ?_⟩
      rw [hempty s (List.mem_cons_self ..), List.nil_append] at hx
      exact (hnew x hx).2
    · obtain ⟨s₀, hs₀, hlies⟩ := ih (fun s hs => hempty s (List.mem_cons_of_mem _ hs)) s'' hs''
      exact ⟨s₀, List.mem_cons_of_mem _ hs₀, hlies⟩

omit [IsStrictOrderedRing K] in
/-- What is accepted is contained, and regions are apart: then every individual finds its region. -/
theorem findsItsRegion_of_apart {ga : OlagsaGA K} {chromosomes : List K}
    (h : ∀ species ga' point, initializeSpecies ga = .ok (species, ga') →
      chromosomeToCoordinate chromosomes = .ok point →
        (∀ s ∈ species, s.isSameSpecie.pointWithin point = true → s.isSameSpecie.Contains point) ∧
        species.Pairwise fun s s' =>
          ¬ (s.isSameSpecie.Inside point ∧ s'.isSameSpecie.Contains point) ∧
            ¬ (s'.isSameSpecie.Inside point ∧ s.isSameSpecie.Contains point)) :
    FindsItsRegion ga chromosomes := by
  intro species ga' point hinitial hpoint
  obtain ⟨hcontains, hapart⟩ := h species ga' point hinitial hpoint
  have hempty := (initialized_of_initializeSpecies hinitial).empty
  constructor
  · intro population next hnext s' hs' x hx hchromosomes
    obtain ⟨s, hs, hregion, hlies⟩ := (appended_of_ok hnext).lies hempty s' hs'
    obtain ⟨point', hpoint', hwithin⟩ := hlies x hx
    rw [hchromosomes, hpoint] at hpoint'
    cases hpoint'
    rw [hregion]
    exact hcontains s hs hwithin
  · intro s hs hinside s' hs' hwithin
    obtain ⟨i, hi, rfl⟩ := List.mem_iff_getElem.mp hs
    obtain ⟨j, hj, rfl⟩ := List.mem_iff_getElem.mp hs'
    have hboth := hcontains _ hs' hwithin
    rw [List.pairwise_iff_getElem] at hapart
    rcases lt_trichotomy i j with hij | rfl | hij
    · exact absurd ⟨hinside, hboth⟩ (hapart i j hi hj hij).1
    · rfl
    · exact absurd ⟨hinside, hboth⟩ (hapart j i hj hi hij).2

/-- On the line every individual finds its region. -/
theorem findsItsRegion_line {ga : OlagsaGA K} (hk : ga.numKeyIteration = 2)
    (hwaited : 1 ≤ ga.speciesWaited) {chromosomes : List K} (h : Distribution 2 chromosomes) :
    FindsItsRegion ga chromosomes := by
  refine findsItsRegion_of_apart fun species ga' point hinitial hpoint => ?_
  obtain ⟨x, y, rfl⟩ := List.length_eq_two.mp h.length
  have hy : y = lineFunc x := by
    have hsum := h.sum
    simp only [List.sum_cons, List.sum_nil, add_zero] at hsum
    rw [lineFunc]
    linear_combination hsum
  subst hy
  cases hpoint
  obtain ⟨ga₁, hsegments⟩ := initializeSpecies_line hk hwaited
  rw [hsegments] at hinitial
  cases hinitial
  obtain ⟨-, hshape, hsorted⟩ := cut_buildSegments (K := K) hwaited
  constructor
  · -- a segment takes a point between its ends, and no other
    intro s hs hwithin
    obtain ⟨j, hj, rfl⟩ := List.mem_mapIdx.mp hs
    obtain ⟨a, b, hab, hlt, -⟩ := hshape _ (List.getElem_mem hj)
    show Segment.Contains _ _
    have hwithin : Segment.pointWithin _ _ = true := hwithin
    rw [hab] at hwithin ⊢
    exact (contains_lineSegment hlt).mpr ((pointWithin_lineSegment hlt).mp hwithin)
  · -- the segments follow one another on the line
    rw [List.pairwise_iff_getElem] at hsorted ⊢
    intro i j hi hj hij
    rw [List.length_mapIdx] at hi hj
    rw [List.getElem_mapIdx, List.getElem_mapIdx]
    have hle := hsorted i j hi hj hij
    obtain ⟨a, b, hab, hlt, -⟩ := hshape _ (List.getElem_mem hi)
    obtain ⟨c, d, hcd, hlt', -⟩ := hshape _ (List.getElem_mem hj)
    rw [hab, hcd] at hle ⊢
    have hbc : b ≤ c := hle
    show ¬ (Segment.Inside _ _ ∧ Segment.Contains _ _) ∧ ¬ (Segment.Inside _ _ ∧
      Segment.Contains _ _)
    rw [contains_lineSegment hlt, contains_lineSegment hlt', inside_lineSegment hlt,
      inside_lineSegment hlt']
    constructor
    · rintro ⟨⟨-, hxb⟩, hcx, -⟩
      exact absurd (hxb.trans_le (hbc.trans hcx)) (lt_irrefl x)
    · rintro ⟨⟨hcx, -⟩, -, hxb⟩
      exact absurd (hxb.trans_lt (hbc.trans_lt hcx)) (lt_irrefl x)

/-- In the triangle the individuals outside of the caps find their regions, and no others. -/
theorem findsItsRegion_triangle {ga : OlagsaGA K} (hk : ga.numKeyIteration = 3)
    {chromosomes : List K} (h : Distribution 3 chromosomes) :
    FindsItsRegion ga chromosomes ↔ ¬ InCap ga chromosomes := by
  obtain ⟨x, y, z, rfl⟩ := List.length_eq_three.mp h.length
  have hsum := h.sum
  have hnonneg := h.nonneg
  simp only [List.sum_cons, List.sum_nil, add_zero, List.mem_cons, List.not_mem_nil, or_false,
    forall_eq_or_imp, forall_eq] at hsum hnonneg
  have hcontains : (simplex : Triangle K).Contains ⟨x, y, z⟩ :=
    ⟨x, y, z, at_simplex (by linear_combination hsum), hnonneg⟩
  obtain ⟨ga₁, hcells⟩ := initializeSpecies_triangle hk
  have hregular := regular_cells ga.speciesWaited (regular_simplex (K := K))
  constructor
  · -- a point of a cap is inside another cell
    rintro hfinds ⟨-, point, hpoint, tri, htri, hcap⟩
    cases hpoint
    obtain ⟨tri', htri', hinside⟩ := inside_of_cap regular_simplex hcontains htri hcap
    obtain ⟨α, β, γ, hat⟩ := exists_at_cells hcontains htri
    have hwithin := (pointWithin_iff (hregular tri htri) hat).mpr (Or.inr hcap)
    have hnot := not_contains_of_cap (hregular tri htri) hcap
    obtain ⟨i, hi, rfl⟩ := List.mem_iff_getElem.mp htri
    obtain ⟨j, hj, rfl⟩ := List.mem_iff_getElem.mp htri'
    have hsame := (hfinds _ _ _ hcells rfl).2 _ (List.mem_mapIdx.mpr ⟨j, hj, rfl⟩) hinside _
      (List.mem_mapIdx.mpr ⟨i, hi, rfl⟩) hwithin
    have htriangle := Region.triangle.inj (congrArg Specie.isSameSpecie hsame)
    rw [← htriangle] at hinside
    exact hnot hinside.contains
  · -- outside the caps the cells that take the point are the one that contains it
    intro hout
    refine findsItsRegion_of_apart fun species ga' point hinitial hpoint => ?_
    cases hpoint
    rw [hcells] at hinitial
    cases hinitial
    constructor
    · intro s hs hwithin
      obtain ⟨j, hj, rfl⟩ := List.mem_mapIdx.mp hs
      have htri := List.getElem_mem hj
      obtain ⟨α, β, γ, hat⟩ := exists_at_cells hcontains htri
      rcases (pointWithin_iff (hregular _ htri) hat).mp hwithin with hin | hcap
      · exact hin
      · exact absurd ⟨hk, _, rfl, _, htri, hcap⟩ hout
    · -- two cells have no inner point in common
      have hapart : (simplex.cells ga.speciesWaited).Pairwise (Apart ⟨x, y, z⟩) :=
        cells_apart ga.speciesWaited regular_simplex
      rw [List.pairwise_iff_getElem] at hapart ⊢
      intro i j hi hj hij
      rw [List.length_mapIdx] at hi hj
      rw [List.getElem_mapIdx, List.getElem_mapIdx]
      exact hapart i j hi hj hij

/-- **When an individual is put where it belongs**: on the line always, in the triangle exactly when
its chromosome is in no cap of a cell. -/
theorem findsItsRegion_iff {ga : OlagsaGA K}
    (hk : ga.numKeyIteration = 2 ∨ ga.numKeyIteration = 3) (hwaited : 1 ≤ ga.speciesWaited)
    {chromosomes : List K} (h : Distribution ga.numKeyIteration chromosomes) :
    FindsItsRegion ga chromosomes ↔ ¬ InCap ga chromosomes := by
  rcases hk with hk | hk
  · rw [hk] at h
    refine iff_of_true (findsItsRegion_line hk hwaited h) fun hcap => ?_
    have h3 := hcap.1
    omega
  · rw [hk] at h
    exact findsItsRegion_triangle hk h

/-! ### Two searches -/

/-- A search for three iterations, over the four cells of depth 1. -/
def searchForThree : OlagsaGA ℚ where
  numKeyIteration := 3
  numGeneration := 1
  populationSize := 2
  crossoverRate := 1
  crossoverRateInterSpecies := 0
  mutationRate := 0
  speciesWaited := 1
  maxIterationWithoutImprovement := 1
  lastSpecieId := 0

theorem initial_species_cover_three :
    ∃ species ga', initializeSpecies searchForThree = .ok (species, ga') ∧
      species.length = 4 := by
  have hk : searchForThree.numKeyIteration = 2 ∨ searchForThree.numKeyIteration = 3 := Or.inr rfl
  obtain ⟨species, ga', hinitial, hcover⟩ := initial_species_cover hk (by decide)
  exact ⟨species, ga', hinitial, hcover.cells rfl⟩

theorem findsItsRegion_iff_line :
    FindsItsRegion { searchForThree with numKeyIteration := 2 } [3 / 4, 1 / 4] := by
  refine (findsItsRegion_iff (Or.inl rfl) (by decide) ⟨rfl, by norm_num, ?_⟩).mpr ?_
  · simp only [List.mem_cons, List.not_mem_nil, or_false, forall_eq_or_imp, forall_eq]
    norm_num
  · rintro ⟨h, -⟩
    cases h

/-- The cell at the first corner. -/
def cornerCell : Triangle ℚ := ⟨⟨1, 0, 0⟩, ⟨1 / 2, 1 / 2, 0⟩, ⟨1 / 2, 0, 1 / 2⟩⟩

/-- A point of the cell in the middle that the cell at the first corner accepts. -/
theorem not_findsItsRegion :
    Distribution 3 ([12 / 25, 13 / 50, 13 / 50] : List ℚ) ∧
      ¬ FindsItsRegion searchForThree [12 / 25, 13 / 50, 13 / 50] := by
  refine ⟨⟨rfl, by norm_num, ?_⟩, fun h => ?_⟩
  · simp only [List.mem_cons, List.not_mem_nil, or_false, forall_eq_or_imp, forall_eq]
    norm_num
  · have hk : searchForThree.numKeyIteration = 3 := rfl
    obtain ⟨ga', hinitial⟩ := initializeSpecies_triangle hk
    have hcells : ∃ rest, (simplex.cells searchForThree.speciesWaited).mapIdx
        (fun j tri => triangleSpecie (searchForThree.lastSpecieId + j) tri) =
          triangleSpecie 0 cornerCell :: rest := by
      have hcorner : cornerCell =
          ⟨⟨1, 0, 0⟩, midOf ⟨1, 0, 0⟩ ⟨0, 1, 0⟩, midOf ⟨1, 0, 0⟩ ⟨0, 0, 1⟩⟩ := by
        simp [midOf, sumCoordinates3d, Coordinate.divide, cornerCell]
      rw [hcorner]
      exact ⟨_, rfl⟩
    obtain ⟨rest, hcells⟩ := hcells
    rw [hcells] at hinitial
    have hwithin : (triangleSpecie 0 cornerCell).isSameSpecie.pointWithin
        ⟨12 / 25, 13 / 50, 13 / 50⟩ = true := by decide +kernel
    obtain ⟨hhome, -⟩ := h _ _ ⟨12 / 25, 13 / 50, 13 / 50⟩ hinitial rfl
    have hassigned : assignSpecies [Individual.make [12 / 25, 13 / 50, 13 / 50]]
        (triangleSpecie 0 cornerCell :: rest) =
          .ok ({ triangleSpecie 0 cornerCell with
            individuals := [Individual.make [12 / 25, 13 / 50, 13 / 50]] } :: rest) := by
      simp only [assignSpecies, Individual.make, chromosomeToCoordinate, bind, Except.bind,
        appendTo, hwithin, if_true]
      rfl
    obtain ⟨α, β, γ, hat, hα, hβ, hγ⟩ := hhome _ _ hassigned _ (List.mem_cons_self ..) _
      (List.mem_singleton_self _) rfl
    -- the cell has no point whose first share is below one half
    have hx := congrArg Coordinate.x hat.eq
    have hsum := hat.sum
    simp only [barycentric, cornerCell] at hx
    linarith

end AllocationKeys.Olagsa
