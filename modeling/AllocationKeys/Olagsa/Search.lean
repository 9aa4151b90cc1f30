import AllocationKeys.Olagsa.Individuals

/-!
# The states of a search

`Reaches ga C VA ga' earlier found` holds when a run can begin a generation with the species
`found`, after generations that began with the species `earlier` (latest first); `ga'` are the
parameters once the species space is built. `Breeds` is one generation that goes on to breed,
`Ends` how the loop stops.

* `generations_error` and `generations_ok`: every run of the loop goes through such states;
* `yields_of_breeds`: and every such state is gone through by a run;
* `reaches_sound`: every individual in them is `Sound`.
-/

namespace AllocationKeys.Olagsa

open Program

variable {n T : ℕ} {K : Type} [Field K] [LinearOrder K]

/-! ### Sorting and culling -/

omit [Field K] in
@[simp] theorem mem_sortByFitness {individuals : List (Individual K)} {x : Individual K} :
    x ∈ sortByFitness individuals ↔ x ∈ individuals :=
  List.mem_insertionSort _

omit [Field K] in
@[simp] theorem length_sortByFitness (individuals : List (Individual K)) :
    (sortByFitness individuals).length = individuals.length :=
  List.length_insertionSort _ _

omit [Field K] in
theorem pairwise_sortByFitness (individuals : List (Individual K)) :
    (sortByFitness individuals).Pairwise fun a b => b.fitness ≤ a.fitness := by
  have htotal : Std.Total fun a b : Individual K => b.fitness ≤ a.fitness :=
    ⟨fun a b => le_total b.fitness a.fitness⟩
  have htrans : IsTrans (Individual K) fun a b => b.fitness ≤ a.fitness :=
    ⟨fun _ _ _ hab hbc => hbc.trans hab⟩
  exact List.pairwise_insertionSort _ _

omit [Field K] in
/-- The first of the sorted individuals is a fittest one. -/
theorem fitness_le_head {individuals rest : List (Individual K)} {best x : Individual K}
    (h : sortByFitness individuals = best :: rest) (hx : x ∈ individuals) :
    x.fitness ≤ best.fitness := by
  have hsorted := pairwise_sortByFitness individuals
  rw [h] at hsorted
  rw [← mem_sortByFitness, h] at hx
  rcases List.mem_cons.mp hx with rfl | hx
  · exact le_rfl
  · exact List.rel_of_pairwise_cons hsorted hx

omit [Field K] in
theorem sortByFitness_eq_nil {individuals : List (Individual K)} :
    sortByFitness individuals = [] ↔ individuals = [] := by
  rw [← List.length_eq_zero_iff, length_sortByFitness, List.length_eq_zero_iff]

omit [Field K] in
/-- Everything a check leaves as it was. -/
theorem checkSpecie_fields (ga : OlagsaGA K) (specie : Specie K) :
    (checkSpecie ga specie).1.id = specie.id ∧
      (checkSpecie ga specie).1.isSameSpecie = specie.isSameSpecie ∧
      (checkSpecie ga specie).1.individuals = sortByFitness specie.individuals := by
  unfold checkSpecie
  split
  · rename_i h
    exact ⟨rfl, rfl, by rw [h, sortByFitness_eq_nil.mp h]⟩
  · rename_i best rest h
    dsimp only
    split <;> exact ⟨rfl, rfl, h.symm⟩

omit [Field K] in
theorem cullWeakest_subset (specie : Specie K) :
    ∀ x ∈ (cullWeakest specie).individuals, x ∈ specie.individuals := by
  intro x hx
  unfold cullWeakest at hx
  split at hx
  · exact hx
  · exact mem_sortByFitness.mp (List.mem_of_mem_take hx)

omit [Field K] in
theorem cullWeakest_fields (specie : Specie K) :
    (cullWeakest specie).id = specie.id ∧
      (cullWeakest specie).isSameSpecie = specie.isSameSpecie := by
  unfold cullWeakest
  split <;> exact ⟨rfl, rfl⟩

/-- A survivor of a generation, and the species it comes from. -/
theorem mem_survivors {ga : OlagsaGA K} {species : List (Specie K)} {s : Specie K} :
    s ∈ survivors ga species ↔ ∃ specie ∈ species, specie.individuals ≠ [] ∧
      s = cullWeakest (applyAdjustedFitness (checkSpecie ga specie).1) := by
  have hempty : ∀ specie : Specie K,
      (!(checkSpecie ga specie).1.individuals.isEmpty) = true ↔ specie.individuals ≠ [] := by
    intro specie
    rw [(checkSpecie_fields ga specie).2.2, Bool.not_eq_true', List.isEmpty_eq_false_iff, ne_eq,
      sortByFitness_eq_nil]
  simp only [survivors, inhabited, checkSpecies, List.mem_map, List.mem_filter]
  constructor
  · rintro ⟨_, ⟨_, ⟨⟨specie, hspecie, rfl⟩, hne⟩, rfl⟩, rfl⟩
    exact ⟨specie, hspecie, (hempty specie).mp hne, rfl⟩
  · rintro ⟨specie, hspecie, hne, rfl⟩
    exact ⟨_, ⟨_, ⟨⟨specie, hspecie, rfl⟩, (hempty specie).mpr hne⟩, rfl⟩, rfl⟩

omit [Field K] in
/-- One individual alone is spared, of several the weaker half is gone. -/
theorem length_cullWeakest (specie : Specie K) :
    (cullWeakest specie).individuals.length =
      if specie.individuals.length = 1 then 1 else specie.individuals.length / 2 := by
  unfold cullWeakest
  split
  · rename_i h
    exact h
  · rename_i h
    simp only [List.length_take, length_sortByFitness]
    omega

/-- How many individuals survive of a species. -/
theorem length_survivor (ga : OlagsaGA K) (specie : Specie K) :
    (cullWeakest (applyAdjustedFitness (checkSpecie ga specie).1)).individuals.length =
      if specie.individuals.length = 1 then 1 else specie.individuals.length / 2 := by
  rw [length_cullWeakest]
  simp only [applyAdjustedFitness, List.length_map, (checkSpecie_fields ga specie).2.2,
    length_sortByFitness]

theorem inhabited_of_survivor {ga : OlagsaGA K} {species : List (Specie K)} {s : Specie K}
    (hs : s ∈ survivors ga species) : s.individuals ≠ [] := by
  obtain ⟨specie, -, hne, rfl⟩ := mem_survivors.mp hs
  have hpos := List.length_pos_iff.mpr hne
  have hlength := length_survivor ga specie
  rw [← List.length_pos_iff, hlength]
  split <;> omega

/-- The adjusted fitness of a survivor is a positive fitness divided by the size of its species. -/
theorem adjustedFitness_pos [IsStrictOrderedRing K] {ga : OlagsaGA K} {species : List (Specie K)}
    (h : EveryIndividual (fun x => 0 < x.fitness) species) :
    EveryIndividual (fun x => 0 < x.adjustedFitness) (survivors ga species) := by
  intro s hs x hx
  obtain ⟨specie, hspecie, hne, rfl⟩ := mem_survivors.mp hs
  have hadjusted := cullWeakest_subset _ x hx
  simp only [applyAdjustedFitness, (checkSpecie_fields ga specie).2.2, List.mem_map,
    mem_sortByFitness, length_sortByFitness] at hadjusted
  obtain ⟨y, hy, rfl⟩ := hadjusted
  have hsize : (0 : K) < specie.individuals.length := by
    exact_mod_cast List.length_pos_iff.mpr hne
  exact div_pos (h specie hspecie y hy) hsize

/-- Survivors keep what does not depend on the adjusted fitness. -/
theorem everyIndividual_of_survivors (ga : OlagsaGA K) {P : Individual K → Prop}
    (hadjust : ∀ x f, P x → P { x with adjustedFitness := f }) {species : List (Specie K)}
    (h : EveryIndividual P species) : EveryIndividual P (survivors ga species) := by
  intro s hs x hx
  obtain ⟨specie, hspecie, -, rfl⟩ := mem_survivors.mp hs
  have hadjusted := cullWeakest_subset _ x hx
  simp only [applyAdjustedFitness, (checkSpecie_fields ga specie).2.2, List.mem_map,
    mem_sortByFitness] at hadjusted
  obtain ⟨y, hy, rfl⟩ := hadjusted
  exact hadjust y _ (h specie hspecie y hy)

theorem everyIndividual_survivors (ga : OlagsaGA K) {k : ℕ} {species : List (Specie K)}
    (h : EveryIndividual (Sound k) species) :
    EveryIndividual (Sound k) (survivors ga species) :=
  everyIndividual_of_survivors ga (fun _ _ hsound =>
    ⟨hsound.distribution, ⟨hsound.graded.optimal, hsound.graded.notOptimal⟩⟩) h

omit [Field K] in
theorem everyIndividual_checkSpecies (ga : OlagsaGA K) {P : Individual K → Prop}
    {species : List (Specie K)} (h : EveryIndividual P species) :
    EveryIndividual P (checkSpecies ga species) := by
  intro s hs x hx
  obtain ⟨specie, hspecie, rfl⟩ := List.mem_map.mp hs
  rw [(checkSpecie_fields ga specie).2.2, mem_sortByFitness] at hx
  exact h specie hspecie x hx

/-! ### Assigning individuals to species -/

/-- The individual's point lies within the region of the species. -/
def Lies (individual : Individual K) (specie : Specie K) : Prop :=
  ∃ point, chromosomeToCoordinate individual.chromosomes = .ok point ∧
    specie.isSameSpecie.pointWithin point = true

/-- Every new individual is appended to exactly one species, one in whose region it lies; nothing
else changes. -/
structure Appended (population : List (Individual K)) (species next : List (Specie K)) : Prop where
  grown : List.Forall₂
    (fun s s' => ∃ new, s' = { s with individuals := s.individuals ++ new } ∧
      ∀ x ∈ new, x ∈ population ∧ Lies x s)
    species next
  once : (next.flatMap Specie.individuals).Perm (species.flatMap Specie.individuals ++ population)

theorem forall₂_grown_refl (population : List (Individual K)) (species : List (Specie K)) :
    List.Forall₂
      (fun s s' => ∃ new, s' = { s with individuals := s.individuals ++ new } ∧
        ∀ x ∈ new, x ∈ population ∧ Lies x s) species species := by
  induction species with
  | nil => exact List.Forall₂.nil
  | cons s species ih => exact List.Forall₂.cons ⟨[], by simp, by simp⟩ ih

theorem appendTo_ok {individual : Individual K} {point : Coordinate K}
    (hpoint : chromosomeToCoordinate individual.chromosomes = .ok point) :
    ∀ {species next : List (Specie K)}, appendTo individual point species = .ok next →
      Appended [individual] species next := by
  intro species
  induction species with
  | nil => intro next h; cases h
  | cons s species ih =>
    intro next h
    unfold appendTo at h
    split at h
    · rename_i hwithin
      cases h
      refine ⟨List.Forall₂.cons ⟨[individual], rfl, ?_⟩ (forall₂_grown_refl _ species), ?_⟩
      · simp only [List.mem_singleton, forall_eq]
        exact ⟨trivial, point, hpoint, hwithin⟩
      · simp only [List.flatMap_cons, List.append_assoc]
        exact List.Perm.append_left _ List.perm_append_comm
    · rcases hrest : appendTo individual point species with e | next'
      · rw [hrest] at h
        cases h
      · rw [hrest] at h
        cases h
        have happended := ih hrest
        refine ⟨List.Forall₂.cons ⟨[], by simp, by simp⟩ happended.grown, ?_⟩
        simp only [List.flatMap_cons, List.append_assoc]
        exact List.Perm.append_left _ happended.once

/-- An individual is appended unless it lies in no region. -/
theorem appendTo_cases {individual : Individual K} {point : Coordinate K}
    (hpoint : chromosomeToCoordinate individual.chromosomes = .ok point)
    (species : List (Specie K)) :
    (∃ s ∈ species, Lies individual s) ∧ (∃ next, appendTo individual point species = .ok next) ∨
      (¬ ∃ s ∈ species, Lies individual s) ∧
        appendTo individual point species = .error .unassigned := by
  induction species with
  | nil => exact Or.inr ⟨by simp, rfl⟩
  | cons s species ih =>
    by_cases hwithin : s.isSameSpecie.pointWithin point = true
    · exact Or.inl ⟨⟨s, List.mem_cons_self .., point, hpoint, hwithin⟩, _, by
        rw [appendTo, if_pos hwithin]⟩
    · have hnot : ¬ Lies individual s := by
        rintro ⟨point', hpoint', hwithin'⟩
        rw [hpoint] at hpoint'
        cases hpoint'
        exact hwithin hwithin'
      simp only [List.mem_cons, exists_eq_or_imp, hnot, false_or, appendTo, if_neg hwithin]
      rcases ih with ⟨hlies, next, hnext⟩ | ⟨hlies, herror⟩
      · exact Or.inl ⟨hlies, s :: next, by rw [hnext]; rfl⟩
      · exact Or.inr ⟨hlies, by rw [herror]; rfl⟩

/-- Assigning one population after the other. -/
theorem Appended.cons {individual : Individual K} {population : List (Individual K)}
    {species mid next : List (Specie K)} (hfirst : Appended [individual] species mid)
    (hrest : Appended population mid next) : Appended (individual :: population) species next := by
  constructor
  · have hgrown := hfirst.grown
    have hgrown' := hrest.grown
    clear hfirst hrest
    induction hgrown generalizing next with
    | nil => cases hgrown'; exact List.Forall₂.nil
    | cons hhead _ ih =>
      cases hgrown' with
      | cons hhead' htail' =>
        refine List.Forall₂.cons ?_ (ih htail')
        obtain ⟨new, rfl, hnew⟩ := hhead
        obtain ⟨new', rfl, hnew'⟩ := hhead'
        refine ⟨new ++ new', by simp, ?_⟩
        intro x hx
        rcases List.mem_append.mp hx with hx | hx
        · obtain ⟨hmem, hlies⟩ := hnew x hx
          exact ⟨List.mem_cons.mpr (Or.inl (List.mem_singleton.mp hmem)), hlies⟩
        · obtain ⟨hmem, hlies⟩ := hnew' x hx
          exact ⟨List.mem_cons_of_mem _ hmem, hlies⟩
  · refine hrest.once.trans ((hfirst.once.append_right population).trans ?_)
    rw [List.append_assoc]
    rfl

/-- A species after an assignment is one from before, grown. -/
theorem Appended.exists_of_mem {population : List (Individual K)} {species next : List (Specie K)}
    (h : Appended population species next) {s' : Specie K} (hs' : s' ∈ next) :
    ∃ s ∈ species, ∃ new, s' = { s with individuals := s.individuals ++ new } := by
  have hgrown := h.grown
  clear h
  induction hgrown with
  | nil => cases hs'
  | cons hhead _ ih =>
    rcases List.mem_cons.mp hs' with rfl | hs'
    · obtain ⟨new, heq, -⟩ := hhead
      exact ⟨_, List.mem_cons_self .., new, heq⟩
    · obtain ⟨s, hs, hnew⟩ := ih hs'
      exact ⟨s, List.mem_cons_of_mem _ hs, hnew⟩

/-- Growing a species does not change its region. -/
theorem Appended.lies_iff {population : List (Individual K)} {species next : List (Specie K)}
    (h : Appended population species next) (individual : Individual K) :
    (∃ s ∈ next, Lies individual s) ↔ ∃ s ∈ species, Lies individual s := by
  have hgrown := h.grown
  clear h
  induction hgrown with
  | nil => rfl
  | cons hhead _ ih =>
    obtain ⟨new, rfl, -⟩ := hhead
    simp only [List.mem_cons, exists_eq_or_imp, ih]
    rfl

/-- **Assignment.**  A population whose points all lie in some region is appended, each
individual to exactly one species; any other population is refused. -/
theorem assignSpecies_cases :
    ∀ (population : List (Individual K)) (species : List (Specie K)),
      (∀ x ∈ population, ∃ point, chromosomeToCoordinate x.chromosomes = .ok point) →
        (∀ x ∈ population, ∃ s ∈ species, Lies x s) ∧
            (∃ next, assignSpecies population species = .ok next ∧
              Appended population species next) ∨
          (¬ ∀ x ∈ population, ∃ s ∈ species, Lies x s) ∧
            assignSpecies population species = .error .unassigned := by
  intro population
  induction population with
  | nil =>
    intro species _
    refine Or.inl ⟨by simp, species, rfl, forall₂_grown_refl [] species, by simp⟩
  | cons x population ih =>
    intro species hpoints
    obtain ⟨point, hpoint⟩ := hpoints x (List.mem_cons_self ..)
    have hunfold : assignSpecies (x :: population) species
        = (appendTo x point species).bind (assignSpecies population) := by
      rw [assignSpecies, hpoint]
      rfl
    rw [hunfold]
    rcases appendTo_cases hpoint species with ⟨hlies, mid, hmid⟩ | ⟨hlies, herror⟩
    · have hfirst := appendTo_ok hpoint hmid
      rw [hmid]
      show _ ∧ (∃ next, assignSpecies population mid = .ok next ∧ _) ∨
        _ ∧ assignSpecies population mid = _
      rcases ih mid fun y hy => hpoints y (List.mem_cons_of_mem x hy) with
        ⟨hrest, next, hnext, happended⟩ | ⟨hrest, herror⟩
      · refine Or.inl ⟨?_, next, hnext, hfirst.cons happended⟩
        simp only [List.mem_cons, forall_eq_or_imp]
        exact ⟨hlies, fun y hy => (hfirst.lies_iff y).mp (hrest y hy)⟩
      · refine Or.inr ⟨fun hall => hrest fun y hy => ?_, herror⟩
        exact (hfirst.lies_iff y).mpr (hall y (List.mem_cons_of_mem x hy))
    · rw [herror]
      exact Or.inr ⟨fun hall => hlies (hall x (List.mem_cons_self ..)), rfl⟩

/-- What holds of the individuals before and of the new ones holds after an assignment. -/
theorem Appended.everyIndividual {P : Individual K → Prop} {population : List (Individual K)}
    {species next : List (Specie K)} (h : Appended population species next)
    (hspecies : EveryIndividual P species) (hpopulation : ∀ x ∈ population, P x) :
    EveryIndividual P next := by
  intro s hs x hx
  have hmem : x ∈ next.flatMap Specie.individuals := List.mem_flatMap.mpr ⟨s, hs, hx⟩
  rw [h.once.mem_iff, List.mem_append, List.mem_flatMap] at hmem
  rcases hmem with ⟨s', hs', hx'⟩ | hx
  · exact hspecies s' hs' x hx'
  · exact hpopulation x hx

/-- A distribution over two or three iterations is a point. -/
theorem Distribution.point {k : ℕ} (hk : k = 2 ∨ k = 3) {l : List K} (h : Distribution k l) :
    ∃ point, chromosomeToCoordinate l = .ok point := by
  have hlength := h.length
  rcases hk with rfl | rfl
  · obtain ⟨x, y, rfl⟩ := List.length_eq_two.mp hlength
    exact ⟨⟨x, y, 0⟩, rfl⟩
  · obtain ⟨x, y, z, rfl⟩ := List.length_eq_three.mp hlength
    exact ⟨⟨x, y, z⟩, rfl⟩

/-- An assignment that succeeds has appended each individual. -/
theorem appended_of_ok : ∀ {population : List (Individual K)} {species next : List (Specie K)},
    assignSpecies population species = .ok next → Appended population species next := by
  intro population
  induction population with
  | nil =>
    intro species next h
    cases h
    exact ⟨forall₂_grown_refl [] species, by simp⟩
  | cons x population ih =>
    intro species next h
    rw [assignSpecies] at h
    rcases hpoint : chromosomeToCoordinate x.chromosomes with e | point
    · rw [hpoint] at h
      cases h
    · rw [hpoint] at h
      rcases hmid : appendTo x point species with e | mid
      · simp only [bind, Except.bind, hmid] at h
        cases h
      · simp only [bind, Except.bind, hmid] at h
        exact (appendTo_ok hpoint hmid).cons (ih h)

/-! ### The first population -/

/-- What the construction of the species space settles: the parameters keep their values, the
species are empty and have different ids. -/
structure Initialized (ga ga' : OlagsaGA K) (species : List (Specie K)) : Prop where
  numKeyIteration : ga'.numKeyIteration = ga.numKeyIteration
  numGeneration : ga'.numGeneration = ga.numGeneration
  maxIteration : ga'.maxIterationWithoutImprovement = ga.maxIterationWithoutImprovement
  empty : ∀ s ∈ species, s.individuals = []
  fresh : ∀ s ∈ species, s.iterationWithoutImprovement = 0
  ids : (species.map Specie.id).Nodup

omit [LinearOrder K] in
/-- The species space of a search with two iterations, or with three. -/
theorem initializeSpecies_ok {ga ga' : OlagsaGA K} {species : List (Specie K)}
    (h : initializeSpecies ga = .ok (species, ga')) :
    (ga.numKeyIteration = 2 ∧ ga.speciesWaited ≠ 0 ∧
      species = (buildSegments (findMidpoints ga.speciesWaited)).mapIdx
        (fun j seg => segmentSpecie (ga.lastSpecieId + j) seg) ∧
      ∃ lastSpecieId, ga' = { ga with lastSpecieId := lastSpecieId }) ∨
    (ga.numKeyIteration = 3 ∧
      species = (divideTriangle ⟨1, 0, 0⟩ ⟨0, 1, 0⟩ ⟨0, 0, 1⟩ ga.speciesWaited).mapIdx
        (fun j tri => triangleSpecie (ga.lastSpecieId + j) tri) ∧
      ∃ lastSpecieId speciesWaited,
        ga' = { ga with lastSpecieId := lastSpecieId, speciesWaited := speciesWaited }) := by
  unfold initializeSpecies at h
  split at h
  · rename_i hk
    split at h
    · cases h
    · rename_i hwaited
      cases h
      exact Or.inl ⟨hk, hwaited, rfl, _, rfl⟩
  · split at h
    · rename_i hk
      cases h
      exact Or.inr ⟨hk, rfl, _, _, rfl⟩
    · cases h

omit [LinearOrder K] in
/-- The construction divides by a species count of 0, or does not know the number of iterations. -/
theorem initializeSpecies_error {ga : OlagsaGA K} {e : Failure}
    (h : initializeSpecies ga = .error e) :
    (e = .zeroDivision ∧ ga.numKeyIteration = 2 ∧ ga.speciesWaited = 0) ∨
      (e = .valueError ∧ ga.numKeyIteration ≠ 2 ∧ ga.numKeyIteration ≠ 3) := by
  unfold initializeSpecies at h
  split at h
  · rename_i hk
    split at h
    · rename_i hwaited
      cases h
      exact Or.inl ⟨rfl, hk, hwaited⟩
    · cases h
  · rename_i hk2
    split at h
    · cases h
    · rename_i hk3
      cases h
      exact Or.inr ⟨rfl, hk2, hk3⟩

omit [LinearOrder K] in
theorem initialized_of_initializeSpecies {ga ga' : OlagsaGA K} {species : List (Specie K)}
    (h : initializeSpecies ga = .ok (species, ga')) : Initialized ga ga' species := by
  have hnodup : ∀ {α : Type} (regions : List α) (f : ℕ → α → Specie K) (base : ℕ),
      (∀ j region, (f (base + j) region).id = base + j) →
        ((regions.mapIdx fun j region => f (base + j) region).map Specie.id).Nodup := by
    intro α regions f base hid
    have hids : (regions.mapIdx fun j region => f (base + j) region).map Specie.id
        = (List.range regions.length).map (base + ·) := by
      apply List.ext_getElem
      · simp
      · intro j h1 h2
        simp [hid]
    rw [hids]
    exact List.nodup_range.map fun a b hab => Nat.add_left_cancel hab
  rcases initializeSpecies_ok h with ⟨-, -, rfl, _, rfl⟩ | ⟨-, rfl, _, _, rfl⟩
  · refine ⟨rfl, rfl, rfl, ?_, ?_, hnodup _ _ _ fun _ _ => rfl⟩
    · intro s hs
      obtain ⟨j, hj, rfl⟩ := List.mem_mapIdx.mp hs
      rfl
    · intro s hs
      obtain ⟨j, hj, rfl⟩ := List.mem_mapIdx.mp hs
      rfl
  · refine ⟨rfl, rfl, rfl, ?_, ?_, hnodup _ _ _ fun _ _ => rfl⟩
    · intro s hs
      obtain ⟨j, hj, rfl⟩ := List.mem_mapIdx.mp hs
      rfl
    · intro s hs
      obtain ⟨j, hj, rfl⟩ := List.mem_mapIdx.mp hs
      rfl

omit [Field K] in
theorem initializeBest_fields (specie : Specie K) :
    (initializeBest specie).id = specie.id ∧
      (initializeBest specie).isSameSpecie = specie.isSameSpecie ∧
      (initializeBest specie).iterationWithoutImprovement
        = specie.iterationWithoutImprovement ∧
      (initializeBest specie).individuals = sortByFitness specie.individuals := by
  unfold initializeBest
  split
  · rename_i h
    exact ⟨rfl, rfl, rfl, by rw [h, sortByFitness_eq_nil.mp h]⟩
  · rename_i best rest h
    exact ⟨rfl, rfl, rfl, h.symm⟩

/-- What holds of a population holds after its assignment to empty species. -/
theorem everyIndividual_of_first {P : Individual K → Prop} {population : List (Individual K)}
    {initial assigned : List (Specie K)} (hempty : ∀ s ∈ initial, s.individuals = [])
    (happended : Appended population initial assigned) (h : ∀ x ∈ population, P x) :
    EveryIndividual P (assigned.map initializeBest) := by
  have hassigned : EveryIndividual P assigned := by
    refine happended.everyIndividual (fun s hs x hx => ?_) h
    rw [hempty s hs] at hx
    cases hx
  intro s hs x hx
  obtain ⟨s', hs', rfl⟩ := List.mem_map.mp hs
  rw [(initializeBest_fields s').2.2.2, mem_sortByFitness] at hx
  exact hassigned s' hs' x hx

/-- How a search starts: the initial species, and the sound population appended to them. -/
structure Started (ga ga' : OlagsaGA K) (species : List (Specie K)) : Prop where
  started : ∃ initial population assigned, initializeSpecies ga = .ok (initial, ga') ∧
    (∀ x ∈ population, Sound ga.numKeyIteration x) ∧
    assignSpecies population initial = .ok assigned ∧ species = assigned.map initializeBest

/-- The first population is sound. -/
theorem ensures_population [IsStrictOrderedRing K] {ga : OlagsaGA K}
    (hk : ga.numKeyIteration ≠ 0) (C VA : Fin (n + 1) → Fin T → K) :
    (initializePopulation ga >>= fun population => population.mapM (evaluate ga C VA)).Ensures
      Admissible fun population => ∀ x ∈ population, Sound ga.numKeyIteration x := by
  have hdraw : (initializePopulation ga : Search n T K _).Ensures Admissible fun population =>
      population.length = (List.range ga.populationSize).length ∧
        ∀ x ∈ population, Distribution ga.numKeyIteration x.chromosomes :=
    ensures_mapM fun _ _ => Ensures.map (f := Individual.make) (ensures_randomAllocation hk)
  refine hdraw.bind fun population hpopulation => ?_
  have hevaluate : (population.mapM (evaluate ga C VA)).Ensures Admissible _ :=
    ensures_mapM fun x hx => (ensures_evaluate ga C VA x).mono fun y hy =>
      (⟨by rw [hy.1]; exact hpopulation.2 x hx, hy.2⟩ : Sound ga.numKeyIteration y)
  exact hevaluate.mono fun evaluated hevaluated => hevaluated.2

/-- The start of a search, its two random parts taken together. -/
theorem startSpecies_eq (ga : OlagsaGA K) (C VA : Fin (n + 1) → Fin T → K) :
    startSpecies ga C VA = (do
      let population ← initializePopulation ga >>= fun population =>
        population.mapM (evaluate ga C VA)
      let (species, ga) ← Program.ofExcept (initializeSpecies ga)
      let species ← Program.ofExcept (assignSpecies population species)
      pure (species.map initializeBest, ga)) := by
  rw [startSpecies]
  simp only [LawfulMonad.bind_assoc]

theorem started_of_startSpecies [IsStrictOrderedRing K] {ga ga' : OlagsaGA K}
    (hk : ga.numKeyIteration ≠ 0) {C VA : Fin (n + 1) → Fin T → K} {species : List (Specie K)}
    (h : (startSpecies ga C VA).Yields Admissible (.ok (species, ga'))) :
    Started ga ga' species := by
  rw [startSpecies_eq, yields_bind_ok] at h
  obtain ⟨population, hpopulation, h⟩ := h
  obtain ⟨⟨initial, ga''⟩, hinitial, h⟩ := yields_bind_ok.mp h
  obtain ⟨assigned, hassigned, h⟩ := yields_bind_ok.mp h
  cases h
  exact ⟨initial, population, assigned, (yields_ofExcept.mp hinitial).symm,
    ensures_population hk C VA population hpopulation, (yields_ofExcept.mp hassigned).symm, rfl⟩

/-! ### The states a run goes through -/

variable [FloorSemiring K]

/-- A generation that finds the species `found` and breeds `children`. -/
structure Breeds (ga : OlagsaGA K) (C VA : Fin (n + 1) → Fin T → K)
    (earlier : List (List (Specie K))) (found : List (Specie K))
    (children : List (Individual K)) : Prop where
  running : earlier.length < ga.numGeneration
  notStagnated : stagnated ga found = false
  fitness : totalAdjusted (survivors ga found) ≠ 0
  breeds : (breedChildren ga C VA (survivors ga found)).Yields Admissible (.ok children)

/-- The species a generation can begin with, after the ones it began with earlier. -/
inductive Reaches (ga : OlagsaGA K) (C VA : Fin (n + 1) → Fin T → K) (ga' : OlagsaGA K) :
    List (List (Specie K)) → List (Specie K) → Prop
  | start {species : List (Specie K)}
      (h : (startSpecies ga C VA).Yields Admissible (.ok (species, ga'))) :
      Reaches ga C VA ga' [] species
  | generation {earlier : List (List (Specie K))} {found next : List (Specie K)}
      {children : List (Individual K)} (h : Reaches ga C VA ga' earlier found)
      (hbreeds : Breeds ga' C VA earlier found children)
      (hassign : assignSpecies children (survivors ga' found) = .ok next) :
      Reaches ga C VA ga' (found :: earlier) next

/-- The loop stops at `found`, and `final` are the species it leaves. -/
inductive Ends (ga : OlagsaGA K) (earlier : List (List (Specie K))) (found : List (Specie K)) :
    List (Specie K) → Prop
  | finished (h : earlier.length = ga.numGeneration) : Ends ga earlier found found
  | noImprovement (hrunning : earlier.length < ga.numGeneration)
      (h : stagnated ga found = true) : Ends ga earlier found (checkSpecies ga found)
  | noFitness (hrunning : earlier.length < ga.numGeneration)
      (hnot : stagnated ga found = false) (h : totalAdjusted (survivors ga found) = 0) :
      Ends ga earlier found (survivors ga found)

omit [FloorSemiring K] in
/-- The loop leaves sound individuals, however it stops. -/
theorem sound_of_ends {ga : OlagsaGA K} {k : ℕ} {earlier : List (List (Specie K))}
    {found final : List (Specie K)} (hfound : EveryIndividual (Sound k) found)
    (h : Ends ga earlier found final) : EveryIndividual (Sound k) final := by
  cases h with
  | finished _ => exact hfound
  | noImprovement _ _ => exact everyIndividual_checkSpecies ga hfound
  | noFitness _ _ _ => exact everyIndividual_survivors ga hfound

section Loop

variable {ga ga' : OlagsaGA K} {C VA : Fin (n + 1) → Fin T → K}

/-- The loop either stops where it is or breeds a generation and goes on. -/
theorem generations_succ {k : ℕ} (found : List (Specie K)) {earlier : List (List (Specie K))}
    (hk : earlier.length + (k + 1) = ga.numGeneration) :
    (∃ final, Ends ga earlier found final ∧
        generations ga C VA (k + 1) found = (pure final : Search n T K _)) ∨
      (stagnated ga found = false ∧ totalAdjusted (survivors ga found) ≠ 0 ∧
        generations ga C VA (k + 1) found = (do
          let newChildren ← breedChildren ga C VA (survivors ga found)
          let species ← Program.ofExcept (assignSpecies newChildren (survivors ga found))
          generations ga C VA k species)) := by
  have hrunning : earlier.length < ga.numGeneration := by omega
  rw [generations]
  cases hstagnated : stagnated ga found with
  | true => exact Or.inl ⟨_, Ends.noImprovement hrunning hstagnated, rfl⟩
  | false =>
    by_cases htotal : totalAdjusted (survivors ga found) = 0
    · refine Or.inl ⟨_, Ends.noFitness hrunning hstagnated htotal, ?_⟩
      rw [if_pos htotal]
      rfl
    · refine Or.inr ⟨rfl, htotal, ?_⟩
      rw [if_neg htotal]
      rfl

/-- A loop that ends well goes through states a run reaches, up to one where it stops. -/
theorem generations_ok :
    ∀ {k : ℕ} {earlier : List (List (Specie K))} {found final : List (Specie K)},
      Reaches ga C VA ga' earlier found → earlier.length + k = ga'.numGeneration →
        (generations ga' C VA k found).Yields Admissible (.ok final) →
          ∃ earlier' found', Reaches ga C VA ga' earlier' found' ∧
            Ends ga' earlier' found' final := by
  intro k
  induction k with
  | zero =>
    intro earlier found final h hk hyields
    cases hyields
    exact ⟨earlier, found, h, Ends.finished hk⟩
  | succ k ih =>
    intro earlier found final h hk hyields
    rcases generations_succ found hk with
      ⟨final', hends, heq⟩ | ⟨hstagnated, htotal, heq⟩
    · rw [heq] at hyields
      cases hyields
      exact ⟨earlier, found, h, hends⟩
    · rw [heq, yields_bind_ok] at hyields
      obtain ⟨children, hchildren, hyields⟩ := hyields
      obtain ⟨next, hnext, hyields⟩ := yields_bind_ok.mp hyields
      have hbreeds : Breeds ga' C VA earlier found children :=
        ⟨by omega, hstagnated, htotal, hchildren⟩
      refine ih (h.generation hbreeds (yields_ofExcept.mp hnext).symm) ?_ hyields
      simp only [List.length_cons]
      omega

/-- A loop that raises does so in a generation that a run reaches: in breeding, or in assigning
the children. -/
theorem generations_error {e : Failure} :
    ∀ {k : ℕ} {earlier : List (List (Specie K))} {found : List (Specie K)},
      Reaches ga C VA ga' earlier found → earlier.length + k = ga'.numGeneration →
        (generations ga' C VA k found).Yields Admissible (.error e) →
          ∃ earlier' found', Reaches ga C VA ga' earlier' found' ∧
            ((breedChildren ga' C VA (survivors ga' found')).Yields Admissible (.error e) ∨
              ∃ children, Breeds ga' C VA earlier' found' children ∧
                assignSpecies children (survivors ga' found') = .error e) := by
  intro k
  induction k with
  | zero => intro earlier found _ _ hyields; cases hyields
  | succ k ih =>
    intro earlier found h hk hyields
    rcases generations_succ found hk with ⟨final', _, heq⟩ | ⟨hstagnated, htotal, heq⟩
    · rw [heq] at hyields
      cases hyields
    · rw [heq, yields_bind] at hyields
      rcases hyields with ⟨children, hchildren, hyields⟩ | ⟨e', he', heq'⟩
      · have hbreeds : Breeds ga' C VA earlier found children :=
          ⟨by omega, hstagnated, htotal, hchildren⟩
        rcases yields_bind.mp hyields with ⟨next, hnext, hyields⟩ | ⟨e', he', heq'⟩
        · refine ih (h.generation hbreeds (yields_ofExcept.mp hnext).symm) ?_ hyields
          simp only [List.length_cons]
          omega
        · cases heq'
          exact ⟨earlier, found, h, Or.inr ⟨children, hbreeds, (yields_ofExcept.mp he').symm⟩⟩
      · cases heq'
        exact ⟨earlier, found, h, Or.inl he'⟩

/-- The first population and the loop. -/
def search (ga : OlagsaGA K) (C VA : Fin (n + 1) → Fin T → K) :
    Search n T K (List (Specie K) × OlagsaGA K) := do
  let (species, ga) ← startSpecies ga C VA
  let species ← generations ga C VA ga.numGeneration species
  pure (species, ga)

/-- A run with several iterations is the search and then the keys of its species. -/
theorem run_eq_search (h : ga.numKeyIteration ≠ 1) (C VA : Fin (n + 1) → Fin T → K) :
    ga.run C VA = (search ga C VA >>= fun result => collect result.2 C VA result.1) := by
  rw [OlagsaGA.run, if_neg h, search]
  simp only [LawfulMonad.bind_assoc]
  rfl

/-- The states before a state of a run are states of a run. -/
theorem reaches_of_mem {earlier : List (List (Specie K))} {found species : List (Specie K)}
    (h : Reaches ga C VA ga' earlier found) (hmem : species ∈ earlier) :
    ∃ earlier', Reaches ga C VA ga' earlier' species := by
  induction h with
  | start _ => cases hmem
  | @generation earlier found next children hprevious _ _ ih =>
    rcases List.mem_cons.mp hmem with rfl | hmem
    · exact ⟨earlier, hprevious⟩
    · exact ih hmem

/-- Whatever the rest of the loop may do in a state a run reaches, the search may do. -/
theorem search_of_reaches {earlier : List (List (Specie K))} {found : List (Specie K)}
    (h : Reaches ga C VA ga' earlier found) :
    ∀ (out : Except Failure (List (Specie K))),
      (generations ga' C VA (ga'.numGeneration - earlier.length) found).Yields Admissible out →
        (search ga C VA).Yields Admissible (out.map fun species => (species, ga')) := by
  induction h with
  | start hstart =>
    intro out hout
    refine yields_bind.mpr (Or.inl ⟨_, hstart, ?_⟩)
    rcases out with e | final
    · exact yields_bind.mpr (Or.inr ⟨e, hout, rfl⟩)
    · exact yields_bind.mpr (Or.inl ⟨final, hout, rfl⟩)
  | @generation earlier found next children _ hbreeds hassign ih =>
    intro out hout
    apply ih
    have hk : ga'.numGeneration - earlier.length
        = ga'.numGeneration - (found :: earlier).length + 1 := by
      have := hbreeds.running
      simp only [List.length_cons]
      omega
    rw [hk, generations, hbreeds.notStagnated, if_neg hbreeds.fitness]
    refine yields_bind.mpr (Or.inl ⟨children, hbreeds.breeds, ?_⟩)
    exact yields_bind.mpr (Or.inl ⟨next, by rw [hassign]; exact yields_ofExcept.mpr rfl, hout⟩)

/-- The search ends with the species of a state in which the loop stops. -/
theorem search_ok {final : List (Specie K)}
    (h : (search ga C VA).Yields Admissible (.ok (final, ga'))) :
    ∃ earlier found, Reaches ga C VA ga' earlier found ∧ Ends ga' earlier found final := by
  obtain ⟨⟨species, ga''⟩, hstart, h⟩ := yields_bind_ok.mp h
  obtain ⟨final', hfinal, h⟩ := yields_bind_ok.mp h
  cases h
  exact generations_ok (Reaches.start hstart) (Nat.zero_add _) hfinal

/-- The search raises at its start, or in a generation that a run reaches. -/
theorem search_error {e : Failure} (h : (search ga C VA).Yields Admissible (.error e)) :
    (startSpecies ga C VA).Yields Admissible (.error e) ∨
      ∃ ga' earlier found, Reaches ga C VA ga' earlier found ∧
        ((breedChildren ga' C VA (survivors ga' found)).Yields Admissible (.error e) ∨
          ∃ children, Breeds ga' C VA earlier found children ∧
            assignSpecies children (survivors ga' found) = .error e) := by
  rcases yields_bind.mp h with ⟨⟨species, ga'⟩, hstart, h⟩ | ⟨e', he', heq⟩
  · rcases yields_bind.mp h with ⟨final', _, h⟩ | ⟨e', he', heq⟩
    · cases h
    · cases heq
      exact Or.inr ⟨ga', generations_error (Reaches.start hstart) (Nat.zero_add _) he'⟩
  · cases heq
    exact Or.inl he'

/-- A generation whose children cannot be assigned makes the search raise. -/
theorem search_of_breeds {earlier : List (List (Specie K))} {found : List (Specie K)}
    {children : List (Individual K)} {e : Failure} (h : Reaches ga C VA ga' earlier found)
    (hbreeds : Breeds ga' C VA earlier found children)
    (hassign : assignSpecies children (survivors ga' found) = .error e) :
    (search ga C VA).Yields Admissible (.error e) := by
  refine search_of_reaches h (.error e) ?_
  have hk : ga'.numGeneration - earlier.length
      = ga'.numGeneration - (earlier.length + 1) + 1 := by
    have := hbreeds.running
    omega
  rw [hk, generations, hbreeds.notStagnated, if_neg hbreeds.fitness]
  refine yields_bind.mpr (Or.inl ⟨children, hbreeds.breeds, ?_⟩)
  exact yields_bind.mpr (Or.inr ⟨e, by rw [hassign]; exact yields_ofExcept.mpr rfl, rfl⟩)

/-! ### Soundness of every state -/

variable [IsStrictOrderedRing K]

/-- Sound parents have sound children. -/
theorem sound_of_breeds {k : ℕ} (hk : k ≠ 0) {earlier : List (List (Specie K))}
    {found : List (Specie K)} {children : List (Individual K)}
    (hfound : EveryIndividual (Sound k) found) (h : Breeds ga C VA earlier found children) :
    ∀ child ∈ children, Sound k child := by
  have hsurvivors := everyIndividual_survivors ga hfound
  have hbreed : (breedChildren ga C VA (survivors ga found)).Ensures Admissible _ :=
    ensures_mapM fun specie hspecie => ensures_breedChild C VA hk
      (List.mem_flatMap.mp hspecie |>.elim fun s hs => (List.mem_replicate.mp hs.2).2 ▸ hs.1)
      hsurvivors
  exact (hbreed children h.breeds).2

omit [IsStrictOrderedRing K] in
/-- Only a search for two or three iterations has species. -/
theorem numKeyIteration_of_reaches {earlier : List (List (Specie K))} {found : List (Specie K)}
    (h : Reaches ga C VA ga' earlier found) :
    ga.numKeyIteration = 2 ∨ ga.numKeyIteration = 3 := by
  induction h with
  | start hstart =>
    rw [startSpecies_eq] at hstart
    obtain ⟨population, -, hstart⟩ := yields_bind_ok.mp hstart
    obtain ⟨⟨initial, _⟩, hinitial, -⟩ := yields_bind_ok.mp hstart
    rcases initializeSpecies_ok (yields_ofExcept.mp hinitial).symm with ⟨hk, -⟩ | ⟨hk, -⟩
    · exact Or.inl hk
    · exact Or.inr hk
  | generation _ _ _ ih => exact ih

/-- The parameters of a running search are those of the construction of its species. -/
theorem initialized_of_reaches (hk : ga.numKeyIteration ≠ 0)
    {earlier : List (List (Specie K))} {found : List (Specie K)}
    (h : Reaches ga C VA ga' earlier found) :
    ∃ initial, initializeSpecies ga = .ok (initial, ga') ∧ Initialized ga ga' initial := by
  induction h with
  | start hstart =>
    obtain ⟨initial, -, -, hinitial, -⟩ := (started_of_startSpecies hk hstart).started
    exact ⟨initial, hinitial, initialized_of_initializeSpecies hinitial⟩
  | generation _ _ _ ih => exact ih

omit [FloorSemiring K] in
/-- How the first population is assigned. -/
theorem appended_of_start (hk : ga.numKeyIteration = 2 ∨ ga.numKeyIteration = 3)
    {species : List (Specie K)}
    (h : (startSpecies ga C VA).Yields Admissible (.ok (species, ga'))) :
    ∃ initial population assigned, Initialized ga ga' initial ∧
      (∀ x ∈ population, Sound ga.numKeyIteration x) ∧
      Appended population initial assigned ∧ species = assigned.map initializeBest := by
  obtain ⟨initial, population, assigned, hinitial, hpopulation, hassigned, heq⟩ :=
    (started_of_startSpecies (by omega) h).started
  exact ⟨initial, population, assigned, initialized_of_initializeSpecies hinitial, hpopulation,
    appended_of_ok hassigned, heq⟩

/-- **Every individual of every state is sound.** -/
theorem reaches_sound (hk : ga.numKeyIteration = 2 ∨ ga.numKeyIteration = 3)
    {earlier : List (List (Specie K))} {found : List (Specie K)}
    (h : Reaches ga C VA ga' earlier found) :
    EveryIndividual (Sound ga.numKeyIteration) found := by
  induction h with
  | start hstart =>
    obtain ⟨initial, population, assigned, hinitial, hpopulation, happended, rfl⟩ :=
      appended_of_start hk hstart
    exact everyIndividual_of_first hinitial.empty happended hpopulation
  | @generation earlier found next children _ hbreeds hassign ih =>
    have hchildren := sound_of_breeds (by omega) ih hbreeds
    exact (appended_of_ok hassign).everyIndividual
      (everyIndividual_survivors ga' ih) hchildren

end Loop

end AllocationKeys.Olagsa
