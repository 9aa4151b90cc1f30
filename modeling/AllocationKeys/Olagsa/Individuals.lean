import AllocationKeys.Olagsa.Genetic

/-!
# What every individual satisfies

Every individual the search evaluates is `Sound`: its chromosomes are a distribution over the
iterations of the key, and its fitness is the one its last solve earned. The breeding
operators keep the first (`ensures_breedChild`), the evaluation establishes the second
(`ensures_evaluate`); `Sound` is all the later modules know of an individual.
-/

namespace AllocationKeys.Olagsa

open Program

variable {n T : ℕ} {K : Type} [Field K] [LinearOrder K]

/-- `l` splits 1 into `k` nonnegative parts. -/
structure Distribution (k : ℕ) (l : List K) : Prop where
  length : l.length = k
  sum : l.sum = 1
  nonneg : ∀ x ∈ l, 0 ≤ x

/-- The fitness belongs to the status: at most `ponderationExcedent` when the solve was optimal,
a hundred times that when it was not. -/
structure Graded (individual : Individual K) : Prop where
  optimal : individual.status = some .optimal →
    0 < individual.fitness ∧ individual.fitness ≤ ponderationExcedent
  notOptimal : individual.status ≠ some .optimal →
    individual.fitness = 100 * ponderationExcedent

structure Sound (k : ℕ) (individual : Individual K) : Prop where
  distribution : Distribution k individual.chromosomes
  graded : Graded individual

/-- Every individual of every species satisfies `P`. -/
def EveryIndividual (P : Individual K → Prop) (species : List (Specie K)) : Prop :=
  ∀ specie ∈ species, ∀ individual ∈ specie.individuals, P individual

variable [IsStrictOrderedRing K]

theorem Graded.fitness_pos {individual : Individual K} (h : Graded individual) :
    0 < individual.fitness := by
  by_cases hstatus : individual.status = some .optimal
  · exact (h.optimal hstatus).1
  · rw [h.notOptimal hstatus, ponderationExcedent]
    norm_num

/-! ### Chromosomes -/

omit [IsStrictOrderedRing K] in
theorem ensures_random : (random : Search n T K K).Ensures Admissible fun r => 0 ≤ r ∧ r < 1 :=
  ensures_call fun _ hr => ensures_ret hr

/-- Normalizing nonnegative genes, not none of them, gives a distribution. -/
theorem ensures_normalize {l : List K} (hne : l ≠ []) (hnonneg : ∀ x ∈ l, 0 ≤ x) :
    (normalize l : Search n T K (List K)).Ensures Admissible (Distribution l.length) := by
  unfold normalize
  split
  · exact ensures_raise
  · rename_i h
    have hsum : l.sum ≠ 0 := fun hzero => h ⟨hzero, by simpa using hne⟩
    refine ensures_ret ⟨List.length_map _, ?_, ?_⟩
    · simp only [div_eq_mul_inv]
      rw [List.sum_map_mul_right, List.map_id', mul_inv_cancel₀ hsum]
    · intro x hx
      obtain ⟨y, hy, rfl⟩ := List.mem_map.mp hx
      exact div_nonneg (hnonneg y hy) (List.sum_nonneg hnonneg)

theorem ensures_randomAllocation {ga : OlagsaGA K} (hk : ga.numKeyIteration ≠ 0) :
    (randomAllocation ga : Search n T K (List K)).Ensures Admissible
      (Distribution ga.numKeyIteration) := by
  refine (ensures_mapM fun _ _ => ensures_random).bind fun allocation h => ?_
  obtain ⟨hlength, hdraws⟩ := h
  rw [List.length_range] at hlength
  rw [← hlength]
  refine ensures_normalize ?_ fun x hx => (hdraws x hx).1
  rintro rfl
  exact hk hlength.symm

theorem ensures_crossoverChromosomes {k : ℕ} (hk : k ≠ 0) {parentA parentB : Individual K}
    (hA : Distribution k parentA.chromosomes) (hB : Distribution k parentB.chromosomes) :
    (crossoverChromosomes parentA parentB : Search n T K (List K)).Ensures Admissible
      (Distribution k) := by
  have hmix : ∀ {l l' : List K}, Distribution k l → Distribution k l' → ∀ point : ℕ,
      (normalize (l.take point ++ l'.drop point) : Search n T K (List K)).Ensures Admissible
        (Distribution k) := by
    intro l l' hl hl' point
    have hlength : (l.take point ++ l'.drop point).length = k := by
      rw [List.length_append, List.length_take, List.length_drop, hl.length, hl'.length]
      omega
    rw [← hlength]
    apply ensures_normalize
    · intro hnil
      rw [hnil] at hlength
      exact hk hlength.symm
    · intro x hx
      rcases List.mem_append.mp hx with hx | hx
      · exact hl.nonneg x (List.mem_of_mem_take hx)
      · exact hl'.nonneg x (List.mem_of_mem_drop hx)
  refine (ensures_true _).bind fun point _ => ?_
  refine (ensures_true _).bind fun coin _ => ?_
  split
  · exact hmix hA hB point
  · exact hmix hB hA point

theorem ensures_mutate {ga : OlagsaGA K} {k : ℕ} (hk : k ≠ 0) {individual : Individual K}
    (h : Distribution k individual.chromosomes) :
    (mutate ga individual : Search n T K (Individual K)).Ensures Admissible fun child =>
      Distribution k child.chromosomes := by
  refine ensures_random.bind fun r _ => ?_
  split
  · exact ensures_ret h
  · refine (ensures_true _).bind fun index _ => ?_
    refine ensures_random.bind fun gene hgene => Ensures.map ?_
    have hlength : (individual.chromosomes.set index gene).length = k := by
      rw [List.length_set, h.length]
    rw [← hlength]
    apply ensures_normalize
    · intro hnil
      rw [hnil] at hlength
      exact hk hlength.symm
    · intro x hx
      rcases List.mem_or_eq_of_mem_set hx with hx | rfl
      · exact h.nonneg x hx
      · exact hgene.1

/-! ### Parents and children -/

omit [IsStrictOrderedRing K] in
theorem ensures_rouletteWheel {population : List (Individual K)} {P : Individual K → Prop}
    (h : ∀ individual ∈ population, P individual) (size : ℕ) :
    (rouletteWheel population size : Search n T K _).Ensures Admissible fun parents =>
      ∀ parent ∈ parents, P parent := by
  unfold rouletteWheel
  dsimp only
  split
  · exact ensures_raise
  · refine (ensures_true _).bind fun indices _ => ?_
    have hitems : (indices.mapM fun i => item population i : Search n T K _).Ensures Admissible _ :=
      ensures_mapM fun i _ => ensures_item population i |>.mono fun parent hparent =>
        h parent (List.mem_of_getElem? hparent)
    exact hitems.mono fun parents hparents => hparents.2

/-- The wheel raises instead of drawing from these individuals. -/
def Refused (population : List (Individual K)) : Prop :=
  (population.map Individual.fitness).sum = 0 ∨
    ∃ f ∈ population.map Individual.fitness, f / (population.map Individual.fitness).sum < 0

theorem not_refused {population : List (Individual K)} (hne : population ≠ [])
    (hpos : ∀ individual ∈ population, 0 < individual.fitness) : ¬ Refused population := by
  have hfitness : ∀ f ∈ population.map Individual.fitness, 0 < f := by
    intro f hf
    obtain ⟨individual, hmem, rfl⟩ := List.mem_map.mp hf
    exact hpos individual hmem
  have hsum : 0 < (population.map Individual.fitness).sum :=
    List.sum_pos _ hfitness (by simpa using hne)
  rintro (hzero | ⟨f, hf, hneg⟩)
  · exact hsum.ne' hzero
  · exact not_lt_of_ge (div_nonneg (hfitness f hf).le hsum.le) hneg

omit [IsStrictOrderedRing K] in
theorem rouletteWheel_eq {population : List (Individual K)} (h : ¬ Refused population)
    (size : ℕ) :
    (rouletteWheel population size : Search n T K _) =
      .call (.choice ((population.map Individual.fitness).map
        (· / (population.map Individual.fitness).sum)) size) fun (indices : List ℕ) =>
          indices.mapM fun i => item population i := by
  unfold rouletteWheel
  exact if_neg h

omit [IsStrictOrderedRing K] in
/-- A wheel that is not refused returns as many parents as it is asked for, when what `choice`
answers are indices. -/
theorem returns_rouletteWheel {ok : ∀ call : Call n T K, Reply call → Prop}
    (hok : ∀ (probabilities : List K) (size : ℕ) (indices : List ℕ),
      ok (.choice probabilities size) indices →
        indices.length = size ∧ ∀ i ∈ indices, i < probabilities.length)
    {population : List (Individual K)} (h : ¬ Refused population) (size : ℕ) :
    (rouletteWheel population size : Search n T K _).Returns ok fun parents =>
      parents.length = size ∧ ∀ parent ∈ parents, parent ∈ population := by
  rw [rouletteWheel_eq h]
  refine returns_call fun (indices : List ℕ) hindices => ?_
  obtain ⟨hlength, hlt⟩ := hok _ _ indices hindices
  rw [← hlength]
  refine returns_mapM fun i hi => ?_
  have hi' : i < population.length := by simpa using hlt i hi
  rw [item, List.getElem?_eq_getElem hi']
  exact returns_ret (List.getElem_mem hi')

theorem ensures_breedIntra {ga : OlagsaGA K} {k : ℕ} (hk : k ≠ 0) {specie : Specie K}
    (h : ∀ individual ∈ specie.individuals, Distribution k individual.chromosomes) :
    (breedIntra ga specie : Search n T K (Individual K)).Ensures Admissible fun child =>
      Distribution k child.chromosomes := by
  refine (ensures_rouletteWheel h 2).bind fun parents hparents => ?_
  split
  · rename_i parentA parentB
    have hA := hparents parentA (by simp)
    have hB := hparents parentB (by simp)
    refine (ensures_true _).bind fun coin _ => ?_
    split
    · exact Ensures.map (f := Individual.make) (ensures_crossoverChromosomes hk hA hB)
    · refine (ensures_true _).bind fun side _ => ?_
      apply ensures_ret
      show Distribution k (if side = 0 then parentA.chromosomes else parentB.chromosomes)
      split
      · exact hA
      · exact hB
  · exact ensures_raise

omit [IsStrictOrderedRing K] in
/-- The nearest species is one of the others. -/
theorem mem_of_nearestSpecie {specie nearest : Specie K} {d : K} {species : List (Specie K)}
    (h : nearestSpecie specie species = some (d, nearest)) : nearest ∈ species := by
  have hfold : ∀ (step : Option (K × Specie K) → Specie K → Option (K × Specie K)),
      (∀ found other, ∀ x ∈ step found other, x ∈ found ∨ x.2 = other) →
        ∀ (l : List (Specie K)) (start : Option (K × Specie K)),
          (∀ x ∈ start, x.2 ∈ species) → (∀ x ∈ l, x ∈ species) →
            ∀ x ∈ l.foldl step start, x.2 ∈ species := by
    intro step hstep l
    induction l with
    | nil => intro start hstart _; exact hstart
    | cons other l ih =>
      intro start hstart hl
      apply ih _ _ fun x hx => hl x (List.mem_cons_of_mem other hx)
      intro x hx
      rcases hstep start other x hx with hfound | rfl
      · exact hstart x hfound
      · exact hl x.2 (List.mem_cons_self ..)
  refine hfold _ (fun found other x hx => ?_) species none (by simp) (fun _ hx => hx) _ h
  dsimp only at hx
  split at hx
  · exact Or.inl hx
  · split at hx
    · cases hx
      exact Or.inr rfl
    · split at hx
      · cases hx
        exact Or.inr rfl
      · exact Or.inl hx

theorem ensures_breedInter {ga : OlagsaGA K} {k : ℕ} (hk : k ≠ 0) {specie : Specie K}
    {species : List (Specie K)} (hspecie : specie ∈ species)
    (h : EveryIndividual (fun individual => Distribution k individual.chromosomes) species) :
    (breedInter ga specie species : Search n T K (Individual K)).Ensures Admissible fun child =>
      Distribution k child.chromosomes := by
  unfold breedInter
  split
  · exact ensures_breedIntra hk (h specie hspecie)
  · rename_i d nearest hnearest
    refine (ensures_rouletteWheel (h specie hspecie) 1).bind fun parentsA hA => ?_
    refine (ensures_item parentsA 0).bind fun parentA hparentA => ?_
    refine (ensures_rouletteWheel (h nearest (mem_of_nearestSpecie hnearest)) 1).bind
      fun parentsB hB => ?_
    refine (ensures_item parentsB 0).bind fun parentB hparentB => ?_
    exact Ensures.map (f := Individual.make)
      (ensures_crossoverChromosomes hk (hA parentA (List.mem_of_getElem? hparentA))
        (hB parentB (List.mem_of_getElem? hparentB)))

/-! ### Evaluation -/

/-- Evaluating keeps the chromosomes and grades the individual, whatever is drawn and answered. -/
theorem ensures_evaluate {ok : ∀ call : Call n T K, Reply call → Prop} (ga : OlagsaGA K)
    (C VA : Fin (n + 1) → Fin T → K) (individual : Individual K) :
    (evaluate ga C VA individual).Ensures ok fun evaluated =>
      evaluated.chromosomes = individual.chromosomes ∧ Graded evaluated := by
  refine (ensures_solveGenetic ga.numKeyIteration C VA individual.chromosomes).bind
    fun solution hsolution => ?_
  split
  · exact ensures_ret ⟨rfl, ⟨fun h => (by cases h), fun _ => rfl⟩⟩
  · rename_i s
    split
    · rename_i hstatus
      refine ensures_ret ⟨rfl, fun h => ?_, fun _ => rfl⟩
      exact absurd (Option.some.inj h) hstatus
    · rename_i hstatus
      obtain ⟨E, hE, hnonneg⟩ := hsolution s rfl (not_not.mp hstatus)
      rw [hE]
      have hsum : 0 ≤ ∑ i, ∑ t, E i t :=
        Finset.sum_nonneg fun i _ => Finset.sum_nonneg fun t _ => hnonneg i t
      refine ensures_ret ⟨rfl, fun _ => ⟨?_, ?_⟩, fun h => ?_⟩
      · show 0 < 1 / (∑ i, ∑ t, E i t + 1) * ponderationExcedent
        rw [ponderationExcedent]
        positivity
      · show 1 / (∑ i, ∑ t, E i t + 1) * ponderationExcedent ≤ ponderationExcedent
        have hfraction : 1 / (∑ i, ∑ t, E i t + 1) ≤ 1 := by
          rw [div_le_one (by linarith)]
          linarith
        have hpos : (0 : K) ≤ ponderationExcedent := by
          rw [ponderationExcedent]
          norm_num
        calc 1 / (∑ i, ∑ t, E i t + 1) * ponderationExcedent
            ≤ 1 * ponderationExcedent := mul_le_mul_of_nonneg_right hfraction hpos
          _ = ponderationExcedent := one_mul _
      · exact absurd (congrArg some (not_not.mp hstatus)) h

theorem ensures_breedChild [FloorSemiring K] {ga : OlagsaGA K} (C VA : Fin (n + 1) → Fin T → K)
    {k : ℕ} (hk : k ≠ 0) {specie : Specie K} {species : List (Specie K)}
    (hspecie : specie ∈ species) (h : EveryIndividual (Sound k) species) :
    (breedChild ga C VA species specie).Ensures Admissible (Sound k) := by
  have hdist : EveryIndividual (fun individual => Distribution k individual.chromosomes) species :=
    fun s hs individual hi => (h s hs individual hi).distribution
  have hbreed : Ensures Admissible
      (if 1 < ga.speciesWaited then do
        let r ← random
        if r < ga.crossoverRateInterSpecies then breedInter ga specie species
        else breedIntra ga specie
      else breedIntra ga specie : Search n T K (Individual K))
      fun child => Distribution k child.chromosomes := by
    split
    · refine ensures_random.bind fun r _ => ?_
      split
      · exact ensures_breedInter hk hspecie hdist
      · exact ensures_breedIntra hk (hdist specie hspecie)
    · exact ensures_breedIntra hk (hdist specie hspecie)
  refine hbreed.bind fun child hchild => ?_
  have hmutate : Ensures Admissible
      (if 0 < ga.mutationRate then mutate ga child else pure child : Search n T K (Individual K))
      fun child => Distribution k child.chromosomes := by
    split
    · exact ensures_mutate hk hchild
    · exact ensures_ret hchild
  refine hmutate.bind fun mutated hmutated => ?_
  refine (ensures_evaluate ga C VA mutated).mono fun evaluated hevaluated => ⟨?_, hevaluated.2⟩
  rw [hevaluated.1]
  exact hmutated

end AllocationKeys.Olagsa
