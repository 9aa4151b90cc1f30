import AllocationKeys.Olagsa.Species

/-!
# Chromosomes on the simplex

When `random()` is strictly between 0 and 1 and `choice` returns indices of its list (`Strict`),
every chromosome a search makes has one positive gene for each iteration, and its genes sum to 1
(`Interior`). Drawing, crossing and mutating such chromosomes never divides by zero and never
fails, so these programs return (`returns_breedIntra`, `returns_breedInter`, `returns_mutate`).

`Visits` are the species a run with such draws can begin a generation with. In each of them every
individual is `Viable`, and the divisors of the generation are positive (`divides_of_viable`).
-/

namespace AllocationKeys.Olagsa

open Program

variable {n T : ℕ} {K : Type} [Field K] [LinearOrder K]

/-- Draws strictly between 0 and 1, and choices of indices of the list. -/
def Strict : ∀ call : Call n T K, Reply call → Prop
  | .random, (r : K) => 0 < r ∧ r < 1
  | .randint high, (r : ℕ) => r ≤ high
  | .choice probabilities size, (indices : List ℕ) =>
      indices.length = size ∧ ∀ i ∈ indices, i < probabilities.length
  | .solve _ _, _ => True

/-- `l` splits 1 into `k` positive parts. -/
structure Interior (k : ℕ) (l : List K) : Prop where
  length : l.length = k
  sum : l.sum = 1
  pos : ∀ x ∈ l, 0 < x

/-- An evaluated individual of a search. -/
structure Viable (k : ℕ) (individual : Individual K) : Prop where
  interior : Interior k individual.chromosomes
  fitness : 0 < individual.fitness

theorem Interior.ne_nil {k : ℕ} (hk : k ≠ 0) {l : List K} (h : Interior k l) : l ≠ [] := by
  rintro rfl
  exact hk h.length.symm

/-! ### Drawing chromosomes -/

theorem returns_random : (random : Search n T K K).Returns Strict fun r => 0 < r :=
  returns_call fun _ hr => returns_ret hr.1

theorem returns_randint (high : ℕ) :
    (randint high : Search n T K ℕ).Returns Strict fun _ => True :=
  returns_call fun _ _ => returns_ret trivial

theorem returns_randIndex {l : List K} (hne : l ≠ []) :
    (randIndex l : Search n T K ℕ).Returns Strict fun _ => True := by
  unfold randIndex
  rw [if_neg (by simpa using hne)]
  exact returns_randint _

variable [IsStrictOrderedRing K]

/-- Positive genes have a positive sum to divide by. -/
theorem returns_normalize {l : List K} (hne : l ≠ []) (hpos : ∀ x ∈ l, 0 < x) :
    (normalize l : Search n T K (List K)).Returns Strict (Interior l.length) := by
  have hsum : 0 < l.sum := List.sum_pos l hpos hne
  unfold normalize
  rw [if_neg fun h => hsum.ne' h.1]
  refine returns_ret ⟨List.length_map _, ?_, ?_⟩
  · simp only [div_eq_mul_inv]
    rw [List.sum_map_mul_right, List.map_id', mul_inv_cancel₀ hsum.ne']
  · intro x hx
    obtain ⟨y, hy, rfl⟩ := List.mem_map.mp hx
    exact div_pos (hpos y hy) hsum

theorem returns_randomAllocation {ga : OlagsaGA K} (hk : ga.numKeyIteration ≠ 0) :
    (randomAllocation ga : Search n T K (List K)).Returns Strict
      (Interior ga.numKeyIteration) := by
  refine (returns_mapM fun _ _ => returns_random).bind fun allocation h => ?_
  obtain ⟨hlength, hdraws⟩ := h
  rw [List.length_range] at hlength
  rw [← hlength]
  refine returns_normalize ?_ hdraws
  rintro rfl
  exact hk hlength.symm

theorem returns_initializePopulation {ga : OlagsaGA K} (hk : ga.numKeyIteration ≠ 0) :
    (initializePopulation ga : Search n T K (List (Individual K))).Returns Strict
      fun population => ∀ x ∈ population, Interior ga.numKeyIteration x.chromosomes := by
  have hdraw : (initializePopulation ga : Search n T K _).Returns Strict fun population =>
      population.length = (List.range ga.populationSize).length ∧
        ∀ x ∈ population, Interior ga.numKeyIteration x.chromosomes :=
    returns_mapM fun _ _ => Returns.map (f := Individual.make) (returns_randomAllocation hk)
  exact hdraw.mono fun population h => h.2

theorem returns_crossoverChromosomes {k : ℕ} (hk : k ≠ 0) {parentA parentB : Individual K}
    (hA : Interior k parentA.chromosomes) (hB : Interior k parentB.chromosomes) :
    (crossoverChromosomes parentA parentB : Search n T K (List K)).Returns Strict
      (Interior k) := by
  have hmix : ∀ {l l' : List K}, Interior k l → Interior k l' → ∀ point : ℕ,
      (normalize (l.take point ++ l'.drop point) : Search n T K (List K)).Returns Strict
        (Interior k) := by
    intro l l' hl hl' point
    have hlength : (l.take point ++ l'.drop point).length = k := by
      rw [List.length_append, List.length_take, List.length_drop, hl.length, hl'.length]
      omega
    rw [← hlength]
    apply returns_normalize
    · intro hnil
      rw [hnil] at hlength
      exact hk hlength.symm
    · intro x hx
      rcases List.mem_append.mp hx with hx | hx
      · exact hl.pos x (List.mem_of_mem_take hx)
      · exact hl'.pos x (List.mem_of_mem_drop hx)
  refine (returns_randIndex (hA.ne_nil hk)).bind fun point _ => ?_
  refine (returns_randint 1).bind fun coin _ => ?_
  split
  · exact hmix hA hB point
  · exact hmix hB hA point

/-- A mutation returns, and leaves the simplex's interior to itself. -/
theorem returns_mutate {ga : OlagsaGA K} {k : ℕ} (hk : k ≠ 0) {individual : Individual K}
    (h : Interior k individual.chromosomes) :
    (mutate ga individual : Search n T K (Individual K)).Returns Strict fun child =>
      Interior k child.chromosomes := by
  refine returns_random.bind fun r _ => ?_
  split
  · exact returns_ret h
  · refine (returns_randIndex (h.ne_nil hk)).bind fun index _ => ?_
    refine returns_random.bind fun gene hgene => Returns.map ?_
    have hlength : (individual.chromosomes.set index gene).length = k := by
      rw [List.length_set, h.length]
    rw [← hlength]
    apply returns_normalize
    · intro hnil
      rw [hnil] at hlength
      exact hk hlength.symm
    · intro x hx
      rcases List.mem_or_eq_of_mem_set hx with hx | rfl
      · exact h.pos x hx
      · exact hgene

/-! ### Parents and children -/

/-- The individuals a generation breeds from. -/
structure Fertile (k : ℕ) (specie : Specie K) : Prop where
  inhabited : specie.individuals ≠ []
  viable : ∀ individual ∈ specie.individuals, Viable k individual

theorem Fertile.returns_rouletteWheel {k : ℕ} {specie : Specie K} (h : Fertile k specie)
    (size : ℕ) : (rouletteWheel specie.individuals size : Search n T K _).Returns Strict
      fun parents => parents.length = size ∧
        ∀ parent ∈ parents, Interior k parent.chromosomes := by
  have hrefused := not_refused h.inhabited fun individual hmem => (h.viable individual hmem).fitness
  refine (Olagsa.returns_rouletteWheel (fun _ _ _ hok => hok) hrefused size).mono
    fun parents hparents => ⟨hparents.1, fun parent hparent => ?_⟩
  exact (h.viable parent (hparents.2 parent hparent)).interior

theorem returns_breedIntra {ga : OlagsaGA K} {k : ℕ} (hk : k ≠ 0) {specie : Specie K}
    (h : Fertile k specie) :
    (breedIntra ga specie : Search n T K (Individual K)).Returns Strict fun child =>
      Interior k child.chromosomes := by
  refine (h.returns_rouletteWheel 2).bind fun parents hparents => ?_
  obtain ⟨hlength, hinterior⟩ := hparents
  obtain ⟨parentA, parentB, rfl⟩ := List.length_eq_two.mp hlength
  have hA := hinterior parentA (by simp)
  have hB := hinterior parentB (by simp)
  refine (returns_randint 1).bind fun coin _ => ?_
  split
  · exact Returns.map (f := Individual.make) (returns_crossoverChromosomes hk hA hB)
  · refine (returns_randint 1).bind fun side _ => ?_
    apply returns_ret
    show Interior k (if side = 0 then parentA.chromosomes else parentB.chromosomes)
    split
    · exact hA
    · exact hB

/-- One parent of a species. -/
theorem Fertile.returns_parent {k : ℕ} {specie : Specie K} (h : Fertile k specie) {β : Type}
    {f : Individual K → Search n T K β} {post : β → Prop}
    (hf : ∀ parent, Interior k parent.chromosomes → (f parent).Returns Strict post) :
    (rouletteWheel specie.individuals 1 >>= fun parents =>
      item parents 0 >>= f : Search n T K β).Returns Strict post := by
  refine (h.returns_rouletteWheel 1).bind fun parents hparents => ?_
  obtain ⟨hlength, hinterior⟩ := hparents
  obtain ⟨parent, rfl⟩ := List.length_eq_one_iff.mp hlength
  exact hf parent (hinterior parent (by simp))

theorem returns_breedInter {ga : OlagsaGA K} {k : ℕ} (hk : k ≠ 0) {specie : Specie K}
    {species : List (Specie K)} (hspecie : specie ∈ species)
    (h : ∀ s ∈ species, Fertile k s) :
    (breedInter ga specie species : Search n T K (Individual K)).Returns Strict fun child =>
      Interior k child.chromosomes := by
  unfold breedInter
  split
  · exact returns_breedIntra hk (h specie hspecie)
  · rename_i d nearest hnearest
    refine (h specie hspecie).returns_parent fun parentA hA => ?_
    refine (h nearest (mem_of_nearestSpecie hnearest)).returns_parent fun parentB hB => ?_
    exact Returns.map (f := Individual.make) (returns_crossoverChromosomes hk hA hB)

theorem ensures_evaluate_viable {k : ℕ} {individual : Individual K}
    (h : Interior k individual.chromosomes) (ga : OlagsaGA K) (C VA : Fin (n + 1) → Fin T → K) :
    (evaluate ga C VA individual).Ensures Strict (Viable k) :=
  (ensures_evaluate ga C VA individual).mono fun evaluated hevaluated =>
    ⟨by rw [hevaluated.1]; exact h, hevaluated.2.fitness_pos⟩

/-- A child is bred and mutated without failing; what can fail is its evaluation. -/
theorem breedChild_of_fertile {ga : OlagsaGA K} (C VA : Fin (n + 1) → Fin T → K) {k : ℕ}
    (hk : k ≠ 0) {specie : Specie K} {species : List (Specie K)} (hspecie : specie ∈ species)
    (h : ∀ s ∈ species, Fertile k s) :
    (breedChild ga C VA species specie).Ensures Strict (Viable k) ∧
      (breedChild ga C VA species specie).Raises Strict SolverFailure := by
  have hbreed : Returns Strict
      (if 1 < ga.speciesWaited then do
        let r ← random
        if r < ga.crossoverRateInterSpecies then breedInter ga specie species
        else breedIntra ga specie
      else breedIntra ga specie : Search n T K (Individual K))
      fun child => Interior k child.chromosomes := by
    split
    · refine returns_random.bind fun r _ => ?_
      split
      · exact returns_breedInter hk hspecie h
      · exact returns_breedIntra hk (h specie hspecie)
    · exact returns_breedIntra hk (h specie hspecie)
  have hmutate : ∀ child : Individual K, Interior k child.chromosomes → Returns Strict
      (if 0 < ga.mutationRate then mutate ga child else pure child : Search n T K (Individual K))
      fun child => Interior k child.chromosomes := by
    intro child hchild
    split
    · exact returns_mutate hk hchild
    · exact returns_ret hchild
  constructor
  · refine hbreed.ensures.bind fun child hchild => ?_
    exact (hmutate child hchild).ensures.bind fun mutated hmutated =>
      ensures_evaluate_viable hmutated ga C VA
  · refine (hbreed.raises.mono fun _ => False.elim).bind fun child hchild => ?_
    have hmutates := hmutate child (hbreed.ensures child hchild)
    exact (hmutates.raises.mono fun _ => False.elim).bind fun _ _ => raises_evaluate ga C VA _

variable [FloorSemiring K]

theorem breedChildren_of_fertile {ga : OlagsaGA K} (C VA : Fin (n + 1) → Fin T → K) {k : ℕ}
    (hk : k ≠ 0) {species : List (Specie K)} (h : ∀ s ∈ species, Fertile k s) :
    (breedChildren ga C VA species).Ensures Strict (fun children => ∀ x ∈ children, Viable k x) ∧
      (breedChildren ga C VA species).Raises Strict SolverFailure := by
  have hmem : ∀ specie ∈ species.flatMap fun specie =>
      List.replicate (numChildren ga (totalAdjusted species) specie) specie,
        specie ∈ species := by
    intro specie hspecie
    obtain ⟨s, hs, hrep⟩ := List.mem_flatMap.mp hspecie
    rw [(List.mem_replicate.mp hrep).2]
    exact hs
  constructor
  · exact (ensures_mapM fun specie hspecie =>
      (breedChild_of_fertile C VA hk (hmem specie hspecie) h).1).mono fun _ hchildren => hchildren.2
  · exact raises_mapM fun specie hspecie =>
      (breedChild_of_fertile C VA hk (hmem specie hspecie) h).2

/-! ### The divisors of a generation -/

omit [IsStrictOrderedRing K] [FloorSemiring K] in
theorem fertile_of_survivor {ga : OlagsaGA K} {k : ℕ} {found : List (Specie K)}
    (h : EveryIndividual (Viable k) found) : ∀ s ∈ survivors ga found, Fertile k s := by
  intro s hs
  have hviable := everyIndividual_of_survivors ga
    (fun _ _ hx => (⟨hx.interior, hx.fitness⟩ : Viable k _)) h s hs
  exact ⟨inhabited_of_survivor hs, hviable⟩

/-- The divisors of a generation that finds `found`: the size of a species for the adjusted
fitness, the sum of the fitnesses for the roulette wheel, and the total for the numbers of
children. Breeding and mutating return, and the children are viable. -/
structure Divides (k : ℕ) (ga : OlagsaGA K) (C VA : Fin (n + 1) → Fin T → K)
    (found : List (Specie K)) : Prop where
  sizes : ∀ s ∈ checkSpecies ga found, (!s.individuals.isEmpty) = true →
    (s.individuals.length : K) ≠ 0
  wheels : ∀ s ∈ survivors ga found, s.individuals ≠ [] ∧
    0 < (s.individuals.map Individual.fitness).sum
  total : survivors ga found ≠ [] → 0 < totalAdjusted (survivors ga found)
  breedIntra : ∀ s ∈ survivors ga found,
    (breedIntra ga s : Search n T K _).Returns Strict fun child => Interior k child.chromosomes
  breedInter : ∀ s ∈ survivors ga found,
    (breedInter ga s (survivors ga found) : Search n T K _).Returns Strict
      fun child => Interior k child.chromosomes
  mutate : ∀ child : Individual K, Interior k child.chromosomes →
    (mutate ga child : Search n T K _).Returns Strict fun child => Interior k child.chromosomes
  children : (breedChildren ga C VA (survivors ga found)).Ensures Strict
    fun children => ∀ x ∈ children, Viable k x

theorem divides_of_viable {ga : OlagsaGA K} (C VA : Fin (n + 1) → Fin T → K) {k : ℕ} (hk : k ≠ 0)
    {found : List (Specie K)} (h : EveryIndividual (Viable k) found) :
    Divides k ga C VA found := by
  have hfertile : ∀ s ∈ survivors ga found, Fertile k s := fertile_of_survivor h
  have hadjusted : EveryIndividual (fun x => 0 < x.adjustedFitness) (survivors ga found) :=
    adjustedFitness_pos fun s hs x hx => (h s hs x hx).fitness
  constructor
  · intro s _ hne
    have hpos : 0 < s.individuals.length := by
      rw [List.length_pos_iff]
      simpa using hne
    exact_mod_cast hpos.ne'
  · intro s hs
    refine ⟨(hfertile s hs).inhabited, List.sum_pos _ ?_ ?_⟩
    · intro f hf
      obtain ⟨x, hx, rfl⟩ := List.mem_map.mp hf
      exact ((hfertile s hs).viable x hx).fitness
    · simpa using (hfertile s hs).inhabited
  · intro hne
    obtain ⟨s, hs⟩ := List.exists_mem_of_ne_nil _ hne
    obtain ⟨x, hx⟩ := List.exists_mem_of_ne_nil _ (hfertile s hs).inhabited
    refine List.sum_pos _ ?_ (List.ne_nil_of_mem (List.mem_flatMap.mpr
      ⟨s, hs, List.mem_map_of_mem hx⟩))
    intro f hf
    obtain ⟨s', hs', hf⟩ := List.mem_flatMap.mp hf
    obtain ⟨y, hy, rfl⟩ := List.mem_map.mp hf
    exact hadjusted s' hs' y hy
  · exact fun s hs => returns_breedIntra hk (hfertile s hs)
  · exact fun s hs => returns_breedInter hk hs hfertile
  · exact fun child hchild => returns_mutate hk hchild
  · exact (breedChildren_of_fertile C VA hk hfertile).1

/-! ### Runs -/

/-- The species a generation can begin with, when the draws are strict. -/
inductive Visits (ga : OlagsaGA K) (C VA : Fin (n + 1) → Fin T → K) (ga' : OlagsaGA K) :
    List (Specie K) → Prop
  | start {species : List (Specie K)}
      (h : (startSpecies ga C VA).Yields Strict (.ok (species, ga'))) : Visits ga C VA ga' species
  | generation {found next : List (Specie K)} {children : List (Individual K)}
      (h : Visits ga C VA ga' found) (hstagnated : stagnated ga' found = false)
      (htotal : totalAdjusted (survivors ga' found) ≠ 0)
      (hbreeds : (breedChildren ga' C VA (survivors ga' found)).Yields Strict (.ok children))
      (hassign : assignSpecies children (survivors ga' found) = .ok next) :
      Visits ga C VA ga' next

omit [FloorSemiring K] in
theorem ensures_viablePopulation {ga : OlagsaGA K} (hk : ga.numKeyIteration ≠ 0)
    (C VA : Fin (n + 1) → Fin T → K) :
    (initializePopulation ga >>= fun population => population.mapM (evaluate ga C VA)).Ensures
      Strict fun population => ∀ x ∈ population, Viable ga.numKeyIteration x := by
  refine (returns_initializePopulation hk).ensures.bind fun population hpopulation => ?_
  have hevaluate : (population.mapM (evaluate ga C VA)).Ensures Strict _ :=
    ensures_mapM fun x hx => ensures_evaluate_viable (hpopulation x hx) ga C VA
  exact hevaluate.mono fun evaluated hevaluated => hevaluated.2

omit [FloorSemiring K] in
theorem ensures_viableSpecies {ga : OlagsaGA K} (hk : ga.numKeyIteration ≠ 0)
    (C VA : Fin (n + 1) → Fin T → K) :
    (startSpecies ga C VA).Ensures Strict fun result =>
      EveryIndividual (Viable ga.numKeyIteration) result.1 := by
  rw [startSpecies_eq]
  refine (ensures_viablePopulation hk C VA).bind fun population hpopulation => ?_
  refine (ensures_ofExcept _).bind fun result hinitial => ?_
  refine (ensures_ofExcept _).bind fun assigned hassigned => ensures_ret ?_
  exact everyIndividual_of_first (initialized_of_initializeSpecies hinitial).empty
    (appended_of_ok hassigned) hpopulation

variable {ga ga' : OlagsaGA K} {C VA : Fin (n + 1) → Fin T → K}

/-- Every individual of every state is viable. -/
theorem visits_viable (hk : ga.numKeyIteration ≠ 0) {found : List (Specie K)}
    (h : Visits ga C VA ga' found) : EveryIndividual (Viable ga.numKeyIteration) found := by
  induction h with
  | start hstart => exact ensures_viableSpecies hk C VA _ hstart
  | generation _ _ _ hbreeds hassign ih =>
    refine (appended_of_ok hassign).everyIndividual (fun s hs => ?_)
      ((divides_of_viable C VA hk ih).children _ hbreeds)
    exact (fertile_of_survivor ih s hs).viable

omit [IsStrictOrderedRing K] [FloorSemiring K] in
/-- An assignment divides nothing. -/
theorem assignSpecies_ne_zeroDivision {population : List (Individual K)}
    {species : List (Specie K)} : assignSpecies population species ≠ .error .zeroDivision := by
  have happend : ∀ (x : Individual K) (point : Coordinate K) (l : List (Specie K)),
      appendTo x point l ≠ .error .zeroDivision := by
    intro x point l
    induction l with
    | nil => exact fun h => by cases h
    | cons s l ih =>
      intro h
      unfold appendTo at h
      split at h
      · cases h
      · rcases hrest : appendTo x point l with e | next
        · rw [hrest] at h
          cases h
          exact ih hrest
        · rw [hrest] at h
          cases h
  induction population generalizing species with
  | nil => exact fun h => by cases h
  | cons x population ih =>
    intro h
    rw [assignSpecies] at h
    rcases hpoint : chromosomeToCoordinate x.chromosomes with e | point
    · rw [hpoint] at h
      cases h
      unfold chromosomeToCoordinate at hpoint
      split at hpoint <;> cases hpoint
    · rcases hmid : appendTo x point species with e | mid
      · simp only [bind, Except.bind, hpoint, hmid] at h
        cases h
        exact happend x point species hmid
      · simp only [bind, Except.bind, hpoint, hmid] at h
        exact ih h

/-- The loop leaves viable individuals and divides by no zero. -/
theorem generations_of_visits (hk : ga.numKeyIteration ≠ 0) (k : ℕ) :
    ∀ {found : List (Specie K)}, Visits ga C VA ga' found →
      (generations ga' C VA k found).Ensures Strict
          (EveryIndividual (Viable ga.numKeyIteration)) ∧
        (generations ga' C VA k found).Raises Strict (· ≠ .zeroDivision) := by
  induction k with
  | zero => exact fun h => ⟨ensures_ret (visits_viable hk h), raises_ret⟩
  | succ k ih =>
    intro found h
    have hviable := visits_viable hk h
    have hfertile : ∀ s ∈ survivors ga' found, Fertile ga.numKeyIteration s :=
      fertile_of_survivor hviable
    have hraises : (breedChildren ga' C VA (survivors ga' found)).Raises Strict SolverFailure :=
      (breedChildren_of_fertile C VA hk hfertile).2
    rw [generations]
    cases hstagnated : stagnated ga' found with
    | true => exact ⟨ensures_ret (everyIndividual_checkSpecies ga' hviable), raises_ret⟩
    | false =>
      -- no fitness to share: the search ends before it divides by the total
      by_cases htotal : totalAdjusted (survivors ga' found) = 0
      · rw [if_pos htotal]
        exact ⟨ensures_ret fun s hs => (hfertile s hs).viable, raises_ret⟩
      · rw [if_neg htotal]
        have hnext : ∀ {children next}, (breedChildren ga' C VA (survivors ga' found)).Yields
            Strict (.ok children) → assignSpecies children (survivors ga' found) = .ok next →
              Visits ga C VA ga' next :=
          fun hbreeds hassign => h.generation hstagnated htotal hbreeds hassign
        constructor
        · intro final hfinal
          obtain ⟨children, hchildren, hrest⟩ := yields_bind_ok.mp hfinal
          obtain ⟨next, hassign, hrest⟩ := yields_bind_ok.mp hrest
          exact (ih (hnext hchildren (yields_ofExcept.mp hassign).symm)).1 final hrest
        · refine (hraises.mono fun _ he => he.2).bind fun children hchildren => ?_
          refine Raises.bind ?_ fun next hassign =>
            (ih (hnext hchildren (yields_ofExcept.mp hassign).symm)).2
          intro e he hzero
          rw [hzero] at he
          exact assignSpecies_ne_zeroDivision (yields_ofExcept.mp he).symm

omit [FloorSemiring K] in
/-- The start of a search divides by nothing but the number of species to wait for. -/
theorem raises_start_zeroDivision (hk : ga.numKeyIteration ≠ 0) :
    (startSpecies ga C VA).Raises Strict fun e =>
      e = .zeroDivision → ga.numKeyIteration = 2 ∧ ga.speciesWaited = 0 := by
  rw [startSpecies_eq]
  refine Raises.bind ?_ fun population hpopulation => Raises.bind ?_ fun result hresult => ?_
  · refine ((returns_initializePopulation hk).raises.mono fun _ => False.elim).bind
      fun population _ => raises_mapM fun x _ => (raises_evaluate ga C VA x).mono
        fun _ he hzero => absurd hzero he.2
  · intro e he hzero
    rcases initializeSpecies_error (yields_ofExcept.mp he).symm with ⟨-, hnone⟩ | ⟨hvalue, -⟩
    · exact hnone
    · rw [hvalue] at hzero
      cases hzero
  · refine Raises.bind ?_ fun assigned _ => raises_ret
    intro e he hzero
    rw [hzero] at he
    exact absurd (yields_ofExcept.mp he).symm assignSpecies_ne_zeroDivision

omit [FloorSemiring K] in
/-- The solutions are individuals of the species. -/
theorem ensures_collect_viable {k : ℕ} {species : List (Specie K)}
    (h : EveryIndividual (Viable k) species) :
    (collect ga C VA species).Ensures Strict fun best =>
      ∀ bs ∈ best, Viable k bs.individual := by
  have hbest : ∀ best ∈ species.filterMap bestIndividual, Viable k best := by
    intro best hmem
    obtain ⟨specie, hspecie, hhead⟩ := List.mem_filterMap.mp hmem
    exact h specie hspecie best (mem_sortByFitness.mp (List.mem_of_head? hhead))
  have hcollect : (collect ga C VA species).Ensures Strict fun best =>
      best.length = (species.filterMap bestIndividual).length ∧
        ∀ bs ∈ best, Viable k bs.individual :=
    ensures_mapM fun best hmem => (ensures_solveKey ga.numKeyIteration C VA best.chromosomes).bind
      fun key _ => ensures_ret (hbest best hmem)
  exact hcollect.mono fun best h => h.2

/-- **Chromosomes stay in the interior of the simplex, and nothing divides by zero.** The initial
population is drawn without failing; in every state a run visits all individuals are viable and
the generation divides by positive numbers only; what the run reports is viable, and it never
raises a division by zero but for the midpoints of a line that is to have no species. -/
theorem run_onSimplex (ga : OlagsaGA K)
    (hk : ga.numKeyIteration = 2 ∨ ga.numKeyIteration = 3) (C VA : Fin (n + 1) → Fin T → K) :
    (initializePopulation ga : Search n T K (List (Individual K))).Returns Strict
        (fun population => ∀ x ∈ population, Interior ga.numKeyIteration x.chromosomes) ∧
      (∀ ga' found, Visits ga C VA ga' found →
        EveryIndividual (Viable ga.numKeyIteration) found ∧
          Divides ga.numKeyIteration ga' C VA found) ∧
      ((ga.run C VA).Raises Strict fun e =>
        e = .zeroDivision → ga.numKeyIteration = 2 ∧ ga.speciesWaited = 0) ∧
      (ga.run C VA).Ensures Strict fun best =>
        ∀ bs ∈ best, Viable ga.numKeyIteration bs.individual := by
  have hk0 : ga.numKeyIteration ≠ 0 := by omega
  have hk1 : ga.numKeyIteration ≠ 1 := by omega
  refine ⟨returns_initializePopulation hk0, fun ga' found h => ?_, ?_, ?_⟩
  · have hviable := visits_viable hk0 h
    exact ⟨hviable, divides_of_viable C VA hk0 hviable⟩
  · rw [OlagsaGA.run, if_neg hk1]
    refine (raises_start_zeroDivision hk0).bind fun result hstart => ?_
    have hloop := (generations_of_visits hk0 result.2.numGeneration (Visits.start hstart)).2
    refine (hloop.mono fun _ he hzero => absurd hzero he).bind fun species _ => ?_
    exact (raises_collect _ C VA species).mono fun _ he hzero => absurd hzero he.2
  · rw [OlagsaGA.run, if_neg hk1]
    intro best hbest
    obtain ⟨result, hstart, hrest⟩ := yields_bind_ok.mp hbest
    obtain ⟨species, hspecies, hcollect⟩ := yields_bind_ok.mp hrest
    have hviable := (generations_of_visits hk0 _ (Visits.start hstart)).1 species hspecies
    exact ensures_collect_viable hviable best hcollect

/-! ### A generation of two regions -/

/-- The answers of `readDraw`, but never 0 for `random()`. -/
def readStrict : ∀ call : Call n T K, Draw n K → Option (Reply call)
  | .random, .random r => if 0 < r ∧ r < 1 then some r else none
  | .randint high, draw => readDraw (.randint high) draw
  | .choice probabilities size, draw => readDraw (.choice probabilities size) draw
  | .solve va C, draw => readDraw (.solve va C) draw
  | _, _ => none

omit [IsStrictOrderedRing K] [FloorSemiring K] in
theorem strict_of_readStrict (call : Call n T K) (draw : Draw n K) (reply : Reply call)
    (h : readStrict call draw = some reply) : Strict call reply := by
  cases call with
  | random =>
    cases draw <;> try cases h
    obtain ⟨hr, heq⟩ := Option.ite_none_right_eq_some.mp h
    cases heq
    exact hr
  | randint high => exact admissible_of_readDraw (.randint high) draw reply h
  | choice probabilities size =>
    have hadmissible := admissible_of_readDraw (.choice probabilities size) draw reply h
    refine ⟨hadmissible.1, fun i hi => ?_⟩
    obtain ⟨q, hq, -⟩ := hadmissible.2 i hi
    exact (List.getElem?_eq_some_iff.mp hq).1
  | solve va C => trivial

/-- One candidate for each of the two regions. -/
def oneForEachRegion : List (Draw 0 ℚ) :=
  [.random (3 / 4), .random (1 / 4), .random (1 / 4), .random (3 / 4),
    .solved (.other "infeasible"), .solved (.other "infeasible")]

/-- Both of them have a child, mutated within their region. -/
def oneChildEach : List (Draw 0 ℚ) :=
  [.random (1 / 2), .choice [0, 0], .randint 0, .randint 0, .random (1 / 2), .randint 0,
    .random (1 / 2), .solved (.other "infeasible"),
    .random (1 / 2), .choice [0, 0], .randint 0, .randint 0, .random (1 / 2), .randint 0,
    .random (1 / 2), .solved (.other "infeasible")]

theorem exists_visits_oneChildEach :
    ∃ ga' next, Visits twoRegions.ga (fun _ _ => 0 : Fin 1 → Fin 1 → ℚ) (fun _ _ => 1) ga' next ∧
      next.map (fun specie => specie.individuals.length) = [2, 2] := by
  obtain ⟨out, hout, htest⟩ := exists_yields_of_playsTo strict_of_readStrict
    (show playsTo readStrict oneForEachRegion
      (startSpecies twoRegions.ga (fun _ _ => 0 : Fin 1 → Fin 1 → ℚ) fun _ _ => 1)
      (fun out => match out with
        | .ok (species, ga') =>
            !stagnated ga' species && decide (totalAdjusted (survivors ga' species) ≠ 0) &&
            playsTo readStrict oneChildEach
              (breedChildren ga' (fun _ _ => 0 : Fin 1 → Fin 1 → ℚ) (fun _ _ => 1)
                (survivors ga' species))
              (fun out => match out with
                | .ok children => match assignSpecies children (survivors ga' species) with
                  | .ok next =>
                      next.map (fun specie => specie.individuals.length) = [2, 2]
                  | .error _ => false
                | .error _ => false)
        | .error _ => false) = true by decide +kernel)
  rcases out with e | ⟨species, ga'⟩
  · cases htest
  · simp only [Bool.and_eq_true, decide_eq_true_eq, Bool.not_eq_true'] at htest
    obtain ⟨⟨hnot, hfitness⟩, hchildren⟩ := htest
    obtain ⟨out, hbreeds, htest⟩ := exists_yields_of_playsTo strict_of_readStrict hchildren
    rcases out with e | children
    · cases htest
    · dsimp only at htest
      split at htest
      · rename_i next hassign
        exact ⟨ga', next, (Visits.start hout).generation hnot hfitness hbreeds hassign,
          of_decide_eq_true htest⟩
      · cases htest

/-- Parents and children of that generation are viable, and no run over the two regions divides by
zero. -/
theorem run_onSimplex_twoRegions :
    ∃ ga' next, Visits twoRegions.ga (fun _ _ => 0 : Fin 1 → Fin 1 → ℚ) (fun _ _ => 1) ga' next ∧
      next.map (fun specie => specie.individuals.length) = [2, 2] ∧
      EveryIndividual (Viable 2) next ∧
      Divides 2 ga' (fun _ _ => 0 : Fin 1 → Fin 1 → ℚ) (fun _ _ => 1) next ∧
      (twoRegions.ga.run (fun _ _ => 0 : Fin 1 → Fin 1 → ℚ) fun _ _ => 1).Raises Strict
        (· ≠ .zeroDivision) := by
  obtain ⟨ga', next, hvisits, hlengths⟩ := exists_visits_oneChildEach
  obtain ⟨-, hviable, hraises, -⟩ := run_onSimplex twoRegions.ga (Or.inl rfl)
    (fun _ _ => 0 : Fin 1 → Fin 1 → ℚ) fun _ _ => 1
  obtain ⟨hindividuals, hdivides⟩ := hviable ga' next hvisits
  refine ⟨ga', next, hvisits, hlengths, hindividuals, hdivides, ?_⟩
  exact hraises.mono fun e he hzero => absurd (he hzero).2 (by decide)

end AllocationKeys.Olagsa
