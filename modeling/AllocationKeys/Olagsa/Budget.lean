import AllocationKeys.Lib.Counted
import AllocationKeys.Olagsa.Species

/-!
# The solve budget

`runCounted` is a run that counts its calls of `_evaluate`; without the count it is the run
(`erases_runCounted`). A generation gives each species its share of the population by the
adjusted fitness of its first individual, which is one of the terms of the total, so the numbers
of children sum to at most the population size (`sum_numChildren_le`). Halving every species with
several individuals and adding as many children as the population size keeps the species within
twice that size and one more individual for each species (`crowd_survivors`).
-/

namespace AllocationKeys.Olagsa

open Program

variable {n T : ℕ} {K : Type} [Field K] [LinearOrder K]

/-! ### Counted runs -/

abbrev CountedSearch (n T : ℕ) (K : Type) : Type → Type := Counted (Call n T K) Reply Failure

def evaluateCounted (ga : OlagsaGA K) (C VA : Fin (n + 1) → Fin T → K)
    (individual : Individual K) : CountedSearch n T K (Individual K) := do
  count
  uncounted (evaluate ga C VA individual)

def breedChildCounted (ga : OlagsaGA K) (C VA : Fin (n + 1) → Fin T → K)
    (species : List (Specie K)) (specie : Specie K) : CountedSearch n T K (Individual K) := do
  let child ← uncounted
    (if 1 < ga.speciesWaited then do
      let r ← random
      if r < ga.crossoverRateInterSpecies then breedInter ga specie species
      else breedIntra ga specie
    else breedIntra ga specie)
  let child ← uncounted (if 0 < ga.mutationRate then mutate ga child else pure child)
  evaluateCounted ga C VA child

def startSpeciesCounted (ga : OlagsaGA K) (C VA : Fin (n + 1) → Fin T → K) :
    CountedSearch n T K (List (Specie K) × OlagsaGA K) := do
  let population ← uncounted (initializePopulation ga)
  let population ← population.mapM (evaluateCounted ga C VA)
  let (species, ga) ← uncounted (Program.ofExcept (initializeSpecies ga))
  let species ← uncounted (Program.ofExcept (assignSpecies population species))
  pure (species.map initializeBest, ga)

section Runs

variable [FloorSemiring K]

/-- The species of the children of a generation, in the order the children are bred. -/
def breeders (ga : OlagsaGA K) (species : List (Specie K)) : List (Specie K) :=
  species.flatMap fun specie =>
    List.replicate (numChildren ga (totalAdjusted species) specie) specie

def breedChildrenCounted (ga : OlagsaGA K) (C VA : Fin (n + 1) → Fin T → K)
    (species : List (Specie K)) : CountedSearch n T K (List (Individual K)) :=
  (breeders ga species).mapM (breedChildCounted ga C VA species)

def generationsCounted (ga : OlagsaGA K) (C VA : Fin (n + 1) → Fin T → K) :
    ℕ → List (Specie K) → CountedSearch n T K (List (Specie K))
  | 0, species => pure species
  | k + 1, species =>
      if stagnated ga species then pure (checkSpecies ga species)
      else if totalAdjusted (survivors ga species) = 0 then pure (survivors ga species)
      else do
        let newChildren ← breedChildrenCounted ga C VA (survivors ga species)
        let species ← uncounted
          (Program.ofExcept (assignSpecies newChildren (survivors ga species)))
        generationsCounted ga C VA k species

/-- `OlagsaGA.run`, counting its calls of `_evaluate`. -/
def runCounted (ga : OlagsaGA K) (C VA : Fin (n + 1) → Fin T → K) :
    CountedSearch n T K (List (BestSolution n T K)) :=
  if ga.numKeyIteration = 1 then do
    let only ← evaluateCounted ga C VA (Individual.make [1])
    let key ← uncounted (solveKey 1 C VA only.chromosomes)
    pure [⟨only, only.fitness, key⟩]
  else do
    let (species, ga) ← startSpeciesCounted ga C VA
    let species ← generationsCounted ga C VA ga.numGeneration species
    uncounted (collect ga C VA species)

end Runs

/-! ### Without the count -/

theorem erases_evaluateCounted (ga : OlagsaGA K) (C VA : Fin (n + 1) → Fin T → K)
    (individual : Individual K) :
    Erases (evaluateCounted ga C VA individual) (evaluate ga C VA individual) :=
  erases_count.bind fun _ => erases_uncounted _

theorem erases_breedChildCounted (ga : OlagsaGA K) (C VA : Fin (n + 1) → Fin T → K)
    (species : List (Specie K)) (specie : Specie K) :
    Erases (breedChildCounted ga C VA species specie) (breedChild ga C VA species specie) :=
  (erases_uncounted _).bind fun _ => (erases_uncounted _).bind fun child =>
    erases_evaluateCounted ga C VA child

theorem erases_startSpeciesCounted (ga : OlagsaGA K) (C VA : Fin (n + 1) → Fin T → K) :
    Erases (startSpeciesCounted ga C VA) (startSpecies ga C VA) := by
  refine (erases_uncounted _).bind fun population => ?_
  refine (erases_mapM fun x _ => erases_evaluateCounted ga C VA x).bind fun population => ?_
  refine (erases_uncounted _).bind fun result => ?_
  exact (erases_uncounted _).bind fun species => erases_pure _

section Runs

variable [FloorSemiring K]

theorem erases_breedChildrenCounted (ga : OlagsaGA K) (C VA : Fin (n + 1) → Fin T → K)
    (species : List (Specie K)) :
    Erases (breedChildrenCounted ga C VA species) (breedChildren ga C VA species) :=
  erases_mapM fun specie _ => erases_breedChildCounted ga C VA species specie

theorem erases_generationsCounted (ga : OlagsaGA K) (C VA : Fin (n + 1) → Fin T → K) (k : ℕ) :
    ∀ species, Erases (generationsCounted ga C VA k species) (generations ga C VA k species) := by
  induction k with
  | zero => exact fun species => erases_pure species
  | succ k ih =>
    intro species
    rw [generationsCounted, generations]
    cases stagnated ga species with
    | true => exact erases_pure _
    | false =>
      by_cases htotal : totalAdjusted (survivors ga species) = 0
      · rw [if_pos htotal, if_pos htotal]
        exact erases_pure _
      · rw [if_neg htotal, if_neg htotal]
        refine (erases_breedChildrenCounted ga C VA _).bind fun children => ?_
        exact (erases_uncounted _).bind fun next => ih next

/-- Without its count, a counted run is the run. -/
theorem erases_runCounted (ga : OlagsaGA K) (C VA : Fin (n + 1) → Fin T → K) :
    Erases (runCounted ga C VA) (ga.run C VA) := by
  unfold runCounted OlagsaGA.run
  split
  · refine (erases_evaluateCounted ga C VA _).bind fun only => ?_
    exact (erases_uncounted _).bind fun key => erases_pure _
  · refine (erases_startSpeciesCounted ga C VA).bind fun result => ?_
    refine (erases_generationsCounted _ C VA _ _).bind fun species => ?_
    exact erases_uncounted _

end Runs

/-! ### The numbers of children -/

section Shares

variable [IsStrictOrderedRing K]

/-- The adjusted fitness of the first individual. -/
def headFitness (specie : Specie K) : K :=
  match specie.individuals with
  | [] => 0
  | best :: _ => best.adjustedFitness

/-- The first individuals are among those the total is taken over. -/
theorem sum_headFitness_le {species : List (Specie K)}
    (h : EveryIndividual (fun x => 0 ≤ x.adjustedFitness) species) :
    (species.map headFitness).sum ≤ totalAdjusted species := by
  unfold totalAdjusted
  induction species with
  | nil => exact le_rfl
  | cons s species ih =>
    have hrest := ih fun s' hs' => h s' (List.mem_cons_of_mem s hs')
    have hhead : headFitness s ≤ (s.individuals.map Individual.adjustedFitness).sum := by
      have hs := h s (List.mem_cons_self ..)
      unfold headFitness
      cases hindividuals : s.individuals with
      | nil => exact le_rfl
      | cons best others =>
        rw [List.map_cons, List.sum_cons]
        refine le_add_of_nonneg_right (List.sum_nonneg fun f hf => ?_)
        obtain ⟨x, hx, rfl⟩ := List.mem_map.mp hf
        exact hs x (by rw [hindividuals]; exact List.mem_cons_of_mem best hx)
    rw [List.map_cons, List.sum_cons, List.flatMap_cons, List.sum_append]
    exact add_le_add hhead hrest

variable [FloorSemiring K]

theorem cast_numChildren_le {ga : OlagsaGA K} {total : K} (htotal : 0 ≤ total)
    {specie : Specie K} (h : ∀ x ∈ specie.individuals, 0 ≤ x.adjustedFitness) :
    (numChildren ga total specie : K) ≤
      headFitness specie / total * (ga.populationSize : K) := by
  unfold numChildren headFitness
  cases hindividuals : specie.individuals with
  | nil => simp
  | cons best others =>
    have hbest := h best (by rw [hindividuals]; exact List.mem_cons_self ..)
    exact Nat.floor_le (mul_nonneg (div_nonneg hbest htotal) (Nat.cast_nonneg _))

/-- **The shares of a generation.** The numbers of children sum to at most the population size. -/
theorem sum_numChildren_le (ga : OlagsaGA K) {species : List (Specie K)}
    (h : EveryIndividual (fun x => 0 ≤ x.adjustedFitness) species) :
    (species.map (numChildren ga (totalAdjusted species))).sum ≤ ga.populationSize := by
  have htotal : 0 ≤ totalAdjusted species := by
    refine List.sum_nonneg fun f hf => ?_
    obtain ⟨s, hs, hf⟩ := List.mem_flatMap.mp hf
    obtain ⟨x, hx, rfl⟩ := List.mem_map.mp hf
    exact h s hs x hx
  have hsum : ∀ l : List (Specie K), (∀ s ∈ l, s ∈ species) →
      ((l.map (numChildren ga (totalAdjusted species))).sum : K) ≤
        (l.map headFitness).sum / totalAdjusted species * (ga.populationSize : K) := by
    intro l
    induction l with
    | nil => intro _; simp
    | cons s l ih =>
      intro hl
      have hs : (numChildren ga (totalAdjusted species) s : K) ≤
          headFitness s / totalAdjusted species * (ga.populationSize : K) :=
        cast_numChildren_le htotal (h s (hl s (List.mem_cons_self ..)))
      have hrest := ih fun s' hs' => hl s' (List.mem_cons_of_mem s hs')
      rw [List.map_cons, List.sum_cons, List.map_cons, List.sum_cons, Nat.cast_add, add_div,
        add_mul]
      exact add_le_add hs hrest
  have hratio : (species.map headFitness).sum / totalAdjusted species ≤ 1 :=
    div_le_one_of_le₀ (sum_headFitness_le h) htotal
  have hcast : ((species.map (numChildren ga (totalAdjusted species))).sum : K) ≤
      (ga.populationSize : K) :=
    calc ((species.map (numChildren ga (totalAdjusted species))).sum : K)
        ≤ (species.map headFitness).sum / totalAdjusted species * (ga.populationSize : K) :=
          hsum species fun _ hs => hs
      _ ≤ 1 * (ga.populationSize : K) :=
          mul_le_mul_of_nonneg_right hratio (Nat.cast_nonneg _)
      _ = (ga.populationSize : K) := one_mul _
  exact_mod_cast hcast

theorem length_breeders_le (ga : OlagsaGA K) {species : List (Specie K)}
    (h : EveryIndividual (fun x => 0 ≤ x.adjustedFitness) species) :
    (breeders ga species).length ≤ ga.populationSize := by
  have hlength : (breeders ga species).length =
      (species.map (numChildren ga (totalAdjusted species))).sum := by
    simp [breeders, List.length_flatMap]
  rw [hlength]
  exact sum_numChildren_le ga h

end Shares

/-! ### How many individuals there are -/

/-- The number of individuals of the species together. -/
def crowd (species : List (Specie K)) : ℕ :=
  (species.map fun specie => specie.individuals.length).sum

omit [Field K] [LinearOrder K] in
theorem crowd_eq_length (species : List (Specie K)) :
    crowd species = (species.flatMap Specie.individuals).length := by
  rw [List.length_flatMap]
  rfl

theorem crowd_of_appended {population : List (Individual K)} {species next : List (Specie K)}
    (h : Appended population species next) : crowd next = crowd species + population.length := by
  rw [crowd_eq_length, crowd_eq_length, h.once.length_eq, List.length_append]

theorem length_of_appended {population : List (Individual K)} {species next : List (Specie K)}
    (h : Appended population species next) : next.length = species.length :=
  h.grown.length_eq.symm

omit [Field K] in
theorem crowd_checkSpecies (ga : OlagsaGA K) (species : List (Specie K)) :
    crowd (checkSpecies ga species) = crowd species := by
  unfold crowd checkSpecies
  rw [List.map_map]
  congr 1
  refine List.map_congr_left fun s _ => ?_
  show (checkSpecie ga s).1.individuals.length = _
  rw [(checkSpecie_fields ga s).2.2, length_sortByFitness]

/-- Half of the individuals survive, and one more for each species at most. -/
theorem crowd_survivors (ga : OlagsaGA K) (species : List (Specie K)) :
    2 * crowd (survivors ga species) ≤ crowd species + species.length ∧
      (survivors ga species).length ≤ species.length := by
  induction species with
  | nil => exact ⟨le_rfl, le_rfl⟩
  | cons s species ih =>
    have hempty : (checkSpecie ga s).1.individuals = [] ↔ s.individuals = [] := by
      rw [(checkSpecie_fields ga s).2.2, sortByFitness_eq_nil]
    by_cases hnil : s.individuals = []
    · have hsurvivors : survivors ga (s :: species) = survivors ga species := by
        unfold survivors inhabited checkSpecies
        rw [List.map_cons, List.filter_cons_of_neg (by simpa using hempty.mpr hnil)]
      rw [hsurvivors]
      simp only [crowd, List.map_cons, List.sum_cons, List.length_cons] at ih ⊢
      omega
    · have hsurvivors : survivors ga (s :: species) =
          cullWeakest (applyAdjustedFitness (checkSpecie ga s).1) :: survivors ga species := by
        unfold survivors inhabited checkSpecies
        rw [List.map_cons, List.filter_cons_of_pos (by simpa using mt hempty.mp hnil)]
        rfl
      have hlength := length_survivor ga s
      have hpos := List.length_pos_iff.mpr hnil
      rw [hsurvivors]
      simp only [crowd, List.map_cons, List.sum_cons, List.length_cons] at ih ⊢
      split at hlength <;> omega

/-! ### Bounds of a run -/

section Runs

variable [IsStrictOrderedRing K] {ok : ∀ call : Call n T K, Reply call → Prop}

omit [IsStrictOrderedRing K] in
theorem within_evaluateCounted (ga : OlagsaGA K) (C VA : Fin (n + 1) → Fin T → K)
    (individual : Individual K) : Within ok (evaluateCounted ga C VA individual) 1 :=
  Within.bind erases_count within_count fun _ _ => within_uncounted _

omit [IsStrictOrderedRing K] in
theorem within_breedChildCounted (ga : OlagsaGA K) (C VA : Fin (n + 1) → Fin T → K)
    (species : List (Specie K)) (specie : Specie K) :
    Within ok (breedChildCounted ga C VA species specie) 1 := by
  refine (Within.bind (erases_uncounted _) (within_uncounted _) fun _ _ =>
    Within.bind (erases_uncounted _) (within_uncounted _) fun child _ =>
      within_evaluateCounted ga C VA child).mono ?_
  omega

/-- Evaluated individuals have a positive fitness. -/
theorem ensures_evaluate_pos (ga : OlagsaGA K) (C VA : Fin (n + 1) → Fin T → K)
    (individual : Individual K) :
    (evaluate ga C VA individual).Ensures ok fun evaluated => 0 < evaluated.fitness :=
  (ensures_evaluate ga C VA individual).mono fun _ h => h.2.fitness_pos

omit [IsStrictOrderedRing K] in
theorem ensures_initializePopulation_length (ga : OlagsaGA K) :
    (initializePopulation ga : Search n T K _).Ensures ok fun population =>
      population.length = ga.populationSize := by
  refine (ensures_mapM fun _ _ => ensures_true _).mono fun population h => ?_
  rw [h.1, List.length_range]

/-- What the start of a search settles: as many individuals as the population size, of positive
fitness, in the initial species. -/
theorem ensures_startSpecies_crowd (ga : OlagsaGA K) (C VA : Fin (n + 1) → Fin T → K) :
    (startSpecies ga C VA).Ensures ok fun result =>
      EveryIndividual (fun x => 0 < x.fitness) result.1 ∧ crowd result.1 = ga.populationSize ∧
        ∃ initial, initializeSpecies ga = .ok (initial, result.2) ∧
          result.1.length = initial.length := by
  have hpopulation : (initializePopulation ga >>= fun population =>
      population.mapM (evaluate ga C VA)).Ensures ok fun population =>
        population.length = ga.populationSize ∧ ∀ x ∈ population, 0 < x.fitness := by
    refine (ensures_initializePopulation_length ga).bind fun population hlength => ?_
    refine (ensures_mapM fun x _ => ensures_evaluate_pos ga C VA x).mono fun evaluated h => ?_
    exact ⟨h.1.trans hlength, h.2⟩
  rw [startSpecies_eq]
  refine hpopulation.bind fun population hpop => ?_
  refine (ensures_ofExcept _).bind fun result hinitial => ?_
  refine (ensures_ofExcept _).bind fun assigned hassigned => ensures_ret ?_
  have hempty := (initialized_of_initializeSpecies hinitial).empty
  have happended := appended_of_ok hassigned
  refine ⟨everyIndividual_of_first hempty happended hpop.2, ?_, result.1, hinitial, ?_⟩
  · have hinitialCrowd : crowd result.1 = 0 := by
      rw [crowd_eq_length, List.flatMap_eq_nil_iff.mpr hempty, List.length_nil]
    have hbest : crowd (assigned.map initializeBest) = crowd assigned := by
      unfold crowd
      rw [List.map_map]
      congr 1
      refine List.map_congr_left fun s _ => ?_
      show (initializeBest s).individuals.length = _
      rw [(initializeBest_fields s).2.2.2, length_sortByFitness]
    rw [hbest, crowd_of_appended happended, hinitialCrowd, hpop.1, Nat.zero_add]
  · rw [List.length_map, length_of_appended happended]

variable [FloorSemiring K]

/-- A generation breeds at most as many children as the population size. -/
theorem length_breeders_survivors (ga : OlagsaGA K) {found : List (Specie K)}
    (h : EveryIndividual (fun x => 0 < x.fitness) found) :
    (breeders ga (survivors ga found)).length ≤ ga.populationSize :=
  length_breeders_le ga fun s hs x hx => (adjustedFitness_pos h s hs x hx).le

theorem ensures_breedChildren_crowd (ga : OlagsaGA K) (C VA : Fin (n + 1) → Fin T → K)
    {found : List (Specie K)} (h : EveryIndividual (fun x => 0 < x.fitness) found) :
    (breedChildren ga C VA (survivors ga found)).Ensures ok fun children =>
      children.length ≤ ga.populationSize ∧ ∀ child ∈ children, 0 < child.fitness := by
  have hchildren : (breedChildren ga C VA (survivors ga found)).Ensures ok fun children =>
      children.length = (breeders ga (survivors ga found)).length ∧
        ∀ child ∈ children, 0 < child.fitness := by
    refine ensures_mapM fun specie _ => ?_
    exact (ensures_true _).bind fun child _ => (ensures_true _).bind fun mutated _ =>
      ensures_evaluate_pos ga C VA mutated
  refine hchildren.mono fun children hlength => ⟨?_, hlength.2⟩
  rw [hlength.1]
  exact length_breeders_survivors ga h

omit [IsStrictOrderedRing K] [FloorSemiring K] in
/-- One generation keeps every fitness positive. -/
theorem fitness_pos_of_assigned {ga : OlagsaGA K} {found next : List (Specie K)}
    {children : List (Individual K)} (h : EveryIndividual (fun x => 0 < x.fitness) found)
    (hchildren : ∀ child ∈ children, 0 < child.fitness)
    (hassign : assignSpecies children (survivors ga found) = .ok next) :
    EveryIndividual (fun x => 0 < x.fitness) next :=
  (appended_of_ok hassign).everyIndividual
    (everyIndividual_of_survivors ga (fun _ _ hx => hx) h) hchildren

theorem within_breedChildrenCounted (ga : OlagsaGA K) (C VA : Fin (n + 1) → Fin T → K)
    {found : List (Specie K)} (h : EveryIndividual (fun x => 0 < x.fitness) found) :
    Within ok (breedChildrenCounted ga C VA (survivors ga found)) ga.populationSize := by
  refine (within_mapM (fun specie _ => erases_breedChildCounted ga C VA _ specie)
    fun specie _ => within_breedChildCounted ga C VA _ specie).mono ?_
  rw [Nat.mul_one]
  exact length_breeders_survivors ga h

theorem within_generationsCounted (ga : OlagsaGA K) (C VA : Fin (n + 1) → Fin T → K) (k : ℕ) :
    ∀ {found : List (Specie K)}, EveryIndividual (fun x => 0 < x.fitness) found →
      Within ok (generationsCounted ga C VA k found) (k * ga.populationSize) := by
  induction k with
  | zero => exact fun _ => (within_pure _).mono (Nat.zero_le _)
  | succ k ih =>
    intro found h
    rw [generationsCounted]
    cases stagnated ga found with
    | true => exact (within_pure _).mono (Nat.zero_le _)
    | false =>
      by_cases htotal : totalAdjusted (survivors ga found) = 0
      · rw [if_pos htotal]
        exact (within_pure _).mono (Nat.zero_le _)
      · rw [if_neg htotal]
        have hrest : ∀ children, (breedChildren ga C VA (survivors ga found)).Yields ok
            (.ok children) → Within ok
              (uncounted (Program.ofExcept (assignSpecies children (survivors ga found))) >>=
                fun species => generationsCounted ga C VA k species)
              (0 + k * ga.populationSize) := by
          intro children hchildren
          refine Within.bind (erases_uncounted _) (within_uncounted _) fun next hassign => ?_
          exact ih (fitness_pos_of_assigned h (ensures_breedChildren_crowd ga C VA h _ hchildren).2
            (yields_ofExcept.mp hassign).symm)
        refine (Within.bind (erases_breedChildrenCounted ga C VA _)
          (within_breedChildrenCounted ga C VA h) hrest).mono ?_
        rw [Nat.succ_mul]
        omega

omit [LinearOrder K] [IsStrictOrderedRing K] [FloorSemiring K] in
theorem populationSize_of_initializeSpecies {ga ga' : OlagsaGA K} {species : List (Specie K)}
    (h : initializeSpecies ga = .ok (species, ga')) : ga'.populationSize = ga.populationSize := by
  rcases initializeSpecies_ok h with ⟨-, -, -, _, rfl⟩ | ⟨-, -, _, _, rfl⟩
  · rfl
  · rfl

omit [FloorSemiring K] [IsStrictOrderedRing K] in
theorem within_startSpeciesCounted (ga : OlagsaGA K) (C VA : Fin (n + 1) → Fin T → K) :
    Within ok (startSpeciesCounted ga C VA) ga.populationSize := by
  have hevaluate : ∀ population : List (Individual K), population.length = ga.populationSize →
      Within ok (population.mapM (evaluateCounted ga C VA)) ga.populationSize := by
    intro population hlength
    refine (within_mapM (fun x _ => erases_evaluateCounted ga C VA x)
      fun x _ => within_evaluateCounted ga C VA x).mono ?_
    rw [hlength, Nat.mul_one]
  have hassign : ∀ population : List (Individual K), Within ok
      (uncounted (Program.ofExcept (initializeSpecies ga)) >>= fun result =>
        uncounted (Program.ofExcept (assignSpecies population result.1)) >>= fun species =>
          pure (species.map initializeBest, result.2) : CountedSearch n T K _) (0 + (0 + 0)) :=
    fun population => Within.bind (erases_uncounted _) (within_uncounted _) fun result _ =>
      Within.bind (erases_uncounted _) (within_uncounted _) fun species _ => within_pure _
  refine (Within.bind (erases_uncounted _) (within_uncounted _) fun population hpopulation =>
    Within.bind (erases_mapM fun x _ => erases_evaluateCounted ga C VA x)
      (hevaluate population (ensures_initializePopulation_length ga population hpopulation))
      fun population _ => hassign population).mono ?_
  omega

/-- A run calls `_evaluate` once for each individual of the population size, and as often again in
each generation at most. -/
theorem within_runCounted (ga : OlagsaGA K) (hk : ga.numKeyIteration ≠ 1)
    (C VA : Fin (n + 1) → Fin T → K) :
    Within ok (runCounted ga C VA) (ga.populationSize * (ga.numGeneration + 1)) := by
  rw [runCounted, if_neg hk]
  have hloop : ∀ result, (startSpecies ga C VA).Yields ok (.ok result) → Within ok
      (generationsCounted result.2 C VA result.2.numGeneration result.1 >>= fun species =>
        uncounted (collect result.2 C VA species))
      (ga.numGeneration * ga.populationSize + 0) := by
    intro result hresult
    obtain ⟨hpos, -, initial, hinitial, -⟩ := ensures_startSpecies_crowd ga C VA result hresult
    have hgenerations := (initialized_of_initializeSpecies hinitial).numGeneration
    rw [← populationSize_of_initializeSpecies hinitial, ← hgenerations]
    exact Within.bind (erases_generationsCounted result.2 C VA _ _)
      (within_generationsCounted result.2 C VA _ hpos) fun _ _ => within_uncounted _
  refine (Within.bind (erases_startSpeciesCounted ga C VA)
    (within_startSpeciesCounted ga C VA) hloop).mono ?_
  rw [Nat.mul_succ, Nat.mul_comm]
  omega

/-- The number of individuals in the states of a run. -/
theorem crowd_of_reaches {ga ga' : OlagsaGA K} {C VA : Fin (n + 1) → Fin T → K}
    {earlier : List (List (Specie K))} {found : List (Specie K)}
    (h : Reaches ga C VA ga' earlier found) :
    EveryIndividual (fun x => 0 < x.fitness) found ∧
      ∃ initial, initializeSpecies ga = .ok (initial, ga') ∧
        found.length ≤ initial.length ∧ crowd found ≤ 2 * ga.populationSize + initial.length := by
  induction h with
  | start hstart =>
    obtain ⟨hpos, hcrowd, initial, hinitial, hlength⟩ :=
      ensures_startSpecies_crowd ga C VA _ hstart
    dsimp only at hpos hcrowd hinitial hlength
    refine ⟨hpos, initial, hinitial, hlength.le, ?_⟩
    omega
  | @generation earlier found next children _ hbreeds hassign ih =>
    obtain ⟨hpos, initial, hinitial, hlength, hcrowd⟩ := ih
    obtain ⟨hchildren, hfitness⟩ :=
      ensures_breedChildren_crowd ga' C VA hpos children hbreeds.breeds
    have happended := appended_of_ok hassign
    obtain ⟨hhalf, hfewer⟩ := crowd_survivors ga' found
    refine ⟨fitness_pos_of_assigned hpos hfitness hassign, initial, hinitial, ?_, ?_⟩
    · rw [length_of_appended happended]
      omega
    · rw [crowd_of_appended happended]
      rw [populationSize_of_initializeSpecies hinitial] at hchildren
      omega

/-- **The solve budget is bounded.**  For any species of positive fitness the numbers of children
of a generation sum to at most the population size. A run is a counted run without its count, and
that never exceeds the population size times one more than the number of generations. In every
state of a run, and in those its loop ends in, the species hold at most twice the population size
and one more individual for each initial species. -/
theorem run_budget (ga : OlagsaGA K) (hk : ga.numKeyIteration = 2 ∨ ga.numKeyIteration = 3)
    (C VA : Fin (n + 1) → Fin T → K) :
    (∀ (ga' : OlagsaGA K) (found : List (Specie K)),
        EveryIndividual (fun x => 0 < x.fitness) found →
          ((survivors ga' found).map
            (numChildren ga' (totalAdjusted (survivors ga' found)))).sum ≤ ga'.populationSize) ∧
      Erases (runCounted ga C VA) (ga.run C VA) ∧
      Within Admissible (runCounted ga C VA) (ga.populationSize * (ga.numGeneration + 1)) ∧
      ∀ ga' earlier found, Reaches ga C VA ga' earlier found →
        ((survivors ga' found).map
            (numChildren ga' (totalAdjusted (survivors ga' found)))).sum ≤ ga.populationSize ∧
        ∃ initial, initializeSpecies ga = .ok (initial, ga') ∧
          crowd found ≤ 2 * ga.populationSize + initial.length ∧
          ∀ final, Ends ga' earlier found final →
            crowd final ≤ 2 * ga.populationSize + initial.length := by
  have hshares : ∀ (ga' : OlagsaGA K) (found : List (Specie K)),
      EveryIndividual (fun x => 0 < x.fitness) found →
        ((survivors ga' found).map
          (numChildren ga' (totalAdjusted (survivors ga' found)))).sum ≤ ga'.populationSize :=
    fun ga' found h => sum_numChildren_le ga' fun s hs x hx => (adjustedFitness_pos h s hs x hx).le
  refine ⟨hshares, erases_runCounted ga C VA, within_runCounted ga (by omega) C VA, ?_⟩
  intro ga' earlier found hreach
  obtain ⟨hpos, initial, hinitial, hlength, hcrowd⟩ := crowd_of_reaches hreach
  have hsum := hshares ga' found hpos
  rw [populationSize_of_initializeSpecies hinitial] at hsum
  refine ⟨hsum, initial, hinitial, hcrowd, fun final hends => ?_⟩
  cases hends with
  | finished _ => exact hcrowd
  | noImprovement _ _ =>
    rw [crowd_checkSpecies]
    exact hcrowd
  | noFitness _ _ _ =>
    have hhalf := (crowd_survivors ga' found).1
    omega

/-- Two candidates in one generation: four calls of `_evaluate`. -/
theorem run_budget_twoRegions :
    Within Admissible
      (runCounted twoRegions.ga (fun _ _ => 0 : Fin 1 → Fin 1 → ℚ) fun _ _ => 1) 4 :=
  (run_budget twoRegions.ga (Or.inl rfl) (fun _ _ => 0 : Fin 1 → Fin 1 → ℚ) fun _ _ => 1).2.2.1

end Runs

end AllocationKeys.Olagsa
