import AllocationKeys.Olagsa.Geometry
import AllocationKeys.Olagsa.Solver
import Mathlib.Algebra.Order.Floor.Semiring
import Mathlib.Data.List.Sort

/-!
# The genetic search

`olagsa/_impl/ga.py`: a population of shares, sorted into species by the region of the simplex
they lie in. Every generation checks each species for stagnation, drops the empty ones, keeps
the fitter half of the others, and breeds children that are assigned to a species again.

All that a generation decides without a draw is a pure function of the species it finds:
`checkSpecie`, `survivors`, `totalAdjusted` and `numChildren`. What is drawn is the children,
`breedChildren`. `generations` puts the loop together, `run` the whole search.

An `Individual` carries in `status` what its last solve ended with; the source does not store
it, and no function reads it.
-/

namespace AllocationKeys.Olagsa

variable {n T : ℕ} {K : Type}

structure Individual (K : Type) where
  chromosomes : List K
  fitness : K
  adjustedFitness : K
  status : Option Status

/-- `Individual(chromosomes, 0.0)`. -/
def Individual.make [Zero K] (chromosomes : List K) : Individual K := ⟨chromosomes, 0, 0, none⟩

structure Specie (K : Type) where
  id : ℕ
  individuals : List (Individual K)
  iterationWithoutImprovement : ℕ
  bestFitness : K
  isSameSpecie : Region K
  centroid : Coordinate K

structure BestSolution (n T : ℕ) (K : Type) where
  individual : Individual K
  fitness : K
  key : Key n T K

/-- The parameters of a search, and its counter of species ids. -/
structure OlagsaGA (K : Type) where
  numKeyIteration : ℕ
  numGeneration : ℕ
  populationSize : ℕ
  crossoverRate : K
  crossoverRateInterSpecies : K
  mutationRate : K
  speciesWaited : ℕ
  maxIterationWithoutImprovement : ℕ
  lastSpecieId : ℕ

section Definitions

variable [Field K] [LinearOrder K]

/-- `PONDERATION_EXCEDENT`. -/
def ponderationExcedent : K := 1000

/-! ### Draws -/

def random : Search n T K K := .call .random fun (r : K) => .ret r

def randint (high : ℕ) : Search n T K ℕ := .call (.randint high) fun (r : ℕ) => .ret r

def choice (probabilities : List K) (size : ℕ) : Search n T K (List ℕ) :=
  .call (.choice probabilities size) fun (indices : List ℕ) => .ret indices

/-- `random.randint(0, len(l) - 1)`. -/
def randIndex (l : List K) : Search n T K ℕ :=
  if l.isEmpty then throw .valueError else randint (l.length - 1)

/-- `[x / total for x in l]` with `total = sum(l)`. -/
def normalize (l : List K) : Search n T K (List K) :=
  if l.sum = 0 ∧ ¬ l.isEmpty then throw .zeroDivision else pure (l.map (· / l.sum))

/-! ### Species -/

/-- A new species for a region. -/
def newSpecie (id : ℕ) (isSameSpecie : Region K) (centroid : Coordinate K) : Specie K :=
  ⟨id, [], 0, 0, isSameSpecie, centroid⟩

def segmentSpecie (id : ℕ) (seg : Segment K) : Specie K :=
  newSpecie id (.segment seg)
    ⟨(seg.pointA.x + seg.pointB.x) / 2, (seg.pointA.y + seg.pointB.y) / 2, 0⟩

def triangleSpecie (id : ℕ) (tri : Triangle K) : Specie K :=
  newSpecie id (.triangle tri)
    ⟨(tri.pointA.x + tri.pointB.x + tri.pointC.x) / 3,
      (tri.pointA.y + tri.pointB.y + tri.pointC.y) / 3,
      (tri.pointA.z + tri.pointB.z + tri.pointC.z) / 3⟩

/-- The species of the search space, with the counters the construction advances. -/
def initializeSpecies (ga : OlagsaGA K) : Except Failure (List (Specie K) × OlagsaGA K) :=
  if ga.numKeyIteration = 2 then
    -- `_find_midpoints` divides 1 by the number of species
    if ga.speciesWaited = 0 then .error .zeroDivision
    else
      let segments := buildSegments (findMidpoints ga.speciesWaited)
      .ok
        (segments.mapIdx fun j seg => segmentSpecie (ga.lastSpecieId + j) seg,
          { ga with lastSpecieId := ga.lastSpecieId + segments.length })
  else if ga.numKeyIteration = 3 then
    let triangles := divideTriangle ⟨1, 0, 0⟩ ⟨0, 1, 0⟩ ⟨0, 0, 1⟩ ga.speciesWaited
    .ok
      (triangles.mapIdx fun j tri => triangleSpecie (ga.lastSpecieId + j) tri,
        { ga with
          lastSpecieId := ga.lastSpecieId + triangles.length
          speciesWaited := triangles.length })
  else .error .valueError

def chromosomeToCoordinate : List K → Except Failure (Coordinate K)
  | [x, y] => .ok ⟨x, y, 0⟩
  | x :: y :: z :: _ => .ok ⟨x, y, z⟩
  | _ => .error .indexError

/-- Append an individual to the first species whose region has its point. -/
def appendTo (individual : Individual K) (point : Coordinate K) :
    List (Specie K) → Except Failure (List (Specie K))
  | [] => .error .unassigned
  | specie :: rest =>
      if specie.isSameSpecie.pointWithin point then
        .ok ({ specie with individuals := specie.individuals ++ [individual] } :: rest)
      else (appendTo individual point rest).map (specie :: ·)

/-- `_assign_species`. -/
def assignSpecies : List (Individual K) → List (Specie K) → Except Failure (List (Specie K))
  | [], species => .ok species
  | individual :: population, species => do
      let point ← chromosomeToCoordinate individual.chromosomes
      let species ← appendTo individual point species
      assignSpecies population species

/-! ### Individuals -/

def randomAllocation (ga : OlagsaGA K) : Search n T K (List K) := do
  let allocation ← (List.range ga.numKeyIteration).mapM fun _ => random
  normalize allocation

def initializePopulation (ga : OlagsaGA K) : Search n T K (List (Individual K)) :=
  (List.range ga.populationSize).mapM fun _ => Individual.make <$> randomAllocation ga

def evaluate (ga : OlagsaGA K) (C VA : Fin (n + 1) → Fin T → K) (individual : Individual K) :
    Search n T K (Individual K) := do
  let solution ← solveGenetic ga.numKeyIteration C VA individual.chromosomes
  match solution with
  | none => pure { individual with fitness := 100 * ponderationExcedent, status := none }
  | some solution =>
      if solution.status ≠ .optimal then
        pure
          { individual with
            fitness := 100 * ponderationExcedent
            status := some solution.status }
      else
        match solution.E with
        | none => throw .attributeError
        | some E =>
            pure
              { individual with
                fitness := 1 / (∑ i, ∑ t, E i t + 1) * ponderationExcedent
                status := some solution.status }

def mutate (ga : OlagsaGA K) (individual : Individual K) : Search n T K (Individual K) := do
  let r ← random
  if ga.mutationRate ≤ r then pure (Individual.make individual.chromosomes)
  else
    let index ← randIndex individual.chromosomes
    let gene ← random
    Individual.make <$> normalize (individual.chromosomes.set index gene)

/-- `_roulette_wheel`: `size` individuals, drawn in proportion to their fitness. -/
def rouletteWheel (population : List (Individual K)) (size : ℕ) :
    Search n T K (List (Individual K)) := do
  let fitnessValues := population.map Individual.fitness
  let total := fitnessValues.sum
  if total = 0 ∨ ∃ f ∈ fitnessValues, f / total < 0 then throw .valueError
  else
    let indices ← choice (fitnessValues.map (· / total)) size
    indices.mapM fun i => item population i

def crossoverChromosomes (parentA parentB : Individual K) : Search n T K (List K) := do
  let point ← randIndex parentA.chromosomes
  let coin ← randint 1
  if coin = 0 then
    normalize (parentA.chromosomes.take point ++ parentB.chromosomes.drop point)
  else
    normalize (parentB.chromosomes.take point ++ parentA.chromosomes.drop point)

def breedIntra (ga : OlagsaGA K) (specie : Specie K) : Search n T K (Individual K) := do
  let parents ← rouletteWheel specie.individuals 2
  match parents with
  | [parentA, parentB] =>
      let coin ← randint 1
      if (coin : K) < ga.crossoverRate then
        Individual.make <$> crossoverChromosomes parentA parentB
      else
        let side ← randint 1
        pure (Individual.make (if side = 0 then parentA.chromosomes else parentB.chromosomes))
  | _ => throw .valueError

/-- The other species that has individuals and the nearest centroid, with the square of its
distance; the first one of several. -/
def nearestSpecie (specie : Specie K) (species : List (Specie K)) : Option (K × Specie K) :=
  species.foldl
    (fun nearest other =>
      if other.id = specie.id ∨ other.individuals.isEmpty then nearest
      else
        let dist := distance3dSq specie.centroid other.centroid
        match nearest with
        | none => some (dist, other)
        | some (minDistance, _) => if dist < minDistance then some (dist, other) else nearest)
    none

def breedInter (ga : OlagsaGA K) (specie : Specie K) (species : List (Specie K)) :
    Search n T K (Individual K) :=
  match nearestSpecie specie species with
  | none => breedIntra ga specie
  | some (_, nearest) => do
      let parentsA ← rouletteWheel specie.individuals 1
      let parentA ← item parentsA 0
      let parentsB ← rouletteWheel nearest.individuals 1
      let parentB ← item parentsB 0
      Individual.make <$> crossoverChromosomes parentA parentB

/-! ### One generation -/

/-- Fittest first; equally fit individuals keep their order. -/
def sortByFitness (individuals : List (Individual K)) : List (Individual K) :=
  individuals.insertionSort fun a b => b.fitness ≤ a.fitness

def applyAdjustedFitness (specie : Specie K) : Specie K :=
  let size := specie.individuals.length
  { specie with
    individuals := specie.individuals.map fun individual =>
      { individual with adjustedFitness := individual.fitness / (size : K) } }

def cullWeakest (specie : Specie K) : Specie K :=
  if specie.individuals.length = 1 then specie
  else
    let individuals := sortByFitness specie.individuals
    { specie with individuals := individuals.take (individuals.length / 2) }

/-- The stagnation check of one species, and whether it counts as not improving. -/
def checkSpecie (ga : OlagsaGA K) (specie : Specie K) : Specie K × Bool :=
  match sortByFitness specie.individuals with
  | [] => (specie, false)
  | best :: rest =>
      let specie := { specie with individuals := best :: rest }
      let specie :=
        if specie.bestFitness ≤ best.fitness then
          { specie with iterationWithoutImprovement := specie.iterationWithoutImprovement + 1 }
        else { specie with bestFitness := best.fitness, iterationWithoutImprovement := 0 }
      (specie, ga.maxIterationWithoutImprovement ≤ specie.iterationWithoutImprovement)

def checkSpecies (ga : OlagsaGA K) (species : List (Specie K)) : List (Specie K) :=
  species.map fun specie => (checkSpecie ga specie).1

/-- `all(no_improvement)`. -/
def stagnated (ga : OlagsaGA K) (species : List (Specie K)) : Bool :=
  species.all fun specie => (checkSpecie ga specie).2

/-- The species handed to `_cull_weakest`: those with individuals, their fitness adjusted. -/
def inhabited (ga : OlagsaGA K) (species : List (Specie K)) : List (Specie K) :=
  ((checkSpecies ga species).filter fun specie => !specie.individuals.isEmpty).map
    applyAdjustedFitness

def survivors (ga : OlagsaGA K) (species : List (Specie K)) : List (Specie K) :=
  (inhabited ga species).map cullWeakest

def totalAdjusted (species : List (Specie K)) : K :=
  (species.flatMap fun specie => specie.individuals.map Individual.adjustedFitness).sum

variable [FloorSemiring K]

/-- How many children a species gets. -/
def numChildren (ga : OlagsaGA K) (total : K) (specie : Specie K) : ℕ :=
  match specie.individuals with
  | [] => 0
  | best :: _ => ⌊best.adjustedFitness / total * (ga.populationSize : K)⌋₊

def breedChild (ga : OlagsaGA K) (C VA : Fin (n + 1) → Fin T → K) (species : List (Specie K))
    (specie : Specie K) : Search n T K (Individual K) := do
  let child ←
    (if 1 < ga.speciesWaited then do
      let r ← random
      if r < ga.crossoverRateInterSpecies then breedInter ga specie species
      else breedIntra ga specie
    else breedIntra ga specie)
  let child ← (if 0 < ga.mutationRate then mutate ga child else pure child)
  evaluate ga C VA child

/-- `new_children`: every species breeds its number of children, in order. -/
def breedChildren (ga : OlagsaGA K) (C VA : Fin (n + 1) → Fin T → K)
    (species : List (Specie K)) : Search n T K (List (Individual K)) :=
  let total := totalAdjusted species
  (species.flatMap fun specie => List.replicate (numChildren ga total specie) specie).mapM
    (breedChild ga C VA species)

/-- The generation loop, with so many generations to go. -/
def generations (ga : OlagsaGA K) (C VA : Fin (n + 1) → Fin T → K) :
    ℕ → List (Specie K) → Search n T K (List (Specie K))
  | 0, species => pure species
  | k + 1, species =>
      if stagnated ga species then pure (checkSpecies ga species)
      else if totalAdjusted (survivors ga species) = 0 then pure (survivors ga species)
      else do
        let newChildren ← breedChildren ga C VA (survivors ga species)
        let species ← Program.ofExcept (assignSpecies newChildren (survivors ga species))
        generations ga C VA k species

/-! ### The search -/

/-- Remember the best fitness a species starts with. -/
def initializeBest (specie : Specie K) : Specie K :=
  match sortByFitness specie.individuals with
  | [] => specie
  | best :: rest => { specie with individuals := best :: rest, bestFitness := best.fitness }

/-- The first population, in its species. -/
def startSpecies (ga : OlagsaGA K) (C VA : Fin (n + 1) → Fin T → K) :
    Search n T K (List (Specie K) × OlagsaGA K) := do
  let population ← initializePopulation ga
  let population ← population.mapM (evaluate ga C VA)
  let (species, ga) ← Program.ofExcept (initializeSpecies ga)
  let species ← Program.ofExcept (assignSpecies population species)
  pure (species.map initializeBest, ga)

/-- The individual reported for a species. -/
def bestIndividual (specie : Specie K) : Option (Individual K) :=
  (sortByFitness specie.individuals).head?

/-- The full key of the best individual of every species. -/
def collect (ga : OlagsaGA K) (C VA : Fin (n + 1) → Fin T → K) (species : List (Specie K)) :
    Search n T K (List (BestSolution n T K)) :=
  (species.filterMap bestIndividual).mapM fun best => do
    let key ← solveKey ga.numKeyIteration C VA best.chromosomes
    pure ⟨best, best.fitness, key⟩

/-- `OlagsaGA.run`. -/
def OlagsaGA.run (ga : OlagsaGA K) (C VA : Fin (n + 1) → Fin T → K) :
    Search n T K (List (BestSolution n T K)) :=
  if ga.numKeyIteration = 1 then do
    let only ← evaluate ga C VA (Individual.make [1])
    let key ← solveKey 1 C VA only.chromosomes
    pure [⟨only, only.fitness, key⟩]
  else do
    let (species, ga) ← startSpecies ga C VA
    let species ← generations ga C VA ga.numGeneration species
    collect ga C VA species

end Definitions

/-! ### Given draws -/

/-- One answer to a call of the search. -/
inductive Draw (n : ℕ) (K : Type) where
  | random (r : K)
  | randint (r : ℕ)
  | choice (indices : List ℕ)
  | solved (answer : SolverAnswer n K)

/-- The answer a draw gives to a call, when it is one the call may get. -/
def readDraw [Field K] [LinearOrder K] :
    ∀ call : Call n T K, Draw n K → Option (Reply call)
  | .random, .random r => if 0 ≤ r ∧ r < 1 then some r else none
  | .randint high, .randint r => if r ≤ high then some r else none
  | .choice probabilities size, .choice indices =>
      if indices.length = size ∧ ∀ i ∈ indices, 0 < probabilities[i]?.getD 0 then some indices
      else none
  | .solve _ _, .solved answer => some answer
  | _, _ => none

theorem admissible_of_readDraw [Field K] [LinearOrder K] (call : Call n T K) (draw : Draw n K)
    (reply : Reply call) (h : readDraw call draw = some reply) : Admissible call reply := by
  cases call with
  | random =>
    cases draw <;> try cases h
    obtain ⟨hr, heq⟩ := Option.ite_none_right_eq_some.mp h
    cases heq
    exact hr
  | randint high =>
    cases draw <;> try cases h
    obtain ⟨hr, heq⟩ := Option.ite_none_right_eq_some.mp h
    cases heq
    exact hr
  | choice probabilities size =>
    cases draw <;> try cases h
    obtain ⟨⟨hsize, hpositive⟩, heq⟩ := Option.ite_none_right_eq_some.mp h
    cases heq
    refine ⟨hsize, fun i hi => ?_⟩
    have hq := hpositive i hi
    rcases hp : probabilities[i]? with _ | q
    · rw [hp] at hq
      exact absurd hq (lt_irrefl 0)
    · rw [hp] at hq
      exact ⟨q, rfl, hq⟩
  | solve va C => trivial

end AllocationKeys.Olagsa
