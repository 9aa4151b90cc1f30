import AllocationKeys.Algorithms.Base
import AllocationKeys.Olagsa.Genetic

/-!
# The OLAGSA algorithm

`olagsa/inputs.py` and `olagsa/algorithm.py`: the validated parameters, and the keys made of
the best solutions of a search: sorted by final surplus, those without any iteration left out.

The text of a rounded figure (`f"{round(x, 2)}"`) is the parameter `rounded`.
-/

namespace AllocationKeys.Olagsa

open Algorithms

variable {n T : ℕ} {K : Type}

section Inputs

variable [Field K] [LinearOrder K]

/-- `OlagsaInput`, with the bounds its schema checks. -/
structure OlagsaInput (K : Type) [Field K] [LinearOrder K] where
  iterations : ℕ
  generations : ℕ := 25
  populationSize : ℕ := 50
  crossoverRate : K := 1 / 10
  interSpeciesCrossoverRate : K := 1 / 10
  mutationRate : K := 1 / 10
  expectedSpeciesCount : ℕ := 1
  maxGenerationsWithoutImprovement : ℕ := 10
  iterations_mem : 1 ≤ iterations ∧ iterations ≤ 3
  generations_ge : 1 ≤ generations := by decide
  populationSize_ge : 2 ≤ populationSize := by decide
  crossoverRate_mem : 0 ≤ crossoverRate ∧ crossoverRate ≤ 1
  interSpeciesCrossoverRate_mem : 0 ≤ interSpeciesCrossoverRate ∧ interSpeciesCrossoverRate ≤ 1
  mutationRate_mem : 0 ≤ mutationRate ∧ mutationRate ≤ 1
  expectedSpeciesCount_ge : 1 ≤ expectedSpeciesCount := by decide
  maxGenerationsWithoutImprovement_ge : 1 ≤ maxGenerationsWithoutImprovement := by decide

theorem tenth_mem [IsStrictOrderedRing K] : 0 ≤ (1 / 10 : K) ∧ (1 / 10 : K) ≤ 1 := by
  constructor <;> norm_num

/-- The defaults of the schema pass its own checks. -/
def OlagsaInput.default [IsStrictOrderedRing K] (iterations : ℕ)
    (h : 1 ≤ iterations ∧ iterations ≤ 3) : OlagsaInput K where
  iterations := iterations
  iterations_mem := h
  expectedSpeciesCount_ge := Nat.one_pos
  crossoverRate_mem := tenth_mem
  interSpeciesCrossoverRate_mem := tenth_mem
  mutationRate_mem := tenth_mem

/-- The defaults for keys of two iterations. -/
def twoByDefault : OlagsaInput ℚ :=
  OlagsaInput.default 2 ⟨Nat.le_succ 1, Nat.le_succ 2⟩

/-- The search for validated parameters. -/
def OlagsaInput.ga (inputs : OlagsaInput K) : OlagsaGA K where
  numKeyIteration := inputs.iterations
  numGeneration := inputs.generations
  populationSize := inputs.populationSize
  crossoverRate := inputs.crossoverRate
  crossoverRateInterSpecies := inputs.interSpeciesCrossoverRate
  mutationRate := inputs.mutationRate
  speciesWaited := inputs.expectedSpeciesCount
  maxIterationWithoutImprovement := inputs.maxGenerationsWithoutImprovement
  lastSpecieId := 0

end Inputs

/-! ### The keys of the best solutions -/

/-- The surplus of a solution's last iteration, the key its solutions are sorted by. -/
def finalSurplus [Zero K] (best : BestSolution n T K) : K :=
  (best.key.iterations.getLast?.map Iteration.surplusTotal).getD 0

def toIterationResult (consumerNames : List String) (idx : ℕ) (iteration : Iteration n T K) :
    IterationResult K where
  number := idx + 1
  energyAllocatedPercentage := iteration.energyAllocatedPercentage
  surplusTotal := iteration.surplusTotal
  consumers := List.ofFn fun j =>
    { name := consumerName consumerNames j
      energyAllocatedPercentage := (iteration.consumers j).energyAllocatedPercentage }

/-- `_to_allocation_key_result`. -/
def toAllocationKeyResult [Zero K] (rounded : K → String) (consumerNames : List String)
    (best : BestSolution n T K) : AllocationKeyResult K :=
  let iterations := best.key.iterations.mapIdx (toIterationResult consumerNames)
  let percentages := ",".intercalate
    (iterations.map fun it => rounded it.energyAllocatedPercentage)
  let finalSurplus := rounded ((iterations.getLast?.map IterationResult.surplusTotal).getD 0)
  { name := s!"Fitness = {rounded best.fitness} / Pourcentage = ({percentages})"
      ++ s!" - Surplus à la fin : {finalSurplus}"
    description := "Clé obtenue grâce à l'algorithme OLAGSA"
    iterations := iterations }

variable [Field K] [LinearOrder K]

/-- The solutions that become keys: sorted by final surplus, those with some iteration. -/
def reported (bestSolutions : List (BestSolution n T K)) : List (BestSolution n T K) :=
  (bestSolutions.insertionSort fun a b => finalSurplus a ≤ finalSurplus b).filter
    fun best => !best.key.iterations.isEmpty

def algorithmResult (rounded : K → String) (consumerNames : List String)
    (bestSolutions : List (BestSolution n T K)) : AlgorithmResult K where
  keys := (reported bestSolutions).map (toAllocationKeyResult rounded consumerNames)

/-- `OlagsaAlgorithm.run`. -/
def run [FloorSemiring K] (rounded : K → String) (inputs : OlagsaInput K)
    (rawData : AlgorithmRawData n T K) : Search n T K (AlgorithmResult K) := do
  let bestSolutions ← inputs.ga.run rawData.C rawData.VA
  pure (algorithmResult rounded rawData.consumerNames bestSolutions)

end AllocationKeys.Olagsa
