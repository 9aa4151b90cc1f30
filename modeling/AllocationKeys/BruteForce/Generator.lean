import AllocationKeys.BruteForce.Functions
import Mathlib.Data.List.Sort

/-!
# The enumeration and the algorithm

`brute_force/_impl/generator.py` and `brute_force/algorithm.py`: every sequence of one, two or
three distribution functions with the production split in steps of 10 %, one result tree per
first iteration, flattened to one key per leaf and sorted by final surplus.

The text of a rounded figure (`f"{round(x, 2)}"`) is the parameter `rounded`.
-/

namespace AllocationKeys.BruteForce

open Algorithms

variable {n T : ℕ} {K α : Type*}

/-- `BruteForceInput`: the schema admits one to three iterations. -/
structure BruteForceInput where
  iterations : ℕ
  one_le : 1 ≤ iterations
  le_three : iterations ≤ 3

section Arithmetic

variable [AddCommMonoid K] [One K] [Neg K] [Sub K] [Mul K] [Div K] [NatCast K] [Max K] [Min K]
  [LE K] [LT K] [DecidableEq K] [DecidableLE K] [DecidableLT K]

/-- A per-time-step surplus as a matrix, every row a copy of it. -/
def reformatExcedents (surplus : Fin T → K) : Fin (n + 1) → Fin T → K := fun _ t => surplus t

def makeRootIteration (C VA : Fin (n + 1) → Fin T → K) : Iteration n T K :=
  Iteration.make (fun i => Consumer.make (C i) 0) VA

/-- `BruteForceGenerator`: the constructor refuses any other number of iterations. -/
structure BruteForceGenerator where
  nbIterations : ℕ
  valid : nbIterations = 1 ∨ nbIterations = 2 ∨ nbIterations = 3

/-- The generator for validated inputs. -/
def BruteForceInput.generator (inputs : BruteForceInput) : BruteForceGenerator :=
  ⟨inputs.iterations, by have h1 := inputs.one_le; have h3 := inputs.le_three; omega⟩

/-! ### Helpers -/

/-- Apply the first iteration's distribution function to a copy of the root, with the
production scaled by its share. -/
def applyFirst (view : Iteration n T K → α) (root : Iteration n T K) (pct : K) (algo : AlgoName) :
    Node α × Iteration n T K :=
  let it :=
    { root.copy with
      energyAllocatedPercentage := pct
      energyAllocated := fun i t => root.energyAllocated i t * pct }
  algos view algo it

/-- The next iteration: its share of the production and the previous surplus, for what the
previous iteration left unserved. -/
def buildNextIteration (root previousPost : Iteration n T K) (pct : K) : Iteration n T K :=
  let nextIter := previousPost.copy
  { nextIter with
    energyAllocatedPercentage := pct
    energyAllocated := fun i t =>
      root.energyAllocated i t * pct + reformatExcedents (n := n) previousPost.surplus i t
    consumers := fun i =>
      { nextIter.consumers i with consumption := (nextIter.consumers i).residualVolume } }

/-! ### One, two and three iterations -/

def oneIteration (view : Iteration n T K → α) (root : Iteration n T K) : List (Node α) :=
  algoNames.map fun algo =>
    let it := { root.copy with energyAllocatedPercentage := 1 }
    (algos view algo it).1

def twoIterations (view : Iteration n T K → α) (root : Iteration n T K) : List (Node α) :=
  (List.range 11).flatMap fun (i : ℕ) =>
    let pct1 : K := (i : K) / 10
    let pct2 : K := 1 - (i : K) / 10
    algoNames.map fun algo1 =>
      let (node1, iter1Post) := applyFirst view root pct1 algo1
      let baseIter2 := buildNextIteration root iter1Post pct2
      algoNames.foldl
        (fun node1 algo2 => node1.addChild (algos view algo2 baseIter2.copy).1) node1

def threeIterations (view : Iteration n T K → α) (root : Iteration n T K) : List (Node α) :=
  (List.range 11).flatMap fun (i : ℕ) =>
    (List.range (10 - i + 1)).flatMap fun (j : ℕ) =>
      let pct1 : K := (i : K) / 10
      let pct2 : K := (j : K) / 10
      let pct3Raw : K := 1 - pct1 - pct2
      let pct3 := if 0 < pct3Raw then pct3Raw else 0
      algoNames.map fun algo1 =>
        let (node1, iter1Post) := applyFirst view root pct1 algo1
        let baseIter2 := buildNextIteration root iter1Post pct2
        algoNames.foldl
          (fun node1 algo2 =>
            let (node2, iter2Post) := algos view algo2 baseIter2.copy
            let baseIter3 := buildNextIteration root iter2Post pct3
            node1.addChild
              (algoNames.foldl
                (fun node2 algo3 => node2.addChild (algos view algo3 baseIter3.copy).1) node2))
          node1

/-- The enumeration, with nodes that keep `view` of their iteration. -/
def BruteForceGenerator.generateWith (view : Iteration n T K → α) (generator : BruteForceGenerator)
    (C VA : Fin (n + 1) → Fin T → K) : List (Node α) :=
  let root := makeRootIteration C VA
  if generator.nbIterations = 1 then oneIteration view root
  else if generator.nbIterations = 2 then twoIterations view root
  else threeIterations view root

/-- `BruteForceGenerator.generate`: the nodes hold summaries only. -/
def BruteForceGenerator.generate (generator : BruteForceGenerator)
    (C VA : Fin (n + 1) → Fin T → K) : List (Node (IterationSummary n K)) :=
  generator.generateWith Iteration.summary C VA

/-! ### From trees to keys -/

def description : String := "Clé obtenue grâce à l'algorithme de brute force"

def consumerResults (summary : IterationSummary n K) (consumerNames : List String) :
    List (ConsumerResult K) :=
  List.ofFn fun j =>
    { name := consumerName consumerNames j
      energyAllocatedPercentage := summary.consumerPercentages j }

def iterationResult (summary : IterationSummary n K) (number : ℕ) (consumerNames : List String) :
    IterationResult K where
  number := number
  energyAllocatedPercentage := summary.energyAllocatedPercentage
  surplusTotal := summary.surplusTotal
  consumers := consumerResults summary consumerNames

def buildKey (rounded : K → String) (iterations : List (IterationResult K))
    (names : List String) : AllocationKeyResult K :=
  let pctStrs := ",".intercalate (iterations.map fun it => rounded it.energyAllocatedPercentage)
  let finalSurplus := rounded ((iterations.getLast?.map IterationResult.surplusTotal).getD 0)
  let joined := " - ".intercalate names
  { name :=
      if iterations.length = 1 then s!"{joined} / Pourcentage = ({pctStrs})"
      else s!"{joined} / Pourcentages = ({pctStrs}) / Surplus : {finalSurplus}"
    description := description
    iterations := iterations }

mutual
/-- The inner function of `_flatten_node`: one key per leaf below `node`, given the iterations
and names on the way to it. -/
def walk (rounded : K → String) (consumerNames : List String)
    (pathIters : List (IterationResult K)) (pathNames : List String) :
    Node (IterationSummary n K) → List (AllocationKeyResult K)
  | .node name summary [] =>
      [buildKey rounded
        (pathIters ++ [iterationResult summary (pathIters.length + 1) consumerNames])
        (pathNames ++ [name])]
  | .node name summary (child :: children) =>
      walkChildren rounded consumerNames
        (pathIters ++ [iterationResult summary (pathIters.length + 1) consumerNames])
        (pathNames ++ [name]) (child :: children)

def walkChildren (rounded : K → String) (consumerNames : List String)
    (pathIters : List (IterationResult K)) (pathNames : List String) :
    List (Node (IterationSummary n K)) → List (AllocationKeyResult K)
  | [] => []
  | child :: children =>
      walk rounded consumerNames pathIters pathNames child ++
        walkChildren rounded consumerNames pathIters pathNames children
end

def flattenNode (rounded : K → String) (root : Node (IterationSummary n K))
    (consumerNames : List String) : List (AllocationKeyResult K) :=
  walk rounded consumerNames [] [] root

/-- The sort key: the surplus of the last iteration. -/
def finalSurplusTotal (key : AllocationKeyResult K) : K :=
  (key.iterations.getLast?.map IterationResult.surplusTotal).getD 0

end Arithmetic

/-- `BruteForceAlgorithm.run`. -/
def run [Field K] [LinearOrder K] (rounded : K → String) (inputs : BruteForceInput)
    (rawData : AlgorithmRawData n T K) : AlgorithmResult K :=
  let rootNodes := inputs.generator.generate rawData.C rawData.VA
  let keys := rootNodes.flatMap fun root => flattenNode rounded root rawData.consumerNames
  { keys := keys.insertionSort fun a b => finalSurplusTotal a ≤ finalSurplusTotal b }

end AllocationKeys.BruteForce
