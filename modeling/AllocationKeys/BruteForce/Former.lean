import AllocationKeys.BruteForce.Generator
import AllocationKeys.Lib.Heap

/-!
# The former brute force

`tests/algorithms/_brute_force_former.py`: the algorithm as it was when the nodes of its result
tree kept their whole iteration, and the keys were read off the tree once it was complete.

Iterations and consumers are objects on two heaps and a node holds a reference, so that what a
key reports is what its iterations have become at the end (`runFormer`). An array is a value: the
only ones the source writes into are made by the function that does.

As in `BruteForce/Functions.lean`, the loop of `_prorata` over the time steps is written as the
value it leaves in each cell.
-/

namespace AllocationKeys.BruteForce.Former

open Algorithms

variable {n T : ℕ} {K : Type} [Field K] [LinearOrder K]

/-! ### Objects -/

/-- `_Consumer`. -/
structure Consumer (T : ℕ) (K : Type) where
  consumption : Fin T → K
  energyAllocatedPercentage : K
  energyAllocated : Fin T → K
  residualVolume : Fin T → K
  surplus : Fin T → K
  surplusTotal : K

/-- `_Iteration`: it holds references to its consumers. -/
structure Iteration (n T : ℕ) (K : Type) where
  consumers : Fin (n + 1) → ℕ
  energyAllocated : Fin (n + 1) → Fin T → K
  energyAllocatedPercentage : K
  consumptionTotal : K
  surplus : Fin T → K
  surplusTotal : K

/-- The objects of a run. -/
structure Objects (n T : ℕ) (K : Type) where
  consumers : Heap (Consumer T K)
  iterations : Heap (Iteration n T K)

/-- Programs that make and change objects. -/
abbrev Build (n T : ℕ) (K : Type) : Type → Type := StateM (Objects n T K)

/-- `_Consumer(consumption)`: everything else starts at zero. -/
def Consumer.make (consumption : Fin T → K) : Consumer T K where
  consumption := consumption
  energyAllocatedPercentage := 0
  energyAllocated := fun _ => 0
  residualVolume := fun _ => 0
  surplus := fun _ => 0
  surplusTotal := 0

def Consumer.settle (c : Consumer T K) : Consumer T K :=
  let diff : Fin T → K := fun t => c.consumption t - c.energyAllocated t
  { c with
    residualVolume := fun t => max 0 (diff t)
    surplus := fun t => max 0 (-diff t)
    surplusTotal := ∑ t, max 0 (-diff t) }

def Consumer.copy (c : Consumer T K) : Consumer T K :=
  { Consumer.make c.consumption with
    energyAllocatedPercentage := c.energyAllocatedPercentage
    energyAllocated := c.energyAllocated
    residualVolume := c.residualVolume
    surplus := c.surplus
    surplusTotal := c.surplusTotal }

/-- `_Iteration(consumers, energy_allocated)`, on consumers already made. -/
def Iteration.make (consumers : Fin (n + 1) → ℕ) (energyAllocated : Fin (n + 1) → Fin T → K) :
    Iteration n T K where
  consumers := consumers
  energyAllocated := energyAllocated
  energyAllocatedPercentage := 0
  consumptionTotal := 0
  surplus := fun _ => 0
  surplusTotal := 0

/-! ### Reading and changing objects -/

def getIteration (it : ℕ) : Build n T K (Iteration n T K) :=
  fun s => (s.iterations.get it, s)

/-- The consumers of an iteration, as they are now. -/
def getConsumers (it : ℕ) : Build n T K (Fin (n + 1) → Consumer T K) :=
  fun s => (fun i => s.consumers.get ((s.iterations.get it).consumers i), s)

def newIteration (consumers : Fin (n + 1) → Consumer T K)
    (energyAllocated : Fin (n + 1) → Fin T → K) : Build n T K ℕ :=
  fun s =>
    let (refs, consumers) := s.consumers.allocAll consumers
    let (it, iterations) := s.iterations.alloc (Iteration.make refs energyAllocated)
    (it, ⟨consumers, iterations⟩)

def setIteration (it : ℕ) (f : Iteration n T K → Iteration n T K) : Build n T K Unit :=
  fun s => ((), { s with iterations := s.iterations.modify it f })

/-- `for c in it.consumers:` with a body that changes `c` only. -/
def eachConsumer (it : ℕ) (f : Fin (n + 1) → Consumer T K → Consumer T K) : Build n T K Unit :=
  fun s =>
    ((), { s with
      consumers := s.consumers.modifyEach (s.iterations.get it).consumers f
        (List.finRange (n + 1)) })

def settle (it : ℕ) : Build n T K Unit := do
  let consumers ← getConsumers it
  setIteration it fun object =>
    { object with
      surplus := fun t => ∑ i, (consumers i).surplus t
      surplusTotal := ∑ i, (consumers i).surplusTotal }

def copy (it : ℕ) : Build n T K ℕ := do
  let object ← getIteration it
  let consumers ← getConsumers it
  let new ← newIteration (fun i => (consumers i).copy) object.energyAllocated
  setIteration new fun fresh =>
    { fresh with
      energyAllocatedPercentage := object.energyAllocatedPercentage
      consumptionTotal := object.consumptionTotal
      surplus := object.surplus
      surplusTotal := object.surplusTotal }
  pure new

/-! ### The distribution functions -/

/-- `_egalitaire`. -/
def egalitaire (it : ℕ) : Build n T K ℕ := do
  let share : K := 1 / ((n + 1 : ℕ) : K)
  let object ← getIteration it
  let profile := object.energyAllocated 0
  eachConsumer it fun _ c =>
    Consumer.settle
      { c with energyAllocatedPercentage := share, energyAllocated := fun t => profile t * share }
  settle it
  pure it

/-- `_prorata_total`. -/
def prorataTotal (it : ℕ) : Build n T K ℕ := do
  let consumers ← getConsumers it
  let consumptionTotal := ∑ i, ∑ t, (consumers i).consumption t
  setIteration it fun object => { object with consumptionTotal := consumptionTotal }
  let object ← getIteration it
  let profile := object.energyAllocated 0
  if consumptionTotal = 0 then
    eachConsumer it fun i c =>
      if i = 0 then
        Consumer.settle
          { c with energyAllocatedPercentage := 1, energyAllocated := fun t => profile t * 1 }
      else
        Consumer.settle { c with energyAllocatedPercentage := 0, energyAllocated := fun _ => 0 }
  else
    eachConsumer it fun _ c =>
      let share := (∑ t, c.consumption t) / consumptionTotal
      Consumer.settle
        { c with
          energyAllocatedPercentage := share
          energyAllocated := fun t => profile t * share }
  settle it
  pure it

/-- What the loop of `_prorata` leaves in `c.energy_allocated[t]` of consumer `i`. -/
def prorataAllocated (consumers : Fin (n + 1) → Consumer T K) (profile : Fin T → K)
    (i : Fin (n + 1)) (t : Fin T) : K :=
  let sumConsumptionTime := ∑ j, (consumers j).consumption t
  if 0 < sumConsumptionTime then
    if 0 < (consumers i).consumption t then
      profile t * ((consumers i).consumption t / sumConsumptionTime)
    else 0
  else if i = 0 then profile t
  else 0

/-- `_prorata`. -/
def prorata (it : ℕ) : Build n T K ℕ := do
  let consumers ← getConsumers it
  let object ← getIteration it
  let profile := object.energyAllocated 0
  eachConsumer it fun i c =>
    { c with
      energyAllocatedPercentage := -1
      energyAllocated := prorataAllocated consumers profile i }
  eachConsumer it fun _ c => c.settle
  settle it
  pure it

/-- `_ALGOS`. -/
def algos : AlgoName → ℕ → Build n T K ℕ
  | .egalitaire => egalitaire
  | .prorataTotal => prorataTotal
  | .prorata => prorata

/-! ### The enumeration -/

/-- `_reformat_excedents`. -/
def reformatExcedents (surplus : Fin T → K) : Fin (n + 1) → Fin T → K := fun _ t => surplus t

/-- A node of an iteration that has just been distributed. -/
def makeNode (algo : AlgoName) (it : ℕ) : Build n T K (Node ℕ) := do
  let it ← algos algo it
  pure (Node.make algo.toString it)

def applyFirst (root : ℕ) (pct : K) (algo : AlgoName) : Build n T K (Node ℕ) := do
  let it ← copy root
  let rootObject ← getIteration root
  setIteration it fun object =>
    { object with
      energyAllocatedPercentage := pct
      energyAllocated := fun i t => rootObject.energyAllocated i t * pct }
  makeNode algo it

def buildNext (root previous : ℕ) (pct : K) : Build n T K ℕ := do
  let nxt ← copy previous
  let rootObject ← getIteration root
  let previousObject ← getIteration previous
  setIteration nxt fun object =>
    { object with
      energyAllocatedPercentage := pct
      energyAllocated := fun i t =>
        rootObject.energyAllocated i t * pct
          + reformatExcedents (n := n) previousObject.surplus i t }
  eachConsumer nxt fun _ c => { c with consumption := c.residualVolume }
  pure nxt

/-- The nodes a loop over `_ALGO_NAMES` appends to `node.children`. -/
def withChildren (node : Node ℕ) (child : AlgoName → Build n T K (Node ℕ)) :
    Build n T K (Node ℕ) := do
  let children ← algoNames.mapM child
  pure (children.foldl Node.addChild node)

def oneIteration (root : ℕ) : Build n T K (List (Node ℕ)) :=
  algoNames.mapM fun algo => do
    let it ← copy root
    setIteration it fun object => { object with energyAllocatedPercentage := 1 }
    makeNode algo it

def twoIterations (root : ℕ) : Build n T K (List (Node ℕ)) :=
  collect (List.range 11) fun i => do
    let pct1 : K := (i : K) / 10
    let pct2 : K := 1 - (i : K) / 10
    algoNames.mapM fun algo1 => do
      let node1 ← applyFirst root pct1 algo1
      let base2 ← buildNext root node1.summary pct2
      withChildren node1 fun algo2 => do
        let it ← copy base2
        makeNode algo2 it

def threeIterations (root : ℕ) : Build n T K (List (Node ℕ)) :=
  collect (List.range 11) fun i =>
    collect (List.range (10 - i + 1)) fun j => do
      let pct1 : K := (i : K) / 10
      let pct2 : K := (j : K) / 10
      let pct3Raw : K := 1 - pct1 - pct2
      let pct3 := if 0 < pct3Raw then pct3Raw else 0
      algoNames.mapM fun algo1 => do
        let node1 ← applyFirst root pct1 algo1
        let base2 ← buildNext root node1.summary pct2
        withChildren node1 fun algo2 => do
          let it ← copy base2
          let node2 ← makeNode algo2 it
          let base3 ← buildNext root node2.summary pct3
          withChildren node2 fun algo3 => do
            let it ← copy base3
            makeNode algo3 it

/-- `_generate`. -/
def generate (consumption production : Fin (n + 1) → Fin T → K) (iterations : ℕ) :
    Build n T K (List (Node ℕ)) := do
  let root ← newIteration (fun i => Consumer.make (consumption i)) production
  if iterations = 1 then oneIteration root
  else if iterations = 2 then twoIterations root
  else threeIterations root

/-! ### Reading the keys off the trees -/

/-- `_iteration_result`, of an iteration and its consumers. -/
def iterationResult (it : Iteration n T K) (consumers : Fin (n + 1) → Consumer T K) (number : ℕ)
    (names : List String) : IterationResult K :=
  let profile := it.energyAllocated 0
  let totalProfile := ∑ t, profile t
  { number := number
    energyAllocatedPercentage := it.energyAllocatedPercentage
    surplusTotal := it.surplusTotal
    consumers := List.ofFn fun j =>
      let c := consumers j
      let pct :=
        if 0 ≤ c.energyAllocatedPercentage then c.energyAllocatedPercentage
        else if 0 < totalProfile then (∑ t, c.energyAllocated t) / totalProfile
        else 0
      { name := if j < names.length ∧ names.getD j "" ≠ "" then names.getD j ""
          else s!"Consumer {(j : ℕ)}"
        energyAllocatedPercentage := pct } }

/-- `_iteration_result(node.iteration, …)`, on the objects as they are now. -/
def Objects.iterationResult (s : Objects n T K) (it number : ℕ) (names : List String) :
    IterationResult K :=
  Former.iterationResult (s.iterations.get it)
    (fun i => s.consumers.get ((s.iterations.get it).consumers i)) number names

/-- `_build_key`. -/
def buildKey (rounded : K → String) (iterations : List (IterationResult K))
    (algoNames : List String) : AllocationKeyResult K :=
  let pctStrs := ",".intercalate (iterations.map fun it => rounded it.energyAllocatedPercentage)
  let finalSurplus := rounded ((iterations.getLast?.map IterationResult.surplusTotal).getD 0)
  let joined := " - ".intercalate algoNames
  { name :=
      if iterations.length = 1 then s!"{joined} / Pourcentage = ({pctStrs})"
      else s!"{joined} / Pourcentages = ({pctStrs}) / Surplus : {finalSurplus}"
    description := description
    iterations := iterations }

mutual
/-- The inner function of `run_former`: one key per leaf, read from the objects `s`. -/
def walk (rounded : K → String) (names : List String) (s : Objects n T K)
    (pathIters : List (IterationResult K)) (pathNames : List String) :
    Node ℕ → List (AllocationKeyResult K)
  | .node name it [] =>
      [buildKey rounded (pathIters ++ [s.iterationResult it (pathIters.length + 1) names])
        (pathNames ++ [name])]
  | .node name it (child :: children) =>
      walkChildren rounded names s
        (pathIters ++ [s.iterationResult it (pathIters.length + 1) names])
        (pathNames ++ [name]) (child :: children)

def walkChildren (rounded : K → String) (names : List String) (s : Objects n T K)
    (pathIters : List (IterationResult K)) (pathNames : List String) :
    List (Node ℕ) → List (AllocationKeyResult K)
  | [] => []
  | child :: children =>
      walk rounded names s pathIters pathNames child ++
        walkChildren rounded names s pathIters pathNames children
end

/-- Nothing has been made yet. -/
def Objects.empty : Objects n T K where
  consumers := ⟨fun _ => Consumer.make fun _ => 0, 0⟩
  iterations := ⟨fun _ => Iteration.make (fun _ => 0) fun _ _ => 0, 0⟩

/-- `run_former`: the trees are complete before the first key is read. -/
def runFormer (rounded : K → String) (consumption production : Fin (n + 1) → Fin T → K)
    (names : List String) (iterations : ℕ) : AlgorithmResult K :=
  let (roots, s) := generate consumption production iterations Objects.empty
  let keys := roots.flatMap fun root => walk rounded names s [] [] root
  { keys := keys.insertionSort fun a b => finalSurplusTotal a ≤ finalSurplusTotal b }

end AllocationKeys.BruteForce.Former
