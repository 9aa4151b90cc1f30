import AllocationKeys.Algorithms.Base
import Mathlib.Algebra.BigOperators.Fin
import Mathlib.Algebra.Order.Field.Basic

/-!
# One brute-force iteration

`brute_force/_impl/consumer.py`, `iteration.py` and `node.py`. A time series is a function on
`Fin T`, the list of consumers a function on `Fin (n + 1)`. The methods of the source change
their object in place; here each returns the changed object, and `copy` writes out every field
the source copies, so that `Consumer.copy_eq` and `Iteration.copy_eq` say nothing is left
behind.

The figures are those of a field, or of a field with blanks (`BruteForce/Blanks`): each function
asks for the operations it uses.

A `Node` holds what the caller keeps of its iteration: the enumeration proper keeps the
`IterationSummary`, the proofs about it also look at the whole iteration.
-/

namespace AllocationKeys.BruteForce

variable {n T : ℕ} {K α : Type*}

/-! ### Consumers -/

/-- Per-iteration state of one consumer. A share of `-1` marks a time-varying allocation. -/
structure Consumer (T : ℕ) (K : Type*) where
  consumption : Fin T → K
  energyAllocatedPercentage : K
  energyAllocatedPercentageTime : Fin T → K
  energyAllocated : Fin T → K
  energyAllocatedConsumed : Fin T → K
  energyAllocatedConsumedTotal : K
  residualVolume : Fin T → K
  residualVolumeTotal : K
  surplus : Fin T → K
  surplusTotal : K

namespace Consumer

/-- `Consumer(consumption, energy_allocated_percentage)`: everything else starts at zero. -/
def make [Zero K] (consumption : Fin T → K) (energyAllocatedPercentage : K) : Consumer T K where
  consumption := consumption
  energyAllocatedPercentage := energyAllocatedPercentage
  energyAllocatedPercentageTime := fun _ => 0
  energyAllocated := fun _ => 0
  energyAllocatedConsumed := fun _ => 0
  energyAllocatedConsumedTotal := 0
  residualVolume := fun _ => 0
  residualVolumeTotal := 0
  surplus := fun _ => 0
  surplusTotal := 0

def copy [Zero K] (c : Consumer T K) : Consumer T K :=
  { make c.consumption c.energyAllocatedPercentage with
    energyAllocatedPercentageTime := c.energyAllocatedPercentageTime
    energyAllocated := c.energyAllocated
    energyAllocatedConsumed := c.energyAllocatedConsumed
    energyAllocatedConsumedTotal := c.energyAllocatedConsumedTotal
    residualVolume := c.residualVolume
    residualVolumeTotal := c.residualVolumeTotal
    surplus := c.surplus
    surplusTotal := c.surplusTotal }

@[simp] theorem copy_eq [Zero K] (c : Consumer T K) : c.copy = c := rfl

variable [AddCommMonoid K]

def computeResidualVolumeAndSurplus [Neg K] [Sub K] [Max K] (c : Consumer T K) : Consumer T K :=
  let diff : Fin T → K := fun t => c.consumption t - c.energyAllocated t
  { c with
    residualVolume := fun t => max 0 (diff t)
    surplus := fun t => max 0 (-diff t)
    residualVolumeTotal := ∑ t, max 0 (diff t)
    surplusTotal := ∑ t, max 0 (-diff t) }

def computeEnergyAllocatedConsumed [Min K] (c : Consumer T K) : Consumer T K :=
  { c with
    energyAllocatedConsumed := fun t => min (c.consumption t) (c.energyAllocated t)
    energyAllocatedConsumedTotal := ∑ t, min (c.consumption t) (c.energyAllocated t) }

end Consumer

/-! ### Iterations -/

/-- The figures a key reports for one iteration, without its time series. -/
structure IterationSummary (n : ℕ) (K : Type*) where
  energyAllocatedPercentage : K
  surplusTotal : K
  consumerPercentages : Fin (n + 1) → K

/-- The consumers of one iteration and the production matrix it may use. Only row `0` of the
matrix is read. -/
structure Iteration (n T : ℕ) (K : Type*) where
  consumers : Fin (n + 1) → Consumer T K
  energyAllocated : Fin (n + 1) → Fin T → K
  energyAllocatedPercentage : K
  consumptionTotal : K
  surplus : Fin T → K
  surplusTotal : K

namespace Iteration

def make [Zero K] (consumers : Fin (n + 1) → Consumer T K)
    (energyAllocated : Fin (n + 1) → Fin T → K) : Iteration n T K where
  consumers := consumers
  energyAllocated := energyAllocated
  energyAllocatedPercentage := 0
  consumptionTotal := 0
  surplus := fun _ => 0
  surplusTotal := 0

def copy [Zero K] (it : Iteration n T K) : Iteration n T K :=
  { make (fun i => (it.consumers i).copy) it.energyAllocated with
    energyAllocatedPercentage := it.energyAllocatedPercentage
    consumptionTotal := it.consumptionTotal
    surplus := it.surplus
    surplusTotal := it.surplusTotal }

@[simp] theorem copy_eq [Zero K] (it : Iteration n T K) : it.copy = it := rfl

section Totals

variable [AddCommMonoid K]

def computeConsumptionTotal (it : Iteration n T K) : Iteration n T K :=
  { it with consumptionTotal := ∑ i, ∑ t, (it.consumers i).consumption t }

def computeSurplus (it : Iteration n T K) : Iteration n T K :=
  { it with surplus := fun t => ∑ i, (it.consumers i).surplus t }

def computeSurplusTotal (it : Iteration n T K) : Iteration n T K :=
  { it with surplusTotal := ∑ i, (it.consumers i).surplusTotal }

end Totals

/-- Collapse the iteration to the figures its key reports. The share of a time-varying
consumer is its part of the iteration's whole energy. -/
def summary [AddCommMonoid K] [Div K] [LE K] [LT K] [DecidableLE K] [DecidableLT K]
    (it : Iteration n T K) : IterationSummary n K :=
  let totalProfile := ∑ t, it.energyAllocated 0 t
  { energyAllocatedPercentage := it.energyAllocatedPercentage
    surplusTotal := it.surplusTotal
    consumerPercentages := fun i =>
      let c := it.consumers i
      if 0 ≤ c.energyAllocatedPercentage then c.energyAllocatedPercentage
      else if 0 < totalProfile then (∑ t, c.energyAllocated t) / totalProfile
      else 0 }

end Iteration

/-! ### Result trees -/

/-- A tree node: the name of the distribution function, what is kept of its iteration, and the
next iteration's nodes. -/
inductive Node (α : Type*) where
  | node (name : String) (summary : α) (children : List (Node α))

namespace Node

def make (name : String) (summary : α) : Node α := .node name summary []

def name : Node α → String
  | .node name _ _ => name

def summary : Node α → α
  | .node _ summary _ => summary

def children : Node α → List (Node α)
  | .node _ _ children => children

def addChild : Node α → Node α → Node α
  | .node name summary children, child => .node name summary (children ++ [child])

mutual
/-- The ways from a node down to its leaves, as lists of names and kept values. -/
def paths : Node α → List (List (String × α))
  | .node name summary [] => [[(name, summary)]]
  | .node name summary (child :: children) =>
      (pathsList (child :: children)).map ((name, summary) :: ·)

def pathsList : List (Node α) → List (List (String × α))
  | [] => []
  | first :: rest => paths first ++ pathsList rest
end

end Node

end AllocationKeys.BruteForce
