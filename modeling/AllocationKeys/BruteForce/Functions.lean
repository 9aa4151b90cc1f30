import AllocationKeys.BruteForce.Iteration

/-!
# The three distribution functions

`brute_force/_impl/functions.py`. Each function takes an iteration with its energy set, fills
in every consumer, totals the surplus and returns the node together with the iteration. What
the node keeps is the parameter `view`; the source keeps `Iteration.summary`.

The loop of `prorata` over the time steps and the consumers is written as the value it leaves
in each cell; both arrays are zero before the loop.
-/

namespace AllocationKeys.BruteForce

variable {n T : ℕ} {K α : Type*}

/-- The keys of `ALGOS`. -/
inductive AlgoName where
  | egalitaire
  | prorataTotal
  | prorata
  deriving DecidableEq, Repr

def AlgoName.toString : AlgoName → String
  | .egalitaire => "egalitaire"
  | .prorataTotal => "prorata_total"
  | .prorata => "prorata"

/-- `ALGO_NAMES`, in the order of the enumeration. -/
def algoNames : List AlgoName := [.egalitaire, .prorataTotal, .prorata]

section Arithmetic

variable [AddCommMonoid K] [One K] [Neg K] [Sub K] [Mul K] [Div K] [NatCast K] [Max K] [Min K]
  [LT K] [DecidableEq K] [DecidableLT K]

def energyProfile (iteration : Iteration n T K) : Fin T → K := iteration.energyAllocated 0

/-- The two methods every function calls on a consumer once its allocation is set. -/
def settle (c : Consumer T K) : Consumer T K :=
  c.computeEnergyAllocatedConsumed.computeResidualVolumeAndSurplus

/-- The same share of the profile for everybody. -/
def egalitaire (view : Iteration n T K → α) (iteration : Iteration n T K) :
    Node α × Iteration n T K :=
  let share : K := 1 / ((n + 1 : ℕ) : K)
  let profile := energyProfile iteration
  let iteration :=
    { iteration with
      consumers := fun i =>
        settle
          { iteration.consumers i with
            energyAllocatedPercentage := share
            energyAllocated := fun t => profile t * share } }
  let iteration := iteration.computeSurplus.computeSurplusTotal
  (Node.make AlgoName.egalitaire.toString (view iteration), iteration)

/-- A share proportional to the consumer's whole consumption. With no consumption at all the
first consumer gets everything. -/
def prorataTotal (view : Iteration n T K → α) (iteration : Iteration n T K) :
    Node α × Iteration n T K :=
  let iteration := iteration.computeConsumptionTotal
  let profile := energyProfile iteration
  let iteration :=
    { iteration with
      consumers :=
        if iteration.consumptionTotal = 0 then fun i =>
          if i = 0 then
            settle
              { iteration.consumers i with
                energyAllocatedPercentage := 1
                energyAllocated := fun t => profile t * 1 }
          else
            settle
              { iteration.consumers i with
                energyAllocatedPercentage := 0
                energyAllocated := fun _ => 0 }
        else fun i =>
          let share := (∑ t, (iteration.consumers i).consumption t) / iteration.consumptionTotal
          settle
            { iteration.consumers i with
              energyAllocatedPercentage := share
              energyAllocated := fun t => profile t * share } }
  let iteration := iteration.computeSurplus.computeSurplusTotal
  (Node.make AlgoName.prorataTotal.toString (view iteration), iteration)

/-- The share `prorata` gives consumer `i` at `t`: proportional to its consumption there, or
everything to the first consumer when the consumptions do not sum to something positive. -/
def prorataShare (consumers : Fin (n + 1) → Consumer T K) (i : Fin (n + 1)) (t : Fin T) : K :=
  let sumConsumptionTime := ∑ j, (consumers j).consumption t
  if 0 < sumConsumptionTime then
    if 0 < (consumers i).consumption t then (consumers i).consumption t / sumConsumptionTime
    else 0
  else if i = 0 then 1
  else 0

/-- What `prorata` allocates to consumer `i` at `t`, along the same branches. -/
def prorataAllocated (consumers : Fin (n + 1) → Consumer T K) (profile : Fin T → K)
    (i : Fin (n + 1)) (t : Fin T) : K :=
  let sumConsumptionTime := ∑ j, (consumers j).consumption t
  if 0 < sumConsumptionTime then
    if 0 < (consumers i).consumption t then profile t * prorataShare consumers i t
    else 0
  else if i = 0 then profile t
  else 0

/-- Time step by time step, a share proportional to the consumption of that step. -/
def prorata (view : Iteration n T K → α) (iteration : Iteration n T K) :
    Node α × Iteration n T K :=
  let consumers := iteration.consumers
  let profile := energyProfile iteration
  let iteration :=
    { iteration with
      consumers := fun i =>
        settle
          { consumers i with
            energyAllocatedPercentage := -1
            energyAllocatedPercentageTime := prorataShare consumers i
            energyAllocated := prorataAllocated consumers profile i } }
  let iteration := iteration.computeSurplus.computeSurplusTotal
  (Node.make AlgoName.prorata.toString (view iteration), iteration)

/-- `ALGOS`. -/
def algos (view : Iteration n T K → α) : AlgoName → Iteration n T K → Node α × Iteration n T K
  | .egalitaire => egalitaire view
  | .prorataTotal => prorataTotal view
  | .prorata => prorata view

/-- The iteration a distribution function returns; the node does not influence it. -/
def post (algo : AlgoName) (iteration : Iteration n T K) : Iteration n T K :=
  (algos id algo iteration).2

theorem algos_eq (view : Iteration n T K → α) (algo : AlgoName) (iteration : Iteration n T K) :
    algos view algo iteration =
      (Node.make algo.toString (view (post algo iteration)), post algo iteration) := by
  cases algo <;> rfl

end Arithmetic

end AllocationKeys.BruteForce
