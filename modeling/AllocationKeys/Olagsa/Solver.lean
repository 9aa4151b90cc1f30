import AllocationKeys.Algorithms.Base
import AllocationKeys.Lib.Program
import Mathlib.Algebra.BigOperators.Fin
import Mathlib.Algebra.Order.BigOperators.Group.Finset
import Mathlib.Algebra.Order.Field.Basic
import Mathlib.Tactic.Linarith

/-!
# The chained convex solves

`olagsa/_impl/warm_start_solver.py`, `solution.py`, `iteration.py` and `consumer.py`. The
search is a `Program` that asks for random draws and for solutions of a convex problem
(`Call`); a solve ends optimal with some allocation, ends with any other status, or raises.

A candidate is solved iteration by iteration, each for the demand and with the surplus the one
before left. `solveGenetic` keeps the last solution only, `solveKey` the iterations of all.
`ensures_solveKey` says what a key holds: the shares of the solves that were optimal, up to the
first one that was not.

A `Key` carries the statuses of its solves in `statuses`, which the source does not store; no
function reads them.
-/

namespace AllocationKeys.Olagsa

variable {n T : ℕ} {K : Type}

/-! ### What the search asks for -/

/-- The status a solve ends with. -/
inductive Status where
  | optimal
  | other (name : String)
  deriving DecidableEq, Repr

/-- How a solve ends: with the allocation of an optimum, with another status, or raising. -/
inductive SolverAnswer (n : ℕ) (K : Type) where
  | optimal (p : Fin (n + 1) → K)
  | other (status : String)
  | error

/-- The draws of `random` and `numpy.random`, and the solves. -/
inductive Call (n T : ℕ) (K : Type) where
  | random
  | randint (high : ℕ)
  | choice (probabilities : List K) (size : ℕ)
  | solve (va : Fin T → K) (C : Fin (n + 1) → Fin T → K)

def Reply : Call n T K → Type
  | .random => K
  | .randint _ => ℕ
  | .choice _ _ => List ℕ
  | .solve _ _ => SolverAnswer n K

/-- What may be answered: `random()` is in `[0, 1)`, `randint(0, high)` at most `high`, a choice
holds indices of positive probability; a solve may end in any way. -/
def Admissible [Field K] [LinearOrder K] : ∀ call : Call n T K, Reply call → Prop
  | .random, (r : K) => 0 ≤ r ∧ r < 1
  | .randint high, (r : ℕ) => r ≤ high
  | .choice probabilities size, (indices : List ℕ) =>
      indices.length = size ∧ ∀ i ∈ indices, ∃ q, probabilities[i]? = some q ∧ 0 < q
  | .solve _ _, _ => True

/-- The exceptions of a run. -/
inductive Failure where
  | unassigned
  | zeroDivision
  | valueError
  | indexError
  | attributeError
  | runtimeError
  | solverError
  deriving DecidableEq, Repr

abbrev Search (n T : ℕ) (K : Type) : Type → Type := Program (Call n T K) Reply Failure

/-- `list[i]`. -/
def item {α : Type} (l : List α) (i : ℕ) : Search n T K α :=
  match l[i]? with
  | some a => pure a
  | none => throw .indexError

/-! ### Iterations -/

/-- Per-iteration state of one consumer. -/
structure Consumer (T : ℕ) (K : Type) where
  consumption : Fin T → K
  energyAllocatedPercentage : K
  consumptionTotal : K
  energyAllocated : Fin T → K
  energyAllocatedTotal : K
  energyAllocatedConsumed : Fin T → K
  energyAllocatedConsumedTotal : K
  residualVolume : Fin T → K
  residualVolumeTotal : K
  surplus : Fin T → K
  surplusTotal : K

structure Iteration (n T : ℕ) (K : Type) where
  consumers : Fin (n + 1) → Consumer T K
  energyAllocated : Fin (n + 1) → Fin T → K
  energyAllocatedPercentage : K
  surplusTotal : K

structure Key (n T : ℕ) (K : Type) where
  iterations : List (Iteration n T K)
  statuses : List Status

/-- One call of the solver. `VAP` is the diagonal of the source's matrix; the last three fields
are `None` there unless the solve produced an allocation. -/
structure Solution (n T : ℕ) (K : Type) where
  status : Status
  VAP : Option (Fin (n + 1) → K)
  VA : Fin (n + 1) → Fin T → K
  C : Fin (n + 1) → Fin T → K
  VAPA : Option (Fin (n + 1) → Fin T → K)
  E : Option (Fin (n + 1) → Fin T → K)

variable [Field K] [LinearOrder K]

/-- `Consumer(...)` followed by the steps of `_compute_consumer_data`, for the energy row
`energy` of the iteration. -/
def computeConsumerData (energy consumption : Fin T → K) (energyAllocatedPercentage : K) :
    Consumer T K :=
  let energyAllocated : Fin T → K := fun t => energy t * energyAllocatedPercentage
  let diff : Fin T → K := fun t => consumption t - energyAllocated t
  { consumption := consumption
    energyAllocatedPercentage := energyAllocatedPercentage
    consumptionTotal := ∑ t, consumption t
    energyAllocated := energyAllocated
    energyAllocatedTotal := ∑ t, energyAllocated t
    energyAllocatedConsumed := fun t => min (consumption t) (energyAllocated t)
    energyAllocatedConsumedTotal := ∑ t, min (consumption t) (energyAllocated t)
    residualVolume := fun t => (diff t + |diff t|) / 2
    residualVolumeTotal := ∑ t, (diff t + |diff t|) / 2
    surplus := fun t => (-diff t + |diff t|) / 2
    surplusTotal := ∑ t, (-diff t + |diff t|) / 2 }

def Solution.toIteration (s : Solution n T K) (allocationIteration : K) :
    Except Failure (Iteration n T K) :=
  match s.VAP with
  | none => .error .attributeError
  | some vapDiag =>
      let consumers := fun i => computeConsumerData (s.VA 0) (s.C i) (vapDiag i)
      .ok
        { consumers := consumers
          energyAllocated := s.VA
          energyAllocatedPercentage := allocationIteration
          surplusTotal := ∑ i, (consumers i).surplusTotal }

/-! ### The solver -/

/-- `_solve`: a `VA` that is not one row repeated is refused, and so are negative parameters. -/
def solve (VA C : Fin (n + 1) → Fin T → K) : Search n T K (Solution n T K) :=
  if ¬ ∀ i t, VA i t = VA 0 t then throw .valueError
  else if ¬ ((∀ t, 0 ≤ VA 0 t) ∧ ∀ i t, 0 ≤ C i t) then throw .valueError
  else .call (.solve (VA 0) C) fun
    | .optimal p =>
        let VAPA : Fin (n + 1) → Fin T → K := fun i t => p i * VA 0 t
        let E := fun i t => ((VAPA i t - C i t) + |VAPA i t - C i t|) / 2
        pure ⟨.optimal, some p, VA, C, some VAPA, some E⟩
    | .other status => pure ⟨.other status, none, VA, C, none, none⟩
    | .error => throw .solverError

/-- The positive surplus of the previous iteration, summed over its consumers and repeated on
every row. -/
def surplusFromPreviousIteration (consumers : Fin (n + 1) → Consumer T K) :
    Fin (n + 1) → Fin T → K :=
  fun _ t => ∑ i, if 0 < (consumers i).surplus t then (consumers i).surplus t else 0

/-- One pass of the loop that `solve_genetic` and `solve_key` share: the demand the solve is
for, its share of the production, and the solution. -/
def solveIteration (VA : Fin (n + 1) → Fin T → K) (allocationIteration : List K) (i : ℕ)
    (currentC : Fin (n + 1) → Fin T → K) (current : Option (Solution n T K)) :
    Search n T K ((Fin (n + 1) → Fin T → K) × K × Solution n T K) := do
  let share ← item allocationIteration i
  if i = 0 then
    let solution ← solve (fun j t => VA j t * share) currentC
    pure (currentC, share, solution)
  else
    match current with
    | none => throw .runtimeError
    | some current =>
        let prevIter ← Program.ofExcept (current.toIteration share)
        let surplusCarry := surplusFromPreviousIteration prevIter.consumers
        match current.VAPA with
        | none => throw .attributeError
        | some VAPA =>
            let currentC := fun j t => (currentC j t - VAPA j t + |currentC j t - VAPA j t|) / 2
            let solution ← solve (fun j t => VA j t * share + surplusCarry j t) currentC
            pure (currentC, share, solution)

/-- The passes `i`, `i + 1`, … of `solve_genetic`. -/
def solveGeneticFrom (VA : Fin (n + 1) → Fin T → K) (allocationIteration : List K) :
    ℕ → ℕ → (Fin (n + 1) → Fin T → K) → Option (Solution n T K) →
      Search n T K (Option (Solution n T K))
  | 0, _, _, current => pure current
  | k + 1, i, currentC, current => do
      let (currentC, _, solution) ← solveIteration VA allocationIteration i currentC current
      if solution.status ≠ .optimal then pure (some solution)
      else solveGeneticFrom VA allocationIteration k (i + 1) currentC (some solution)

def solveGenetic (numIterations : ℕ) (C VA : Fin (n + 1) → Fin T → K)
    (allocationIteration : List K) : Search n T K (Option (Solution n T K)) :=
  solveGeneticFrom VA allocationIteration numIterations 0 C none

/-- The passes `i`, `i + 1`, … of `solve_key`, with the key built so far. -/
def solveKeyFrom (VA : Fin (n + 1) → Fin T → K) (allocationIteration : List K) :
    ℕ → ℕ → (Fin (n + 1) → Fin T → K) → Option (Solution n T K) → Key n T K →
      Search n T K (Key n T K)
  | 0, _, _, _, key => pure key
  | k + 1, i, currentC, current, key => do
      let (currentC, share, solution) ← solveIteration VA allocationIteration i currentC current
      if solution.status ≠ .optimal then
        pure { key with statuses := key.statuses ++ [solution.status] }
      else
        let iteration ← Program.ofExcept (solution.toIteration share)
        solveKeyFrom VA allocationIteration k (i + 1) currentC (some solution)
          ⟨key.iterations ++ [iteration], key.statuses ++ [solution.status]⟩

def solveKey (numIterations : ℕ) (C VA : Fin (n + 1) → Fin T → K)
    (allocationIteration : List K) : Search n T K (Key n T K) :=
  solveKeyFrom VA allocationIteration numIterations 0 C none ⟨[], []⟩

/-! ### What the solves return -/

variable {ok : ∀ call : Call n T K, Reply call → Prop}

omit [Field K] [LinearOrder K] in
theorem ensures_item {α : Type} (l : List α) (i : ℕ) :
    (item l i : Search n T K α).Ensures ok fun a => l[i]? = some a := by
  unfold item
  split
  · rename_i a h
    exact Program.ensures_ret h
  · exact Program.ensures_raise

omit [Field K] [LinearOrder K] in
theorem ensures_ofExcept {α : Type} (x : Except Failure α) :
    (Program.ofExcept x : Search n T K α).Ensures ok fun a => x = .ok a := by
  intro a ha
  exact (Program.yields_ofExcept.mp ha).symm

/-- An optimal solution carries a surplus, and that is nonnegative. -/
def Solution.WellFormed (s : Solution n T K) : Prop :=
  s.status = .optimal → ∃ E, s.E = some E ∧ ∀ i t, 0 ≤ E i t

section Solves

variable [IsStrictOrderedRing K]

theorem ensures_solve (VA C : Fin (n + 1) → Fin T → K) :
    (solve VA C).Ensures ok Solution.WellFormed := by
  unfold solve
  split
  · exact Program.ensures_raise
  split
  · exact Program.ensures_raise
  · apply Program.ensures_call
    rintro (p | status | _) _
    · refine Program.ensures_ret fun _ => ⟨_, rfl, fun i t => ?_⟩
      have habs := neg_abs_le (p i * VA 0 t - C i t)
      linarith
    · exact Program.ensures_ret fun h => by cases h
    · exact Program.ensures_raise

theorem ensures_solveIteration (VA : Fin (n + 1) → Fin T → K) (allocationIteration : List K)
    (i : ℕ) (currentC : Fin (n + 1) → Fin T → K) (current : Option (Solution n T K)) :
    (solveIteration VA allocationIteration i currentC current).Ensures ok fun result =>
      allocationIteration[i]? = some result.2.1 ∧ result.2.2.WellFormed := by
  unfold solveIteration
  refine (ensures_item allocationIteration i).bind fun share hshare => ?_
  split_ifs
  · refine (ensures_solve _ currentC).bind fun solution hsolution => ?_
    exact Program.ensures_ret ⟨hshare, hsolution⟩
  · rcases current with _ | current
    · exact Program.ensures_raise
    · refine (ensures_ofExcept _).bind fun prevIter _ => ?_
      dsimp only
      split
      · exact Program.ensures_raise
      · refine (ensures_solve _ _).bind fun solution hsolution => ?_
        exact Program.ensures_ret ⟨hshare, hsolution⟩

theorem ensures_solveGenetic (numIterations : ℕ) (C VA : Fin (n + 1) → Fin T → K)
    (allocationIteration : List K) :
    (solveGenetic numIterations C VA allocationIteration).Ensures ok fun result =>
      ∀ s ∈ result, s.WellFormed := by
  have hloop : ∀ (k i : ℕ) (currentC : Fin (n + 1) → Fin T → K)
      (current : Option (Solution n T K)), (∀ s ∈ current, s.WellFormed) →
        (solveGeneticFrom VA allocationIteration k i currentC current).Ensures ok
          fun result => ∀ s ∈ result, s.WellFormed := by
    intro k
    induction k with
    | zero => intro i currentC current h; exact Program.ensures_ret h
    | succ k ih =>
      intro i currentC current _
      refine (ensures_solveIteration VA allocationIteration i currentC current).bind
        fun result hresult => ?_
      obtain ⟨currentC', share, solution⟩ := result
      have hsome : ∀ s ∈ some solution, s.WellFormed := by
        rintro s ⟨rfl⟩
        exact hresult.2
      dsimp only
      split_ifs
      · exact Program.ensures_ret hsome
      · exact ih _ _ _ hsome
  exact hloop numIterations 0 C none (by simp)

end Solves

/-! ### What a key holds -/

/-- A key of `numIterations` solves: the first shares of the allocation, one iteration for every
solve that was optimal, and no solve after one that was not. -/
structure Key.Holds (allocationIteration : List K) (numIterations : ℕ) (key : Key n T K) :
    Prop where
  shares : key.iterations.map Iteration.energyAllocatedPercentage
    = allocationIteration.take key.iterations.length
  statuses : (key.iterations.length = numIterations ∧
      key.statuses = List.replicate numIterations .optimal) ∨
    (key.iterations.length < numIterations ∧
      ∃ s, s ≠ Status.optimal ∧
        key.statuses = List.replicate key.iterations.length .optimal ++ [s])

theorem toIteration_share {s : Solution n T K} {share : K} {iteration : Iteration n T K}
    (h : s.toIteration share = .ok iteration) : iteration.energyAllocatedPercentage = share := by
  unfold Solution.toIteration at h
  split at h
  · cases h
  · cases h
    rfl

/-- **A key stops at its first solve that is not optimal.** -/
theorem ensures_solveKey [IsStrictOrderedRing K] (numIterations : ℕ)
    (C VA : Fin (n + 1) → Fin T → K) (allocationIteration : List K) :
    (solveKey numIterations C VA allocationIteration).Ensures ok
      (Key.Holds allocationIteration numIterations) := by
  have hloop : ∀ (k i : ℕ) (currentC : Fin (n + 1) → Fin T → K)
      (current : Option (Solution n T K)) (key : Key n T K), i + k = numIterations →
        key.iterations.length = i →
        key.iterations.map Iteration.energyAllocatedPercentage = allocationIteration.take i →
        key.statuses = List.replicate i .optimal →
          (solveKeyFrom VA allocationIteration k i currentC current key).Ensures ok
            (Key.Holds allocationIteration numIterations) := by
    intro k
    induction k with
    | zero =>
      intro i currentC current key hi hlength hshares hstatuses
      obtain rfl : i = numIterations := hi
      exact Program.ensures_ret ⟨by rw [hshares, hlength], Or.inl ⟨hlength, hstatuses⟩⟩
    | succ k ih =>
      intro i currentC current key hi hlength hshares hstatuses
      refine (ensures_solveIteration VA allocationIteration i currentC current).bind
        fun result hresult => ?_
      obtain ⟨currentC', share, solution⟩ := result
      dsimp only
      split_ifs with hstatus
      · -- not optimal: the loop stops, with one status more than iterations
        refine Program.ensures_ret ⟨by rw [hshares, hlength], Or.inr ⟨?_, solution.status, ?_, ?_⟩⟩
        · show key.iterations.length < numIterations
          omega
        · exact hstatus
        · show key.statuses ++ [solution.status] = _
          rw [hstatuses, hlength]
      · -- optimal: one iteration and one status more
        refine (ensures_ofExcept _).bind fun iteration hiteration => ?_
        refine ih (i + 1) _ _ _ (by omega) (by simp [hlength]) ?_ ?_
        · rw [List.map_append, hshares, List.map_singleton, toIteration_share hiteration,
            List.take_add_one, hresult.1]
          rfl
        · rw [not_not.mp hstatus, hstatuses, List.replicate_succ']
  exact hloop numIterations 0 C none ⟨[], []⟩ (Nat.zero_add _) rfl rfl rfl

end AllocationKeys.Olagsa
