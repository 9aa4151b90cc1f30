import AllocationKeys.Olagsa.Genetic
import AllocationKeys.Olagsa.Report

/-!
# The fitness of a candidate and its key

The search grades a candidate by the surplus `E` the solver reports for its last subproblem, in a
loop that builds no key; the key of the same shares is built by another loop, which sums up the
surplus of its consumers. `selection_agrees` is that the two loops solve the same subproblems, and
that the one figure is the other: a fitter candidate has a key that leaves less unused.
-/

namespace AllocationKeys.Olagsa

open EnergyRounds Program

variable {n T : ℕ} {K : Type} [Field K] [LinearOrder K] [IsStrictOrderedRing K]

/-! ### The subproblems of a chain -/

/-- Whether a subproblem was solved. -/
def isOptimal (answer : ∀ call : Call n T K, Reply call) : Call n T K → Bool
  | .solve energy demand =>
      match (answer (.solve energy demand) : SolverAnswer n K) with
      | .optimal _ => true
      | _ => false
  | _ => false

/-- An iteration is the one of a subproblem: it has its energy and demand, and the shares of its
optimum. -/
def IterationOfCall (answer : ∀ call : Call n T K, Reply call) (call : Call n T K)
    (iteration : Iteration n T K) : Prop :=
  call = .solve (iteration.energyAllocated 0) (fun i => (iteration.consumers i).consumption) ∧
    answer (.solve (iteration.energyAllocated 0) fun i => (iteration.consumers i).consumption)
      = (.optimal fun i => (iteration.consumers i).energyAllocatedPercentage : SolverAnswer n K)

/-- The subproblem a solution belongs to. -/
def Solution.call (s : Solution n T K) : Call n T K := .solve (s.VA 0) s.C

/-- The surplus the solver minimised is the one the iteration reports. -/
def Solution.SurplusOf (s : Solution n T K) (iteration : Iteration n T K) : Prop :=
  ∃ E, s.E = some E ∧ ∑ i, ∑ t, E i t = iteration.surplusTotal ∧ 0 ≤ iteration.surplusTotal

omit [Field K] [LinearOrder K] [IsStrictOrderedRing K] in
theorem isOptimal_optimal {answer : ∀ call : Call n T K, Reply call} {energy : Fin T → K}
    {demand : Fin (n + 1) → Fin T → K} {p : Fin (n + 1) → K}
    (h : answer (.solve energy demand) = (.optimal p : SolverAnswer n K)) :
    isOptimal answer (.solve energy demand) = true := by
  rw [isOptimal, h]

omit [Field K] [LinearOrder K] [IsStrictOrderedRing K] in
theorem isOptimal_other {answer : ∀ call : Call n T K, Reply call} {energy : Fin T → K}
    {demand : Fin (n + 1) → Fin T → K} {status : String}
    (h : answer (.solve energy demand) = (.other status : SolverAnswer n K)) :
    isOptimal answer (.solve energy demand) = false := by
  rw [isOptimal, h]

theorem surplusOf_optimalSolution (energy : Fin T → K) (demand : Fin (n + 1) → Fin T → K)
    (share : K) (p : Fin (n + 1) → K) :
    (optimalSolution energy demand p).SurplusOf (iterationOf energy demand share p) := by
  rw [Solution.SurplusOf, surplusTotal_iterationOf]
  refine ⟨_, rfl, Finset.sum_congr rfl fun i _ => Finset.sum_congr rfl fun t _ => ?_, ?_⟩
  · exact half_add_abs _
  · exact Finset.sum_nonneg fun i _ => Finset.sum_nonneg fun t _ => unused_nonneg _ _

section Chains

variable {answer : ∀ call : Call n T K, Reply call} {V : Fin T → K} {shares : List K}
  {d : Fin (n + 1) → Fin T → K} {s : Fin T → K} {k : ℕ} {calls : List (Call n T K)}
  {iterations : List (Iteration n T K)} {current last : Option (Solution n T K)}

omit [IsStrictOrderedRing K] in
/-- The iterations are the subproblems before the first one that is not solved. -/
theorem Chain.iterations_calls (h : Chain answer V shares d s k calls iterations current last) :
    List.Forall₂ (IterationOfCall answer) (calls.takeWhile (isOptimal answer)) iterations := by
  induction h with
  | done => exact List.Forall₂.nil
  | stop hanswer =>
    rw [List.takeWhile_cons, isOptimal_other hanswer]
    exact List.Forall₂.nil
  | step hanswer _ ih =>
    rw [List.takeWhile_cons, isOptimal_optimal hanswer]
    exact List.Forall₂.cons ⟨rfl, hanswer⟩ ih

omit [IsStrictOrderedRing K] in
/-- The last solution is that of the last subproblem. -/
theorem Chain.last_call (h : Chain answer V shares d s k calls iterations current last) :
    last.map Solution.call = calls.getLast?.or (current.map Solution.call) := by
  induction h with
  | done => rfl
  | stop _ => rfl
  | @step share _ d s _ _ last p calls _ _ _ ih =>
    rw [ih, List.getLast?_cons]
    cases calls.getLast? <;> rfl

omit [IsStrictOrderedRing K] in
theorem Chain.length_of_optimal (h : Chain answer V shares d s k calls iterations current last)
    (hoptimal : ∀ solution ∈ last, solution.status = .optimal) : iterations.length = k := by
  induction h with
  | done => rfl
  | stop _ => exact absurd (hoptimal _ rfl) (by simp)
  | step _ _ ih => rw [List.length_cons, ih hoptimal]

/-- A chain that ends optimal ends with the iteration of its last solution. -/
theorem Chain.surplus_of_optimal (h : Chain answer V shares d s k calls iterations current last)
    {solution : Solution n T K} (hlast : last = some solution)
    (hoptimal : solution.status = .optimal) :
    (k = 0 ∧ current = some solution) ∨
      ∃ iteration ∈ iterations.getLast?, solution.SurplusOf iteration := by
  induction h with
  | done => exact Or.inl ⟨rfl, hlast⟩
  | stop _ =>
    cases hlast
    cases hoptimal
  | @step share _ d s k _ _ p calls iterations _ hrest ih =>
    right
    rw [List.getLast?_cons]
    rcases ih hlast with ⟨rfl, hcurrent⟩ | ⟨iteration, hiteration, hsurplus⟩
    · obtain rfl : iterations = [] := by
        cases hrest
        rfl
      cases hcurrent
      exact ⟨_, rfl, surplusOf_optimalSolution _ _ share _⟩
    · rw [Option.mem_def.mp hiteration]
      exact ⟨iteration, rfl, hsurplus⟩

end Chains

/-! ### Both loops for a candidate -/

/-- What the two loops have in common for the shares of a candidate. -/
structure LoopsAgree (answer : ∀ call : Call n T K, Reply call) (numIterations : ℕ)
    (C VA : Fin (n + 1) → Fin T → K) (chromosome : List K) : Prop where
  calls : ((solveGenetic numIterations C VA chromosome).eval answer).1
    = ((solveKey numIterations C VA chromosome).eval answer).1
  errors : ∀ e, ((solveGenetic numIterations C VA chromosome).eval answer).2 = .error e ↔
    ((solveKey numIterations C VA chromosome).eval answer).2 = .error e
  iterations : ∀ key, ((solveKey numIterations C VA chromosome).eval answer).2 = .ok key →
    List.Forall₂ (IterationOfCall answer)
      (((solveKey numIterations C VA chromosome).eval answer).1.takeWhile (isOptimal answer))
      key.iterations
  last : ∀ solution,
    ((solveGenetic numIterations C VA chromosome).eval answer).2 = .ok solution →
      solution.map Solution.call
        = ((solveGenetic numIterations C VA chromosome).eval answer).1.getLast?

/-- A candidate whose solve ends optimal, with the fitness it is given and the final surplus its
key reports. -/
def OptimalCandidate (answer : ∀ call : Call n T K, Reply call) (ga : OlagsaGA K)
    (C VA : Fin (n + 1) → Fin T → K) (candidate : Individual K) (fitness surplus : K) : Prop :=
  ∃ solution evaluated key last,
    ((solveGenetic ga.numKeyIteration C VA candidate.chromosomes).eval answer).2
      = .ok (some solution) ∧ solution.status = .optimal ∧
    ((evaluate ga C VA candidate).eval answer).2 = .ok evaluated ∧
    evaluated.fitness = fitness ∧
    ((solveKey ga.numKeyIteration C VA candidate.chromosomes).eval answer).2 = .ok key ∧
    key.iterations.length = ga.numKeyIteration ∧
    key.iterations.getLast? = some last ∧ last.surplusTotal = surplus

omit [IsStrictOrderedRing K] in
/-- An optimal candidate has one fitness and one final surplus. -/
theorem OptimalCandidate.unique {answer : ∀ call : Call n T K, Reply call} {ga : OlagsaGA K}
    {C VA : Fin (n + 1) → Fin T → K} {candidate : Individual K}
    {fitness fitness' surplus surplus' : K}
    (h : OptimalCandidate answer ga C VA candidate fitness surplus)
    (h' : OptimalCandidate answer ga C VA candidate fitness' surplus') :
    fitness = fitness' ∧ surplus = surplus' := by
  obtain ⟨_, _, _, _, _, _, hevaluated, rfl, hkey, _, hlast, rfl⟩ := h
  obtain ⟨_, _, _, _, _, _, hevaluated', rfl, hkey', _, hlast', rfl⟩ := h'
  rw [hevaluated] at hevaluated'
  rw [hkey] at hkey'
  cases hevaluated'
  cases hkey'
  rw [hlast] at hlast'
  cases hlast'
  exact ⟨rfl, rfl⟩

omit [IsStrictOrderedRing K] in
theorem eval_evaluate {answer : ∀ call : Call n T K, Reply call} {ga : OlagsaGA K}
    {C VA : Fin (n + 1) → Fin T → K} {candidate : Individual K} {calls : List (Call n T K)}
    {solution : Solution n T K} {E : Fin (n + 1) → Fin T → K}
    (h : (solveGenetic ga.numKeyIteration C VA candidate.chromosomes).eval answer
      = (calls, .ok (some solution))) (hoptimal : solution.status = .optimal)
    (hE : solution.E = some E) :
    ((evaluate ga C VA candidate).eval answer).2
      = .ok { candidate with
          fitness := 1 / (∑ i, ∑ t, E i t + 1) * ponderationExcedent
          status := some solution.status } := by
  rw [evaluate, eval_bind_ok h]
  simp only [hoptimal, ne_eq, not_true_eq_false, if_false, hE]
  rfl

theorem loopsAgree (answer : ∀ call : Call n T K, Reply call) (numIterations : ℕ)
    {C VA : Fin (n + 1) → Fin T → K} (htiled : ∀ i t, VA i t = VA 0 t) (chromosome : List K) :
    LoopsAgree answer numIterations C VA chromosome := by
  rcases chain_of_loops answer (VA 0) chromosome numIterations 0 C C none (fun _ => 0)
      ⟨[], []⟩ (Before.first C) with
    ⟨calls, iterations, statuses, last, hchain, hgenetic, hkey⟩ | ⟨calls, e, hgenetic, hkey, _⟩
  · rw [← solveGenetic, ← tiled_eq htiled] at hgenetic
    rw [← solveKey, ← tiled_eq htiled] at hkey
    refine ⟨by rw [hgenetic, hkey], fun e => ?_, fun key hresult => ?_, fun solution hresult => ?_⟩
    · rw [hgenetic, hkey]
      simp
    · rw [hkey] at hresult ⊢
      cases hresult
      exact hchain.iterations_calls
    · rw [hgenetic] at hresult ⊢
      cases hresult
      rw [hchain.last_call]
      cases calls.getLast? <;> rfl
  · rw [← solveGenetic, ← tiled_eq htiled] at hgenetic
    rw [← solveKey, ← tiled_eq htiled] at hkey
    refine ⟨by rw [hgenetic, hkey], fun e' => by simp [hgenetic, hkey], fun key hresult => ?_,
      fun solution hresult => ?_⟩
    · rw [hkey] at hresult
      cases hresult
    · rw [hgenetic] at hresult
      cases hresult

/-- The surplus of an optimal candidate's key gives its fitness. -/
theorem exists_optimalCandidate (answer : ∀ call : Call n T K, Reply call) (ga : OlagsaGA K)
    {C VA : Fin (n + 1) → Fin T → K} (htiled : ∀ i t, VA i t = VA 0 t) {candidate : Individual K}
    {solution : Solution n T K}
    (h : ((solveGenetic ga.numKeyIteration C VA candidate.chromosomes).eval answer).2
      = .ok (some solution)) (hoptimal : solution.status = .optimal) :
    ∃ surplus, 0 ≤ surplus ∧
      OptimalCandidate answer ga C VA candidate (ponderationExcedent / (1 + surplus)) surplus := by
  rcases chain_of_loops answer (VA 0) candidate.chromosomes ga.numKeyIteration 0 C C
      none (fun _ => 0) ⟨[], []⟩ (Before.first C) with
    ⟨calls, iterations, statuses, last, hchain, hgenetic, hkey⟩ | ⟨calls, e, hgenetic, hkey, _⟩
  · rw [← solveGenetic, ← tiled_eq htiled] at hgenetic
    rw [← solveKey, ← tiled_eq htiled] at hkey
    have hlast := h
    rw [hgenetic] at hlast
    obtain rfl : last = some solution := by
      cases hlast
      rfl
    rcases hchain.surplus_of_optimal rfl hoptimal with
      ⟨_, hnone⟩ | ⟨iteration, hiteration, E, hE, hsurplus, hnonneg⟩
    · cases hnone
    · refine ⟨iteration.surplusTotal, hnonneg, solution, _, _, iteration, h, hoptimal,
        eval_evaluate hgenetic hoptimal hE, ?_, by rw [hkey], ?_, ?_, rfl⟩
      · show 1 / (∑ i, ∑ t, E i t + 1) * ponderationExcedent = _
        rw [hsurplus, add_comm]
        ring
      · exact hchain.length_of_optimal fun s hs => by
          cases hs
          exact hoptimal
      · exact hiteration
  · rw [← solveGenetic, ← tiled_eq htiled] at hgenetic
    rw [hgenetic] at h
    cases h

/-- **The fitness is the surplus of the key.**  For a solver that is a function of what it is
asked, both loops ask for the same subproblems and raise alike; the key has the iterations before
the first subproblem that is not solved, and the candidate is graded by the last one. When that is
solved, the key is complete and its final surplus gives the fitness, so that of two such candidates
the fitter has the smaller surplus. -/
theorem selection_agrees (answer : ∀ call : Call n T K, Reply call) (ga : OlagsaGA K)
    {C VA : Fin (n + 1) → Fin T → K} (htiled : ∀ i t, VA i t = VA 0 t) (x : Individual K) :
    LoopsAgree answer ga.numKeyIteration C VA x.chromosomes ∧
      (∀ solution, ((solveGenetic ga.numKeyIteration C VA x.chromosomes).eval answer).2
          = .ok (some solution) → solution.status = .optimal →
        ∃ surplus, OptimalCandidate answer ga C VA x (ponderationExcedent / (1 + surplus))
          surplus) ∧
      ∀ y fitness surplus fitness' surplus', OptimalCandidate answer ga C VA x fitness surplus →
        OptimalCandidate answer ga C VA y fitness' surplus' → fitness < fitness' →
          surplus' < surplus := by
  refine ⟨loopsAgree answer ga.numKeyIteration htiled x.chromosomes, fun solution h hoptimal => ?_,
    fun y fitness surplus fitness' surplus' hx hy hlt => ?_⟩
  · obtain ⟨surplus, _, hcandidate⟩ := exists_optimalCandidate answer ga htiled h hoptimal
    exact ⟨surplus, hcandidate⟩
  · have graded : ∀ {z : Individual K} {f σ : K}, OptimalCandidate answer ga C VA z f σ →
        0 ≤ σ ∧ f = ponderationExcedent / (1 + σ) := by
      intro z f σ hz
      obtain ⟨solution, _, _, _, hgenetic, hoptimal, _⟩ := id hz
      obtain ⟨surplus, hnonneg, hcandidate⟩ :=
        exists_optimalCandidate answer ga htiled hgenetic hoptimal
      obtain ⟨rfl, rfl⟩ := hcandidate.unique hz
      exact ⟨hnonneg, rfl⟩
    obtain ⟨hσ, rfl⟩ := graded hx
    obtain ⟨hσ', rfl⟩ := graded hy
    by_contra hle
    refine absurd hlt (not_lt.mpr ?_)
    rw [ponderationExcedent]
    gcongr
    exact not_lt.mp hle

/-- A search for two iterations. -/
def searchForTwo : OlagsaGA ℚ where
  numKeyIteration := 2
  numGeneration := 1
  populationSize := 1
  crossoverRate := 1
  crossoverRateInterSpecies := 0
  mutationRate := 0
  speciesWaited := 1
  maxIterationWithoutImprovement := 1
  lastSpecieId := 0

/-- An optimum for two consumers solves the candidate's subproblems in both loops. -/
theorem selection_agrees_firstServed :
    LoopsAgree firstServed 2 twoDemands (fun _ _ => 8) [3 / 4, 1 / 4] ∧
      ∃ surplus, OptimalCandidate firstServed searchForTwo twoDemands (fun _ _ => 8)
        (Individual.make [3 / 4, 1 / 4]) (ponderationExcedent / (1 + surplus)) surplus := by
  obtain ⟨hloops, hgraded, _⟩ := @selection_agrees 1 1 ℚ _ _ _ firstServed searchForTwo twoDemands
    (fun _ _ => 8) (fun _ _ => rfl) (Individual.make [3 / 4, 1 / 4])
  have htest : (((solveGenetic 2 twoDemands (fun _ _ => 8) [3 / 4, 1 / 4]).eval
      firstServed).2.toOption.join.any fun solution =>
        decide (solution.status = .optimal)) = true := by
    decide +kernel
  refine ⟨hloops, ?_⟩
  cases hout : ((solveGenetic 2 twoDemands (fun _ _ => 8) [3 / 4, 1 / 4]).eval firstServed).2 with
  | error e =>
    rw [hout] at htest
    cases htest
  | ok found =>
    rw [hout] at htest
    obtain ⟨solution, hsolution, hoptimal⟩ := Option.any_eq_true .. |>.mp htest
    rw [show found = some solution from hsolution] at hout
    exact hgraded solution hout (of_decide_eq_true hoptimal)

end AllocationKeys.Olagsa
