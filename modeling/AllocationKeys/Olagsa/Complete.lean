import AllocationKeys.Olagsa.Algorithm
import AllocationKeys.Olagsa.Search
import Mathlib.Algebra.Field.Rat
import Mathlib.Algebra.Order.Field.Rat
import Mathlib.Data.Rat.Floor

/-!
# When a key is a complete split

`solve_key` stops at the first solve that is not optimal and keeps the iterations before it; the
result leaves out only the keys without any. So a key is left out when the first of its solves
was not optimal, and is returned in every other case: with part of its iterations when a later
one was not, and for a candidate that its search could not solve when only the solves of the
search were not (`run_complete_iff`).

The search keeps the status of the last solve of a candidate; that is optimal exactly when all
of them were (`evaluate_statuses`).
-/

namespace AllocationKeys.Olagsa

open Algorithms Program

variable {n T : ℕ} {K : Type} [Field K] [LinearOrder K]

/-- The key has the iterations `1, …, iterations`, and their shares sum to 1. -/
structure CompleteSplit (iterations : ℕ) (key : AllocationKeyResult K) : Prop where
  numbers : key.iterations.map IterationResult.number = (List.range iterations).map (· + 1)
  shares : (key.iterations.map IterationResult.energyAllocatedPercentage).sum = 1

/-- Every solve of the candidate was optimal: those of its search and those of its key. -/
structure BestSolution.Solvable (bs : BestSolution n T K) : Prop where
  search : bs.individual.status = some .optimal
  key : ∀ s ∈ bs.key.statuses, s = .optimal

/-- Once the first solve of its key is optimal, every other solve of the candidate is. -/
def SolvedThrough (bs : BestSolution n T K) : Prop :=
  bs.key.statuses.head? = some .optimal → bs.Solvable

/-- What becomes of the best solutions: every key returned is a complete split, and every solve
of a candidate that is returned was optimal. -/
structure CompleteKeys (rounded : K → String) (consumerNames : List String) (iterations : ℕ)
    (best : List (BestSolution n T K)) : Prop where
  complete : ∀ key ∈ (algorithmResult rounded consumerNames best).keys,
    CompleteSplit iterations key
  solved : ∀ bs ∈ reported best, bs.Solvable

/-! ### The statuses of a search -/

section Statuses

variable {ok : ∀ call : Call n T K, Reply call → Prop}

/-- The passes of `solve_genetic`, with the statuses their solves end with. -/
def solveGeneticStatuses (VA : Fin (n + 1) → Fin T → K) (allocationIteration : List K) :
    ℕ → ℕ → (Fin (n + 1) → Fin T → K) → Option (Solution n T K) →
      Search n T K (Option (Solution n T K) × List Status)
  | 0, _, _, current => pure (current, [])
  | k + 1, i, currentC, current => do
      let (currentC, _, solution) ← solveIteration VA allocationIteration i currentC current
      if solution.status ≠ .optimal then pure (some solution, [solution.status])
      else do
        let (last, statuses) ←
          solveGeneticStatuses VA allocationIteration k (i + 1) currentC (some solution)
        pure (last, solution.status :: statuses)

/-- Keeping the statuses changes nothing else. -/
theorem fst_solveGeneticStatuses (VA : Fin (n + 1) → Fin T → K) (allocationIteration : List K) :
    ∀ (k i : ℕ) (currentC : Fin (n + 1) → Fin T → K) (current : Option (Solution n T K)),
      Prod.fst <$> solveGeneticStatuses VA allocationIteration k i currentC current =
        solveGeneticFrom VA allocationIteration k i currentC current := by
  intro k
  induction k with
  | zero => intro i currentC current; rfl
  | succ k ih =>
    intro i currentC current
    simp only [solveGeneticStatuses, solveGeneticFrom, map_bind]
    congr 1
    funext ⟨currentC', share, solution⟩
    dsimp only
    split
    · rfl
    · rw [← ih, map_bind, ← bind_pure_comp]
      rfl

/-- The last solve is optimal exactly when all are. -/
theorem ensures_solveGeneticStatuses (VA : Fin (n + 1) → Fin T → K)
    (allocationIteration : List K) :
    ∀ (k i : ℕ) (currentC : Fin (n + 1) → Fin T → K) (current : Option (Solution n T K)),
      (solveGeneticStatuses VA allocationIteration k i currentC current).Ensures ok fun result =>
        k ≠ 0 ∨ current.map Solution.status = some .optimal →
          (result.1.map Solution.status = some .optimal ↔ ∀ s ∈ result.2, s = .optimal) := by
  intro k
  induction k with
  | zero =>
    intro i currentC current
    exact ensures_ret fun h => by simpa using h
  | succ k ih =>
    intro i currentC current
    refine (ensures_true _).bind fun r _ => ?_
    obtain ⟨currentC', share, solution⟩ := r
    dsimp only
    split
    · rename_i hstatus
      exact ensures_ret fun _ => by simp
    · rename_i hstatus
      have hoptimal := not_not.mp hstatus
      refine (ih (i + 1) currentC' (some solution)).bind fun result hresult => ?_
      refine ensures_ret fun _ => ?_
      rw [hresult (Or.inr (congrArg some hoptimal))]
      simp [hoptimal]

/-- A candidate is graded by its last solve: its status is optimal exactly when every solve of
its search was. -/
theorem evaluate_statuses {ga : OlagsaGA K} (hk : ga.numKeyIteration ≠ 0)
    {C VA : Fin (n + 1) → Fin T → K} {individual evaluated : Individual K}
    (h : (evaluate ga C VA individual).Yields ok (.ok evaluated)) :
    ∃ last statuses, (solveGeneticStatuses VA individual.chromosomes ga.numKeyIteration 0 C
        none).Yields ok (.ok (last, statuses)) ∧
      (evaluated.status = some .optimal ↔ ∀ s ∈ statuses, s = .optimal) := by
  obtain ⟨solution, hsolution, hevaluated⟩ := yields_bind_ok.mp h
  rw [solveGenetic, ← fst_solveGeneticStatuses, yields_map] at hsolution
  obtain ⟨⟨last, statuses⟩, hyields, rfl⟩ := hsolution
  refine ⟨last, statuses, hyields, ?_⟩
  have hstatuses := ensures_solveGeneticStatuses VA individual.chromosomes ga.numKeyIteration 0 C
    none _ hyields (Or.inl hk)
  rw [← hstatuses]
  suffices hstatus : evaluated.status = last.map Solution.status by rw [hstatus]
  rcases last with _ | solution
  · cases hevaluated
    rfl
  · dsimp only at hevaluated
    split at hevaluated
    · cases hevaluated
      rfl
    · split at hevaluated
      · cases hevaluated
      · cases hevaluated
        rfl

end Statuses

theorem mem_reported {best : List (BestSolution n T K)} {bs : BestSolution n T K} :
    bs ∈ reported best ↔ bs ∈ best ∧ bs.key.iterations ≠ [] := by
  rw [reported, List.mem_filter, List.mem_insertionSort, Bool.not_eq_true',
    List.isEmpty_eq_false_iff]

/-- A best solution as the search makes it. -/
structure Solved (iterations : ℕ) (bs : BestSolution n T K) : Prop where
  distribution : Distribution iterations bs.individual.chromosomes
  holds : Key.Holds bs.individual.chromosomes iterations bs.key

section Keys

variable {iterations : ℕ} {bs : BestSolution n T K}

omit [LinearOrder K] in
/-- The numbers and the shares of a key are those of its solution. -/
theorem numbers_toAllocationKeyResult (rounded : K → String) (consumerNames : List String)
    (bs : BestSolution n T K) :
    (toAllocationKeyResult rounded consumerNames bs).iterations.map IterationResult.number
        = (List.range bs.key.iterations.length).map (· + 1) ∧
      (toAllocationKeyResult rounded consumerNames bs).iterations.map
          IterationResult.energyAllocatedPercentage
        = bs.key.iterations.map Iteration.energyAllocatedPercentage := by
  constructor
  · apply List.ext_getElem
    · simp [toAllocationKeyResult]
    · intro j h1 h2
      simp [toAllocationKeyResult, toIterationResult]
  · apply List.ext_getElem
    · simp [toAllocationKeyResult]
    · intro j h1 h2
      simp [toAllocationKeyResult, toIterationResult]

/-- A solution with all its iterations gives a complete split. -/
theorem completeSplit_of_length (h : Solved iterations bs)
    (hlength : bs.key.iterations.length = iterations) (rounded : K → String)
    (consumerNames : List String) :
    CompleteSplit iterations (toAllocationKeyResult rounded consumerNames bs) := by
  obtain ⟨hnumbers, hshares⟩ := numbers_toAllocationKeyResult rounded consumerNames bs
  refine ⟨by rw [hnumbers, hlength], ?_⟩
  rw [hshares, h.holds.shares, hlength, ← h.distribution.length, List.take_length]
  exact h.distribution.sum

/-- A key has some iteration exactly when its first solve was optimal. -/
theorem head_statuses (h : Solved iterations bs) :
    bs.key.statuses.head? = some .optimal ↔ bs.key.iterations ≠ [] := by
  rcases h.holds.statuses with ⟨hlength, hstatuses⟩ | ⟨-, s, hs, hstatuses⟩
  · rw [hstatuses, ← hlength]
    cases bs.key.iterations <;> simp [List.replicate_succ]
  · rw [hstatuses]
    cases bs.key.iterations with
    | nil => simpa using hs
    | cons first rest => simp [List.replicate_succ]

/-- A key whose solves were all optimal has all its iterations. -/
theorem length_of_statuses (h : Solved iterations bs) (hall : ∀ s ∈ bs.key.statuses, s = .optimal) :
    bs.key.iterations.length = iterations := by
  rcases h.holds.statuses with ⟨hlength, -⟩ | ⟨-, s, hs, hstatuses⟩
  · exact hlength
  · refine absurd (hall s ?_) hs
    rw [hstatuses]
    simp

/-- The keys are complete exactly when no solve of a candidate ends otherwise once the first of
its key was optimal. -/
theorem completeKeys_iff (rounded : K → String) (consumerNames : List String)
    {best : List (BestSolution n T K)} (h : ∀ bs ∈ best, Solved iterations bs) :
    CompleteKeys rounded consumerNames iterations best ↔ ∀ bs ∈ best, SolvedThrough bs := by
  constructor
  · intro hcomplete bs hbs hhead
    exact hcomplete.solved bs (mem_reported.mpr ⟨hbs, (head_statuses (h bs hbs)).mp hhead⟩)
  · intro hthrough
    have hsolvable : ∀ bs ∈ reported best, bs.Solvable := by
      intro bs hbs
      obtain ⟨hmem, hne⟩ := mem_reported.mp hbs
      exact hthrough bs hmem ((head_statuses (h bs hmem)).mpr hne)
    refine ⟨fun key hkey => ?_, hsolvable⟩
    obtain ⟨bs, hbs, rfl⟩ := List.mem_map.mp hkey
    have hsolved := h bs (mem_reported.mp hbs).1
    exact completeSplit_of_length hsolved (length_of_statuses hsolved (hsolvable bs hbs).key)
      rounded consumerNames

end Keys

/-! ### The solutions of a run -/

variable [IsStrictOrderedRing K]

/-- Every reported individual is one of the species', and its key is what its solves gave. -/
theorem ensures_collect {ga : OlagsaGA K} (C VA : Fin (n + 1) → Fin T → K)
    {species : List (Specie K)} (h : EveryIndividual (Sound ga.numKeyIteration) species) :
    (collect ga C VA species).Ensures Admissible fun best =>
      ∀ bs ∈ best, Solved ga.numKeyIteration bs := by
  have hbest : ∀ best ∈ species.filterMap bestIndividual, Sound ga.numKeyIteration best := by
    intro best hmem
    obtain ⟨specie, hspecie, hhead⟩ := List.mem_filterMap.mp hmem
    exact h specie hspecie best (mem_sortByFitness.mp (List.mem_of_head? hhead))
  have hcollect : (collect ga C VA species).Ensures Admissible _ :=
    ensures_mapM fun best hmem => (ensures_solveKey ga.numKeyIteration C VA best.chromosomes).bind
      fun key hkey => ensures_ret
        (⟨(hbest best hmem).distribution, hkey⟩ : Solved ga.numKeyIteration ⟨best, _, key⟩)
  exact hcollect.mono fun best h => h.2

/-- The solutions of a run of validated parameters. -/
theorem ensures_run [FloorSemiring K] (inputs : OlagsaInput K)
    (C VA : Fin (n + 1) → Fin T → K) :
    (inputs.ga.run C VA).Ensures Admissible fun best =>
      ∀ bs ∈ best, Solved inputs.iterations bs := by
  by_cases hone : inputs.ga.numKeyIteration = 1
  · rw [OlagsaGA.run, if_pos hone]
    have hiterations : inputs.iterations = 1 := hone
    refine (ensures_evaluate inputs.ga C VA (Individual.make [1])).bind fun only honly => ?_
    refine (ensures_solveKey 1 C VA only.chromosomes).bind fun key hkey => ensures_ret ?_
    simp only [List.mem_singleton, forall_eq, hiterations]
    refine ⟨?_, hkey⟩
    rw [show only.chromosomes = [1] from honly.1]
    exact ⟨rfl, by simp, by simp⟩
  · have hk : inputs.ga.numKeyIteration = 2 ∨ inputs.ga.numKeyIteration = 3 := by
      have hmem := inputs.iterations_mem
      have : inputs.ga.numKeyIteration = inputs.iterations := rfl
      omega
    rw [run_eq_search hone]
    intro best hbest
    obtain ⟨⟨final, ga'⟩, hsearch, hcollect⟩ := yields_bind_ok.mp hbest
    obtain ⟨earlier, found, hreach, hends⟩ := search_ok hsearch
    obtain ⟨initial, -, hinitialized⟩ := initialized_of_reaches (by omega) hreach
    have hsound := sound_of_ends (reaches_sound hk hreach) hends
    rw [← hinitialized.numKeyIteration] at hsound
    have hsolved := ensures_collect C VA hsound best hcollect
    rwa [hinitialized.numKeyIteration] at hsolved

/-- **When every key is a complete split.**  The results of the algorithm are those made of the
best solutions of a run. Whatever these are, all their keys are complete splits of candidates
whose solves were all optimal if and only if no candidate had a solve, in its search or for its
key, that ended otherwise although the first solve of its key was optimal. -/
theorem run_complete_iff [FloorSemiring K] (rounded : K → String) (inputs : OlagsaInput K)
    (rawData : AlgorithmRawData n T K) :
    (∀ result, (run rounded inputs rawData).Yields Admissible (.ok result) ↔
      ∃ best, (inputs.ga.run rawData.C rawData.VA).Yields Admissible (.ok best) ∧
        result = algorithmResult rounded rawData.consumerNames best) ∧
      ∀ best, (inputs.ga.run rawData.C rawData.VA).Yields Admissible (.ok best) →
        (CompleteKeys rounded rawData.consumerNames inputs.iterations best ↔
          ∀ bs ∈ best, SolvedThrough bs) := by
  refine ⟨fun result => ?_, fun best hbest => ?_⟩
  · rw [run, yields_bind_ok]
    simp only [pure_eq, yields_ret, Except.ok.injEq]
  · exact completeKeys_iff rounded rawData.consumerNames
      (ensures_run inputs rawData.C rawData.VA best hbest)

/-! ### A key that is not complete -/

/-- Two iterations, one region, and a stop at the first generation without improvement. -/
def twoIterations : OlagsaInput ℚ :=
  { twoByDefault with
    generations := 1
    generations_ge := Nat.one_pos
    populationSize := 2
    populationSize_ge := Nat.one_lt_two
    maxGenerationsWithoutImprovement := 1
    maxGenerationsWithoutImprovement_ge := Nat.one_pos }

/-- One consumer and one time step, with as much production as consumption. -/
def oneConsumer : AlgorithmRawData 0 1 ℚ := ⟨fun _ _ => 1, fun _ _ => 1, []⟩

/-- The two candidates are drawn and not solved; of the key of the first, only the first
iteration is. -/
def secondSolveFails : List (Draw 0 ℚ) :=
  [.random (1 / 4), .random (1 / 4), .random (1 / 4), .random (1 / 4),
    .solved (.other "infeasible"), .solved (.other "infeasible"),
    .solved (.optimal fun _ => 1), .solved (.other "infeasible")]

theorem exists_best_secondSolveFails :
    ∃ best : List (BestSolution 0 1 ℚ),
      (twoIterations.ga.run oneConsumer.C oneConsumer.VA).Yields Admissible (.ok best) ∧
      ∃ key ∈ (algorithmResult (fun _ => "") [] best).keys, key.iterations.length = 1 := by
  obtain ⟨out, hout, htest⟩ := exists_yields_of_playsTo admissible_of_readDraw
    (show playsTo readDraw secondSolveFails
      (twoIterations.ga.run oneConsumer.C oneConsumer.VA)
      (fun out => match out with
        | .ok best => (algorithmResult (fun _ => "") [] best).keys.any fun key =>
            key.iterations.length == 1
        | .error _ => false) = true by decide +kernel)
  rcases out with e | best
  · cases htest
  · obtain ⟨key, hkey, hlength⟩ := List.any_eq_true.mp htest
    exact ⟨best, hout, key, hkey, beq_iff_eq.mp hlength⟩

theorem not_completeSplit_of_length {key : AllocationKeyResult ℚ}
    (hlength : key.iterations.length = 1) : ¬ CompleteSplit 2 key := by
  intro h
  have hnumbers := congrArg List.length h.numbers
  rw [List.length_map, List.length_map, List.length_range, hlength] at hnumbers
  cases hnumbers

/-- The key of one iteration is returned for two. -/
theorem not_run_complete :
    ¬ ∀ result, (run (fun _ => "") twoIterations oneConsumer).Yields Admissible (.ok result) →
      ∀ key ∈ result.keys, CompleteSplit 2 key := by
  intro h
  obtain ⟨best, hbest, key, hkey, hlength⟩ := exists_best_secondSolveFails
  refine not_completeSplit_of_length hlength (h _ ?_ key hkey)
  exact yields_bind_ok.mpr ⟨best, hbest, rfl⟩

/-- The same run: its result is made of its best solutions, and some candidate among them was
not solved through. -/
theorem run_complete_iff_secondSolveFails :
    ∃ best : List (BestSolution 0 1 ℚ),
      (run (fun _ => "") twoIterations oneConsumer).Yields Admissible
        (.ok (algorithmResult (fun _ => "") [] best)) ∧
      ¬ CompleteKeys (fun _ => "") [] 2 best ∧ ¬ ∀ bs ∈ best, SolvedThrough bs := by
  obtain ⟨best, hbest, key, hkey, hlength⟩ := exists_best_secondSolveFails
  obtain ⟨hresults, hiff⟩ := run_complete_iff (fun _ => "") twoIterations oneConsumer
  have hnot : ¬ CompleteKeys (fun _ => "") [] 2 best := fun hcomplete =>
    not_completeSplit_of_length hlength (hcomplete.complete key hkey)
  exact ⟨best, (hresults _).mpr ⟨best, hbest, rfl⟩, hnot, fun hthrough =>
    hnot ((hiff best hbest).mpr hthrough)⟩

end AllocationKeys.Olagsa
