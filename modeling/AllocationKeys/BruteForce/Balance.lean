import AllocationKeys.BruteForce.Rounds
import Mathlib.Algebra.Field.Rat
import Mathlib.Algebra.Order.Field.Rat

/-!
# Energy and demand balance of every key

No brute-force key creates or loses energy. Over its iterations the production of a time step
is what the consumers took of it plus the surplus of the last iteration, and a consumer's
consumption is what it took plus what the last iteration left unserved
(`generate_balanced`). Both are `EnergyRounds.production_balance` and
`EnergyRounds.demand_balance`, applied to the rounds of a run.
-/

namespace AllocationKeys.BruteForce

open EnergyRounds

variable {n T : ℕ} {K : Type*} [Field K] [LinearOrder K]

/-- What consumer `i` takes at `t` over the iterations of a key. -/
def consumedOver (its : List (Iteration n T K)) (i : Fin (n + 1)) (t : Fin T) : K :=
  (its.map fun it => (it.consumers i).energyAllocatedConsumed t).sum

/-- The balance of a key with iterations `its`, of which `last` is the last one. -/
structure Balanced (C VA : Fin (n + 1) → Fin T → K) (its : List (Iteration n T K))
    (last : Iteration n T K) : Prop where
  production : ∀ t, VA 0 t = ∑ i, consumedOver its i t + last.surplus t
  demand : ∀ i t, C i t = consumedOver its i t + (last.consumers i).residualVolume t
  withinDemand : ∀ i t, consumedOver its i t ≤ C i t
  surplusTotal : last.surplusTotal = ∑ t, (VA 0 t - ∑ i, consumedOver its i t)

variable [IsStrictOrderedRing K]

/-- Linked iterations that get the whole production between them are balanced. -/
theorem balanced_of_linked {C VA : Fin (n + 1) → Fin T → K} (hC : ∀ i t, 0 ≤ C i t)
    {its : List (Iteration n T K)} {last : Iteration n T K} (h : Linked (VA 0) C 0 its)
    (hshare : shareOver (its.map roundOf) = 1) (hlast : its.getLast? = some last) :
    Balanced C VA its last := by
  obtain ⟨hsurplus, hresidual, hsettled⟩ := final_of_linked h hlast
  have hserved : ∀ i t, servedOver C (its.map roundOf) i t = consumedOver its i t :=
    fun i t => servedOver_of_linked i t h
  have hproduction : ∀ t, VA 0 t = ∑ i, consumedOver its i t + last.surplus t := by
    intro t
    have hbal := production_balance (VA 0) t (its.map roundOf) C 0 (complete_of_linked h)
    simpa only [hshare, one_mul, Pi.zero_apply, add_zero, hserved, hsurplus] using hbal
  have hdemand : ∀ i t, C i t = consumedOver its i t + (last.consumers i).residualVolume t := by
    intro i t
    have hbal := demand_balance i t (its.map roundOf) C
    rwa [hserved, hresidual] at hbal
  refine ⟨hproduction, hdemand, fun i t => ?_, ?_⟩
  · have hleft := finalDemand_nonneg hC (its.map roundOf) i t
    rw [hresidual] at hleft
    linarith [hdemand i t]
  · rw [hsettled.surplusTotal]
    exact Finset.sum_congr rfl fun t _ => by rw [hproduction t, add_sub_cancel_left]

/-- The shares of the production over a run of choices add up to one. -/
theorem shareOver_keyRun {nbIterations : ℕ} {choice : List (K × AlgoName)}
    (hnb : nbIterations = 1 ∨ nbIterations = 2 ∨ nbIterations = 3)
    (hchoice : choice ∈ choices nbIterations) (root : Iteration n T K) :
    shareOver (((keyRun root choice).map Prod.snd).map roundOf) = 1 := by
  rw [shareOver, shares_keyRun, (choices_shares hnb hchoice).2.1]

omit [IsStrictOrderedRing K] in
theorem length_keyRun (root : Iteration n T K) (choice : List (K × AlgoName)) :
    (keyRun root choice).length = choice.length := by
  have h := congrArg List.length (shares_keyRun root choice)
  simpa only [List.length_map] using h

/-- **Energy and demand balance.**  The keys of the enumeration are the summaries of runs of
iterations, and each of these runs is balanced. -/
theorem generate_balanced (generator : BruteForceGenerator) (C VA : Fin (n + 1) → Fin T → K)
    (hC : ∀ i t, 0 ≤ C i t) :
    (generator.generate C VA).flatMap Node.paths
        = ((generator.generateWith id C VA).flatMap Node.paths).map
            (viewRun Iteration.summary) ∧
      ∀ path ∈ (generator.generateWith id C VA).flatMap Node.paths,
        ∃ last, (path.map Prod.snd).getLast? = some last ∧
          Balanced C VA (path.map Prod.snd) last := by
  have hview : ∀ steps : List (String × Iteration n T K), viewRun id steps = steps := fun steps =>
    List.map_id steps
  refine ⟨?_, fun path hpath => ?_⟩
  · simp only [BruteForceGenerator.generate, paths_generateWith, hview, List.map_map]
    rfl
  · rw [paths_generateWith] at hpath
    obtain ⟨choice, hchoice, rfl⟩ := List.mem_map.mp hpath
    rw [hview]
    have hnonempty : (keyRun (makeRootIteration C VA) choice).map Prod.snd ≠ [] := by
      rw [← List.length_pos_iff, List.length_map, length_keyRun,
        (choices_shares generator.valid hchoice).2.2]
      rcases generator.valid with h | h | h <;> omega
    have hlast := List.getLast?_eq_getLast_of_ne_nil hnonempty
    exact ⟨_, hlast, balanced_of_linked hC (linked_keyRun _ hC choice)
      (shareOver_keyRun generator.valid hchoice _) hlast⟩

/-- Two consumers and three times their demand: 99 keys of two iterations, all balanced. -/
theorem generate_balanced_steady :
    let generator : BruteForceGenerator := ⟨2, by decide⟩
    let paths := (generator.generateWith id (fun _ _ => 1 : Fin 2 → Fin 2 → ℚ)
      fun _ _ => 6).flatMap Node.paths
    paths.length = 99 ∧ ∀ path ∈ paths, ∃ last, (path.map Prod.snd).getLast? = some last ∧
      Balanced (fun _ _ => 1) (fun _ _ => 6) (path.map Prod.snd) last :=
  ⟨by decide +kernel,
    (generate_balanced ⟨2, by decide⟩ (fun _ _ => 1) (fun _ _ => 6) (by decide)).2⟩

end AllocationKeys.BruteForce
