import AllocationKeys.BruteForce.Replay

/-!
# The shares a key reports

A reported iteration says what part of the production it gets, and what part of its energy each
consumer gets. The parts of the production make up the whole over the iterations of a key; the
parts of the consumers make up the whole in every iteration, except in one that `prorata` went
through without any energy: the share of nothing is reported as `0` for everybody
(`run_shares`).
-/

namespace AllocationKeys.BruteForce

open Algorithms

variable {n T : ℕ} {K : Type*} [Field K] [LinearOrder K]

/-- The function of the step is `prorata`, and there is nothing to distribute. -/
def ProrataOfNothing (step : String × Iteration n T K) : Prop :=
  step.1 = AlgoName.prorata.toString ∧ ∑ t, step.2.energyAllocated 0 t = 0

open Classical in
/-- What the report of a step says about its consumers. -/
structure ReportsShares (step : String × Iteration n T K) (it : IterationResult K) : Prop where
  bounded : ∀ c ∈ it.consumers, 0 ≤ c.energyAllocatedPercentage ∧ c.energyAllocatedPercentage ≤ 1
  total : (it.consumers.map ConsumerResult.energyAllocatedPercentage).sum
    = if ProrataOfNothing step then 0 else 1

/-! ### One iteration -/

variable [IsStrictOrderedRing K]

theorem sum_recordedShare {algo : AlgoName} (halgo : algo ≠ .prorata) (it : Iteration n T K) :
    ∑ i, recordedShare algo it i = 1 := by
  cases algo with
  | prorata => exact absurd rfl halgo
  | egalitaire =>
    have hcard : ((n + 1 : ℕ) : K) ≠ 0 := Nat.cast_ne_zero.mpr (Nat.succ_ne_zero n)
    simp only [recordedShare, Finset.sum_const, Finset.card_univ, Fintype.card_fin, nsmul_eq_mul]
    exact mul_one_div_cancel hcard
  | prorataTotal =>
    simp only [recordedShare]
    by_cases htotal : ∑ j, ∑ u, (it.consumers j).consumption u = 0
    · simp only [htotal, if_true]
      exact sum_if_zero _
    · simp only [htotal, if_false]
      rw [← Finset.sum_div, div_self htotal]

/-- The parts that `egalitaire` and `prorata_total` report are the shares they record. -/
theorem consumerPercentages_recorded {algo : AlgoName} (halgo : algo ≠ .prorata)
    {it : Iteration n T K} (hd : ∀ i t, 0 ≤ (it.consumers i).consumption t) :
    (post algo it).summary.consumerPercentages = recordedShare algo it := by
  funext i
  have hshare := ((post_fields algo it).2.2 i).2.2
  have hnonneg := recordedShare_nonneg halgo hd i
  rw [← hshare] at hnonneg ⊢
  exact consumerPercentages_of_nonneg hnonneg

/-- The parts that `prorata` reports are those of the allocations in the whole energy. -/
theorem consumerPercentages_prorata (it : Iteration n T K) (i : Fin (n + 1)) :
    (post .prorata it).summary.consumerPercentages i =
      if 0 < ∑ t, it.energyAllocated 0 t then
        (∑ t, allocation .prorata it i t) / ∑ t, it.energyAllocated 0 t
      else 0 := by
  have hmark : ¬ 0 ≤ ((post .prorata it).consumers i).energyAllocatedPercentage := by
    show ¬ (0 : K) ≤ -1
    linarith [zero_lt_one (α := K)]
  simp only [Iteration.summary, if_neg hmark, (post_fields .prorata it).1,
    ((post_fields .prorata it).2.2 i).2.1]

theorem allocation_prorata_nonneg {it : Iteration n T K}
    (hd : ∀ i t, 0 ≤ (it.consumers i).consumption t) (henergy : ∀ t, 0 ≤ it.energyAllocated 0 t)
    (i : Fin (n + 1)) (t : Fin T) : 0 ≤ allocation .prorata it i t := by
  have hsum : 0 ≤ ∑ j, (it.consumers j).consumption t := Finset.sum_nonneg fun j _ => hd j t
  simp only [allocation, prorataAllocated, prorataShare]
  split_ifs
  · exact mul_nonneg (henergy t) (div_nonneg (hd i t) hsum)
  · exact le_rfl
  · exact henergy t
  · exact le_rfl

open Classical in
/-- The parts of an iteration are nonnegative and make up the whole, or nothing. -/
theorem shares_of_origin {step : String × Iteration n T K} (h : Origin step) :
    (∀ i, 0 ≤ step.2.summary.consumerPercentages i) ∧
      ∑ i, step.2.summary.consumerPercentages i = if ProrataOfNothing step then 0 else 1 := by
  obtain ⟨algo, it, rfl, hd, henergy⟩ := h
  by_cases halgo : algo = .prorata
  swap
  · have hnot : ¬ ProrataOfNothing (algo.toString, post algo it) := fun hnothing =>
      halgo (AlgoName.toString_injective hnothing.1)
    rw [if_neg hnot]
    simp only [consumerPercentages_recorded halgo hd]
    exact ⟨recordedShare_nonneg halgo hd, sum_recordedShare halgo it⟩
  subst halgo
  have henergyPost : (post .prorata it).energyAllocated = it.energyAllocated :=
    (post_fields .prorata it).1
  have hnothing : ProrataOfNothing (AlgoName.prorata.toString, post .prorata it) ↔
      ∑ t, it.energyAllocated 0 t = 0 := by
    simp only [ProrataOfNothing, henergyPost, true_and]
  simp only [consumerPercentages_prorata, hnothing]
  rcases (Finset.sum_nonneg fun t _ => henergy t : 0 ≤ ∑ t, it.energyAllocated 0 t).eq_or_lt
    with hzero | hpos
  · simp [← hzero]
  · simp only [hpos, hpos.ne', if_true, if_false]
    refine ⟨fun i => div_nonneg (Finset.sum_nonneg fun t _ => ?_) hpos.le, ?_⟩
    · exact allocation_prorata_nonneg hd henergy i t
    · rw [← Finset.sum_div, Finset.sum_comm]
      simp only [sum_allocation .prorata hd]
      exact div_self hpos.ne'

/-- The report of an iteration as a run has it. -/
theorem reportsShares_of_origin {step : String × Iteration n T K} (h : Origin step) (number : ℕ)
    (consumerNames : List String) :
    ReportsShares step (iterationResult step.2.summary number consumerNames) := by
  obtain ⟨hnonneg, htotal⟩ := shares_of_origin h
  refine ⟨fun c hc => ?_, ?_⟩
  · obtain ⟨i, rfl⟩ := (List.mem_ofFn' _ _).mp hc
    have hle := Finset.single_le_sum (fun j _ => hnonneg j) (Finset.mem_univ i)
    rw [htotal] at hle
    refine ⟨hnonneg i, hle.trans ?_⟩
    split
    · exact zero_le_one
    · exact le_rfl
  · rw [← htotal]
    simp only [iterationResult, consumerResults, List.map_ofFn, List.sum_ofFn]
    rfl

/-! ### Whole keys -/

theorem reportsShares_pathResults (consumerNames : List String) :
    ∀ (steps : List (String × Iteration n T K)) (number : ℕ), (∀ step ∈ steps, Origin step) →
      List.Forall₂ ReportsShares steps
        (pathResults consumerNames number (viewRun Iteration.summary steps)) := by
  intro steps
  induction steps with
  | nil => intro number _; exact List.Forall₂.nil
  | cons step steps ih =>
    intro number horigin
    obtain ⟨hstep, hsteps⟩ := List.forall_mem_cons.mp horigin
    exact List.Forall₂.cons (reportsShares_of_origin hstep number consumerNames)
      (ih (number + 1) hsteps)

omit [IsStrictOrderedRing K] in
theorem shares_pathResults (consumerNames : List String) :
    ∀ (steps : List (String × Iteration n T K)) (number : ℕ),
      (pathResults consumerNames number (viewRun Iteration.summary steps)).map
        IterationResult.energyAllocatedPercentage
          = ((steps.map Prod.snd).map roundOf).map EnergyRounds.Round.share := by
  intro steps
  induction steps with
  | nil => intro number; rfl
  | cons step steps ih =>
    intro number
    exact congrArg (step.2.energyAllocatedPercentage :: ·) (ih (number + 1))

/-- **The shares of a key are a split of the production and of every energy there is.** Every key of
the result is the key of a path of iterations. The parts of the production lie between `0` and `1`
and sum to one; so do the parts of the consumers in each iteration, except that they are all `0` in
an iteration of `prorata` that had no energy. -/
theorem run_shares (rounded : K → String) (inputs : BruteForceInput)
    (rawData : AlgorithmRawData n T K) (hC : ∀ i t, 0 ≤ rawData.C i t)
    (hVA : ∀ i t, 0 ≤ rawData.VA i t) :
    ∀ key ∈ (run rounded inputs rawData).keys,
      ∃ path ∈ (inputs.generator.generateWith id rawData.C rawData.VA).flatMap Node.paths,
        key = keyOfRun rounded rawData.consumerNames path ∧
        (∀ it ∈ key.iterations,
          0 ≤ it.energyAllocatedPercentage ∧ it.energyAllocatedPercentage ≤ 1) ∧
        (key.iterations.map IterationResult.energyAllocatedPercentage).sum = 1 ∧
        List.Forall₂ ReportsShares path key.iterations := by
  have hpaths : (inputs.generator.generateWith id rawData.C rawData.VA).flatMap Node.paths
      = runs inputs rawData := by
    rw [paths_generateWith id inputs.generator rawData.C rawData.VA]
    exact List.map_congr_left fun choice _ => List.map_id _
  intro key hkey
  obtain ⟨path, hpath, rfl⟩ := mem_run_keys.mp hkey
  obtain ⟨choice, hchoice, rfl⟩ := List.mem_map.mp hpath
  obtain ⟨hnonneg, hsum, -⟩ := choices_shares inputs.generator.valid hchoice
  refine ⟨_, by rwa [hpaths], rfl, ?_, ?_, ?_⟩
  · have hshares : (keyOfRun rounded rawData.consumerNames
        (keyRun (makeRootIteration rawData.C rawData.VA) choice)).iterations.map
          IterationResult.energyAllocatedPercentage = choice.map Prod.fst :=
      (shares_pathResults ..).trans (shares_keyRun _ choice)
    intro it hit
    have hmem := List.mem_map_of_mem (f := IterationResult.energyAllocatedPercentage) hit
    rw [hshares] at hmem
    -- shares that sum to 1 are at most 1
    have hall : ∀ x ∈ choice.map Prod.fst, 0 ≤ x := by
      intro x hx
      obtain ⟨step, hstep, rfl⟩ := List.mem_map.mp hx
      exact hnonneg step hstep
    refine ⟨hall _ hmem, ?_⟩
    rw [← hsum]
    exact List.single_le_sum hall _ hmem
  · rw [← hsum, ← shares_keyRun (makeRootIteration rawData.C rawData.VA) choice]
    exact congrArg List.sum (shares_pathResults ..)
  · exact reportsShares_pathResults _ _ 1
      (origin_keyRun hC (fun t => hVA 0 t) hnonneg)

/-- One consumer and steady figures: the keys of two iterations. -/
def steady : AlgorithmRawData 0 1 ℚ := ⟨fun _ _ => 1, fun _ _ => 1, []⟩

theorem run_shares_steady :
    ((run (fun _ => "") ⟨2, by decide, by decide⟩ steady).keys).length = 99 ∧
      ∀ key ∈ (run (fun _ => "") ⟨2, by decide, by decide⟩ steady).keys,
        (key.iterations.map IterationResult.energyAllocatedPercentage).sum = 1 := by
  refine ⟨by decide +kernel, fun key hkey => ?_⟩
  obtain ⟨_, _, _, _, hsum, _⟩ := run_shares (fun _ => "") ⟨2, by decide, by decide⟩ steady
    (by decide) (by decide) key hkey
  exact hsum

/-- A first iteration of `prorata` at 0 % gives nobody a part. -/
theorem not_shares_prorata :
    ¬ ∀ key ∈ (run (fun _ => "") ⟨2, by decide, by decide⟩ steady).keys, ∀ it ∈ key.iterations,
      (it.consumers.map ConsumerResult.energyAllocatedPercentage).sum = 1 := by
  decide +kernel

end AllocationKeys.BruteForce
