import AllocationKeys.BruteForce.Shares
import Mathlib.Data.List.Nodup
import Mathlib.Data.Nat.Choose.Basic
import Mathlib.Data.Set.List

/-!
# The enumeration is exhaustive

The generator promises every sequence of distribution functions with every split of the production
in steps of 10 %. The loops work on fractions and compute the last share as a difference;
`run_recipes` says that they reach every such split with every sequence of functions, each exactly
once, and nothing else, and how many keys there are: 3, 99 or 1782.

That no sequence comes twice is read off the loops one by one: what a loop variable contributes to a
sequence can be read back from it (`nodup_flatMap_of_read`).
-/

namespace AllocationKeys.BruteForce

open Algorithms

variable {n T : ℕ} {K α β γ : Type*}

/-- The functions and percentages of a path. -/
def recipe (path : List (String × IterationSummary n K)) : List (String × K) :=
  path.map fun step => (step.1, step.2.energyAllocatedPercentage)

/-- A split of the production in steps of 10 %, each part with a distribution function. -/
structure Split [Field K] (nbIterations : ℕ) (steps : List (String × K)) : Prop where
  length : steps.length = nbIterations
  functions : ∀ step ∈ steps, ∃ algo : AlgoName, step.1 = algo.toString
  tenths : ∀ step ∈ steps, ∃ k : ℕ, step.2 = (k : K) / 10
  whole : (steps.map Prod.snd).sum = 1

/-! ### Loops that repeat nothing -/

/-- A loop repeats nothing when no round does and the round can be read back from what it adds. -/
theorem nodup_flatMap_of_read {l : List α} {f : α → List β} (read : β → γ) (label : α → γ)
    (hlabel : (l.map label).Nodup) (hf : ∀ a ∈ l, (f a).Nodup)
    (hread : ∀ a ∈ l, ∀ b ∈ f a, read b = label a) : (l.flatMap f).Nodup := by
  rw [List.nodup_flatMap]
  refine ⟨hf, ?_⟩
  have hpairwise := List.pairwise_map.mp (List.nodup_iff_pairwise_ne.mp hlabel)
  refine List.Pairwise.imp_of_mem ?_ hpairwise
  intro a a' ha ha' hne b hb hb'
  exact hne ((hread a ha b hb).symm.trans (hread a' ha' b hb'))

theorem mem_algoNames (algo : AlgoName) : algo ∈ algoNames := by
  cases algo <;> simp [algoNames]

variable [Field K] [LinearOrder K] [IsStrictOrderedRing K]

theorem tenth_injective : Function.Injective fun i : ℕ => (i : K) / 10 := by
  intro i j h
  have hten : (10 : K) ≠ 0 := by norm_num
  exact Nat.cast_injective ((div_left_inj' hten).mp h)

/-- The tenths of a loop are different, also when they are read off a choice. -/
theorem nodup_tenths (k : ℕ) : ((List.range k).map fun i : ℕ => some ((i : K) / 10)).Nodup :=
  List.nodup_range.map ((Option.some_injective K).comp tenth_injective)

omit [Field K] [LinearOrder K] [IsStrictOrderedRing K] in
/-- A loop over the functions repeats nothing. -/
theorem nodup_functions {f : AlgoName → List (List (K × AlgoName))}
    (read : List (K × AlgoName) → Option AlgoName) (hf : ∀ algo, (f algo).Nodup)
    (hread : ∀ algo, ∀ choice ∈ f algo, read choice = some algo) :
    (algoNames.flatMap f).Nodup := by
  refine nodup_flatMap_of_read read some (by decide) (fun algo _ => hf algo) ?_
  exact fun algo _ => hread algo

/-! ### The choices -/

/-- **No choice comes twice.** -/
theorem nodup_choices {nbIterations : ℕ}
    (hnb : nbIterations = 1 ∨ nbIterations = 2 ∨ nbIterations = 3) :
    (choices nbIterations : List (List (K × AlgoName))).Nodup := by
  have hlast : ∀ before : List (K × AlgoName), ∀ pct : K,
      (algoNames.map fun algo => before ++ [(pct, algo)]).Nodup := by
    intro before pct
    refine List.Nodup.map (fun algo algo' h => ?_) (by decide)
    exact (Prod.mk.inj (List.singleton_inj.mp (List.append_cancel_left h))).2
  rcases hnb with rfl | rfl | rfl
  · exact hlast [] 1
  · -- two iterations: the first share, then the functions, are read off a choice
    simp only [choices, OfNat.ofNat_ne_one, if_false, if_true]
    refine nodup_flatMap_of_read (fun choice => (choice.map Prod.fst).head?)
      (fun i : ℕ => some ((i : K) / 10)) ?_ (fun i _ => ?_) ?_
    · exact nodup_tenths _
    · refine nodup_functions (fun choice => (choice.map Prod.snd).head?) ?_ ?_
      · exact fun algo1 => hlast [((i : K) / 10, algo1)] _
      · intro algo1 choice hchoice
        obtain ⟨algo2, -, rfl⟩ := List.mem_map.mp hchoice
        rfl
    · intro i _ choice hchoice
      obtain ⟨algo1, -, hchoice⟩ := List.mem_flatMap.mp hchoice
      obtain ⟨algo2, -, rfl⟩ := List.mem_map.mp hchoice
      rfl
  · -- three iterations: both shares, then the functions, are read off a choice
    simp only [choices, OfNat.ofNat_ne_one, if_false, Nat.reduceEqDiff]
    refine nodup_flatMap_of_read (fun choice => (choice.map Prod.fst).head?)
      (fun i : ℕ => some ((i : K) / 10)) ?_ (fun i _ => ?_) ?_
    · exact nodup_tenths _
    · refine nodup_flatMap_of_read (fun choice => (choice.map Prod.fst)[1]?)
        (fun j : ℕ => some ((j : K) / 10)) ?_ (fun j _ => ?_) ?_
      · exact nodup_tenths _
      · refine nodup_functions (fun choice => (choice.map Prod.snd).head?) (fun algo1 => ?_) ?_
        · refine nodup_functions (fun choice => (choice.map Prod.snd)[1]?) (fun algo2 => ?_) ?_
          · exact hlast [((i : K) / 10, algo1), ((j : K) / 10, algo2)] _
          · intro algo2 choice hchoice
            obtain ⟨algo3, -, rfl⟩ := List.mem_map.mp hchoice
            rfl
        · intro algo1 choice hchoice
          obtain ⟨algo2, -, hchoice⟩ := List.mem_flatMap.mp hchoice
          obtain ⟨algo3, -, rfl⟩ := List.mem_map.mp hchoice
          rfl
      · intro j _ choice hchoice
        obtain ⟨algo1, -, hchoice⟩ := List.mem_flatMap.mp hchoice
        obtain ⟨algo2, -, hchoice⟩ := List.mem_flatMap.mp hchoice
        obtain ⟨algo3, -, rfl⟩ := List.mem_map.mp hchoice
        rfl
    · intro i _ choice hchoice
      obtain ⟨j, -, hchoice⟩ := List.mem_flatMap.mp hchoice
      obtain ⟨algo1, -, hchoice⟩ := List.mem_flatMap.mp hchoice
      obtain ⟨algo2, -, hchoice⟩ := List.mem_flatMap.mp hchoice
      obtain ⟨algo3, -, rfl⟩ := List.mem_map.mp hchoice
      rfl

omit [LinearOrder K] [IsStrictOrderedRing K] in
theorem tenths_sum [CharZero K] {a b : ℕ} (h : (a : K) / 10 + (b : K) / 10 = 1) : a + b = 10 := by
  have hsum : ((a + b : ℕ) : K) = (10 : ℕ) := by
    push_cast
    rw [← add_div, div_eq_one_iff_eq (by norm_num)] at h
    exact h
  exact Nat.cast_injective hsum

/-- The loops reach every split with every sequence of functions. -/
theorem mem_choices {nbIterations : ℕ}
    (hnb : nbIterations = 1 ∨ nbIterations = 2 ∨ nbIterations = 3)
    {choice : List (K × AlgoName)} (hlength : choice.length = nbIterations)
    (htenths : ∀ step ∈ choice, ∃ k : ℕ, step.1 = (k : K) / 10)
    (hwhole : (choice.map Prod.fst).sum = 1) : choice ∈ choices nbIterations := by
  rcases hnb with rfl | rfl | rfl
  · obtain ⟨⟨pct, algo⟩, rfl⟩ := List.length_eq_one_iff.mp hlength
    have hpct : pct = 1 := by simpa using hwhole
    rw [hpct]
    simp only [choices, if_true]
    exact List.mem_map_of_mem (mem_algoNames algo)
  · -- the second share is what the first one leaves
    obtain ⟨⟨pct1, algo1⟩, ⟨pct2, algo2⟩, rfl⟩ := List.length_eq_two.mp hlength
    obtain ⟨a, rfl⟩ : ∃ a : ℕ, pct1 = (a : K) / 10 :=
      htenths (pct1, algo1) (by simp)
    obtain ⟨b, rfl⟩ : ∃ b : ℕ, pct2 = (b : K) / 10 :=
      htenths (pct2, algo2) (by simp)
    have hsum : (a : K) / 10 + (b : K) / 10 = 1 := by simpa using hwhole
    have hab := tenths_sum hsum
    have hsecond : (b : K) / 10 = 1 - (a : K) / 10 := eq_sub_of_add_eq' hsum
    simp only [choices, OfNat.ofNat_ne_one, if_false, if_true]
    rw [hsecond]
    refine List.mem_flatMap.mpr ⟨a, List.mem_range.mpr (by omega), ?_⟩
    refine List.mem_flatMap.mpr ⟨algo1, mem_algoNames algo1, ?_⟩
    exact List.mem_map_of_mem (mem_algoNames algo2)
  · -- the third share is what the two others leave
    obtain ⟨⟨pct1, algo1⟩, ⟨pct2, algo2⟩, ⟨pct3, algo3⟩, rfl⟩ := List.length_eq_three.mp hlength
    obtain ⟨a, rfl⟩ : ∃ a : ℕ, pct1 = (a : K) / 10 :=
      htenths (pct1, algo1) (by simp)
    obtain ⟨b, rfl⟩ : ∃ b : ℕ, pct2 = (b : K) / 10 :=
      htenths (pct2, algo2) (by simp)
    obtain ⟨c, rfl⟩ : ∃ c : ℕ, pct3 = (c : K) / 10 :=
      htenths (pct3, algo3) (by simp)
    have hsum : (a : K) / 10 + ((b : K) / 10 + (c : K) / 10) = 1 := by simpa using hwhole
    have habc : a + (b + c) = 10 := by
      refine tenths_sum (K := K) ?_
      push_cast
      rw [add_div, hsum]
    have hthird : (c : K) / 10 = thirdShare ((a : K) / 10) ((b : K) / 10) := by
      rw [thirdShare_eq (by omega)]
      linarith
    simp only [choices, OfNat.ofNat_ne_one, if_false, Nat.reduceEqDiff]
    rw [hthird]
    refine List.mem_flatMap.mpr ⟨a, List.mem_range.mpr (by omega), ?_⟩
    refine List.mem_flatMap.mpr ⟨b, List.mem_range.mpr (by omega), ?_⟩
    refine List.mem_flatMap.mpr ⟨algo1, mem_algoNames algo1, ?_⟩
    refine List.mem_flatMap.mpr ⟨algo2, mem_algoNames algo2, ?_⟩
    exact List.mem_map_of_mem (mem_algoNames algo3)

theorem choices_tenths {nbIterations : ℕ}
    (hnb : nbIterations = 1 ∨ nbIterations = 2 ∨ nbIterations = 3)
    {choice : List (K × AlgoName)} (h : choice ∈ choices nbIterations) :
    ∀ step ∈ choice, ∃ k : ℕ, step.1 = (k : K) / 10 := by
  have hten : (10 : K) ≠ 0 := by norm_num
  rcases hnb with rfl | rfl | rfl
  · simp only [choices, if_true, List.mem_map] at h
    obtain ⟨algo, -, rfl⟩ := h
    simp only [List.mem_singleton, forall_eq]
    exact ⟨10, by rw [Nat.cast_ofNat, div_self hten]⟩
  · simp only [choices, OfNat.ofNat_ne_one, if_false, if_true, List.mem_flatMap,
      List.mem_range, List.mem_map] at h
    obtain ⟨i, hi, algo1, -, algo2, -, rfl⟩ := h
    simp only [List.mem_cons, List.not_mem_nil, or_false, forall_eq_or_imp, forall_eq]
    refine ⟨⟨i, rfl⟩, 10 - i, ?_⟩
    rw [Nat.cast_sub (by omega), sub_div, Nat.cast_ofNat, div_self hten]
  · simp only [choices, OfNat.ofNat_ne_one, if_false, Nat.reduceEqDiff, List.mem_flatMap,
      List.mem_range, List.mem_map] at h
    obtain ⟨i, hi, j, hj, algo1, -, algo2, -, algo3, -, rfl⟩ := h
    simp only [List.mem_cons, List.not_mem_nil, or_false, forall_eq_or_imp, forall_eq]
    refine ⟨⟨i, rfl⟩, ⟨j, rfl⟩, 10 - i - j, ?_⟩
    rw [thirdShare_eq (by omega), Nat.cast_sub (by omega), Nat.cast_sub (by omega), sub_div,
      sub_div, Nat.cast_ofNat, div_self hten]

omit [IsStrictOrderedRing K] in
theorem length_choices {nbIterations : ℕ}
    (hnb : nbIterations = 1 ∨ nbIterations = 2 ∨ nbIterations = 3) :
    (choices nbIterations : List (List (K × AlgoName))).length =
      3 ^ nbIterations * (9 + nbIterations).choose (nbIterations - 1) := by
  rcases hnb with rfl | rfl | rfl
  · rfl
  · simp only [choices, OfNat.ofNat_ne_one, if_false, if_true, List.length_flatMap,
      List.length_map, algoNames]
    decide
  · simp only [choices, OfNat.ofNat_ne_one, if_false, Nat.reduceEqDiff, List.length_flatMap,
      List.length_map, algoNames]
    decide

/-! ### The keys -/

omit [IsStrictOrderedRing K] in
theorem recipe_continueRun (root : Iteration n T K) :
    ∀ (choice : List (K × AlgoName)) (previous : Iteration n T K),
      recipe (viewRun Iteration.summary (continueRun root previous choice)) =
        choice.map fun step => (step.2.toString, step.1) := by
  intro choice
  induction choice with
  | nil => intro previous; rfl
  | cons head choice ih =>
    intro previous
    have hrest := ih (post head.2 (buildNextIteration root previous head.1))
    have hpct : (post head.2
        (buildNextIteration root previous head.1)).summary.energyAllocatedPercentage = head.1 :=
      (post_fields head.2 _).2.1
    simp only [recipe, viewRun, continueRun, List.map_cons] at hrest ⊢
    rw [hrest, hpct]

omit [IsStrictOrderedRing K] in
theorem recipe_keyRun (root : Iteration n T K) (choice : List (K × AlgoName)) :
    recipe (viewRun Iteration.summary (keyRun root choice)) =
      choice.map fun step => (step.2.toString, step.1) := by
  rcases choice with _ | ⟨⟨pct, algo⟩, choice⟩
  · rfl
  · have hrest := recipe_continueRun root choice (applyFirst id root pct algo).2
    have hpct : (applyFirst id root pct algo).2.summary.energyAllocatedPercentage = pct := by
      rw [applyFirst, algos_eq]
      exact (post_fields algo _).2.1
    simp only [recipe, viewRun, keyRun, List.map_cons] at hrest ⊢
    rw [hrest, hpct]

/-- **Every split with every sequence of functions, exactly once.** Whatever the readings, the
recipes of the paths that the generator enumerates are all different, and they are exactly the
sequences of as many functions as there are iterations with shares in steps of 10 % that make up the
whole. The result has one key per path: `3`, `99` or `1782`. -/
theorem run_recipes (rounded : K → String) (inputs : BruteForceInput)
    (rawData : AlgorithmRawData n T K) :
    let paths := (inputs.generator.generate rawData.C rawData.VA).flatMap Node.paths
    (paths.map recipe).Nodup ∧
      (∀ steps, steps ∈ paths.map recipe ↔ Split inputs.iterations steps) ∧
      (run rounded inputs rawData).keys.Perm
        (paths.map (keyOfPath rounded rawData.consumerNames)) ∧
      (run rounded inputs rawData).keys.length =
        3 ^ inputs.iterations * (9 + inputs.iterations).choose (inputs.iterations - 1) := by
  intro paths
  have hnb := inputs.generator.valid
  -- a path of the enumeration is the run of one choice
  have hpaths : paths = (choices inputs.iterations).map fun choice =>
      viewRun Iteration.summary (keyRun (makeRootIteration rawData.C rawData.VA) choice) :=
    paths_generateWith Iteration.summary inputs.generator rawData.C rawData.VA
  have hrecipes : paths.map recipe =
      (choices inputs.iterations).map (List.map fun step => (step.2.toString, step.1)) := by
    rw [hpaths, List.map_map]
    exact List.map_congr_left fun choice _ => recipe_keyRun _ choice
  -- a recipe names its choice, as no two functions have the same name
  have hinjective : Function.Injective fun step : K × AlgoName => (step.2.toString, step.1) := by
    intro step step' h
    obtain ⟨halgo, hpct⟩ := Prod.mk.inj h
    exact Prod.ext hpct (AlgoName.toString_injective halgo)
  have hperm : (run rounded inputs rawData).keys.Perm
      (paths.map (keyOfPath rounded rawData.consumerNames)) := by
    rw [run_keys, runs, hpaths, List.map_map, List.map_map]
    exact List.perm_insertionSort _ _
  refine ⟨?_, fun steps => ?_, hperm, ?_⟩
  · rw [hrecipes]
    exact (nodup_choices hnb).map (List.map_injective_iff.mpr hinjective)
  · rw [hrecipes, List.mem_map]
    constructor
    · -- the recipe of a choice is a split
      rintro ⟨choice, hchoice, rfl⟩
      obtain ⟨-, hsum, hlength⟩ := choices_shares hnb hchoice
      refine ⟨(List.length_map _).trans hlength, ?_, ?_, ?_⟩
      · intro step hstep
        obtain ⟨⟨pct, algo⟩, -, rfl⟩ := List.mem_map.mp hstep
        exact ⟨algo, rfl⟩
      · intro step hstep
        obtain ⟨source, hsource, rfl⟩ := List.mem_map.mp hstep
        exact choices_tenths hnb hchoice source hsource
      · rw [List.map_map]
        exact hsum
    · -- a split is the recipe of the choice of its shares and functions
      intro h
      obtain ⟨choice, rfl⟩ : ∃ choice : List (K × AlgoName),
          choice.map (fun step => (step.2.toString, step.1)) = steps := by
        rw [← Set.mem_range, Set.range_list_map]
        intro step hstep
        obtain ⟨algo, halgo⟩ := h.functions step hstep
        exact ⟨(step.2, algo), Prod.ext halgo.symm rfl⟩
      refine ⟨choice, mem_choices hnb ?_ ?_ ?_, rfl⟩
      · exact (List.length_map _).symm.trans h.length
      · intro step hstep
        exact h.tenths _ (List.mem_map_of_mem hstep)
      · have hwhole := h.whole
        rwa [List.map_map] at hwhole
  · rw [hperm.length_eq, hpaths, List.length_map, List.length_map]
    exact length_choices hnb

/-- Two meters over one time step, and two iterations. -/
theorem run_recipes_two :
    (run (fun _ => "") ⟨2, by decide, by decide⟩
      (⟨![![3], ![1]], fun _ _ => 2, ["north", "south"]⟩ : AlgorithmRawData 1 1 ℚ)).keys.length =
        99 :=
  (run_recipes (fun _ => "") ⟨2, by decide, by decide⟩ ⟨![![3], ![1]], fun _ _ => 2, _⟩).2.2.2

end AllocationKeys.BruteForce
