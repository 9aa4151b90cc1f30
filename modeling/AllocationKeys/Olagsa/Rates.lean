import AllocationKeys.Lib.Chance
import AllocationKeys.Olagsa.Individuals

/-!
# What the breeding rates mean

The draws of a search average a quantity as their distributions do: `random()` is uniform on
`[0, 1)`, `randint(0, high)` on its integers, and `choice` draws independent indices with the
probabilities it is given (`averages`). `breedIntraMarked` and `mutateMarked` are `_breed_intra`
and the mutation of a child with a mark that tells which branch made the child; forgetting the
mark gives back the two programs (`breedIntraMarked_bind`, `mutateMarked_bind`).

`_mutate` compares its rate with `random()`, so a child mutates with the probability of the rate
(`prob_mutated`). `_breed_intra` compares its rate with `randint(0, 1)`, and the probability of
a crossover is 0 or 1/2, whatever the rate (`prob_crossed`).
-/

namespace AllocationKeys.Olagsa

open Program MeasureTheory

open scoped ENNReal

variable {n T : ℕ}

/-! ### The draws -/

/-- The average over `random()`. -/
noncomputable def randomAverage (f : ℝ → ℝ≥0∞) : ℝ≥0∞ := ∫⁻ u in Set.Ico (0 : ℝ) 1, f u

/-- The average over `randint(0, high)`. -/
noncomputable def randintAverage (high : ℕ) (f : ℕ → ℝ≥0∞) : ℝ≥0∞ :=
  (∑ i ∈ Finset.range (high + 1), f i) / (high + 1 : ℕ)

/-- The average over `size` independent indices. -/
noncomputable def choiceAverage (probabilities : List ℝ) :
    ℕ → (List ℕ → ℝ≥0∞) → ℝ≥0∞
  | 0, f => f []
  | size + 1, f => ∑ i : Fin probabilities.length, ENNReal.ofReal probabilities[i] *
      choiceAverage probabilities size fun indices => f (i :: indices)

/-- The averages over the draws, with a solver that answers `answers`. -/
noncomputable def averages
    (answers : (Fin T → ℝ) → (Fin (n + 1) → Fin T → ℝ) → SolverAnswer n ℝ) :
    Averages (Call n T ℝ) Reply
  | .random, f => randomAverage f
  | .randint high, f => randintAverage high f
  | .choice probabilities size, f => choiceAverage probabilities size f
  | .solve va C, f => f (answers va C)

/-- A choice is given probabilities. -/
def Proper : Call n T ℝ → Prop
  | .choice probabilities _ => (∀ q ∈ probabilities, 0 ≤ q) ∧ probabilities.sum = 1
  | _ => True

/-- Only draws between 0 and 1 count. -/
theorem randomAverage_congr {f g : ℝ → ℝ≥0∞} (h : ∀ u, 0 ≤ u → u < 1 → f u = g u) :
    randomAverage f = randomAverage g :=
  setLIntegral_congr_fun measurableSet_Ico fun u hu => h u hu.1 hu.2

/-- The average of a constant. -/
theorem randomAverage_const (c : ℝ≥0∞) : randomAverage (fun _ => c) = c := by
  rw [randomAverage, setLIntegral_const, Real.volume_Ico, sub_zero, ENNReal.ofReal_one, mul_one]

/-- `random()` is below `rate` with probability `rate`. -/
theorem randomAverage_lt {rate : ℝ} (h : rate ≤ 1) :
    randomAverage (fun u => if u < rate then 1 else 0) = ENNReal.ofReal rate := by
  have hset : (fun u : ℝ => if u < rate then (1 : ℝ≥0∞) else 0) =
      (Set.Iio rate).indicator fun _ => 1 := by
    funext u
    by_cases hu : u < rate
    · rw [if_pos hu, Set.indicator_of_mem (Set.mem_Iio.mpr hu)]
    · rw [if_neg hu, Set.indicator_of_notMem (by simpa using hu)]
  have hinter : Set.Iio rate ∩ Set.Ico (0 : ℝ) 1 = Set.Ico 0 rate := by
    ext u
    simp only [Set.mem_inter_iff, Set.mem_Iio, Set.mem_Ico]
    constructor
    · exact fun hu => ⟨hu.2.1, hu.1⟩
    · exact fun hu => ⟨hu.2, hu.1, lt_of_lt_of_le hu.2 h⟩
  rw [randomAverage, hset, lintegral_indicator measurableSet_Iio, setLIntegral_const, one_mul,
    Measure.restrict_apply measurableSet_Iio, hinter, Real.volume_Ico, sub_zero]

/-- The average of a constant over the integers up to the bound. -/
theorem randintAverage_const {high : ℕ} {c : ℝ≥0∞} {f : ℕ → ℝ≥0∞} (hf : ∀ i ≤ high, f i = c) :
    randintAverage high f = c := by
  rw [randintAverage, Finset.sum_congr rfl fun i hi =>
      hf i (Nat.le_of_lt_succ (Finset.mem_range.mp hi)),
    Finset.sum_const, Finset.card_range, nsmul_eq_mul, mul_comm]
  exact ENNReal.mul_div_cancel_right (by simp) (by simp)

/-- The average of a constant over choices; the induction is on their number. -/
theorem choiceAverage_const {probabilities : List ℝ} (hnonneg : ∀ q ∈ probabilities, 0 ≤ q)
    (hsum : probabilities.sum = 1) {c : ℝ≥0∞} (size : ℕ) :
    ∀ f : List ℕ → ℝ≥0∞,
      (∀ indices : List ℕ, indices.length = size →
        (∀ i ∈ indices, ∃ q, probabilities[i]? = some q ∧ 0 < q) → f indices = c) →
      choiceAverage probabilities size f = c := by
  induction size with
  | zero =>
    intro f hf
    exact hf [] rfl (by simp)
  | succ size ih =>
    intro f hf
    have hterm : ∀ i : Fin probabilities.length, ENNReal.ofReal probabilities[i] *
        choiceAverage probabilities size (fun indices => f (i :: indices)) =
          ENNReal.ofReal probabilities[i] * c := by
      intro i
      rcases le_or_gt probabilities[i] 0 with hzero | hpos
      · rw [ENNReal.ofReal_of_nonpos hzero, zero_mul, zero_mul]
      · rw [ih]
        intro indices hlength hindices
        refine hf (i :: indices) (by simp [hlength]) ?_
        intro j hj
        rcases List.mem_cons.mp hj with rfl | hj
        · exact ⟨probabilities[i], List.getElem?_eq_getElem i.isLt, hpos⟩
        · exact hindices j hj
    have htotal : ∑ i : Fin probabilities.length, ENNReal.ofReal probabilities[i] = 1 := by
      calc ∑ i : Fin probabilities.length, ENNReal.ofReal probabilities[i]
          = ENNReal.ofReal (∑ i : Fin probabilities.length, probabilities[i.1]) :=
            (ENNReal.ofReal_sum_of_nonneg fun i _ => hnonneg _ (List.getElem_mem i.isLt)).symm
        _ = 1 := by rw [Fin.sum_univ_getElem, hsum, ENNReal.ofReal_one]
    rw [choiceAverage, Finset.sum_congr rfl fun i _ => hterm i, ← Finset.sum_mul, htotal, one_mul]

/-- What every answer agrees on averages to itself. -/
theorem averages_const
    (answers : (Fin T → ℝ) → (Fin (n + 1) → Fin T → ℝ) → SolverAnswer n ℝ) {c : ℝ≥0∞}
    (call : Call n T ℝ) (hproper : Proper call) (f : Reply call → ℝ≥0∞)
    (hf : ∀ reply, Admissible call reply → f reply = c) : averages answers call f = c := by
  cases call with
  | random =>
    exact (randomAverage_congr fun u h0 h1 => hf u ⟨h0, h1⟩).trans (randomAverage_const c)
  | randint high => exact randintAverage_const hf
  | choice probabilities size =>
    exact choiceAverage_const hproper.1 hproper.2 size f fun indices hlength hindices =>
      hf indices ⟨hlength, hindices⟩
  | solve va C => exact hf (answers va C) trivial

/-! ### Marked children -/

section Marks

variable {K : Type} [Field K] [LinearOrder K]

/-- `_breed_intra`, with a mark on the child that `_crossover_chromosomes` produced. -/
def breedIntraMarked (ga : OlagsaGA K) (specie : Specie K) :
    Search n T K (Bool × Except Failure (Individual K)) := do
  let parents ← rouletteWheel specie.individuals 2
  match parents with
  | [parentA, parentB] =>
      let coin ← randint 1
      if (coin : K) < ga.crossoverRate then
        let child ← (Individual.make <$> crossoverChromosomes parentA parentB).attempt
        pure (true, child)
      else
        let side ← randint 1
        pure (false,
          .ok (Individual.make (if side = 0 then parentA.chromosomes else parentB.chromosomes)))
  | _ => throw .valueError

/-- Without the mark it is `_breed_intra`. -/
theorem breedIntraMarked_bind (ga : OlagsaGA K) (specie : Specie K) :
    (breedIntraMarked ga specie >>= fun marked => (Program.ofExcept marked.2 : Search n T K _)) =
      breedIntra ga specie := by
  unfold breedIntraMarked breedIntra
  rw [bind_assoc]
  congr 1
  funext parents
  rcases parents with _ | ⟨parentA, _ | ⟨parentB, _ | ⟨parentC, parents⟩⟩⟩
  · rfl
  · rfl
  · dsimp only
    rw [bind_assoc]
    congr 1
    funext coin
    split
    · rw [bind_assoc]
      exact attempt_bind_ofExcept _
    · rfl
  · rfl

/-- A child mutates with the gene that is drawn for it. -/
def mutateGene (individual : Individual K) : Search n T K (Individual K) := do
  let index ← randIndex individual.chromosomes
  let gene ← random
  Individual.make <$> normalize (individual.chromosomes.set index gene)

/-- The mutation of a child, with a mark on the child that has mutated. -/
def mutateMarked (ga : OlagsaGA K) (child : Individual K) :
    Search n T K (Bool × Except Failure (Individual K)) :=
  if 0 < ga.mutationRate then do
    let r ← random
    if ga.mutationRate ≤ r then pure (false, .ok (Individual.make child.chromosomes))
    else
      let mutated ← (mutateGene child).attempt
      pure (true, mutated)
  else pure (false, .ok child)

/-- Without the mark it is the mutation step. -/
theorem mutateMarked_bind (ga : OlagsaGA K) (child : Individual K) :
    (mutateMarked ga child >>= fun marked => (Program.ofExcept marked.2 : Search n T K _)) =
      if 0 < ga.mutationRate then mutate ga child else pure child := by
  unfold mutateMarked
  split
  · rw [bind_assoc]
    unfold mutate
    congr 1
    funext r
    split
    · rfl
    · rw [bind_assoc]
      exact attempt_bind_ofExcept _
  · rfl

/-- The child bears the mark. -/
def Marked (out : Except Failure (Bool × Except Failure (Individual K))) : Prop :=
  ∃ child, out = .ok (true, child)

/-- The child is a copy of an individual of the species. -/
def CopyFrom (specie : Specie K) (out : Except Failure (Bool × Except Failure (Individual K))) :
    Prop :=
  ∃ child, out = .ok (false, .ok child) ∧
    ∃ parent ∈ specie.individuals, child.chromosomes = parent.chromosomes

end Marks

/-! ### The probability of a crossover -/

section Probabilities

variable {answers : (Fin T → ℝ) → (Fin (n + 1) → Fin T → ℝ) → SolverAnswer n ℝ}

theorem calls_randIndex (l : List ℝ) : (randIndex l : Search n T ℝ ℕ).Calls Proper := by
  unfold randIndex
  split
  · trivial
  · exact ⟨trivial, fun _ => trivial⟩

theorem calls_normalize (l : List ℝ) : (normalize l : Search n T ℝ (List ℝ)).Calls Proper := by
  unfold normalize
  split <;> trivial

/-- A wheel that is not refused spins with proper probabilities. -/
theorem calls_rouletteWheel {population : List (Individual ℝ)} (h : ¬ Refused population)
    (size : ℕ) : (rouletteWheel population size : Search n T ℝ _).Calls Proper := by
  obtain ⟨hsum, hnonneg⟩ := not_or.mp h
  rw [rouletteWheel_eq h]
  refine ⟨⟨?_, ?_⟩, fun (indices : List ℕ) => calls_mapM fun i _ => ?_⟩
  · intro q hq
    obtain ⟨f, hf, rfl⟩ := List.mem_map.mp hq
    exact not_lt.mp fun hneg => hnonneg ⟨f, hf, hneg⟩
  · simp only [div_eq_mul_inv]
    rw [List.sum_map_mul_right, List.map_id', mul_inv_cancel₀ hsum]
  · unfold item
    split <;> trivial

/-- The draws of a crossover are proper. -/
theorem calls_crossoverChromosomes (parentA parentB : Individual ℝ) :
    (crossoverChromosomes parentA parentB : Search n T ℝ _).Calls Proper := by
  refine (calls_randIndex _).bind fun point => ⟨trivial, fun (coin : ℕ) => ?_⟩
  show (if coin = 0 then _ else _ : Search n T ℝ (List ℝ)).Calls Proper
  split <;> exact calls_normalize _

/-- The average over a child, from what it is when it is marked and when it is a copy. -/
theorem expect_breedIntraMarked {ga : OlagsaGA ℝ} {specie : Specie ℝ}
    (h : ¬ Refused specie.individuals) (hrate : ga.crossoverRate ≤ 1)
    {f : Except Failure (Bool × Except Failure (Individual ℝ)) → ℝ≥0∞} {a b : ℝ≥0∞}
    (hmarked : ∀ out, Marked out → f out = a) (hcopy : ∀ out, CopyFrom specie out → f out = b) :
    (breedIntraMarked ga specie : Search n T ℝ _).expect (averages answers) f =
      ((if 0 < ga.crossoverRate then a else b) + b) / 2 := by
  rw [breedIntraMarked, expect_bind]
  refine expect_of_yields (averages_const answers) (calls_rouletteWheel h 2) fun out hout => ?_
  have hwheel : (rouletteWheel specie.individuals 2 : Search n T ℝ _).Returns Admissible _ :=
    returns_rouletteWheel (fun probabilities size indices hok => ⟨hok.1, fun i hi => by
      obtain ⟨q, hq, -⟩ := hok.2 i hi
      exact (List.getElem?_eq_some_iff.mp hq).1⟩) h 2
  obtain ⟨parents, rfl, hlength, hmem⟩ := hwheel.exists_ok hout
  obtain ⟨parentA, parentB, rfl⟩ := List.length_eq_two.mp hlength
  -- one coin decides, and what the child is does not change with the draws that follow
  have hcoin : ∀ coin : ℕ, (if (coin : ℝ) < ga.crossoverRate then do
        let child ← (Individual.make <$> crossoverChromosomes parentA parentB).attempt
        pure (true, child)
      else do
        let side ← randint 1
        pure (false, .ok (Individual.make
          (if side = 0 then parentA.chromosomes else parentB.chromosomes))) :
            Search n T ℝ (Bool × Except Failure (Individual ℝ))).expect (averages answers) f =
        if (coin : ℝ) < ga.crossoverRate then a else b := by
    intro coin
    split
    · refine expect_of_yields (averages_const answers) ?_ fun out hout => hmarked out ?_
      · exact (((calls_crossoverChromosomes _ _).map _).attempt).bind fun _ => trivial
      · rcases yields_bind.mp hout with ⟨child, -, hret⟩ | ⟨e, he, -⟩
        · exact ⟨child, hret⟩
        · obtain ⟨_, herror, -⟩ := yields_attempt.mp he
          cases herror
    · have hcalls : (do
          let side ← randint 1
          pure (false, .ok (Individual.make
            (if side = 0 then parentA.chromosomes else parentB.chromosomes))) :
              Search n T ℝ (Bool × Except Failure (Individual ℝ))).Calls Proper :=
        ⟨trivial, fun _ => trivial⟩
      refine expect_of_yields (averages_const answers) hcalls fun out hout => hcopy out ?_
      obtain ⟨(side : ℕ), -, hret⟩ := hout
      refine ⟨_, hret, ?_⟩
      by_cases hside : side = 0
      · exact ⟨parentA, hmem parentA (by simp), by rw [if_pos hside]; rfl⟩
      · exact ⟨parentB, hmem parentB (by simp), by rw [if_neg hside]; rfl⟩
  have haverage : randintAverage 1 (fun coin : ℕ =>
      if (coin : ℝ) < ga.crossoverRate then a else b) =
        ((if 0 < ga.crossoverRate then a else b) + b) / 2 := by
    unfold randintAverage
    rw [Finset.sum_range_succ, Finset.sum_range_one, Nat.cast_zero, Nat.cast_one,
      if_neg (not_lt.mpr hrate)]
    norm_num
  exact (congrArg (randintAverage 1) (funext hcoin)).trans haverage

/-- A child is crossed over half of the time, whatever the rate, unless the rate is 0. -/
theorem prob_crossed {ga : OlagsaGA ℝ} {specie : Specie ℝ} (h : ¬ Refused specie.individuals)
    (hrate : ga.crossoverRate ≤ 1) :
    (breedIntraMarked ga specie : Search n T ℝ _).prob (averages answers) Marked =
      if 0 < ga.crossoverRate then 1 / 2 else 0 := by
  unfold prob
  have hcopy : ∀ out, CopyFrom specie out → ¬ Marked out := by
    rintro out ⟨child, rfl, -⟩ ⟨child', heq⟩
    cases heq
  rw [expect_breedIntraMarked h hrate (fun out hout => if_pos hout)
    fun out hout => if_neg (hcopy out hout), add_zero]
  split
  · rfl
  · exact ENNReal.zero_div

/-- Otherwise it is a copy of a parent. -/
theorem prob_copied {ga : OlagsaGA ℝ} {specie : Specie ℝ} (h : ¬ Refused specie.individuals)
    (hrate : ga.crossoverRate ≤ 1) :
    (breedIntraMarked ga specie : Search n T ℝ _).prob (averages answers) (CopyFrom specie) =
      if 0 < ga.crossoverRate then 1 / 2 else 1 := by
  unfold prob
  have hmarked : ∀ out, Marked out → ¬ CopyFrom specie out := by
    rintro out ⟨child, rfl⟩ ⟨child', heq, -⟩
    cases heq
  rw [expect_breedIntraMarked h hrate (fun out hout => if_neg (hmarked out hout))
    fun out hout => if_pos hout]
  split
  · rw [zero_add]
  · rw [one_add_one_eq_two, ENNReal.div_self two_ne_zero ENNReal.ofNat_ne_top]

/-- A child is mutated with the probability of the rate. -/
theorem prob_mutated {ga : OlagsaGA ℝ} (h0 : 0 ≤ ga.mutationRate) (h1 : ga.mutationRate ≤ 1)
    (child : Individual ℝ) :
    (mutateMarked ga child : Search n T ℝ _).prob (averages answers) Marked =
      ENNReal.ofReal ga.mutationRate := by
  have hunmarked : ∀ mutated : Except Failure (Individual ℝ), ¬ Marked (.ok (false, mutated)) := by
    rintro mutated ⟨child', heq⟩
    cases heq
  unfold prob mutateMarked
  split
  · rw [← randomAverage_lt h1]
    refine congrArg randomAverage (funext fun (r : ℝ) => ?_)
    by_cases hr : r < ga.mutationRate
    · have hcalls : ((mutateGene child).attempt >>= fun mutated => pure (true, mutated) :
          Search n T ℝ (Bool × Except Failure (Individual ℝ))).Calls Proper := by
        refine (Calls.attempt ?_).bind fun _ => trivial
        exact (calls_randIndex _).bind fun index => ⟨trivial, fun gene => (calls_normalize _).map _⟩
      rw [if_pos hr]
      show expect _ (if ga.mutationRate ≤ r then _ else _) _ = 1
      rw [if_neg (not_le.mpr hr)]
      refine expect_of_yields (averages_const answers) hcalls fun out hout => if_pos ?_
      rcases yields_bind.mp hout with ⟨mutated, -, hret⟩ | ⟨e, he, -⟩
      · exact ⟨mutated, hret⟩
      · obtain ⟨_, herror, -⟩ := yields_attempt.mp he
        cases herror
    · rw [if_neg hr]
      show expect _ (if ga.mutationRate ≤ r then _ else _) _ = 0
      rw [if_pos (not_lt.mp hr)]
      exact if_neg (hunmarked _)
  · rename_i hpos
    rw [le_antisymm (not_lt.mp hpos) h0, ENNReal.ofReal_zero]
    exact if_neg (hunmarked _)

/-- What is claimed of the rates: whenever parents can be drawn, a child of a species comes from a
crossover with the probability of the crossover rate and is a copy of an individual otherwise,
and a child mutates with the probability of the mutation rate. -/
structure RatesMean (answers : (Fin T → ℝ) → (Fin (n + 1) → Fin T → ℝ) → SolverAnswer n ℝ)
    (ga : OlagsaGA ℝ) (specie : Specie ℝ) : Prop where
  crossed : ¬ Refused specie.individuals →
    (breedIntraMarked ga specie).prob (averages answers) Marked =
      ENNReal.ofReal ga.crossoverRate
  copied : ¬ Refused specie.individuals →
    (breedIntraMarked ga specie).prob (averages answers) (CopyFrom specie) =
      ENNReal.ofReal (1 - ga.crossoverRate)
  mutated : ∀ child, (mutateMarked ga child).prob (averages answers) Marked =
    ENNReal.ofReal ga.mutationRate

theorem ofReal_half : ENNReal.ofReal (1 / 2) = 1 / 2 := by
  rw [ENNReal.ofReal_div_of_pos two_pos, ENNReal.ofReal_one, ENNReal.ofReal_ofNat]

/-- **The crossover rate means what it says for the rates 0 and 1/2 only.** -/
theorem ratesMean_iff (answers : (Fin T → ℝ) → (Fin (n + 1) → Fin T → ℝ) → SolverAnswer n ℝ)
    (ga : OlagsaGA ℝ) (specie : Specie ℝ)
    (hcrossover : 0 ≤ ga.crossoverRate ∧ ga.crossoverRate ≤ 1)
    (hmutation : 0 ≤ ga.mutationRate ∧ ga.mutationRate ≤ 1) :
    RatesMean answers ga specie ↔
      Refused specie.individuals ∨ ga.crossoverRate = 0 ∨ ga.crossoverRate = 1 / 2 := by
  have hmutated : ∀ child, (mutateMarked ga child).prob (averages answers) Marked =
      ENNReal.ofReal ga.mutationRate := prob_mutated hmutation.1 hmutation.2
  constructor
  · intro h
    by_cases hrefused : Refused specie.individuals
    · exact Or.inl hrefused
    · refine Or.inr ?_
      have hcrossed := h.crossed hrefused
      rw [prob_crossed hrefused hcrossover.2] at hcrossed
      by_cases hpos : 0 < ga.crossoverRate
      · rw [if_pos hpos, ← ofReal_half] at hcrossed
        exact Or.inr ((ENNReal.ofReal_eq_ofReal_iff (by norm_num) hcrossover.1).mp hcrossed).symm
      · exact Or.inl (le_antisymm (not_lt.mp hpos) hcrossover.1)
  · rintro (hrefused | hzero | hhalf)
    · exact ⟨fun h => absurd hrefused h, fun h => absurd hrefused h, hmutated⟩
    · refine ⟨fun h => ?_, fun h => ?_, hmutated⟩
      · rw [prob_crossed h hcrossover.2, hzero, if_neg (lt_irrefl 0), ENNReal.ofReal_zero]
      · rw [prob_copied h hcrossover.2, hzero, if_neg (lt_irrefl 0), sub_zero,
          ENNReal.ofReal_one]
    · have hpos : (0 : ℝ) < 1 / 2 := by norm_num
      refine ⟨fun h => ?_, fun h => ?_, hmutated⟩
      · rw [prob_crossed h hcrossover.2, hhalf, if_pos hpos, ofReal_half]
      · rw [prob_copied h hcrossover.2, hhalf, if_pos hpos,
          show (1 : ℝ) - 1 / 2 = 1 / 2 by norm_num, ofReal_half]

/-- A species of one individual. -/
noncomputable def loneSpecie : Specie ℝ :=
  ⟨0, [⟨[1 / 2, 1 / 2], 1, 0, none⟩], 0, 0, .segment ⟨⟨0, 1, 0⟩, ⟨1, 0, 0⟩⟩, ⟨1 / 2, 1 / 2, 0⟩⟩

/-- A search of one generation with the given crossover rate. -/
noncomputable def crossingAt (rate : ℝ) : OlagsaGA ℝ := ⟨2, 1, 2, rate, 0, 1 / 10, 1, 1, 0⟩

/-- A rate of one half is met. -/
theorem ratesMean_iff_half :
    RatesMean (fun (_ : Fin 1 → ℝ) (_ : Fin 1 → Fin 1 → ℝ) => .error) (crossingAt (1 / 2))
      loneSpecie :=
  (ratesMean_iff _ (crossingAt (1 / 2)) loneSpecie
    ⟨by norm_num [crossingAt], by norm_num [crossingAt]⟩
    ⟨by norm_num [crossingAt], by norm_num [crossingAt]⟩).mpr (Or.inr (Or.inr rfl))

/-- A rate of 1 is not met. -/
theorem not_ratesMean :
    ¬ RatesMean (fun (_ : Fin 1 → ℝ) (_ : Fin 1 → Fin 1 → ℝ) => .error) (crossingAt 1)
      loneSpecie := by
  intro h
  have hbreeds : ¬ Refused loneSpecie.individuals :=
    not_refused (List.cons_ne_nil _ _) (by simp [loneSpecie])
  have hcrossed := h.crossed hbreeds
  rw [prob_crossed hbreeds (le_refl (1 : ℝ))] at hcrossed
  rw [show (crossingAt 1).crossoverRate = 1 from rfl, if_pos one_pos, ← ofReal_half,
    ENNReal.ofReal_eq_ofReal_iff (by norm_num) zero_le_one] at hcrossed
  norm_num at hcrossed

end Probabilities

end AllocationKeys.Olagsa
