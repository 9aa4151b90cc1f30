import AllocationKeys.Olagsa.Chain
import Mathlib.Algebra.BigOperators.Group.Finset.Basic

/-!
# What a key reports

A `Key` can be checked without the solver: its percentages alone say what every round hands out,
and the rounds what stays unused and unmet (`replayRounds`). The figures of a key that `solve_key`
builds are those of its replay, and the replay balances (`key_replays`).

That the replay hands out all of the energy rests on what is promised of the solver: the shares of
an optimum sum to one (`OptimalShares`).
-/

namespace AllocationKeys.Olagsa

open EnergyRounds Program

variable {n T : ℕ} {K : Type} [Field K] [LinearOrder K]

/-! ### The replay of a key -/

/-- The round an iteration reports, given the energy carried into it. -/
def replayRound (V s : Fin T → K) (iteration : Iteration n T K) :
    Round (Fin (n + 1)) (Fin T) K where
  share := iteration.energyAllocatedPercentage
  alloc := fun i t => (iteration.consumers i).energyAllocatedPercentage *
    (V t * iteration.energyAllocatedPercentage + s t)

/-- The rounds the iterations of a key report, each over what the one before left. -/
def replayRounds (V : Fin T → K) : (Fin (n + 1) → Fin T → K) → (Fin T → K) →
    List (Iteration n T K) → List (Round (Fin (n + 1)) (Fin T) K)
  | _, _, [] => []
  | d, s, iteration :: rest =>
      replayRound V s iteration :: replayRounds V (nextDemand d (replayRound V s iteration))
        (nextCarry d (replayRound V s iteration)) rest

/-- The figures of an iteration are those of a round from the demand `d`. -/
structure Iteration.Reports (iteration : Iteration n T K) (d : Fin (n + 1) → Fin T → K)
    (r : Round (Fin (n + 1)) (Fin T) K) : Prop where
  surplusTotal : iteration.surplusTotal = ∑ t, nextCarry d r t
  residualVolume : ∀ i t, (iteration.consumers i).residualVolume t = nextDemand d r i t
  surplus : ∀ t, ∑ i, (iteration.consumers i).surplus t = nextCarry d r t
  consumed : ∀ i t,
    (iteration.consumers i).energyAllocatedConsumed t = served (d i t) (r.alloc i t)

/-- Every iteration reports the figures of its round in the replay. -/
def Replays (V : Fin T → K) : (Fin (n + 1) → Fin T → K) → (Fin T → K) →
    List (Iteration n T K) → Prop
  | _, _, [] => True
  | d, s, iteration :: rest =>
      iteration.Reports d (replayRound V s iteration) ∧
        Replays V (nextDemand d (replayRound V s iteration))
          (nextCarry d (replayRound V s iteration)) rest

/-- The share of the production the iterations get together. -/
def percentages (iterations : List (Iteration n T K)) : K :=
  (iterations.map Iteration.energyAllocatedPercentage).sum

/-- What consumer `i` is reported to consume at `t` over the iterations. -/
def consumedOver (iterations : List (Iteration n T K)) (i : Fin (n + 1)) (t : Fin T) : K :=
  (iterations.map fun iteration => (iteration.consumers i).energyAllocatedConsumed t).sum

/-- The energy the last iteration leaves unused. -/
def lastUnused (iterations : List (Iteration n T K)) (t : Fin T) : K :=
  match iterations.getLast? with
  | none => 0
  | some last => ∑ i, (last.consumers i).surplus t

omit [LinearOrder K] in
theorem lastUnused_cons_cons [LinearOrder K] (first second : Iteration n T K)
    (rest : List (Iteration n T K)) (t : Fin T) :
    lastUnused (first :: second :: rest) t = lastUnused (second :: rest) t := by
  rw [lastUnused, List.getLast?_cons_cons, lastUnused]

/-! ### Balance of a replay -/

theorem shareOver_replayRounds (V : Fin T → K) (iterations : List (Iteration n T K)) :
    ∀ (d : Fin (n + 1) → Fin T → K) (s : Fin T → K),
      shareOver (replayRounds V d s iterations) = percentages iterations := by
  induction iterations with
  | nil => intro d s; rfl
  | cons iteration rest ih =>
    intro d s
    rw [replayRounds, shareOver_cons, ih, percentages, percentages, List.map_cons, List.sum_cons]
    rfl

theorem servedOver_replayRounds {V : Fin T → K} (i : Fin (n + 1)) (t : Fin T)
    (iterations : List (Iteration n T K)) :
    ∀ (d : Fin (n + 1) → Fin T → K) (s : Fin T → K), Replays V d s iterations →
      servedOver d (replayRounds V d s iterations) i t = consumedOver iterations i t := by
  induction iterations with
  | nil => intro d s _; rfl
  | cons iteration rest ih =>
    intro d s h
    rw [replayRounds, servedOver, ih _ _ h.2, ← h.1.consumed]
    rfl

/-- The last round of a replay leaves what the last iteration reports. -/
theorem final_replayRounds {V : Fin T → K} (t : Fin T) (iterations : List (Iteration n T K)) :
    ∀ (d : Fin (n + 1) → Fin T → K) (s : Fin T → K), Replays V d s iterations →
      ∀ last ∈ iterations.getLast?,
        EnergyRounds.finalSurplus d s (replayRounds V d s iterations) t = lastUnused iterations t ∧
        ∀ i, finalDemand d (replayRounds V d s iterations) i t
          = (last.consumers i).residualVolume t := by
  induction iterations with
  | nil => intro d s _ last hlast; cases hlast
  | cons iteration rest ih =>
    intro d s h last hlast
    cases rest with
    | nil =>
      obtain rfl : iteration = last := by simpa using hlast
      exact ⟨(h.1.surplus t).symm, fun i => (h.1.residualVolume i t).symm⟩
    | cons second rest =>
      rw [List.getLast?_cons_cons] at hlast
      rw [lastUnused_cons_cons]
      exact ih _ _ h.2 last hlast

variable [IsStrictOrderedRing K]

theorem replays_production {V : Fin T → K} {C : Fin (n + 1) → Fin T → K}
    {iterations : List (Iteration n T K)} (h : Replays V C (fun _ => 0) iterations)
    (hcomplete : Complete V C (fun _ => 0) (replayRounds V C (fun _ => 0) iterations))
    (t : Fin T) :
    V t * percentages iterations
      = ∑ i, consumedOver iterations i t + lastUnused iterations t := by
  have hbalance := production_balance V t _ _ _ hcomplete
  rw [shareOver_replayRounds, add_zero, mul_comm] at hbalance
  rw [hbalance]
  congr 1
  · exact Finset.sum_congr rfl fun i _ => servedOver_replayRounds i t iterations _ _ h
  · cases hlast : iterations.getLast? with
    | none =>
      rw [List.getLast?_eq_none_iff.mp hlast]
      rfl
    | some last => exact (final_replayRounds t iterations _ _ h last hlast).1

theorem replays_demand {V : Fin T → K} {C : Fin (n + 1) → Fin T → K}
    {iterations : List (Iteration n T K)} (h : Replays V C (fun _ => 0) iterations)
    {last : Iteration n T K} (hlast : last ∈ iterations.getLast?) (i : Fin (n + 1)) (t : Fin T) :
    C i t = consumedOver iterations i t + (last.consumers i).residualVolume t := by
  have hbalance := demand_balance i t (replayRounds V C (fun _ => 0) iterations) C
  rw [servedOver_replayRounds i t iterations _ _ h,
    (final_replayRounds t iterations _ _ h last hlast).2 i] at hbalance
  exact hbalance

/-! ### The key of a chain -/

theorem iterationOf_reports (V : Fin T → K) (share : K) (s : Fin T → K)
    (d : Fin (n + 1) → Fin T → K) (p : Fin (n + 1) → K) :
    (iterationOf (energyOf V share s) d share p).Reports d (roundOf V share s p) where
  surplusTotal := by
    rw [surplusTotal_iterationOf, Finset.sum_comm]
    rfl
  residualVolume := fun i t => residualVolume_eq (energyOf V share s) (d i) (p i) t
  surplus := fun t => Finset.sum_congr rfl fun i _ => surplus_eq (energyOf V share s) (d i) (p i) t
  consumed := by
    intro i t
    show min (d i t) (energyOf V share s t * p i) = min (d i t) (p i * energyOf V share s t)
    rw [mul_comm]

section Chains

variable {answer : ∀ call : Call n T K, Reply call} {V : Fin T → K} {shares : List K}
  {d : Fin (n + 1) → Fin T → K} {s : Fin T → K} {k : ℕ} {calls : List (Call n T K)}
  {iterations : List (Iteration n T K)} {current last : Option (Solution n T K)}

theorem Chain.replays (h : Chain answer V shares d s k calls iterations current last) :
    Replays V d s iterations := by
  induction h with
  | done => trivial
  | stop _ => trivial
  | step _ _ ih => exact ⟨iterationOf_reports V _ _ _ _, ih⟩

omit [IsStrictOrderedRing K] in
theorem Chain.percentages_eq (h : Chain answer V shares d s k calls iterations current last) :
    iterations.map Iteration.energyAllocatedPercentage = shares.take iterations.length := by
  induction h with
  | done => rfl
  | stop _ => rfl
  | step _ _ ih =>
    rw [List.map_cons, ih, List.length_cons, List.take_succ_cons]
    rfl

omit [IsStrictOrderedRing K] in
/-- Shares of an optimum that sum to one hand out all of the energy. -/
theorem Chain.complete (h : Chain answer V shares d s k calls iterations current last)
    (hsum : ∀ energy demand p, answer (.solve energy demand) = (.optimal p : SolverAnswer n K) →
      ∑ i, p i = 1) :
    Complete V d s (replayRounds V d s iterations) := by
  induction h with
  | done => trivial
  | stop _ => trivial
  | @step share _ d s _ _ _ p _ _ hanswer _ ih =>
    refine ⟨fun t => ?_, ih⟩
    show ∑ i, p i * (V t * share + s t) = share * V t + s t
    rw [← Finset.sum_mul, hsum _ _ p hanswer, one_mul, mul_comm]

end Chains

/-- What is promised of an optimum: shares of the energy that are not negative and sum to one. -/
def OptimalShares (answer : ∀ call : Call n T K, Reply call) : Prop :=
  ∀ energy demand p, answer (.solve energy demand) = (.optimal p : SolverAnswer n K) →
    (∀ i, 0 ≤ p i) ∧ ∑ i, p i = 1

/-- **A key does what it reports.**  Its percentages are the shares it was asked for; replayed,
they give the figures it reports; the production it was given is what was consumed and what the
last iteration leaves, and every demand what was consumed of it and what the last iteration leaves
unmet. No key is built only when a share is missing or the solver raises. -/
theorem key_replays (answer : ∀ call : Call n T K, Reply call) (hoptimal : OptimalShares answer)
    {C VA : Fin (n + 1) → Fin T → K} {chromosome : List K} (numIterations : ℕ)
    (hC : ∀ i t, 0 ≤ C i t) (htiled : ∀ i t, VA i t = VA 0 t) (hVA : ∀ t, 0 ≤ VA 0 t)
    (hchromosome : ∀ x ∈ chromosome, 0 ≤ x) :
    (∀ key, ((solveKey numIterations C VA chromosome).eval answer).2 = .ok key →
      key.iterations.map Iteration.energyAllocatedPercentage
          = chromosome.take key.iterations.length ∧
        Replays (VA 0) C (fun _ => 0) key.iterations ∧
        (∀ t, VA 0 t * percentages key.iterations
          = ∑ i, consumedOver key.iterations i t + lastUnused key.iterations t) ∧
        ∀ last ∈ key.iterations.getLast?, ∀ i t,
          C i t = consumedOver key.iterations i t + (last.consumers i).residualVolume t) ∧
    ∀ e, ((solveKey numIterations C VA chromosome).eval answer).2 = .error e →
      (e = .indexError ∧ chromosome.length < numIterations) ∨
        (e = .solverError ∧ ∃ energy demand,
          answer (.solve energy demand) = (.error : SolverAnswer n K)) := by
  rw [tiled_eq htiled]
  rcases chain_of_loops answer (VA 0) chromosome numIterations 0 C C none (fun _ => 0)
      ⟨[], []⟩ (Before.first C) with
    ⟨calls, iterations, statuses, last, hchain, _, hkey⟩ | ⟨calls, e, _, hkey, hraises⟩
  · rw [solveKey, hkey]
    refine ⟨fun key hresult => ?_, fun e hresult => nomatch hresult⟩
    cases hresult
    have hcomplete := hchain.complete fun energy demand p h => (hoptimal energy demand p h).2
    exact ⟨hchain.percentages_eq, hchain.replays, replays_production hchain.replays hcomplete,
      fun last hlast i t => replays_demand hchain.replays hlast i t⟩
  · rw [solveKey, hkey]
    refine ⟨fun key hresult => (nomatch hresult), fun e' hresult => ?_⟩
    cases hresult
    rcases hraises with ⟨he, hlength⟩ | hsolver | ⟨_, hnot⟩
    · exact Or.inl ⟨he, by omega⟩
    · exact Or.inr hsolver
    · exact (hnot ⟨hVA, ⟨fun _ => le_rfl, hC⟩, hchromosome⟩).elim

/-! ### An optimum for two consumers -/

/-- What the subproblem minimizes: the energy that shares `p` hand out beyond the demand. -/
def surplusOf (energy : Fin T → K) (demand : Fin (n + 1) → Fin T → K) (p : Fin (n + 1) → K) : K :=
  ∑ i, ∑ t, ((p i * energy t - demand i t) + |p i * energy t - demand i t|) / 2

/-- The shares solve the subproblem. -/
structure Minimizes (energy : Fin T → K) (demand : Fin (n + 1) → Fin T → K)
    (p : Fin (n + 1) → K) : Prop where
  nonneg : ∀ i, 0 ≤ p i
  sum : ∑ i, p i = 1
  least : ∀ q, (∀ i, 0 ≤ q i) → ∑ i, q i = 1 →
    surplusOf energy demand p ≤ surplusOf energy demand q

/-- The share of the first of two consumers that has it served before the second. -/
def firstShare (energy : Fin 1 → ℚ) (demand : Fin 2 → Fin 1 → ℚ) : ℚ :=
  max 0 (min 1 (demand 0 0 / energy 0))

/-- A solver that serves the first of two consumers before the second. -/
def firstServed : ∀ call : Call 1 1 ℚ, Reply call
  | .random => (0 : ℚ)
  | .randint _ => (0 : ℕ)
  | .choice _ _ => ([] : List ℕ)
  | .solve energy demand => (.optimal fun i =>
      if i = 0 then firstShare energy demand else 1 - firstShare energy demand :
        SolverAnswer 1 ℚ)

theorem optimalShares_firstServed : OptimalShares firstServed := by
  intro energy demand p h
  cases h
  refine ⟨fun i => ?_, ?_⟩
  · dsimp only
    split
    · exact le_max_left _ _
    · exact sub_nonneg.mpr (max_le zero_le_one (min_le_left _ _))
  · rw [Fin.sum_univ_two, if_pos rfl, if_neg (by decide)]
    exact add_sub_cancel _ _

/-- Serving one consumer after the other is an optimum of the subproblem. -/
theorem firstServed_minimizes {energy : Fin 1 → ℚ} {demand : Fin 2 → Fin 1 → ℚ}
    (henergy : 0 ≤ energy 0) (hdemand : ∀ i, 0 ≤ demand i 0) {p : Fin 2 → ℚ}
    (h : firstServed (.solve energy demand) = (.optimal p : SolverAnswer 1 ℚ)) :
    Minimizes energy demand p := by
  obtain ⟨hnonneg, hsum⟩ := optimalShares_firstServed energy demand p h
  refine ⟨hnonneg, hsum, fun q hq hone => ?_⟩
  cases h
  have hsurplus : ∀ q : Fin 2 → ℚ, surplusOf energy demand q
      = max 0 (q 0 * energy 0 - demand 0 0) + max 0 (q 1 * energy 0 - demand 1 0) := by
    intro q
    simp only [surplusOf, half_add_abs, Fin.sum_univ_one]
    exact Fin.sum_univ_two _
  have h0 := hdemand 0
  have h1 := hdemand 1
  -- in excess of both demands there is at least what is produced beyond them
  have hleast : surplusOf energy demand
      (fun i => if i = 0 then firstShare energy demand else 1 - firstShare energy demand)
        ≤ max 0 (energy 0 - demand 0 0 - demand 1 0) := by
    rw [hsurplus, if_pos rfl, if_neg (by decide)]
    rcases henergy.eq_or_lt with hzero | hpos
    · rw [← hzero, mul_zero, mul_zero, max_eq_left (by linarith), max_eq_left (by linarith),
        add_zero]
      exact le_max_left _ _
    rcases le_total (energy 0) (demand 0 0) with hall | hpart
    · rw [firstShare, min_eq_left ((one_le_div hpos).mpr hall), max_eq_right zero_le_one, one_mul,
        sub_self, zero_mul, max_eq_left (by linarith), max_eq_left (by linarith), add_zero]
      exact le_max_left _ _
    · rw [firstShare, min_eq_right ((div_le_one hpos).mpr hpart),
        max_eq_right (div_nonneg h0 henergy), sub_mul, one_mul, div_mul_cancel₀ _ hpos.ne',
        sub_self, max_self, zero_add]
  refine hleast.trans ?_
  rw [Fin.sum_univ_two] at hone
  have htotal : q 0 * energy 0 + q 1 * energy 0 = energy 0 := by rw [← add_mul, hone, one_mul]
  rw [hsurplus]
  refine max_le (add_nonneg (le_max_left _ _) (le_max_left _ _)) ?_
  calc energy 0 - demand 0 0 - demand 1 0
      = (q 0 * energy 0 - demand 0 0) + (q 1 * energy 0 - demand 1 0) := by linarith
    _ ≤ _ := add_le_add (le_max_right _ _) (le_max_right _ _)

/-- Two demands, together less than what is produced. -/
def twoDemands : Fin 2 → Fin 1 → ℚ := fun i _ => if i = 0 then 1 else 2

/-- An optimum serves both demands in the first iteration and carries the rest into the second. -/
theorem key_replays_firstServed :
    (∀ energy demand p, 0 ≤ energy 0 → (∀ i, 0 ≤ demand i 0) →
      firstServed (.solve energy demand) = (.optimal p : SolverAnswer 1 ℚ) →
        Minimizes energy demand p) ∧
    ∃ key, ((solveKey 2 twoDemands (fun _ _ => 8) [3 / 4, 1 / 4]).eval firstServed).2 = .ok key ∧
      key.iterations.map Iteration.energyAllocatedPercentage = [3 / 4, 1 / 4] ∧
      key.iterations.map Iteration.surplusTotal = [3, 5] ∧
      Replays (fun _ => 8) twoDemands (fun _ => 0) key.iterations ∧
      8 * percentages key.iterations
        = ∑ i, consumedOver key.iterations i 0 + lastUnused key.iterations 0 := by
  refine ⟨fun energy demand p henergy hdemand h => firstServed_minimizes henergy hdemand h, ?_⟩
  have htest : (match ((solveKey 2 twoDemands (fun _ _ => 8) [3 / 4, 1 / 4]).eval
        firstServed).2 with
      | .ok key => key.iterations.map Iteration.surplusTotal == [3, 5]
      | .error _ => false) = true := by decide +kernel
  obtain ⟨hruns, -⟩ := @key_replays 1 1 ℚ _ _ _ firstServed optimalShares_firstServed twoDemands
    (fun _ _ => 8) [3 / 4, 1 / 4] 2 (by decide +kernel) (fun _ _ => rfl) (fun _ => by norm_num)
    (by decide +kernel)
  rcases hresult : ((solveKey 2 twoDemands (fun _ _ => 8) [3 / 4, 1 / 4]).eval firstServed).2 with
    e | key
  · rw [hresult] at htest
    cases htest
  · rw [hresult] at htest
    obtain ⟨hshares, hreplays, hproduction, -⟩ := hruns key hresult
    have hsurplus := eq_of_beq htest
    have hlength : key.iterations.length = 2 := by
      rw [← List.length_map, hsurplus]
      rfl
    rw [hlength] at hshares
    exact ⟨key, rfl, hshares, hsurplus, hreplays, hproduction 0⟩

end AllocationKeys.Olagsa
