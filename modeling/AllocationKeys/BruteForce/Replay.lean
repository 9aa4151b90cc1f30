import AllocationKeys.BruteForce.Optimum
import Mathlib.Algebra.Field.Rat
import Mathlib.Algebra.Order.Field.Rat
import Mathlib.Data.Fin.VecNotation

/-!
# Replaying a key from its reported figures

A key reports one share per consumer and iteration. `replay` runs the key again from these
shares alone. `egalitaire` and `prorata_total` allocate that very share at every time step;
`prorata` varies over time and reports its time average (`Iteration.summary`), so a replay can
differ from the reported surpluses (`not_replays_prorata`). It does not as long as the
`prorata` iterations have given every consumer one and the same share wherever there was
energy (`run_replays`).
-/

namespace AllocationKeys.BruteForce

open Algorithms EnergyRounds

variable {n T : ℕ} {K : Type*} [Field K] [LinearOrder K]

/-! ### The replay -/

/-- The share a key reports for consumer `i`. -/
def reportedShare (it : IterationResult K) (i : Fin (n + 1)) : K :=
  (it.consumers[(i : ℕ)]?.map ConsumerResult.energyAllocatedPercentage).getD 0

/-- A reported iteration as a round: its energy times the reported shares. -/
def replayRound (V s : Fin T → K) (it : IterationResult K) : Round (Fin (n + 1)) (Fin T) K where
  share := it.energyAllocatedPercentage
  alloc := fun i t => (V t * it.energyAllocatedPercentage + s t) * reportedShare it i

/-- The total unused energy of every iteration, replayed from the reported figures for the
demand `d` and the carry `s`. -/
def replay (V : Fin T → K) :
    (Fin (n + 1) → Fin T → K) → (Fin T → K) → List (IterationResult K) → List K
  | _, _, [] => []
  | d, s, it :: rest =>
      (∑ t, nextCarry d (replayRound V s it) t) ::
        replay V (nextDemand d (replayRound V s it)) (nextCarry d (replayRound V s it)) rest

/-- Two consumers who consume in turn, one unit each, while one unit is produced at a time. -/
def alternating : AlgorithmRawData 1 2 ℚ := ⟨![![1, 0], ![0, 1]], fun _ _ => 1, []⟩

/-- `prorata` serves the alternating consumers fully and reports half of the energy for each;
the replay of that key wastes the other half. -/
theorem not_replays_prorata :
    ¬ ∀ key ∈ (run (fun _ => "") ⟨1, le_rfl, by decide⟩ alternating).keys,
      replay (alternating.VA 0) alternating.C 0 key.iterations
        = key.iterations.map IterationResult.surplusTotal := by
  decide +kernel

/-! ### What the reported shares say of an iteration -/

/-- Wherever the iteration has energy, its time-varying shares are the same. -/
def Uniform (it : Iteration n T K) : Prop :=
  ∀ t u, it.energyAllocated 0 t ≠ 0 → it.energyAllocated 0 u ≠ 0 →
    ∀ i, (it.consumers i).energyAllocatedPercentageTime t
      = (it.consumers i).energyAllocatedPercentageTime u

instance (it : Iteration n T K) : Decidable (Uniform it) :=
  inferInstanceAs (Decidable (∀ t u, it.energyAllocated 0 t ≠ 0 → it.energyAllocated 0 u ≠ 0 →
    ∀ i, (it.consumers i).energyAllocatedPercentageTime t
      = (it.consumers i).energyAllocatedPercentageTime u))

/-- Every consumer is allocated its reported share at every time step. -/
def Flat (it : Iteration n T K) : Prop :=
  ∀ i t, (it.consumers i).energyAllocated t
    = it.energyAllocated 0 t * it.summary.consumerPercentages i

theorem consumerPercentages_of_nonneg {it : Iteration n T K} {i : Fin (n + 1)}
    (h : 0 ≤ (it.consumers i).energyAllocatedPercentage) :
    it.summary.consumerPercentages i = (it.consumers i).energyAllocatedPercentage := by
  exact if_pos h

theorem prorataAllocated_eq (consumers : Fin (n + 1) → Consumer T K) (profile : Fin T → K)
    (i : Fin (n + 1)) (t : Fin T) :
    prorataAllocated consumers profile i t = profile t * prorataShare consumers i t := by
  simp only [prorataAllocated, prorataShare]
  split_ifs <;> simp

section Shares

variable [IsStrictOrderedRing K]

/-- A `prorata` iteration reports time averages: the reported share of the whole energy is what
the consumer is allocated in total. -/
theorem timeAverage_prorata {it : Iteration n T K} (henergy : ∀ t, 0 ≤ it.energyAllocated 0 t)
    (i : Fin (n + 1)) :
    (post .prorata it).summary.consumerPercentages i * ∑ t, it.energyAllocated 0 t
      = ∑ t, ((post .prorata it).consumers i).energyAllocated t := by
  have halloc : ∀ t, ((post .prorata it).consumers i).energyAllocated t
      = it.energyAllocated 0 t * prorataShare it.consumers i t :=
    fun t => prorataAllocated_eq it.consumers (it.energyAllocated 0) i t
  have hmark : ¬ 0 ≤ ((post .prorata it).consumers i).energyAllocatedPercentage := by
    show ¬ (0 : K) ≤ -1
    linarith [zero_lt_one (α := K)]
  simp only [Iteration.summary, if_neg hmark, (post_fields .prorata it).1]
  rcases (Finset.sum_nonneg fun t _ => henergy t : 0 ≤ ∑ t, it.energyAllocated 0 t).eq_or_lt
    with hzero | hpos
  · have hnone := (Finset.sum_eq_zero_iff_of_nonneg fun t _ => henergy t).mp hzero.symm
    rw [← hzero, mul_zero]
    symm
    apply Finset.sum_eq_zero
    intro t ht
    rw [halloc, hnone t ht, zero_mul]
  · rw [if_pos hpos, div_mul_cancel₀ _ hpos.ne']

theorem recordedShare_nonneg {algo : AlgoName} (halgo : algo ≠ .prorata) {it : Iteration n T K}
    (hd : ∀ i t, 0 ≤ (it.consumers i).consumption t) (i : Fin (n + 1)) :
    0 ≤ recordedShare algo it i := by
  cases algo with
  | prorata => exact absurd rfl halgo
  | egalitaire =>
    simp only [recordedShare]
    positivity
  | prorataTotal =>
    have hpart : 0 ≤ ∑ u, (it.consumers i).consumption u := Finset.sum_nonneg fun u _ => hd i u
    have htotal : 0 ≤ ∑ j, ∑ u, (it.consumers j).consumption u :=
      Finset.sum_nonneg fun j _ => Finset.sum_nonneg fun u _ => hd j u
    simp only [recordedShare]
    split_ifs
    · exact zero_le_one
    · exact le_rfl
    · exact div_nonneg hpart htotal

/-- `egalitaire` and `prorata_total` iterations are flat; a `prorata` iteration is when its
shares do not vary. -/
theorem flat_post (algo : AlgoName) {it : Iteration n T K}
    (hd : ∀ i t, 0 ≤ (it.consumers i).consumption t) (henergy : ∀ t, 0 ≤ it.energyAllocated 0 t)
    (huniform : algo = .prorata → Uniform (post algo it)) : Flat (post algo it) := by
  intro i t
  obtain ⟨hprofile, -, hfields⟩ := post_fields algo it
  obtain ⟨-, halloc, hshare⟩ := hfields i
  rw [hprofile]
  cases algo with
  | egalitaire =>
    have hnonneg := recordedShare_nonneg (by simp : AlgoName.egalitaire ≠ .prorata) hd i
    rw [consumerPercentages_of_nonneg (by rwa [hshare]), hshare, halloc]
    rfl
  | prorataTotal =>
    have hnonneg := recordedShare_nonneg (by simp : AlgoName.prorataTotal ≠ .prorata) hd i
    rw [consumerPercentages_of_nonneg (by rwa [hshare]), hshare, halloc]
    simp only [allocation, recordedShare]
    split_ifs <;> simp
  | prorata =>
    -- prorata: the share of each time step is the share over all
    have hconst := huniform rfl
    have hcell : ((post .prorata it).consumers i).energyAllocated t
        = it.energyAllocated 0 t * prorataShare it.consumers i t :=
      prorataAllocated_eq it.consumers (it.energyAllocated 0) i t
    rw [hcell]
    rcases eq_or_ne (it.energyAllocated 0 t) 0 with hzero | hne
    · rw [hzero, zero_mul, zero_mul]
    · -- every other time step has the share of `t`, or no energy to share
      have htotal : ∑ u, ((post .prorata it).consumers i).energyAllocated u
          = (∑ u, it.energyAllocated 0 u) * prorataShare it.consumers i t := by
        rw [Finset.sum_mul]
        apply Finset.sum_congr rfl
        intro u _
        rw [show ((post .prorata it).consumers i).energyAllocated u = _ from
          prorataAllocated_eq it.consumers (it.energyAllocated 0) i u]
        rcases eq_or_ne (it.energyAllocated 0 u) 0 with hu | hu
        · rw [hu, zero_mul, zero_mul]
        · rw [show prorataShare it.consumers i u = prorataShare it.consumers i t from
            hconst u t hu hne i]
      have hpos : 0 < ∑ u, it.energyAllocated 0 u :=
        (lt_of_le_of_ne (henergy t) hne.symm).trans_le
          (Finset.single_le_sum (fun u _ => henergy u) (Finset.mem_univ t))
      have haverage := timeAverage_prorata henergy i
      rw [htotal, mul_comm] at haverage
      rw [mul_left_cancel₀ hpos.ne' haverage]

end Shares

/-! ### Flat iterations replay -/

omit [LinearOrder K] in
theorem reportedShare_iterationResult (summary : IterationSummary n K) (number : ℕ)
    (consumerNames : List String) (i : Fin (n + 1)) :
    reportedShare (iterationResult summary number consumerNames) i
      = summary.consumerPercentages i := by
  simp only [reportedShare, iterationResult, consumerResults, List.getElem?_ofFn, i.isLt,
    dif_pos, Option.map_some, Option.getD_some]

/-- Replaying a flat iteration repeats it. -/
theorem replayRound_of_flat {V s : Fin T → K} {d : Fin (n + 1) → Fin T → K}
    {it : Iteration n T K} (hstep : Step V d s it) (hflat : Flat it) (number : ℕ)
    (consumerNames : List String) :
    replayRound V s (iterationResult it.summary number consumerNames) = roundOf it := by
  have halloc : ∀ i t, (V t * it.energyAllocatedPercentage + s t) *
      reportedShare (iterationResult it.summary number consumerNames) i
        = (it.consumers i).energyAllocated t := by
    intro i t
    rw [reportedShare_iterationResult, hflat i t, hstep.energy t, mul_comm (V t)]
  rw [roundOf, replayRound]
  congr 1
  funext i t
  exact halloc i t

/-- As long as the iterations are flat, the replay gives their reported surpluses. -/
theorem replay_take_of_flat {V : Fin T → K} (consumerNames : List String) :
    ∀ (steps : List (String × Iteration n T K)) (d : Fin (n + 1) → Fin T → K) (s : Fin T → K)
      (number k : ℕ), Linked V d s (steps.map Prod.snd) →
      (∀ step ∈ steps.take k, Flat step.2) →
        (replay V d s
            (pathResults consumerNames number (viewRun Iteration.summary steps))).take k
          = ((pathResults consumerNames number (viewRun Iteration.summary steps)).map
              IterationResult.surplusTotal).take k := by
  intro steps
  induction steps with
  | nil => intro d s number k _ _; simp [viewRun, pathResults, replay]
  | cons step steps ih =>
    intro d s number k hlinked hflat
    obtain ⟨hstep, hrest⟩ := hlinked
    rcases k with _ | k
    · rfl
    · have hround := replayRound_of_flat hstep (hflat step (by simp)) number consumerNames
      have htail := ih _ _ (number + 1) k hrest fun step' hmem =>
        hflat step' (List.mem_cons_of_mem _ hmem)
      show (_ :: replay V _ _ _).take (k + 1) = _
      simp only [hround, hstep.nextDemand_eq, hstep.nextCarry_eq]
      rw [List.take_succ_cons, ← hstep.settled.surplusTotal]
      exact congrArg (step.2.surplusTotal :: ·) htail

/-! ### Keys replay -/

section Keys

variable [IsStrictOrderedRing K]

/-- An iteration as a run has it: what its function made of nonnegative demands and energy. -/
def Origin (step : String × Iteration n T K) : Prop :=
  ∃ algo it, step = (AlgoName.toString algo, post algo it) ∧
    (∀ i t, 0 ≤ (it.consumers i).consumption t) ∧ ∀ t, 0 ≤ it.energyAllocated 0 t

theorem origin_continueRun {root : Iteration n T K} (hV : ∀ t, 0 ≤ root.energyAllocated 0 t) :
    ∀ (choice : List (K × AlgoName)) (previous : Iteration n T K), Settled previous →
      (∀ step ∈ choice, 0 ≤ step.1) → ∀ step ∈ continueRun root previous choice, Origin step := by
  intro choice
  induction choice with
  | nil => intro previous _ _ step hstep; cases hstep
  | cons head choice ih =>
    obtain ⟨pct, algo⟩ := head
    intro previous hprevious hshares step hstep
    rcases List.mem_cons.mp hstep with rfl | hstep
    · refine ⟨algo, _, rfl, residualVolume_nonneg_of_settled hprevious, fun t => ?_⟩
      exact add_nonneg (mul_nonneg (hV t) (hshares _ (List.mem_cons_self ..)))
        (surplus_nonneg_of_settled hprevious t)
    · exact ih _ (post_settled algo _)
        (fun step' hmem => hshares step' (List.mem_cons_of_mem _ hmem)) step hstep

theorem origin_keyRun {C VA : Fin (n + 1) → Fin T → K} (hC : ∀ i t, 0 ≤ C i t)
    (hVA : ∀ t, 0 ≤ VA 0 t) {choice : List (K × AlgoName)} (hshares : ∀ step ∈ choice, 0 ≤ step.1) :
    ∀ step ∈ keyRun (makeRootIteration C VA) choice, Origin step := by
  rcases choice with _ | ⟨⟨pct, algo⟩, choice⟩
  · intro step hstep; cases hstep
  · intro step hstep
    rcases List.mem_cons.mp hstep with rfl | hstep
    · exact ⟨algo, _, rfl, hC, fun t => mul_nonneg (hVA t) (hshares _ (List.mem_cons_self ..))⟩
    · exact origin_continueRun hVA choice _ (post_settled algo _)
        (fun step' hmem => hshares step' (List.mem_cons_of_mem _ hmem)) step hstep

/-- **A key replays up to its first varying iteration.**  Every key of the result is the key of
a path of iterations. The first `k` iterations of such a key replay to their reported surpluses
when those among them that use `prorata` have the same share for a consumer wherever there is
energy; and every `prorata` iteration reports, of its whole energy, what each consumer is
allocated. -/
theorem run_replays (rounded : K → String) (inputs : BruteForceInput)
    (rawData : AlgorithmRawData n T K) (hC : ∀ i t, 0 ≤ rawData.C i t)
    (hVA : ∀ i t, 0 ≤ rawData.VA i t) :
    let paths := (inputs.generator.generateWith id rawData.C rawData.VA).flatMap Node.paths
    let keyOf := keyOfRun rounded rawData.consumerNames
    (∀ key ∈ (run rounded inputs rawData).keys, ∃ path ∈ paths, key = keyOf path) ∧
      ∀ path ∈ paths,
        (∀ k, (∀ step ∈ path.take k, step.1 = AlgoName.prorata.toString → Uniform step.2) →
          (replay (rawData.VA 0) rawData.C 0 (keyOf path).iterations).take k
            = ((keyOf path).iterations.map IterationResult.surplusTotal).take k) ∧
        ∀ step ∈ path, step.1 = AlgoName.prorata.toString → ∀ i,
          step.2.summary.consumerPercentages i * ∑ t, step.2.energyAllocated 0 t
            = ∑ t, (step.2.consumers i).energyAllocated t := by
  intro paths keyOf
  have hpaths : paths = (choices inputs.iterations).map
      (keyRun (makeRootIteration rawData.C rawData.VA)) := by
    rw [show paths = _ from paths_generateWith id inputs.generator rawData.C rawData.VA]
    exact List.map_congr_left fun choice _ => List.map_id _
  refine ⟨fun key hkey => ?_, fun path hpath => ?_⟩
  · obtain ⟨steps, hsteps, rfl⟩ := mem_run_keys.mp hkey
    exact ⟨steps, hpaths ▸ hsteps, rfl⟩
  · rw [hpaths] at hpath
    obtain ⟨choice, hchoice, rfl⟩ := List.mem_map.mp hpath
    have horigin := origin_keyRun hC (hVA 0) (choices_shares inputs.generator.valid hchoice).1
    constructor
    · intro k huniform
      refine replay_take_of_flat rawData.consumerNames _ rawData.C 0 1 k
        (linked_keyRun _ hC choice) fun step hstep => ?_
      obtain ⟨algo, it, rfl, hd, henergy⟩ := horigin step (List.mem_of_mem_take hstep)
      exact flat_post algo hd henergy fun hprorata => huniform _ hstep (by rw [hprorata])
    · intro step hstep hname i
      obtain ⟨algo, it, rfl, hd, henergy⟩ := horigin step hstep
      obtain rfl := AlgoName.toString_injective hname
      have haverage := timeAverage_prorata henergy i
      rwa [← (post_fields .prorata it).1] at haverage

/-- Two consumers with the same constant demand: all three functions allocate constant shares. -/
theorem run_replays_steady :
    let keys := (run (fun _ => "") ⟨1, le_rfl, by decide⟩
      (⟨fun _ _ => 1, fun _ _ => 3, []⟩ : AlgorithmRawData 1 2 ℚ)).keys
    keys.length = 3 ∧ ∀ key ∈ keys,
      (replay (fun _ => 3) (fun _ _ => 1 : Fin 2 → Fin 2 → ℚ) 0 key.iterations).take 1
        = (key.iterations.map IterationResult.surplusTotal).take 1 := by
  refine ⟨by decide +kernel, fun key hkey => ?_⟩
  obtain ⟨hkeys, hreplay⟩ := run_replays (fun _ => "") ⟨1, le_rfl, by decide⟩
    (⟨fun _ _ => 1, fun _ _ => 3, []⟩ : AlgorithmRawData 1 2 ℚ) (by decide) (by decide)
  obtain ⟨path, hpath, rfl⟩ := hkeys key hkey
  exact (hreplay path hpath).1 1 (by revert path; decide +kernel)

end Keys

end AllocationKeys.BruteForce
