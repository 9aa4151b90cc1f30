import AllocationKeys.BruteForce.Balance

/-!
# The optimum comes first

No key leaves less than the production exceeding the whole demand, time step by time step
(`theoreticalMinimum_le`); every key whose iterations all use `prorata` leaves exactly that,
however the production is split (`surplusTotal_of_prorata`). The enumeration always holds such
a key, so the head of the sorted result attains the minimum (`run_optimum`).
-/

namespace AllocationKeys.BruteForce

open Algorithms EnergyRounds

variable {n T : ℕ} {K : Type*} [Field K] [LinearOrder K]

/-- The surplus no allocation can avoid. -/
def theoreticalMinimum (C VA : Fin (n + 1) → Fin T → K) : K :=
  ∑ t, max 0 (VA 0 t - ∑ i, C i t)

/-! ### The surplus a key reports -/

omit [Field K] [LinearOrder K] in
theorem pathResults_getLast? (consumerNames : List String) (name : String)
    (summary : IterationSummary n K) :
    ∀ (path : List (String × IterationSummary n K)) (number : ℕ),
      path.getLast? = some (name, summary) →
        ((pathResults consumerNames number path).getLast?.map IterationResult.surplusTotal)
          = some summary.surplusTotal := by
  intro path
  induction path with
  | nil => intro number h; cases h
  | cons step path ih =>
    intro number h
    rcases path with _ | ⟨next, rest⟩
    · obtain rfl : step = (name, summary) := by simpa using h
      rfl
    · rw [List.getLast?_cons_cons] at h
      rw [pathResults, pathResults, List.getLast?_cons_cons, ← pathResults]
      exact ih (number + 1) h

/-- A key is sorted by the surplus of the last iteration of its run. -/
theorem finalSurplusTotal_keyOfRun (rounded : K → String) (consumerNames : List String)
    {steps : List (String × Iteration n T K)} {last : Iteration n T K}
    (hlast : (steps.map Prod.snd).getLast? = some last) :
    finalSurplusTotal (keyOfRun rounded consumerNames steps) = last.surplusTotal := by
  rw [List.getLast?_map, Option.map_eq_some_iff] at hlast
  obtain ⟨⟨name, it⟩, hstep, rfl⟩ := hlast
  have hview : (viewRun Iteration.summary steps).getLast? = some (name, it.summary) := by
    rw [viewRun, List.getLast?_map, hstep]
    rfl
  rw [finalSurplusTotal, keyOfRun, keyOfPath, buildKey,
    pathResults_getLast? consumerNames name it.summary _ 1 hview]
  rfl

/-- The sort puts a least surplus first. -/
theorem finalSurplusTotal_head_le {keys : List (AllocationKeyResult K)}
    {key head : AllocationKeyResult K} (hkey : key ∈ keys)
    (hhead : (keys.insertionSort fun a b => finalSurplusTotal a ≤ finalSurplusTotal b).head?
      = some head) : finalSurplusTotal head ≤ finalSurplusTotal key := by
  have hsorted := List.pairwise_insertionSort
    (fun a b : AllocationKeyResult K => finalSurplusTotal a ≤ finalSurplusTotal b) keys
  obtain ⟨rest, hrest⟩ := List.head?_eq_some_iff.mp hhead
  rw [hrest] at hsorted
  have hmem := (List.mem_insertionSort
    fun a b : AllocationKeyResult K => finalSurplusTotal a ≤ finalSurplusTotal b).mpr hkey
  rw [hrest] at hmem
  rcases List.mem_cons.mp hmem with rfl | hmem
  · exact le_rfl
  · exact List.rel_of_pairwise_cons hsorted hmem

/-! ### Lower bound and attainment -/

/-- What linked iterations leave is the final surplus of their rounds. -/
theorem surplusTotal_of_linked {V : Fin T → K} {d : Fin (n + 1) → Fin T → K} {s : Fin T → K}
    {its : List (Iteration n T K)} {last : Iteration n T K} (h : Linked V d s its)
    (hlast : its.getLast? = some last) :
    last.surplusTotal = ∑ t, finalSurplus d s (its.map roundOf) t := by
  obtain ⟨hsurplus, _, hsettled⟩ := final_of_linked h hlast
  rw [hsettled.surplusTotal, hsurplus]

theorem surplus_nonneg_of_settled [IsStrictOrderedRing K] {it : Iteration n T K}
    (h : Settled it) (t : Fin T) : 0 ≤ it.surplus t := by
  rw [h.surplus]
  exact Finset.sum_nonneg fun i _ => unused_nonneg _ _

theorem residualVolume_nonneg_of_settled {it : Iteration n T K} (h : Settled it)
    (i : Fin (n + 1)) (t : Fin T) : 0 ≤ (it.consumers i).residualVolume t := by
  rw [h.residual]
  exact unmet_nonneg _ _

variable [IsStrictOrderedRing K]

/-- **Lower bound.**  Whatever the functions and the split, the minimum is left. -/
theorem theoreticalMinimum_le {C VA : Fin (n + 1) → Fin T → K} (hC : ∀ i t, 0 ≤ C i t)
    {its : List (Iteration n T K)} {last : Iteration n T K} (h : Linked (VA 0) C 0 its)
    (hshare : shareOver (its.map roundOf) = 1) (hlast : its.getLast? = some last) :
    theoreticalMinimum C VA ≤ last.surplusTotal := by
  rw [surplusTotal_of_linked h hlast]
  apply Finset.sum_le_sum
  intro t _
  have hge := finalSurplus_ge (s := 0) hC (fun _ => le_rfl) (complete_of_linked h) t
  simpa only [hshare, one_mul, Pi.zero_apply, add_zero] using hge

/-- One `prorata` iteration wastes as little as possible. -/
theorem tight_prorata {V : Fin T → K} {d : Fin (n + 1) → Fin T → K} {s : Fin T → K}
    {it : Iteration n T K} (hd : ∀ i t, 0 ≤ d i t)
    (hdemand : ∀ i, (it.consumers i).consumption = d i)
    (henergy : ∀ t, 0 ≤ it.energyAllocated 0 t) (hstep : Step V d s (post .prorata it)) :
    Tight V d s (roundOf (post .prorata it)) := by
  obtain ⟨-, -, hfields⟩ := post_fields .prorata it
  have halloc : ∀ i t, (roundOf (post .prorata it)).alloc i t
      = prorataAllocated it.consumers (it.energyAllocated 0) i t :=
    fun i t => congrFun (hfields i).2.1 t
  have hcons : ∀ i t, 0 ≤ (it.consumers i).consumption t := fun i t => by
    rw [hdemand]
    exact hd i t
  refine tight_of_proportional hd (fun t => ?_) fun t => ?_
  · exact (hstep.complete t).trans (hstep.energy t)
  · rcases (Finset.sum_nonneg fun j _ => hcons j t :
        0 ≤ ∑ j, (it.consumers j).consumption t).eq_or_lt with hzero | hpos
    · right
      constructor
      · intro i
        rw [← hdemand]
        exact (Finset.sum_eq_zero_iff_of_nonneg fun j _ => hcons j t).mp hzero.symm i
          (Finset.mem_univ i)
      · intro i
        rw [halloc, prorataAllocated_of_zero hzero.symm]
        split
        · exact henergy t
        · exact le_rfl
    · left
      refine ⟨it.energyAllocated 0 t / ∑ j, (it.consumers j).consumption t, fun i => ?_⟩
      rw [halloc, prorataAllocated_of_pos (fun i => hcons i t) hpos, hdemand]

theorem allTight_continueRun (root : Iteration n T K) (hV : ∀ t, 0 ≤ root.energyAllocated 0 t) :
    ∀ (choice : List (K × AlgoName)) (previous : Iteration n T K), Settled previous →
      (∀ step ∈ choice, 0 ≤ step.1 ∧ step.2 = .prorata) →
        AllTight (root.energyAllocated 0) (fun i => (previous.consumers i).residualVolume)
          previous.surplus (((continueRun root previous choice).map Prod.snd).map roundOf) := by
  intro choice
  induction choice with
  | nil => intro previous _ _; trivial
  | cons head choice ih =>
    obtain ⟨pct, algo⟩ := head
    intro previous hprevious hchoice
    obtain ⟨hpct, rfl⟩ : 0 ≤ pct ∧ algo = .prorata := hchoice _ (List.mem_cons_self ..)
    have hstep := (linked_continueRun root ((pct, .prorata) :: choice) previous hprevious).1
    refine ⟨tight_prorata (residualVolume_nonneg_of_settled hprevious) (fun i => rfl) ?_ hstep, ?_⟩
    · intro t
      exact add_nonneg (mul_nonneg (hV t) hpct) (surplus_nonneg_of_settled hprevious t)
    · rw [hstep.nextDemand_eq, hstep.nextCarry_eq]
      exact ih _ hstep.settled fun step hmem => hchoice step (List.mem_cons_of_mem _ hmem)

theorem allTight_keyRun {C VA : Fin (n + 1) → Fin T → K} (hC : ∀ i t, 0 ≤ C i t)
    (hVA : ∀ t, 0 ≤ VA 0 t) {choice : List (K × AlgoName)}
    (hchoice : ∀ step ∈ choice, 0 ≤ step.1 ∧ step.2 = .prorata) :
    AllTight (VA 0) C 0
      (((keyRun (makeRootIteration C VA) choice).map Prod.snd).map roundOf) := by
  rcases choice with _ | ⟨⟨pct, algo⟩, choice⟩
  · trivial
  · obtain ⟨hpct, rfl⟩ : 0 ≤ pct ∧ algo = .prorata := hchoice _ (List.mem_cons_self ..)
    have hstep := (linked_keyRun VA hC ((pct, .prorata) :: choice)).1
    refine ⟨tight_prorata hC (fun i => rfl) (fun t => mul_nonneg (hVA t) hpct) hstep, ?_⟩
    rw [hstep.nextDemand_eq, hstep.nextCarry_eq]
    exact allTight_continueRun (makeRootIteration C VA) hVA choice _ hstep.settled
      fun step hmem => hchoice step (List.mem_cons_of_mem _ hmem)

/-- **Attainment.**  A run of `prorata` iterations leaves the minimum, however the production
is split between them. -/
theorem surplusTotal_of_prorata {C VA : Fin (n + 1) → Fin T → K} (hC : ∀ i t, 0 ≤ C i t)
    (hVA : ∀ t, 0 ≤ VA 0 t) {nbIterations : ℕ} {choice : List (K × AlgoName)}
    (hnb : nbIterations = 1 ∨ nbIterations = 2 ∨ nbIterations = 3)
    (hchoice : choice ∈ choices nbIterations) (hprorata : ∀ step ∈ choice, step.2 = .prorata)
    {last : Iteration n T K}
    (hlast : ((keyRun (makeRootIteration C VA) choice).map Prod.snd).getLast? = some last) :
    last.surplusTotal = theoreticalMinimum C VA := by
  have hlinked := linked_keyRun VA hC choice
  have hshares := (choices_shares hnb hchoice).1
  have htight := allTight_keyRun hC hVA fun step hmem => ⟨hshares step hmem, hprorata step hmem⟩
  have hnonneg : ∀ r ∈ ((keyRun (makeRootIteration C VA) choice).map Prod.snd).map roundOf,
      0 ≤ r.share := by
    intro r hr
    have hmem := List.mem_map_of_mem (f := Round.share) hr
    rw [shares_keyRun] at hmem
    obtain ⟨step, hstep, hshare⟩ := List.mem_map.mp hmem
    rw [← hshare]
    exact hshares step hstep
  have hne : ((keyRun (makeRootIteration C VA) choice).map Prod.snd).map roundOf ≠ [] := by
    intro hnil
    rw [List.map_eq_nil_iff.mp hnil] at hlast
    cases hlast
  rw [surplusTotal_of_linked hlinked hlast, theoreticalMinimum]
  apply Finset.sum_congr rfl
  intro t _
  rw [finalSurplus_of_tight hVA t _ C 0 hnonneg (complete_of_linked hlinked) htight hne,
    shareOver_keyRun hnb hchoice, one_mul, Pi.zero_apply, add_zero]

/-! ### The result of the algorithm -/

omit [IsStrictOrderedRing K] in
theorem names_continueRun (root : Iteration n T K) :
    ∀ (choice : List (K × AlgoName)) (previous : Iteration n T K),
      (continueRun root previous choice).map Prod.fst
        = choice.map fun step => step.2.toString := by
  intro choice
  induction choice with
  | nil => intro previous; rfl
  | cons head choice ih => intro previous; simp only [continueRun, List.map_cons, ih]

omit [IsStrictOrderedRing K] in
theorem names_keyRun (root : Iteration n T K) (choice : List (K × AlgoName)) :
    (keyRun root choice).map Prod.fst = choice.map fun step => step.2.toString := by
  rcases choice with _ | ⟨head, choice⟩
  · rfl
  · simp only [keyRun, List.map_cons, names_continueRun]

theorem AlgoName.toString_injective : Function.Injective AlgoName.toString := by
  intro a b h
  cases a <;> cases b <;> first | rfl | exact absurd h (by decide)

omit [IsStrictOrderedRing K] in
/-- The enumeration holds a sequence of `prorata` only. -/
theorem exists_prorata_choice (inputs : BruteForceInput) :
    ∃ choice ∈ (choices inputs.iterations : List (List (K × AlgoName))),
      ∀ step ∈ choice, step.2 = .prorata := by
  rcases inputs.generator.valid with h | h | h
  · refine ⟨[(1, .prorata)], ?_, by simp⟩
    rw [show inputs.iterations = 1 from h]
    simp [choices, algoNames]
  · refine ⟨[((0 : ℕ) / 10, .prorata), (1 - (0 : ℕ) / 10, .prorata)], ?_, by simp⟩
    rw [show inputs.iterations = 2 from h]
    simp only [choices, OfNat.ofNat_ne_one, if_false, if_true, List.mem_flatMap, List.mem_map]
    exact ⟨0, by simp, .prorata, by simp [algoNames], .prorata, by simp [algoNames], rfl⟩
  · refine ⟨[((0 : ℕ) / 10, .prorata), ((0 : ℕ) / 10, .prorata),
      (thirdShare ((0 : ℕ) / 10) ((0 : ℕ) / 10), .prorata)], ?_, by simp⟩
    rw [show inputs.iterations = 3 from h]
    simp only [choices, OfNat.ofNat_ne_one, if_false, Nat.reduceEqDiff, List.mem_flatMap,
      List.mem_map]
    exact ⟨0, by simp, 0, by simp, .prorata, by simp [algoNames], .prorata, by simp [algoNames],
      .prorata, by simp [algoNames], rfl⟩

/-- The key of a choice is in the result; its final surplus is that of its run. -/
theorem key_of_choice (rounded : K → String) (inputs : BruteForceInput)
    (rawData : AlgorithmRawData n T K) {choice : List (K × AlgoName)}
    (hchoice : choice ∈ choices inputs.iterations) :
    let steps := keyRun (makeRootIteration rawData.C rawData.VA) choice
    keyOfRun rounded rawData.consumerNames steps ∈ (run rounded inputs rawData).keys ∧
      ∃ last, (steps.map Prod.snd).getLast? = some last ∧
        finalSurplusTotal (keyOfRun rounded rawData.consumerNames steps) = last.surplusTotal := by
  intro steps
  refine ⟨mem_run_keys.mpr ⟨steps, List.mem_map_of_mem hchoice, rfl⟩, ?_⟩
  have hne : steps.map Prod.snd ≠ [] := by
    rw [← List.length_pos_iff, List.length_map, length_keyRun,
      (choices_shares inputs.generator.valid hchoice).2.2]
    exact inputs.one_le
  have hlast := List.getLast?_eq_getLast_of_ne_nil hne
  exact ⟨_, hlast, finalSurplusTotal_keyOfRun rounded rawData.consumerNames hlast⟩

/-- **Brute force returns the optimum first.**  No key beats the theoretical minimum; every
all-`prorata` path of the enumeration is a key of the result and attains it; the first key has
exactly that final surplus. -/
theorem run_optimum (rounded : K → String) (inputs : BruteForceInput)
    (rawData : AlgorithmRawData n T K) (hC : ∀ i t, 0 ≤ rawData.C i t)
    (hVA : ∀ i t, 0 ≤ rawData.VA i t) :
    (∀ key ∈ (run rounded inputs rawData).keys,
        theoreticalMinimum rawData.C rawData.VA ≤ finalSurplusTotal key) ∧
      (∀ path ∈ (inputs.generator.generate rawData.C rawData.VA).flatMap Node.paths,
        (∀ step ∈ path, step.1 = AlgoName.prorata.toString) →
          keyOfPath rounded rawData.consumerNames path ∈ (run rounded inputs rawData).keys ∧
            finalSurplusTotal (keyOfPath rounded rawData.consumerNames path)
              = theoreticalMinimum rawData.C rawData.VA) ∧
      ∃ first, (run rounded inputs rawData).keys.head? = some first ∧
        finalSurplusTotal first = theoreticalMinimum rawData.C rawData.VA := by
  have hvalid := inputs.generator.valid
  have hlower : ∀ key ∈ (run rounded inputs rawData).keys,
      theoreticalMinimum rawData.C rawData.VA ≤ finalSurplusTotal key := by
    intro key hkey
    obtain ⟨steps, hsteps, rfl⟩ := mem_run_keys.mp hkey
    obtain ⟨choice, hchoice, rfl⟩ := List.mem_map.mp hsteps
    obtain ⟨-, last, hlast, hfinal⟩ := key_of_choice rounded inputs rawData hchoice
    rw [hfinal]
    exact theoreticalMinimum_le hC (linked_keyRun _ hC choice)
      (shareOver_keyRun hvalid hchoice _) hlast
  -- prorata at every iteration attains the bound, whatever the shares
  have hattain : ∀ choice ∈ choices inputs.iterations, (∀ step ∈ choice, step.2 = .prorata) →
      finalSurplusTotal (keyOfRun rounded rawData.consumerNames
          (keyRun (makeRootIteration rawData.C rawData.VA) choice))
        = theoreticalMinimum rawData.C rawData.VA := by
    intro choice hchoice hprorata
    obtain ⟨-, last, hlast, hfinal⟩ := key_of_choice rounded inputs rawData hchoice
    rw [hfinal]
    exact surplusTotal_of_prorata hC (hVA 0) hvalid hchoice hprorata hlast
  refine ⟨hlower, ?_, ?_⟩
  · intro path hpath hnames
    rw [BruteForceGenerator.generate, paths_generateWith] at hpath
    obtain ⟨choice, hchoice, rfl⟩ := List.mem_map.mp hpath
    refine ⟨(key_of_choice rounded inputs rawData hchoice).1, hattain choice hchoice ?_⟩
    intro step hstep
    -- the names on the path are those of the functions of the choice
    have hmem : step.2.toString
        ∈ (keyRun (makeRootIteration rawData.C rawData.VA) choice).map Prod.fst := by
      rw [names_keyRun]
      exact List.mem_map_of_mem hstep
    obtain ⟨entry, hentry, hname⟩ := List.mem_map.mp hmem
    have hview := hnames (entry.1, entry.2.summary)
      (List.mem_map_of_mem (f := fun s : String × Iteration n T K => (s.1, s.2.summary)) hentry)
    exact AlgoName.toString_injective (hname.symm.trans hview)
  · obtain ⟨choice, hchoice, hprorata⟩ := exists_prorata_choice (K := K) inputs
    obtain ⟨hmem, -⟩ := key_of_choice rounded inputs rawData hchoice
    obtain ⟨first, rest, hfirst⟩ := List.exists_cons_of_ne_nil (List.ne_nil_of_mem hmem)
    have hhead : (run rounded inputs rawData).keys.head? = some first := by rw [hfirst]; rfl
    -- the first key is no worse than the one that attains the bound
    refine ⟨first, hhead, le_antisymm ?_ (hlower first (by rw [hfirst]; simp))⟩
    rw [← hattain choice hchoice hprorata]
    rw [run_keys] at hhead hmem
    exact finalSurplusTotal_head_le ((List.mem_insertionSort _).mp hmem) hhead

/-- Two consumers of one unit and three units produced: the first key leaves one. -/
theorem run_optimum_steady :
    ∃ first, (run (fun _ => "") ⟨2, by decide, by decide⟩
        (⟨fun _ _ => 1, fun _ _ => 3, []⟩ : AlgorithmRawData 1 1 ℚ)).keys.head? = some first ∧
      finalSurplusTotal first = 1 := by
  obtain ⟨-, -, first, hfirst, hsurplus⟩ := run_optimum (fun _ => "") ⟨2, by decide, by decide⟩
    (⟨fun _ _ => 1, fun _ _ => 3, []⟩ : AlgorithmRawData 1 1 ℚ) (by decide) (by decide)
  exact ⟨first, hfirst, hsurplus.trans (by decide +kernel)⟩

end AllocationKeys.BruteForce
