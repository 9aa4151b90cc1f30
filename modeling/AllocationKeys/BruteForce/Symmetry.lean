import AllocationKeys.BruteForce.Shares
import Mathlib.Algebra.BigOperators.Group.Finset.Basic
import Mathlib.Logic.Equiv.Fin.Basic

/-!
# What the keys do not depend on

The brute force knows the participants by their place in the file and the readings by their unit.
Neither matters for what it recommends:

* `run_reorder`: with the participants in another order it returns the same keys in the same order,
  as far as they do not name a participant, and every participant takes and lacks the same energy
  along each of them;
* `run_inUnit`: in another unit it returns the same keys in the same order with the same shares, and
  the surpluses in that unit.

Both follow two runs of one sequence of choices side by side (`Alike`, `alike_keyRun`). When no
demand is left the first participant of the file gets the energy, whoever that is, so the shares
that the keys report of an iteration can depend on the order.
-/

namespace AllocationKeys.BruteForce

open Algorithms EnergyRounds

variable {n T : ℕ} {K γ : Type*} [Field K] [LinearOrder K]

/-! ### Two runs side by side -/

/-- What the first iterations of two runs have in common, and keep as they go on. -/
structure Alike (R : Iteration n T K → Iteration n T K → Prop) (root root' : Iteration n T K) :
    Prop where
  first : ∀ pct algo, 0 ≤ pct → R (applyFirst id root pct algo).2 (applyFirst id root' pct algo).2
  next : ∀ pct algo previous previous', 0 ≤ pct → Settled previous → R previous previous' →
    R (post algo (buildNextIteration root previous pct))
      (post algo (buildNextIteration root' previous' pct))

/-- The iterations of two runs are related one by one, with the same functions. -/
def Together (R : Iteration n T K → Iteration n T K → Prop) :
    List (String × Iteration n T K) → List (String × Iteration n T K) → Prop :=
  List.Forall₂ fun step step' => step'.1 = step.1 ∧ R step.2 step'.2

variable {R : Iteration n T K → Iteration n T K → Prop} {root root' : Iteration n T K}

theorem alike_continueRun (h : Alike R root root') :
    ∀ (choice : List (K × AlgoName)) (previous previous' : Iteration n T K),
      (∀ step ∈ choice, 0 ≤ step.1) → Settled previous → R previous previous' →
        Together R (continueRun root previous choice) (continueRun root' previous' choice) := by
  intro choice
  induction choice with
  | nil => intro previous previous' _ _ _; exact List.Forall₂.nil
  | cons head choice ih =>
    obtain ⟨pct, algo⟩ := head
    intro previous previous' hpct hsettled hprevious
    obtain ⟨hhead, hrest⟩ := List.forall_mem_cons.mp hpct
    have hnext := h.next pct algo previous previous' hhead hsettled hprevious
    exact List.Forall₂.cons ⟨rfl, hnext⟩ (ih _ _ hrest (post_settled algo _) hnext)

theorem alike_keyRun (h : Alike R root root') {choice : List (K × AlgoName)}
    (hpct : ∀ step ∈ choice, 0 ≤ step.1) :
    Together R (keyRun root choice) (keyRun root' choice) := by
  rcases choice with _ | ⟨⟨pct, algo⟩, choice⟩
  · exact List.Forall₂.nil
  · obtain ⟨hhead, hrest⟩ := List.forall_mem_cons.mp hpct
    have hfirst := h.first pct algo hhead
    have hsettled : Settled (applyFirst id root pct algo).2 := by
      rw [applyFirst, algos_eq]
      exact post_settled algo _
    exact List.Forall₂.cons ⟨rfl, hfirst⟩ (alike_continueRun h choice _ _ hrest hsettled hfirst)

/-! ### The keys of two inputs -/

/-- The key of a sequence of choices. -/
def keyOfChoice (rounded : K → String) (rawData : AlgorithmRawData n T K)
    (choice : List (K × AlgoName)) : AllocationKeyResult K :=
  keyOfRun rounded rawData.consumerNames (keyRun (makeRootIteration rawData.C rawData.VA) choice)

theorem insertionSort_congr {r s : γ → γ → Prop} [DecidableRel r] [DecidableRel s] {l : List γ}
    (h : ∀ a ∈ l, ∀ b ∈ l, r a b ↔ s a b) : l.insertionSort r = l.insertionSort s := by
  have hmap := List.map_insertionSort r s id l h
  rwa [List.map_id, List.map_id] at hmap

/-- The keys come in the order of the choices, sorted. -/
theorem run_keys_choices (rounded : K → String) (inputs : BruteForceInput)
    (rawData : AlgorithmRawData n T K) :
    (run rounded inputs rawData).keys =
      ((choices inputs.iterations).insertionSort fun a b =>
        finalSurplusTotal (keyOfChoice rounded rawData a) ≤
          finalSurplusTotal (keyOfChoice rounded rawData b)).map (keyOfChoice rounded rawData) := by
  rw [run_keys, runs, List.map_map]
  exact (List.map_insertionSort _ _ (keyOfChoice rounded rawData) _ fun _ _ _ _ => Iff.rfl).symm

/-- Two inputs whose final surpluses compare alike have their keys in the same order. -/
theorem run_keys_alike {rounded : K → String} {inputs : BruteForceInput}
    {rawData rawData' : AlgorithmRawData n T K} {f f' : AllocationKeyResult K → γ}
    (hsame : ∀ choice ∈ choices inputs.iterations,
      f' (keyOfChoice rounded rawData' choice) = f (keyOfChoice rounded rawData choice))
    (horder : ∀ a ∈ choices inputs.iterations, ∀ b ∈ choices inputs.iterations,
      finalSurplusTotal (keyOfChoice rounded rawData' a) ≤
          finalSurplusTotal (keyOfChoice rounded rawData' b) ↔
        finalSurplusTotal (keyOfChoice rounded rawData a) ≤
          finalSurplusTotal (keyOfChoice rounded rawData b)) :
    (run rounded inputs rawData').keys.map f' = (run rounded inputs rawData).keys.map f := by
  rw [run_keys_choices, run_keys_choices, insertionSort_congr horder, List.map_map, List.map_map]
  refine List.map_congr_left fun choice hchoice => hsame choice ?_
  exact (List.mem_insertionSort _).mp hchoice

/-- The reports of two runs are related one by one when those of their iterations are. -/
theorem pathResults_together {Q : IterationResult K → IterationResult K → Prop}
    {names names' : List String}
    (hreport : ∀ it it' number, R it it' →
      Q (iterationResult it.summary number names) (iterationResult it'.summary number names')) :
    ∀ {steps steps' : List (String × Iteration n T K)} (number : ℕ), Together R steps steps' →
      List.Forall₂ Q (pathResults names number (viewRun Iteration.summary steps))
        (pathResults names' number (viewRun Iteration.summary steps')) := by
  intro steps steps' number h
  induction h generalizing number with
  | nil => exact List.Forall₂.nil
  | cons hstep _ ih =>
    exact List.Forall₂.cons (hreport _ _ number hstep.2) (ih (number + 1))

omit [Field K] [LinearOrder K] in
theorem names_together {steps steps' : List (String × Iteration n T K)}
    (h : Together R steps steps') : steps'.map Prod.fst = steps.map Prod.fst := by
  induction h with
  | nil => rfl
  | cons hstep _ ih => rw [List.map_cons, List.map_cons, hstep.1, ih]

theorem map_of_forall₂ {β : Type*} {f f' : γ → β} {l l' : List γ}
    (h : List.Forall₂ (fun a b => f' b = f a) l l') : l'.map f' = l.map f := by
  induction h with
  | nil => rfl
  | cons hhead _ ih => rw [List.map_cons, List.map_cons, hhead, ih]

/-! ### The order of the participants -/

section Order

variable [IsStrictOrderedRing K] {π : Equiv.Perm (Fin (n + 1))} {it it' : Iteration n T K}

/-- The participants in another order, under any names. -/
def reorder (π : Equiv.Perm (Fin (n + 1))) (names : List String)
    (rawData : AlgorithmRawData n T K) : AlgorithmRawData n T K where
  C := fun i => rawData.C (π i)
  VA := fun i => rawData.VA (π i)
  consumerNames := names

/-- The same iteration with the participants in another order. -/
structure Reordered (π : Equiv.Perm (Fin (n + 1))) (it it' : Iteration n T K) : Prop where
  percentage : it'.energyAllocatedPercentage = it.energyAllocatedPercentage
  consumed : ∀ i, (it'.consumers i).energyAllocatedConsumed =
    (it.consumers (π i)).energyAllocatedConsumed
  residual : ∀ i, (it'.consumers i).residualVolume = (it.consumers (π i)).residualVolume
  surplus : it'.surplus = it.surplus
  surplusTotal : it'.surplusTotal = it.surplusTotal

theorem allocation_nonneg (algo : AlgoName) (hd : ∀ i t, 0 ≤ (it.consumers i).consumption t)
    (henergy : ∀ t, 0 ≤ it.energyAllocated 0 t) (i : Fin (n + 1)) (t : Fin T) :
    0 ≤ allocation algo it i t := by
  cases algo with
  | egalitaire =>
    have hshare : 0 ≤ recordedShare .egalitaire it i := recordedShare_nonneg (by simp) hd i
    exact mul_nonneg (henergy t) hshare
  | prorataTotal =>
    have hshare : 0 ≤ recordedShare .prorataTotal it i := recordedShare_nonneg (by simp) hd i
    simp only [allocation]
    simp only [recordedShare] at hshare
    split_ifs at hshare ⊢
    · exact henergy t
    · exact le_rfl
    · exact mul_nonneg (henergy t) hshare
  | prorata => exact allocation_prorata_nonneg hd henergy i t

/-- A time step has the same allocations in the other order, or no demand. -/
theorem allocation_reordered (algo : AlgoName)
    (hconsumption : ∀ i, (it'.consumers i).consumption = (it.consumers (π i)).consumption)
    (henergy : it'.energyAllocated 0 = it.energyAllocated 0)
    (hd : ∀ i t, 0 ≤ (it.consumers i).consumption t) (t : Fin T) :
    (∀ i, allocation algo it' i t = allocation algo it (π i) t) ∨
      ∀ i, (it.consumers i).consumption t = 0 := by
  cases algo with
  | egalitaire =>
    refine Or.inl fun i => ?_
    simp only [allocation, henergy]
  | prorataTotal =>
    have htotal : ∑ j, ∑ u, (it'.consumers j).consumption u =
        ∑ j, ∑ u, (it.consumers j).consumption u := by
      simp only [hconsumption]
      exact Equiv.sum_comp π fun j => ∑ u, (it.consumers j).consumption u
    -- `prorata_total` gives everything to the first consumer when nobody has a demand
    by_cases hzero : ∑ j, ∑ u, (it.consumers j).consumption u = 0
    · refine Or.inr fun i => ?_
      have hpart := (Finset.sum_eq_zero_iff_of_nonneg fun j _ =>
        Finset.sum_nonneg fun u _ => hd j u).mp hzero i (Finset.mem_univ i)
      exact (Finset.sum_eq_zero_iff_of_nonneg fun u _ => hd i u).mp hpart t (Finset.mem_univ t)
    · refine Or.inl fun i => ?_
      simp only [allocation]
      rw [htotal, if_neg hzero, if_neg hzero, henergy, hconsumption]
  | prorata =>
    have hsum : ∑ j, (it'.consumers j).consumption t = ∑ j, (it.consumers j).consumption t := by
      simp only [hconsumption]
      exact Equiv.sum_comp π fun j => (it.consumers j).consumption t
    by_cases hpos : 0 < ∑ j, (it.consumers j).consumption t
    · refine Or.inl fun i => ?_
      simp only [allocation, prorataAllocated, prorataShare]
      rw [hsum, if_pos hpos, if_pos hpos, if_pos hpos, if_pos hpos, hconsumption]
      simp only [henergy]
    · refine Or.inr fun i => ?_
      have hzero : ∑ j, (it.consumers j).consumption t = 0 :=
        le_antisymm (not_lt.mp hpos) (Finset.sum_nonneg fun j _ => hd j t)
      exact (Finset.sum_eq_zero_iff_of_nonneg fun j _ => hd j t).mp hzero i (Finset.mem_univ i)

omit [IsStrictOrderedRing K] in
/-- Without a demand nothing is served and everything is left. -/
theorem served_of_zero {a : K} (ha : 0 ≤ a) : served 0 a = 0 := min_eq_left ha

theorem unmet_of_zero {a : K} (ha : 0 ≤ a) : unmet 0 a = 0 :=
  max_eq_left (by rw [zero_sub]; exact neg_nonpos.mpr ha)

omit [IsStrictOrderedRing K] in
theorem unused_of_zero {a : K} (ha : 0 ≤ a) : unused 0 a = a := by
  rw [unused, sub_zero]
  exact max_eq_right ha

theorem reordered_post (algo : AlgoName)
    (hpercentage : it'.energyAllocatedPercentage = it.energyAllocatedPercentage)
    (hconsumption : ∀ i, (it'.consumers i).consumption = (it.consumers (π i)).consumption)
    (henergy : it'.energyAllocated 0 = it.energyAllocated 0)
    (hd : ∀ i t, 0 ≤ (it.consumers i).consumption t)
    (hE : ∀ t, 0 ≤ it.energyAllocated 0 t) : Reordered π (post algo it) (post algo it') := by
  have hd' : ∀ i t, 0 ≤ (it'.consumers i).consumption t := fun i t => by
    rw [hconsumption]
    exact hd (π i) t
  have ha := allocation_nonneg algo hd hE
  have ha' := allocation_nonneg algo hd' (henergy ▸ hE)
  obtain ⟨-, hpct, hfields⟩ := post_fields algo it
  obtain ⟨-, hpct', hfields'⟩ := post_fields algo it'
  have hsettled := post_settled algo it
  have hsettled' := post_settled algo it'
  have hsurplus : (post algo it').surplus = (post algo it).surplus := by
    funext t
    rw [hsettled.surplus, hsettled'.surplus]
    simp only [(hfields _).1, (hfields _).2.1, (hfields' _).1, (hfields' _).2.1, hconsumption]
    rcases allocation_reordered algo hconsumption henergy hd t with hsame | hzero
    · simp only [hsame]
      exact Equiv.sum_comp π fun i =>
        unused ((it.consumers i).consumption t) (allocation algo it i t)
    · -- without demand all energy is left, whoever it was allocated to
      simp only [hzero, unused_of_zero (ha _ t), unused_of_zero (ha' _ t)]
      rw [sum_allocation algo hd, sum_allocation algo hd', henergy]
  refine ⟨?_, fun i => ?_, fun i => ?_, hsurplus, ?_⟩
  · rw [hpct, hpct', hpercentage]
  · funext t
    rw [hsettled.consumed, hsettled'.consumed, (hfields _).1, (hfields _).2.1, (hfields' _).1,
      (hfields' _).2.1, hconsumption]
    rcases allocation_reordered algo hconsumption henergy hd t with hsame | hzero
    · rw [hsame]
    · rw [hzero, served_of_zero (ha _ t), served_of_zero (ha' _ t)]
  · funext t
    rw [hsettled.residual, hsettled'.residual, (hfields _).1, (hfields _).2.1, (hfields' _).1,
      (hfields' _).2.1, hconsumption]
    rcases allocation_reordered algo hconsumption henergy hd t with hsame | hzero
    · rw [hsame]
    · rw [hzero, unmet_of_zero (ha _ t), unmet_of_zero (ha' _ t)]
  · rw [hsettled.surplusTotal, hsettled'.surplusTotal, hsurplus]

/-- Two runs on the same data, with the participants in another order, go alike. -/
theorem alike_reorder {C VA : Fin (n + 1) → Fin T → K} (hC : ∀ i t, 0 ≤ C i t)
    (hVA : ∀ t, 0 ≤ VA 0 t) (hrows : ∀ i, VA i = VA 0) :
    Alike (Reordered π) (makeRootIteration C VA)
      (makeRootIteration (fun i => C (π i)) fun i => VA (π i)) where
  first pct algo hpct := by
    rw [applyFirst, algos_eq, applyFirst, algos_eq]
    refine reordered_post algo rfl (fun i => rfl) ?_ hC fun t => mul_nonneg (hVA t) hpct
    funext t
    show VA (π 0) t * pct = VA 0 t * pct
    rw [hrows]
  next pct algo previous previous' hpct hsettled h := by
    refine reordered_post algo rfl h.residual ?_ ?_ fun t => ?_
    · funext t
      show VA (π 0) t * pct + previous'.surplus t = VA 0 t * pct + previous.surplus t
      rw [hrows, h.surplus]
    · exact fun i t => residualVolume_nonneg_of_settled hsettled i t
    · exact add_nonneg (mul_nonneg (hVA t) hpct) (surplus_nonneg_of_settled hsettled t)

/-- A reported iteration without the parts of its consumers. -/
def withoutParts (it : IterationResult K) : IterationResult K := { it with consumers := [] }

/-- A key without the parts of its consumers. -/
def withoutConsumers (key : AllocationKeyResult K) : AllocationKeyResult K :=
  { key with iterations := key.iterations.map withoutParts }

omit [LinearOrder K] [IsStrictOrderedRing K] in
theorem withoutConsumers_buildKey (rounded : K → String) (iterations : List (IterationResult K))
    (names : List String) :
    withoutConsumers (buildKey rounded iterations names) =
      buildKey rounded (iterations.map withoutParts) names := by
  have hpercentage : (fun it : IterationResult K => rounded it.energyAllocatedPercentage) ∘
      withoutParts = fun it => rounded it.energyAllocatedPercentage := rfl
  have hsurplus : IterationResult.surplusTotal ∘ withoutParts (K := K) =
      IterationResult.surplusTotal := rfl
  simp only [withoutConsumers, buildKey, List.map_map, hpercentage, List.getLast?_map,
    Option.map_map, hsurplus, List.length_map]

omit [LinearOrder K] [IsStrictOrderedRing K] in
theorem finalSurplusTotal_withoutConsumers (key : AllocationKeyResult K) :
    finalSurplusTotal (withoutConsumers key) = finalSurplusTotal key := by
  have hsurplus : IterationResult.surplusTotal ∘ withoutParts (K := K) =
      IterationResult.surplusTotal := rfl
  simp only [finalSurplusTotal, withoutConsumers, List.getLast?_map, Option.map_map, hsurplus]

omit [IsStrictOrderedRing K] in
theorem keyOfRun_reordered (rounded : K → String) (names names' : List String)
    {steps steps' : List (String × Iteration n T K)} (h : Together (Reordered π) steps steps') :
    withoutConsumers (keyOfRun rounded names' steps') =
      withoutConsumers (keyOfRun rounded names steps) := by
  have hreport : ∀ (it it' : Iteration n T K) (number : ℕ), Reordered π it it' →
      withoutParts (iterationResult it'.summary number names') =
        withoutParts (iterationResult it.summary number names) := fun it it' number hit => by
    show IterationResult.mk number it'.energyAllocatedPercentage it'.surplusTotal [] =
      IterationResult.mk number it.energyAllocatedPercentage it.surplusTotal []
    rw [hit.percentage, hit.surplusTotal]
  have hreports := pathResults_together (Q := fun a b => withoutParts b = withoutParts a)
    hreport 1 h
  have hnames : ∀ run : List (String × Iteration n T K),
      (viewRun Iteration.summary run).map Prod.fst = run.map Prod.fst := fun run =>
    List.map_map
  rw [keyOfRun, keyOfRun, keyOfPath, keyOfPath, withoutConsumers_buildKey,
    withoutConsumers_buildKey, map_of_forall₂ hreports, hnames, hnames, names_together h]

/-- **The participants' places in the file do not matter.** On the same meters in any other order,
and under any names, the algorithm returns the same keys in the same order: the same functions,
percentages and surpluses. Along every sequence of choices each participant takes and lacks the same
energy at every time step, wherever it stands. -/
theorem run_reorder (rounded : K → String) (inputs : BruteForceInput)
    (rawData : AlgorithmRawData n T K) (π : Equiv.Perm (Fin (n + 1))) (names : List String)
    (hC : ∀ i t, 0 ≤ rawData.C i t) (hVA : ∀ t, 0 ≤ rawData.VA 0 t)
    (hrows : ∀ i, rawData.VA i = rawData.VA 0) :
    (run rounded inputs (reorder π names rawData)).keys.map withoutConsumers =
        (run rounded inputs rawData).keys.map withoutConsumers ∧
      ∀ choice ∈ choices inputs.iterations,
        Together (Reordered π) (keyRun (makeRootIteration rawData.C rawData.VA) choice)
          (keyRun (makeRootIteration (reorder π names rawData).C (reorder π names rawData).VA)
            choice) := by
  have halike : ∀ choice ∈ choices inputs.iterations,
      Together (Reordered π) (keyRun (makeRootIteration rawData.C rawData.VA) choice)
        (keyRun (makeRootIteration (reorder π names rawData).C (reorder π names rawData).VA)
          choice) := fun choice hchoice =>
    alike_keyRun (alike_reorder hC hVA hrows) (choices_shares inputs.generator.valid hchoice).1
  have hkey : ∀ choice ∈ choices inputs.iterations,
      withoutConsumers (keyOfChoice rounded (reorder π names rawData) choice) =
        withoutConsumers (keyOfChoice rounded rawData choice) := fun choice hchoice =>
    keyOfRun_reordered rounded _ _ (halike choice hchoice)
  have hfinal : ∀ choice ∈ choices inputs.iterations,
      finalSurplusTotal (keyOfChoice rounded (reorder π names rawData) choice) =
        finalSurplusTotal (keyOfChoice rounded rawData choice) := by
    intro choice hchoice
    rw [← finalSurplusTotal_withoutConsumers, hkey choice hchoice,
      finalSurplusTotal_withoutConsumers]
  refine ⟨run_keys_alike hkey fun a ha b hb => ?_, halike⟩
  rw [hfinal a ha, hfinal b hb]

/-- Two meters that change places: the keys are the same but for the parts, and each meter keeps its
energy in every iteration. -/
theorem run_reorder_two :
    let rawData : AlgorithmRawData 1 1 ℚ := ⟨![![3], ![1]], fun _ _ => 2, ["north", "south"]⟩
    (run (fun _ => "") ⟨2, by decide, by decide⟩
        (reorder (Equiv.swap 0 1) ["south", "north"] rawData)).keys.map withoutConsumers =
      (run (fun _ => "") ⟨2, by decide, by decide⟩ rawData).keys.map withoutConsumers ∧
    ∀ choice ∈ choices 2,
      Together (Reordered (Equiv.swap 0 1)) (keyRun (makeRootIteration rawData.C rawData.VA) choice)
        (keyRun (makeRootIteration (fun i => rawData.C (Equiv.swap 0 1 i))
          fun i => rawData.VA (Equiv.swap 0 1 i)) choice) :=
  run_reorder (fun _ => "") ⟨2, by decide, by decide⟩ ⟨![![3], ![1]], fun _ _ => 2, _⟩
    (Equiv.swap 0 1) ["south", "north"] (by decide) (by decide) fun _ => rfl

end Order

/-! ### The unit of the readings -/

section Unit

variable [IsStrictOrderedRing K] {c : K} {it it' : Iteration n T K}

/-- The readings in a unit of which `c` make one. -/
def inUnit (c : K) (rawData : AlgorithmRawData n T K) : AlgorithmRawData n T K where
  C := fun i t => c * rawData.C i t
  VA := fun i t => c * rawData.VA i t
  consumerNames := rawData.consumerNames

/-- The same iteration with its energies in another unit. -/
structure Scaled (c : K) (it it' : Iteration n T K) : Prop where
  percentage : it'.energyAllocatedPercentage = it.energyAllocatedPercentage
  parts : it'.summary.consumerPercentages = it.summary.consumerPercentages
  allocated : ∀ i t, (it'.consumers i).energyAllocated t = c * (it.consumers i).energyAllocated t
  consumed : ∀ i t, (it'.consumers i).energyAllocatedConsumed t =
    c * (it.consumers i).energyAllocatedConsumed t
  residual : ∀ i t, (it'.consumers i).residualVolume t = c * (it.consumers i).residualVolume t
  surplus : ∀ t, it'.surplus t = c * it.surplus t
  surplusTotal : it'.surplusTotal = c * it.surplusTotal

theorem served_mul (hc : 0 < c) (d a : K) : served (c * d) (c * a) = c * served d a :=
  (mul_min_of_nonneg d a hc.le).symm

theorem unmet_mul (hc : 0 < c) (d a : K) : unmet (c * d) (c * a) = c * unmet d a := by
  rw [unmet, unmet, mul_max_of_nonneg _ _ hc.le, mul_zero, mul_sub]

theorem unused_mul (hc : 0 < c) (d a : K) : unused (c * d) (c * a) = c * unused d a := by
  rw [unused, unused, mul_max_of_nonneg _ _ hc.le, mul_zero, mul_sub]

omit [IsStrictOrderedRing K] in
theorem recordedShare_mul (hc : 0 < c) (algo : AlgoName)
    (hconsumption : ∀ i t, (it'.consumers i).consumption t = c * (it.consumers i).consumption t)
    (i : Fin (n + 1)) : recordedShare algo it' i = recordedShare algo it i := by
  cases algo with
  | egalitaire => rfl
  | prorata => rfl
  | prorataTotal =>
    simp only [recordedShare, hconsumption, ← Finset.mul_sum, mul_eq_zero, hc.ne', false_or]
    rw [mul_div_mul_left _ _ hc.ne']

theorem allocation_mul (hc : 0 < c) (algo : AlgoName)
    (hconsumption : ∀ i t, (it'.consumers i).consumption t = c * (it.consumers i).consumption t)
    (henergy : ∀ t, it'.energyAllocated 0 t = c * it.energyAllocated 0 t) (i : Fin (n + 1))
    (t : Fin T) : allocation algo it' i t = c * allocation algo it i t := by
  cases algo with
  | egalitaire => rw [allocation, allocation, henergy, mul_assoc]
  | prorataTotal =>
    simp only [allocation, hconsumption, henergy, ← Finset.mul_sum, mul_eq_zero, hc.ne', false_or]
    rw [mul_div_mul_left _ _ hc.ne']
    split_ifs
    · rfl
    · rw [mul_zero]
    · rw [mul_assoc]
  | prorata =>
    simp only [allocation, prorataAllocated, prorataShare, hconsumption, henergy,
      ← Finset.mul_sum, mul_pos_iff_of_pos_left hc]
    rw [mul_div_mul_left _ _ hc.ne']
    split_ifs
    · rw [mul_assoc]
    · rw [mul_zero]
    · rfl
    · rw [mul_zero]

theorem scaled_post (hc : 0 < c) (algo : AlgoName)
    (hpercentage : it'.energyAllocatedPercentage = it.energyAllocatedPercentage)
    (hconsumption : ∀ i t, (it'.consumers i).consumption t = c * (it.consumers i).consumption t)
    (henergy : ∀ t, it'.energyAllocated 0 t = c * it.energyAllocated 0 t) :
    Scaled c (post algo it) (post algo it') := by
  obtain ⟨hkept, hpct, hfields⟩ := post_fields algo it
  obtain ⟨hkept', hpct', hfields'⟩ := post_fields algo it'
  have hsettled := post_settled algo it
  have hsettled' := post_settled algo it'
  have halloc := allocation_mul hc algo hconsumption henergy
  have hsurplus : ∀ t, (post algo it').surplus t = c * (post algo it).surplus t := fun t => by
    rw [hsettled.surplus, hsettled'.surplus]
    simp only [(hfields _).1, (hfields _).2.1, (hfields' _).1, (hfields' _).2.1, hconsumption,
      halloc, unused_mul hc, Finset.mul_sum]
  refine ⟨?_, ?_, fun i t => ?_, fun i t => ?_, fun i t => ?_, hsurplus, ?_⟩
  · rw [hpct, hpct', hpercentage]
  · funext i
    simp only [Iteration.summary, (hfields i).2.1, (hfields i).2.2, (hfields' i).2.1,
      (hfields' i).2.2, hkept, hkept', recordedShare_mul hc algo hconsumption, halloc, henergy,
      ← Finset.mul_sum, mul_pos_iff_of_pos_left hc]
    rw [mul_div_mul_left _ _ hc.ne']
  · rw [(hfields i).2.1, (hfields' i).2.1, halloc]
  · rw [hsettled.consumed, hsettled'.consumed, (hfields _).1, (hfields _).2.1, (hfields' _).1,
      (hfields' _).2.1, hconsumption, halloc, served_mul hc]
  · rw [hsettled.residual, hsettled'.residual, (hfields _).1, (hfields _).2.1, (hfields' _).1,
      (hfields' _).2.1, hconsumption, halloc, unmet_mul hc]
  · rw [hsettled.surplusTotal, hsettled'.surplusTotal, Finset.mul_sum]
    exact Finset.sum_congr rfl fun t _ => hsurplus t

/-- Two runs on the same data in two units go alike. -/
theorem alike_inUnit (hc : 0 < c) (C VA : Fin (n + 1) → Fin T → K) :
    Alike (Scaled c) (makeRootIteration C VA)
      (makeRootIteration (fun i t => c * C i t) fun i t => c * VA i t) where
  first pct algo _ := by
    rw [applyFirst, algos_eq, applyFirst, algos_eq]
    refine scaled_post hc algo rfl (fun i t => rfl) fun t => ?_
    show c * VA 0 t * pct = c * (VA 0 t * pct)
    rw [mul_assoc]
  next pct algo previous previous' _ _ h := by
    refine scaled_post hc algo rfl h.residual fun t => ?_
    show c * VA 0 t * pct + previous'.surplus t = c * (VA 0 t * pct + previous.surplus t)
    rw [h.surplus, mul_add, mul_assoc]

/-- A reported iteration with its surplus in another unit. -/
def scaleSurplus (c : K) (it : IterationResult K) : IterationResult K :=
  { it with surplusTotal := c * it.surplusTotal }

omit [IsStrictOrderedRing K] in
theorem iterations_scaled (rounded : K → String) (names : List String)
    {steps steps' : List (String × Iteration n T K)} (h : Together (Scaled c) steps steps') :
    (keyOfRun rounded names steps').iterations =
      (keyOfRun rounded names steps).iterations.map (scaleSurplus c) := by
  have hreport : ∀ (it it' : Iteration n T K) (number : ℕ), Scaled c it it' →
      id (iterationResult it'.summary number names) =
        scaleSurplus c (iterationResult it.summary number names) := fun it it' number hit => by
    show iterationResult it'.summary number names =
      scaleSurplus c (iterationResult it.summary number names)
    rw [iterationResult, iterationResult, consumerResults, consumerResults, hit.parts]
    show IterationResult.mk number it'.energyAllocatedPercentage it'.surplusTotal _ =
      IterationResult.mk number it.energyAllocatedPercentage (c * it.surplusTotal) _
    rw [hit.percentage, hit.surplusTotal]
  have hreports := pathResults_together (Q := fun a b => id b = scaleSurplus c a) hreport 1 h
  have hmap := map_of_forall₂ hreports
  rwa [List.map_id] at hmap

omit [LinearOrder K] [IsStrictOrderedRing K] in
theorem finalSurplusTotal_scaled {key key' : AllocationKeyResult K}
    (h : key'.iterations = key.iterations.map (scaleSurplus c)) :
    finalSurplusTotal key' = c * finalSurplusTotal key := by
  rw [finalSurplusTotal, finalSurplusTotal, h, List.getLast?_map]
  cases key.iterations.getLast? with
  | none => exact (mul_zero c).symm
  | some it => rfl

omit [IsStrictOrderedRing K] in
/-- A key in the other unit is built of the same functions. -/
theorem keyOfRun_scaled (rounded : K → String) (names : List String)
    {steps steps' : List (String × Iteration n T K)} (h : Together (Scaled c) steps steps') :
    keyOfRun rounded names steps' =
      buildKey rounded ((keyOfRun rounded names steps).iterations.map (scaleSurplus c))
        (steps.map Prod.fst) := by
  have hnames : (viewRun Iteration.summary steps').map Prod.fst = steps.map Prod.fst := by
    rw [← names_together h]
    exact List.map_map
  rw [← iterations_scaled rounded names h, keyOfRun, keyOfPath, hnames]
  rfl

/-- **The unit of the readings does not matter.** On the same readings in another unit, whatever
their signs, the algorithm returns the same keys in the same order: built of the same functions, and
of iterations with the same percentages of the production and of every participant, every surplus in
the new unit. Along every sequence of choices each participant is allocated, takes and lacks the
same energy in the new unit. -/
theorem run_inUnit (rounded : K → String) (inputs : BruteForceInput)
    (rawData : AlgorithmRawData n T K) (hc : 0 < c) :
    (run rounded inputs (inUnit c rawData)).keys.map AllocationKeyResult.iterations =
        (run rounded inputs rawData).keys.map
          (fun key => key.iterations.map (scaleSurplus c)) ∧
      (∃ keys : List (List String × List (IterationResult K)),
        (run rounded inputs rawData).keys = keys.map (fun key => buildKey rounded key.2 key.1) ∧
        (run rounded inputs (inUnit c rawData)).keys =
          keys.map fun key => buildKey rounded (key.2.map (scaleSurplus c)) key.1) ∧
      ∀ choice ∈ choices inputs.iterations,
        Together (Scaled c) (keyRun (makeRootIteration rawData.C rawData.VA) choice)
          (keyRun (makeRootIteration (inUnit c rawData).C (inUnit c rawData).VA) choice) := by
  have halike : ∀ choice ∈ choices inputs.iterations,
      Together (Scaled c) (keyRun (makeRootIteration rawData.C rawData.VA) choice)
        (keyRun (makeRootIteration (inUnit c rawData).C (inUnit c rawData).VA) choice) :=
    fun choice hchoice => alike_keyRun (alike_inUnit hc rawData.C rawData.VA)
      (choices_shares inputs.generator.valid hchoice).1
  have hkey : ∀ choice ∈ choices inputs.iterations,
      (keyOfChoice rounded (inUnit c rawData) choice).iterations =
        (keyOfChoice rounded rawData choice).iterations.map (scaleSurplus c) :=
    fun choice hchoice => iterations_scaled rounded _ (halike choice hchoice)
  have horder : ∀ a ∈ choices inputs.iterations, ∀ b ∈ choices inputs.iterations,
      finalSurplusTotal (keyOfChoice rounded (inUnit c rawData) a) ≤
          finalSurplusTotal (keyOfChoice rounded (inUnit c rawData) b) ↔
        finalSurplusTotal (keyOfChoice rounded rawData a) ≤
          finalSurplusTotal (keyOfChoice rounded rawData b) := by
    intro a ha b hb
    rw [finalSurplusTotal_scaled (hkey a ha), finalSurplusTotal_scaled (hkey b hb)]
    exact mul_le_mul_iff_right₀ hc
  refine ⟨run_keys_alike hkey horder, ?_, halike⟩
  -- the order of the choices in both results
  refine ⟨((choices inputs.iterations).insertionSort fun a b =>
    finalSurplusTotal (keyOfChoice rounded rawData a) ≤
      finalSurplusTotal (keyOfChoice rounded rawData b)).map fun choice =>
        ((keyRun (makeRootIteration rawData.C rawData.VA) choice).map Prod.fst,
          (keyOfChoice rounded rawData choice).iterations), ?_, ?_⟩
  · rw [run_keys_choices, List.map_map]
    refine List.map_congr_left fun choice _ => ?_
    have hnames : (viewRun Iteration.summary
        (keyRun (makeRootIteration rawData.C rawData.VA) choice)).map Prod.fst =
          (keyRun (makeRootIteration rawData.C rawData.VA) choice).map Prod.fst := List.map_map
    show keyOfRun _ _ _ = _
    rw [keyOfRun, keyOfPath, hnames]
    rfl
  · rw [run_keys_choices, insertionSort_congr horder, List.map_map]
    refine List.map_congr_left fun choice hchoice => ?_
    exact keyOfRun_scaled rounded rawData.consumerNames
      (halike choice ((List.mem_insertionSort _).mp hchoice))

/-- A reading in kilowatt hours, and in watt hours. -/
theorem run_inUnit_thousand :
    (run (fun _ => "") ⟨2, by decide, by decide⟩ (inUnit 1000 steady)).keys.map
        AllocationKeyResult.iterations =
      (run (fun _ => "") ⟨2, by decide, by decide⟩ steady).keys.map
        (fun key => key.iterations.map (scaleSurplus 1000)) ∧
    (∃ keys : List (List String × List (IterationResult ℚ)),
      (run (fun _ => "") ⟨2, by decide, by decide⟩ steady).keys =
        keys.map (fun key => buildKey (fun _ => "") key.2 key.1) ∧
      (run (fun _ => "") ⟨2, by decide, by decide⟩ (inUnit 1000 steady)).keys =
        keys.map fun key => buildKey (fun _ => "") (key.2.map (scaleSurplus 1000)) key.1) ∧
    ∀ choice ∈ choices 2,
      Together (Scaled 1000) (keyRun (makeRootIteration steady.C steady.VA) choice)
        (keyRun (makeRootIteration (inUnit 1000 steady).C (inUnit 1000 steady).VA) choice) :=
  run_inUnit (fun _ => "") ⟨2, by decide, by decide⟩ steady (by norm_num)

end Unit

end AllocationKeys.BruteForce
