import AllocationKeys.BruteForce.Paths
import AllocationKeys.Lib.EnergyRounds
import Mathlib.Algebra.BigOperators.Field
import Mathlib.Algebra.Order.BigOperators.Ring.Finset

/-!
# A run distributes the production in rounds

What one distribution function does to an iteration (`post_*`), and from it what a whole run
does: `linked_keyRun` says that the iterations of a run hang together as
`AllocationKeys.EnergyRounds` demands, each with its share of the production and the surplus
of the one before, for the demand that one left. The balance, the lower bound and the
attainment of the library then apply to the allocations of the iterations.
-/

namespace AllocationKeys.BruteForce

open EnergyRounds

variable {n T : ℕ} {K : Type*} [Field K] [LinearOrder K]

/-! ### What a distribution function leaves -/

/-- The derived fields of an iteration agree with its consumers' demands and allocations. -/
structure Settled (it : Iteration n T K) : Prop where
  consumed : ∀ i t, (it.consumers i).energyAllocatedConsumed t
    = served ((it.consumers i).consumption t) ((it.consumers i).energyAllocated t)
  residual : ∀ i t, (it.consumers i).residualVolume t
    = unmet ((it.consumers i).consumption t) ((it.consumers i).energyAllocated t)
  surplus : ∀ t, it.surplus t
    = ∑ i, unused ((it.consumers i).consumption t) ((it.consumers i).energyAllocated t)
  surplusTotal : it.surplusTotal = ∑ t, it.surplus t

/-- The allocation a distribution function decides on, for an iteration of energy `profile`. -/
def allocation (algo : AlgoName) (it : Iteration n T K) (i : Fin (n + 1)) (t : Fin T) : K :=
  match algo with
  | .egalitaire => it.energyAllocated 0 t * (1 / ((n + 1 : ℕ) : K))
  | .prorataTotal =>
      let total := ∑ j, ∑ u, (it.consumers j).consumption u
      if total = 0 then if i = 0 then it.energyAllocated 0 t else 0
      else it.energyAllocated 0 t * ((∑ u, (it.consumers i).consumption u) / total)
  | .prorata => prorataAllocated it.consumers (it.energyAllocated 0) i t

/-- The share a distribution function records for a consumer. -/
def recordedShare (algo : AlgoName) (it : Iteration n T K) (i : Fin (n + 1)) : K :=
  match algo with
  | .egalitaire => 1 / ((n + 1 : ℕ) : K)
  | .prorataTotal =>
      let total := ∑ j, ∑ u, (it.consumers j).consumption u
      if total = 0 then if i = 0 then 1 else 0
      else (∑ u, (it.consumers i).consumption u) / total
  | .prorata => -1

/-- An iteration whose consumers are settled one by one and whose surplus is then totalled. -/
def settleAll (it : Iteration n T K) (fill : Fin (n + 1) → Consumer T K) : Iteration n T K :=
  { it with consumers := fun i => settle (fill i) }.computeSurplus.computeSurplusTotal

theorem settled_settleAll (it : Iteration n T K) (fill : Fin (n + 1) → Consumer T K) :
    Settled (settleAll it fill) where
  consumed _ _ := rfl
  residual _ _ := rfl
  surplus t := by
    simp [settleAll, Iteration.computeSurplusTotal, Iteration.computeSurplus, settle,
      Consumer.computeEnergyAllocatedConsumed, Consumer.computeResidualVolumeAndSurplus, unused]
  surplusTotal := by
    simp only [settleAll, Iteration.computeSurplusTotal, Iteration.computeSurplus, settle,
      Consumer.computeEnergyAllocatedConsumed, Consumer.computeResidualVolumeAndSurplus]
    exact Finset.sum_comm

/-- Every distribution function settles consumers it has filled in, on an iteration with the
same energy and the same share of the production. -/
theorem post_eq_settleAll (algo : AlgoName) (it : Iteration n T K) :
    ∃ (base : Iteration n T K) (fill : Fin (n + 1) → Consumer T K),
      post algo it = settleAll base fill ∧ base.energyAllocated = it.energyAllocated ∧
        base.energyAllocatedPercentage = it.energyAllocatedPercentage ∧
        ∀ i, (fill i).consumption = (it.consumers i).consumption ∧
          (fill i).energyAllocated = allocation algo it i ∧
          (fill i).energyAllocatedPercentage = recordedShare algo it i := by
  cases algo with
  | egalitaire => exact ⟨it, _, rfl, rfl, rfl, fun i => ⟨rfl, rfl, rfl⟩⟩
  | prorata => exact ⟨it, _, rfl, rfl, rfl, fun i => ⟨rfl, rfl, rfl⟩⟩
  | prorataTotal =>
    refine ⟨it.computeConsumptionTotal, fun i =>
      { it.consumers i with
        energyAllocatedPercentage := recordedShare .prorataTotal it i
        energyAllocated := allocation .prorataTotal it i }, ?_, rfl, rfl,
      fun i => ⟨rfl, rfl, rfl⟩⟩
    simp only [post, algos, prorataTotal, settleAll]
    congr 3
    funext i
    by_cases htotal : ∑ j, ∑ u, (it.consumers j).consumption u = 0
    · rcases eq_or_ne i 0 with rfl | hi
      · have halloc : allocation .prorataTotal it 0 = fun t => it.energyAllocated 0 t * 1 := by
          funext t
          simp [allocation, htotal]
        simp [Iteration.computeConsumptionTotal, energyProfile, recordedShare, htotal, halloc]
      · have halloc : allocation .prorataTotal it i = fun _ => 0 := by
          funext t
          simp [allocation, htotal, hi]
        simp [Iteration.computeConsumptionTotal, recordedShare, htotal, hi, halloc]
    · have halloc : allocation .prorataTotal it i = fun t => it.energyAllocated 0 t *
          ((∑ u, (it.consumers i).consumption u) / ∑ j, ∑ u, (it.consumers j).consumption u) := by
        funext t
        simp [allocation, htotal]
      simp [Iteration.computeConsumptionTotal, energyProfile, recordedShare, htotal, halloc]

/-- A distribution function changes neither the demands, nor the energy, nor the share of the
production; it allocates and records as `allocation` and `recordedShare` say. -/
theorem post_fields (algo : AlgoName) (it : Iteration n T K) :
    (post algo it).energyAllocated = it.energyAllocated ∧
      (post algo it).energyAllocatedPercentage = it.energyAllocatedPercentage ∧
      ∀ i, ((post algo it).consumers i).consumption = (it.consumers i).consumption ∧
        ((post algo it).consumers i).energyAllocated = allocation algo it i ∧
        ((post algo it).consumers i).energyAllocatedPercentage = recordedShare algo it i := by
  obtain ⟨base, fill, hpost, henergy, hshare, hfill⟩ := post_eq_settleAll algo it
  rw [hpost]
  exact ⟨henergy, hshare, hfill⟩

theorem post_settled (algo : AlgoName) (it : Iteration n T K) : Settled (post algo it) := by
  obtain ⟨base, fill, hpost, _⟩ := post_eq_settleAll algo it
  rw [hpost]
  exact settled_settleAll base fill

/-! ### The whole energy of an iteration is allocated -/

section Allocation

variable [IsStrictOrderedRing K]

/-- `prorata` is proportional to the demand of the time step wherever there is any. -/
theorem prorataAllocated_of_pos {consumers : Fin (n + 1) → Consumer T K} {profile : Fin T → K}
    {t : Fin T} (hd : ∀ i, 0 ≤ (consumers i).consumption t)
    (hsum : 0 < ∑ j, (consumers j).consumption t) (i : Fin (n + 1)) :
    prorataAllocated consumers profile i t
      = profile t / (∑ j, (consumers j).consumption t) * (consumers i).consumption t := by
  rw [prorataAllocated, if_pos hsum]
  rcases (hd i).eq_or_lt with hzero | hpos
  · rw [if_neg hzero.not_lt, ← hzero, mul_zero]
  · rw [if_pos hpos, prorataShare, if_pos hsum, if_pos hpos]
    ring

omit [IsStrictOrderedRing K] in
theorem prorataAllocated_of_zero {consumers : Fin (n + 1) → Consumer T K} {profile : Fin T → K}
    {t : Fin T} (hsum : ∑ j, (consumers j).consumption t = 0) (i : Fin (n + 1)) :
    prorataAllocated consumers profile i t = if i = 0 then profile t else 0 := by
  rw [prorataAllocated, if_neg hsum.not_gt]

omit [LinearOrder K] [IsStrictOrderedRing K] in
theorem sum_if_zero (x : K) : ∑ i : Fin (n + 1), (if i = 0 then x else 0) = x := by
  rw [Finset.sum_ite_eq' Finset.univ 0 fun _ => x, if_pos (Finset.mem_univ _)]

omit [IsStrictOrderedRing K] in
theorem sum_prorataTotal (it : Iteration n T K) (t : Fin T) :
    ∑ i, allocation .prorataTotal it i t = it.energyAllocated 0 t := by
  simp only [allocation]
  by_cases htotal : ∑ j, ∑ u, (it.consumers j).consumption u = 0
  · simp only [htotal, if_true]
    exact sum_if_zero _
  · simp only [htotal, if_false]
    rw [← Finset.mul_sum, ← Finset.sum_div, div_self htotal, mul_one]

theorem sum_egalitaire (it : Iteration n T K) (t : Fin T) :
    ∑ i, allocation .egalitaire it i t = it.energyAllocated 0 t := by
  have hcard : ((n + 1 : ℕ) : K) ≠ 0 := Nat.cast_ne_zero.mpr (Nat.succ_ne_zero n)
  simp only [allocation, Finset.sum_const, Finset.card_univ, Fintype.card_fin, nsmul_eq_mul]
  rw [mul_left_comm, mul_one_div, div_self hcard, mul_one]

/-- **Completeness of one iteration.**  Every distribution function hands out exactly the
energy of its iteration, fallbacks included. -/
theorem sum_allocation (algo : AlgoName) {it : Iteration n T K}
    (hd : ∀ i t, 0 ≤ (it.consumers i).consumption t) (t : Fin T) :
    ∑ i, allocation algo it i t = it.energyAllocated 0 t := by
  cases algo with
  | egalitaire => exact sum_egalitaire it t
  | prorataTotal => exact sum_prorataTotal it t
  | prorata =>
    simp only [allocation]
    rcases (Finset.sum_nonneg fun j _ => hd j t : 0 ≤ ∑ j, (it.consumers j).consumption t).eq_or_lt
      with hzero | hpos
    · simp only [prorataAllocated_of_zero hzero.symm]
      exact sum_if_zero _
    · simp only [prorataAllocated_of_pos (fun i => hd i t) hpos]
      rw [← Finset.mul_sum, div_mul_cancel₀ _ hpos.ne']

end Allocation

/-! ### Linked iterations -/

/-- The round an iteration stands for. -/
def roundOf (it : Iteration n T K) : Round (Fin (n + 1)) (Fin T) K where
  share := it.energyAllocatedPercentage
  alloc := fun i => (it.consumers i).energyAllocated

/-- One iteration of a run, for the demand `d` and the carry `s` it finds. -/
structure Step (V : Fin T → K) (d : Fin (n + 1) → Fin T → K) (s : Fin T → K)
    (it : Iteration n T K) : Prop where
  settled : Settled it
  demand : ∀ i, (it.consumers i).consumption = d i
  energy : ∀ t, it.energyAllocated 0 t = it.energyAllocatedPercentage * V t + s t
  complete : ∀ t, ∑ i, (it.consumers i).energyAllocated t = it.energyAllocated 0 t

/-- The iterations of a run hang together: each works on the demand and the surplus that the
one before left. -/
def Linked (V : Fin T → K) :
    (Fin (n + 1) → Fin T → K) → (Fin T → K) → List (Iteration n T K) → Prop
  | _, _, [] => True
  | d, s, it :: rest =>
      Step V d s it ∧ Linked V (fun i => (it.consumers i).residualVolume) it.surplus rest

/-! The rounds of linked iterations are complete, and their figures are the iterations' own. -/

theorem Step.nextDemand_eq {V s : Fin T → K} {d : Fin (n + 1) → Fin T → K}
    {it : Iteration n T K} (h : Step V d s it) :
    nextDemand d (roundOf it) = fun i => (it.consumers i).residualVolume := by
  funext i t
  rw [h.settled.residual, h.demand]
  rfl

theorem Step.nextCarry_eq {V s : Fin T → K} {d : Fin (n + 1) → Fin T → K}
    {it : Iteration n T K} (h : Step V d s it) : nextCarry d (roundOf it) = it.surplus := by
  funext t
  simp only [h.settled.surplus, h.demand]
  rfl

theorem complete_of_linked {V : Fin T → K} :
    ∀ {its : List (Iteration n T K)} {d : Fin (n + 1) → Fin T → K} {s : Fin T → K},
      Linked V d s its → Complete V d s (its.map roundOf) := by
  intro its
  induction its with
  | nil => intro d s _; trivial
  | cons it its ih =>
    intro d s h
    refine ⟨fun t => ?_, ?_⟩
    · show ∑ i, (it.consumers i).energyAllocated t = it.energyAllocatedPercentage * V t + s t
      rw [h.1.complete, h.1.energy]
    · rw [h.1.nextDemand_eq, h.1.nextCarry_eq]
      exact ih h.2

theorem servedOver_of_linked {V : Fin T → K} (i : Fin (n + 1)) (t : Fin T) :
    ∀ {its : List (Iteration n T K)} {d : Fin (n + 1) → Fin T → K} {s : Fin T → K},
      Linked V d s its → servedOver d (its.map roundOf) i t
        = (its.map fun it => (it.consumers i).energyAllocatedConsumed t).sum := by
  intro its
  induction its with
  | nil => intro d s _; rfl
  | cons it its ih =>
    intro d s h
    rw [List.map_cons, servedOver, h.1.nextDemand_eq, ih h.2, List.map_cons, List.sum_cons,
      h.1.settled.consumed, h.1.demand]
    rfl

theorem final_of_linked {V : Fin T → K} {last : Iteration n T K} :
    ∀ {its : List (Iteration n T K)} {d : Fin (n + 1) → Fin T → K} {s : Fin T → K},
      Linked V d s its → its.getLast? = some last →
        finalSurplus d s (its.map roundOf) = last.surplus ∧
          finalDemand d (its.map roundOf) = (fun i => (last.consumers i).residualVolume) ∧
          Settled last := by
  intro its
  induction its with
  | nil => intro d s _ hlast; cases hlast
  | cons it its ih =>
    intro d s h hlast
    rw [List.map_cons, finalSurplus, finalDemand, h.1.nextDemand_eq, h.1.nextCarry_eq]
    rcases its with _ | ⟨next, rest⟩
    · obtain rfl : it = last := by simpa using hlast
      exact ⟨rfl, rfl, h.1.settled⟩
    · exact ih h.2 (by simpa [List.getLast?_cons_cons] using hlast)

/-! ### Runs -/

section Runs

variable [IsStrictOrderedRing K]

/-- What a distribution function returns is a step, whatever stale figures it was given. -/
theorem step_post (algo : AlgoName) (it : Iteration n T K) {V s : Fin T → K}
    (hd : ∀ i t, 0 ≤ (it.consumers i).consumption t)
    (henergy : ∀ t, it.energyAllocated 0 t = it.energyAllocatedPercentage * V t + s t) :
    Step V (fun i => (it.consumers i).consumption) s (post algo it) := by
  obtain ⟨hprofile, hshare, hfields⟩ := post_fields algo it
  refine ⟨post_settled algo it, fun i => (hfields i).1, ?_, ?_⟩
  · intro t
    rw [hprofile, hshare, henergy]
  · intro t
    rw [hprofile, ← sum_allocation algo hd t]
    exact Finset.sum_congr rfl fun i _ => congrFun (hfields i).2.1 t

theorem linked_continueRun (root : Iteration n T K) :
    ∀ (choice : List (K × AlgoName)) (previous : Iteration n T K), Settled previous →
      Linked (root.energyAllocated 0) (fun i => (previous.consumers i).residualVolume)
        previous.surplus ((continueRun root previous choice).map Prod.snd) := by
  intro choice
  induction choice with
  | nil => intro previous _; trivial
  | cons head choice ih =>
    obtain ⟨pct, algo⟩ := head
    intro previous hprevious
    have hstep : Step (root.energyAllocated 0) (fun i => (previous.consumers i).residualVolume)
        previous.surplus (post algo (buildNextIteration root previous pct)) := by
      apply step_post algo (buildNextIteration root previous pct)
      · intro i t
        show 0 ≤ (previous.consumers i).residualVolume t
        rw [hprevious.residual]
        exact unmet_nonneg _ _
      · intro t
        show root.energyAllocated 0 t * pct + previous.surplus t = _
        rw [mul_comm]
        rfl
    exact ⟨hstep, ih _ (post_settled algo _)⟩

/-- **Every run is linked.**  From any nonnegative consumptions and any production, the
iterations of a run start on the whole demand with nothing carried over. -/
theorem linked_keyRun {C : Fin (n + 1) → Fin T → K} (VA : Fin (n + 1) → Fin T → K)
    (hC : ∀ i t, 0 ≤ C i t)
    (choice : List (K × AlgoName)) :
    Linked (VA 0) C 0 ((keyRun (makeRootIteration C VA) choice).map Prod.snd) := by
  rcases choice with _ | ⟨⟨pct, algo⟩, choice⟩
  · trivial
  · have hstep : Step (VA 0) C 0 (applyFirst id (makeRootIteration C VA) pct algo).2 := by
      apply step_post algo
        { makeRootIteration C VA with
          energyAllocatedPercentage := pct
          energyAllocated := fun i t => VA i t * pct } hC
      intro t
      show VA 0 t * pct = pct * VA 0 t + 0
      rw [add_zero, mul_comm]
    exact ⟨hstep, linked_continueRun (makeRootIteration C VA) choice _ hstep.settled⟩

end Runs

theorem shares_continueRun (root : Iteration n T K) :
    ∀ (choice : List (K × AlgoName)) (previous : Iteration n T K),
      (((continueRun root previous choice).map Prod.snd).map roundOf).map Round.share
        = choice.map Prod.fst := by
  intro choice
  induction choice with
  | nil => intro previous; rfl
  | cons head choice ih =>
    intro previous
    simp only [continueRun, List.map_cons, ih]
    rw [roundOf, (post_fields head.2 _).2.1]
    rfl

theorem shares_keyRun (root : Iteration n T K) (choice : List (K × AlgoName)) :
    (((keyRun root choice).map Prod.snd).map roundOf).map Round.share = choice.map Prod.fst := by
  rcases choice with _ | ⟨⟨pct, algo⟩, choice⟩
  · rfl
  · simp only [keyRun, List.map_cons, shares_continueRun]
    rw [roundOf, applyFirst, algos_eq, (post_fields algo _).2.1]

end AllocationKeys.BruteForce
