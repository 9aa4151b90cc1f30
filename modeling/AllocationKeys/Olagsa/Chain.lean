import AllocationKeys.Lib.EnergyRounds
import AllocationKeys.Olagsa.Solver

/-!
# The chain of subproblems

`solve_genetic` and `solve_key` go through the same subproblems: each iteration distributes its
share of the production and the energy the one before left unused, over the demand the one before
left unmet, until a solve is not optimal. `Chain` says so in the terms of `Lib/EnergyRounds`, for a
solver that is a function of what it is asked; `chain_of_loops` shows that both loops follow it.

The two loops compute the next demand from the solver's `VAPA`, and the energy carried over from
the consumers of an `Iteration`; `residualVolume_eq` and `surplus_eq` are why these agree.
-/

namespace AllocationKeys.Olagsa

open EnergyRounds Program

variable {n T : ℕ} {K : Type} [Field K] [LinearOrder K]

/-! ### One subproblem -/

omit [Field K] [LinearOrder K] in
/-- Rows that are all the first one. -/
theorem tiled_eq {VA : Fin (n + 1) → Fin T → K} (hVA : ∀ i t, VA i t = VA 0 t) :
    VA = fun _ => VA 0 := by
  funext i t
  exact hVA i t

/-- The energy an iteration distributes: its share of the production and what is carried over. -/
def energyOf (V : Fin T → K) (share : K) (carry : Fin T → K) : Fin T → K :=
  fun t => V t * share + carry t

/-- The round a solve with the shares `p` makes of an iteration. -/
def roundOf (V : Fin T → K) (share : K) (carry : Fin T → K) (p : Fin (n + 1) → K) :
    Round (Fin (n + 1)) (Fin T) K :=
  ⟨share, fun i t => p i * energyOf V share carry t⟩

/-- The solution of a subproblem for which the solver answers with the shares `p`. -/
def optimalSolution (energy : Fin T → K) (demand : Fin (n + 1) → Fin T → K)
    (p : Fin (n + 1) → K) : Solution n T K where
  status := .optimal
  VAP := some p
  VA := fun _ => energy
  C := demand
  VAPA := some fun i t => p i * energy t
  E := some fun i t =>
    ((p i * energy t - demand i t) + |p i * energy t - demand i t|) / 2

/-- The iteration a key holds of it. -/
def iterationOf (energy : Fin T → K) (demand : Fin (n + 1) → Fin T → K) (share : K)
    (p : Fin (n + 1) → K) : Iteration n T K where
  consumers := fun i => computeConsumerData energy (demand i) (p i)
  energyAllocated := fun _ => energy
  energyAllocatedPercentage := share
  surplusTotal := ∑ i, (computeConsumerData energy (demand i) (p i)).surplusTotal

theorem toIteration_optimalSolution (energy : Fin T → K) (demand : Fin (n + 1) → Fin T → K)
    (p : Fin (n + 1) → K) (share : K) :
    (optimalSolution energy demand p).toIteration share
      = .ok (iterationOf energy demand share p) := rfl

/-- The subproblems from the demand `d` and the carried energy `s` on, for at most `k` shares: the
calls of the solver, the iterations of a key, and the last solution, which is `current` when
nothing is solved any more. -/
inductive Chain (answer : ∀ call : Call n T K, Reply call) (V : Fin T → K) :
    List K → (Fin (n + 1) → Fin T → K) → (Fin T → K) → ℕ → List (Call n T K) →
      List (Iteration n T K) → Option (Solution n T K) → Option (Solution n T K) → Prop
  | done {shares : List K} {d : Fin (n + 1) → Fin T → K} {s : Fin T → K}
      {current : Option (Solution n T K)} : Chain answer V shares d s 0 [] [] current current
  | stop {share : K} {shares : List K} {d : Fin (n + 1) → Fin T → K} {s : Fin T → K} {k : ℕ}
      {current : Option (Solution n T K)} {status : String}
      (h : answer (.solve (energyOf V share s) d) = .other status) :
      Chain answer V (share :: shares) d s (k + 1) [.solve (energyOf V share s) d] [] current
        (some ⟨.other status, none, fun _ => energyOf V share s, d, none, none⟩)
  | step {share : K} {shares : List K} {d : Fin (n + 1) → Fin T → K} {s : Fin T → K} {k : ℕ}
      {current last : Option (Solution n T K)} {p : Fin (n + 1) → K} {calls : List (Call n T K)}
      {iterations : List (Iteration n T K)}
      (h : answer (.solve (energyOf V share s) d) = .optimal p)
      (hrest : Chain answer V shares (nextDemand d (roundOf V share s p))
        (nextCarry d (roundOf V share s p)) k calls iterations
        (some (optimalSolution (energyOf V share s) d p)) last) :
      Chain answer V (share :: shares) d s (k + 1) (.solve (energyOf V share s) d :: calls)
        (iterationOf (energyOf V share s) d share p :: iterations) current last

/-! ### The two ways to the same figures -/

section Figures

variable [IsStrictOrderedRing K]

/-- The positive part, as the source computes it. -/
theorem half_add_abs (x : K) : (x + |x|) / 2 = max 0 x := by
  rcases le_total 0 x with h | h
  · rw [abs_of_nonneg h, max_eq_right h]
    ring
  · rw [abs_of_nonpos h, max_eq_left h]
    ring

/-- The negative part, as the source computes it. -/
theorem half_neg_add_abs (x : K) : (-x + |x|) / 2 = max 0 (-x) := by
  rw [← abs_neg, half_add_abs]

/-- The residual volume is the unmet demand. -/
theorem residualVolume_eq (energy consumption : Fin T → K) (p : K) (t : Fin T) :
    (computeConsumerData energy consumption p).residualVolume t
      = unmet (consumption t) (p * energy t) := by
  show (consumption t - energy t * p + |consumption t - energy t * p|) / 2 = _
  rw [half_add_abs, mul_comm]
  rfl

/-- The surplus is the unused allocation. -/
theorem surplus_eq (energy consumption : Fin T → K) (p : K) (t : Fin T) :
    (computeConsumerData energy consumption p).surplus t
      = unused (consumption t) (p * energy t) := by
  show (-(consumption t - energy t * p) + |consumption t - energy t * p|) / 2 = _
  rw [half_neg_add_abs, neg_sub, mul_comm]
  rfl

/-- The surplus of an iteration is what its round leaves unused. -/
theorem surplusTotal_iterationOf (energy : Fin T → K) (demand : Fin (n + 1) → Fin T → K)
    (share : K) (p : Fin (n + 1) → K) :
    (iterationOf energy demand share p).surplusTotal
      = ∑ i, ∑ t, unused (demand i t) (p i * energy t) := by
  show ∑ i, ∑ t, (computeConsumerData energy (demand i) (p i)).surplus t = _
  simp only [surplus_eq]

/-- The positive surplus of the consumers is all of it. -/
theorem surplusFromPreviousIteration_eq (V : Fin T → K) (share : K) (s : Fin T → K)
    (d : Fin (n + 1) → Fin T → K) (p : Fin (n + 1) → K) (share' : K) (j : Fin (n + 1)) :
    surplusFromPreviousIteration (iterationOf (energyOf V share s) d share' p).consumers j
      = nextCarry d (roundOf V share s p) := by
  funext t
  refine Finset.sum_congr rfl fun i _ => ?_
  show (if 0 < (computeConsumerData (energyOf V share s) (d i) (p i)).surplus t then
    (computeConsumerData (energyOf V share s) (d i) (p i)).surplus t else 0) = _
  rw [surplus_eq]
  split
  · rfl
  · rename_i hnot
    exact le_antisymm (unused_nonneg _ _) (not_lt.mp hnot)

/-- The demand of the next pass is what the round leaves unmet. -/
theorem demand_of_VAPA (V : Fin T → K) (share : K) (s : Fin T → K) (d : Fin (n + 1) → Fin T → K)
    (p : Fin (n + 1) → K) :
    (fun j t => (d j t - p j * energyOf V share s t + |d j t - p j * energyOf V share s t|) / 2)
      = nextDemand d (roundOf V share s p) := by
  funext j t
  rw [half_add_abs]
  rfl

end Figures

/-! ### One pass of the loops -/

/-- What the loops keep between passes: the demand of the last subproblem and its solution, from
which the next one follows. -/
inductive Before (V : Fin T → K) : ℕ → (Fin (n + 1) → Fin T → K) → Option (Solution n T K) →
    (Fin (n + 1) → Fin T → K) → (Fin T → K) → Prop
  | first (C : Fin (n + 1) → Fin T → K) : Before V 0 C none C fun _ => 0
  | next (i : ℕ) (share : K) (s : Fin T → K) (d : Fin (n + 1) → Fin T → K)
      (p : Fin (n + 1) → K) :
      Before V (i + 1) d (some (optimalSolution (energyOf V share s) d p))
        (nextDemand d (roundOf V share s p)) (nextCarry d (roundOf V share s p))

/-- The parameters of a subproblem that the solver accepts. -/
def Nonneg (energy : Fin T → K) (demand : Fin (n + 1) → Fin T → K) : Prop :=
  (∀ t, 0 ≤ energy t) ∧ ∀ i t, 0 ≤ demand i t

/-- The parameters are accepted, and the solver is asked. -/
theorem solve_of_nonneg {energy : Fin T → K} {demand : Fin (n + 1) → Fin T → K}
    (h : Nonneg energy demand) :
    (solve (fun _ => energy) demand : Search n T K (Solution n T K)) =
      .call (.solve energy demand) fun
        | .optimal p => pure (optimalSolution energy demand p)
        | .other status => pure ⟨.other status, none, fun _ => energy, demand, none, none⟩
        | .error => throw .solverError := by
  rw [solve, if_neg (by simp), if_neg (not_not.mpr
    (show (∀ t, 0 ≤ energy t) ∧ ∀ i t, 0 ≤ demand i t from h))]
  refine congrArg (Program.call _) (funext fun (reply : SolverAnswer n K) => ?_)
  cases reply <;> rfl

/-- Negative parameters are refused. -/
theorem solve_of_not_nonneg {energy : Fin T → K} {demand : Fin (n + 1) → Fin T → K}
    (h : ¬ Nonneg energy demand) :
    (solve (fun _ => energy) demand : Search n T K (Solution n T K)) = throw .valueError := by
  rw [solve, if_neg (by simp), if_pos
    (show ¬ ((∀ t, 0 ≤ energy t) ∧ ∀ i t, 0 ≤ demand i t) from h)]

/-- A pass without a share ends in an `IndexError`. -/
theorem solveIteration_of_none {V : Fin T → K} {chromosome : List K} {i : ℕ}
    (hi : chromosome[i]? = none) (currentC : Fin (n + 1) → Fin T → K)
    (current : Option (Solution n T K)) :
    solveIteration (fun _ => V) chromosome i currentC current = throw .indexError := by
  rw [solveIteration, item, hi]
  rfl

/-- A pass solves the subproblem that follows from the last one. -/
theorem solveIteration_of_before [IsStrictOrderedRing K] {V : Fin T → K} {chromosome : List K}
    {i : ℕ} {share : K} (hi : chromosome[i]? = some share) {currentC d : Fin (n + 1) → Fin T → K}
    {current : Option (Solution n T K)} {s : Fin T → K} (h : Before V i currentC current d s) :
    solveIteration (fun _ => V) chromosome i currentC current =
      (solve (fun _ => energyOf V share s) d >>= fun solution => pure (d, share, solution)) := by
  rw [solveIteration, item, hi]
  cases h with
  | first C =>
    have henergy : (fun (_ : Fin (n + 1)) t => V t * share)
        = fun _ => energyOf V share fun _ => 0 := by
      funext j t
      exact (add_zero _).symm
    rw [← henergy]
    rfl
  | next i share' s _ p =>
    simp only [pure_eq, ret_bind, if_neg (Nat.succ_ne_zero i), toIteration_optimalSolution,
      Program.ofExcept]
    simp only [optimalSolution, demand_of_VAPA]
    have henergy : (fun j t => V t * share + surplusFromPreviousIteration
        (iterationOf (energyOf V share' s) currentC share p).consumers j t)
          = fun (_ : Fin (n + 1)) =>
            energyOf V share (nextCarry currentC (roundOf V share' s p)) := by
      funext j t
      rw [surplusFromPreviousIteration_eq]
      rfl
    rw [henergy]

section Passes

variable [IsStrictOrderedRing K] {answer : ∀ call : Call n T K, Reply call} {V : Fin T → K}
  {chromosome : List K} {i : ℕ} {share : K} {currentC d : Fin (n + 1) → Fin T → K}
  {current : Option (Solution n T K)} {s : Fin T → K} {β : Type}
  (f : (Fin (n + 1) → Fin T → K) × K × Solution n T K → Search n T K β)

/-- A pass with negative parameters ends the loop. -/
theorem eval_pass_negative (hi : chromosome[i]? = some share)
    (h : Before V i currentC current d s) (hnot : ¬ Nonneg (energyOf V share s) d) :
    (solveIteration (fun _ => V) chromosome i currentC current >>= f).eval answer
      = ([], .error .valueError) := by
  rw [solveIteration_of_before hi h, solve_of_not_nonneg hnot]
  rfl

/-- A pass in which the solver raises ends the loop. -/
theorem eval_pass_error (hi : chromosome[i]? = some share)
    (h : Before V i currentC current d s) (hnonneg : Nonneg (energyOf V share s) d)
    (hanswer : answer (.solve (energyOf V share s) d) = (.error : SolverAnswer n K)) :
    (solveIteration (fun _ => V) chromosome i currentC current >>= f).eval answer
      = ([.solve (energyOf V share s) d], .error .solverError) := by
  rw [solveIteration_of_before hi h, solve_of_nonneg hnonneg]
  simp only [call_bind, eval, hanswer]
  rfl

/-- A pass without an optimum leaves no allocation. -/
theorem eval_pass_other (hi : chromosome[i]? = some share)
    (h : Before V i currentC current d s) (hnonneg : Nonneg (energyOf V share s) d)
    {status : String}
    (hanswer : answer (.solve (energyOf V share s) d) = (.other status : SolverAnswer n K)) :
    (solveIteration (fun _ => V) chromosome i currentC current >>= f).eval answer
      = (.solve (energyOf V share s) d :: ((f (d, share,
            ⟨.other status, none, fun _ => energyOf V share s, d, none, none⟩)).eval answer).1,
          ((f (d, share,
            ⟨.other status, none, fun _ => energyOf V share s, d, none, none⟩)).eval
              answer).2) := by
  rw [solveIteration_of_before hi h, solve_of_nonneg hnonneg]
  simp only [call_bind, eval, hanswer]
  rfl

/-- A pass with an optimum leaves its solution. -/
theorem eval_pass_optimal (hi : chromosome[i]? = some share)
    (h : Before V i currentC current d s) (hnonneg : Nonneg (energyOf V share s) d)
    {p : Fin (n + 1) → K}
    (hanswer : answer (.solve (energyOf V share s) d) = (.optimal p : SolverAnswer n K)) :
    (solveIteration (fun _ => V) chromosome i currentC current >>= f).eval answer
      = (.solve (energyOf V share s) d ::
            ((f (d, share, optimalSolution (energyOf V share s) d p)).eval answer).1,
          ((f (d, share, optimalSolution (energyOf V share s) d p)).eval answer).2) := by
  rw [solveIteration_of_before hi h, solve_of_nonneg hnonneg]
  simp only [call_bind, eval, hanswer]
  rfl

end Passes

/-! ### Both loops -/

section Loops

variable [IsStrictOrderedRing K] {answer : ∀ call : Call n T K, Reply call}

/-- Why a loop of `k` passes raises: a share is missing, the solver raises, or a parameter is
negative. -/
def RaisesFor (answer : ∀ call : Call n T K, Reply call) (V : Fin T → K) (chromosome : List K)
    (k : ℕ) (d : Fin (n + 1) → Fin T → K) (s : Fin T → K) (e : Failure) : Prop :=
  (e = .indexError ∧ chromosome.length < k) ∨
    (e = .solverError ∧ ∃ energy demand,
      answer (.solve energy demand) = (.error : SolverAnswer n K)) ∨
    (e = .valueError ∧ ¬ ((∀ t, 0 ≤ V t) ∧ Nonneg s d ∧ ∀ x ∈ chromosome, 0 ≤ x))

/-- The energy of a pass is not negative. -/
theorem nonneg_energyOf {V : Fin T → K} {chromosome : List K} {share : K} {s : Fin T → K}
    {d : Fin (n + 1) → Fin T → K}
    (h : (∀ t, 0 ≤ V t) ∧ Nonneg s d ∧ ∀ x ∈ chromosome, 0 ≤ x) (hshare : share ∈ chromosome) :
    Nonneg (energyOf V share s) d :=
  ⟨fun t => add_nonneg (mul_nonneg (h.1 t) (h.2.2 share hshare)) (h.2.1.1 t), h.2.1.2⟩

omit [IsStrictOrderedRing K] in
/-- What a round leaves is not negative. -/
theorem nonneg_next [IsStrictOrderedRing K] (d : Fin (n + 1) → Fin T → K)
    (r : Round (Fin (n + 1)) (Fin T) K) : Nonneg (nextCarry d r) (nextDemand d r) :=
  ⟨fun _ => Finset.sum_nonneg fun _ _ => unused_nonneg _ _, fun _ _ => unmet_nonneg _ _⟩

variable (answer) in
/-- **Both loops follow the chain**, or raise at the same point. -/
theorem chain_of_loops (V : Fin T → K) (chromosome : List K) :
    ∀ (k i : ℕ) (currentC d : Fin (n + 1) → Fin T → K) (current : Option (Solution n T K))
      (s : Fin T → K) (key : Key n T K), Before V i currentC current d s →
      (∃ calls iterations statuses last,
        Chain answer V (chromosome.drop i) d s k calls iterations current last ∧
        (solveGeneticFrom (fun _ => V) chromosome k i currentC current).eval answer
          = (calls, .ok last) ∧
        (solveKeyFrom (fun _ => V) chromosome k i currentC current key).eval answer
          = (calls, .ok ⟨key.iterations ++ iterations, key.statuses ++ statuses⟩)) ∨
      ∃ calls e,
        (solveGeneticFrom (fun _ => V) chromosome k i currentC current).eval answer
          = (calls, .error e) ∧
        (solveKeyFrom (fun _ => V) chromosome k i currentC current key).eval answer
          = (calls, .error e) ∧ RaisesFor answer V chromosome (i + k) d s e := by
  intro k
  induction k with
  | zero =>
    intro i currentC d current s key _
    refine Or.inl ⟨[], [], [], current, Chain.done, rfl, ?_⟩
    rw [List.append_nil, List.append_nil]
    rfl
  | succ k ih =>
    intro i currentC d current s key h
    rw [solveGeneticFrom, solveKeyFrom]
    rcases hi : chromosome[i]? with _ | share
    · -- the chromosome has no share for this iteration
      refine Or.inr ⟨[], .indexError, ?_, ?_, Or.inl ⟨rfl, ?_⟩⟩
      · rw [solveIteration_of_none hi]
        rfl
      · rw [solveIteration_of_none hi]
        rfl
      · have hlength := List.getElem?_eq_none_iff.mp hi
        omega
    obtain ⟨hlt, hget⟩ := List.getElem?_eq_some_iff.mp hi
    have hdrop : chromosome.drop i = share :: chromosome.drop (i + 1) := by
      rw [List.drop_eq_getElem_cons hlt, hget]
    by_cases hnonneg : Nonneg (energyOf V share s) d
    · rcases hanswer : (answer (.solve (energyOf V share s) d) : SolverAnswer n K) with
        p | status | _
      · -- an optimum: both loops go on with the energy and the demand it leaves
        rw [eval_pass_optimal _ hi h hnonneg hanswer, eval_pass_optimal _ hi h hnonneg hanswer]
        have hiteration := toIteration_optimalSolution (energyOf V share s) d p share
        simp only [show (optimalSolution (energyOf V share s) d p).status = .optimal from rfl,
          ne_eq, not_true_eq_false, if_false, hiteration, Program.ofExcept, ret_bind]
        rcases ih (i + 1) d _ _ _ ⟨key.iterations ++ [iterationOf (energyOf V share s) d share p],
            key.statuses ++ [.optimal]⟩ (Before.next i share s d p) with
          ⟨calls, iterations, statuses, last, hchain, hgenetic, hkey⟩ |
          ⟨calls, e, hgenetic, hkey, hraises⟩
        · refine Or.inl ⟨.solve (energyOf V share s) d :: calls,
            iterationOf (energyOf V share s) d share p :: iterations, .optimal :: statuses, last,
            ?_, ?_, ?_⟩
          · rw [hdrop]
            exact Chain.step hanswer hchain
          · rw [hgenetic]
          · rw [hkey]
            simp only [List.append_assoc, List.singleton_append]
        · refine Or.inr ⟨_, e, by rw [hgenetic], by rw [hkey], ?_⟩
          -- what a later iteration raises, the whole chain raises
          rcases hraises with ⟨rfl, hlength⟩ | hsolver | ⟨rfl, hnot⟩
          · exact Or.inl ⟨rfl, by omega⟩
          · exact Or.inr (Or.inl hsolver)
          · refine Or.inr (Or.inr ⟨rfl, fun hall => hnot ⟨hall.1, nonneg_next _ _, hall.2.2⟩⟩)
      · -- a solve without an optimum: both loops end here
        rw [eval_pass_other _ hi h hnonneg hanswer, eval_pass_other _ hi h hnonneg hanswer]
        refine Or.inl ⟨_, [], [.other status], _, ?_, rfl, ?_⟩
        · rw [hdrop]
          exact Chain.stop hanswer
        · rw [List.append_nil]
          rfl
      · -- the solver raises, and so do both loops
        rw [eval_pass_error _ hi h hnonneg hanswer, eval_pass_error _ hi h hnonneg hanswer]
        exact Or.inr ⟨_, _, rfl, rfl, Or.inr (Or.inl ⟨rfl, _, _, hanswer⟩)⟩
    · -- a negative parameter is refused before the solver is called
      rw [eval_pass_negative _ hi h hnonneg, eval_pass_negative _ hi h hnonneg]
      exact Or.inr ⟨_, _, rfl, rfl, Or.inr (Or.inr ⟨rfl, fun hall =>
        hnonneg (nonneg_energyOf hall (List.mem_of_getElem? hi))⟩)⟩

end Loops

end AllocationKeys.Olagsa
