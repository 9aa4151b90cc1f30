import AllocationKeys.Olagsa.Solver
import Mathlib.Algebra.Order.BigOperators.Group.Finset

/-!
# The subproblems that reach the solver

`_solve` refuses a `VA` whose rows are not all equal, and the parameters of the convex problem
refuse negative entries. `subproblem` is what a pass of `solve_genetic` and `solve_key` hands to
`_solve`. Whatever the solver has answered before, even shares that are negative or do not sum
to 1, its demands and its energy are nonnegative and its rows are equal
(`accepted_of_pass`), so no pass of a loop is refused (`chainAccepted`).

The comparison of the rows does not hold of not-a-number, so a table with a blank cell in its
injection column makes a `VA` that `_solve` refuses (`wellPosed_iff`).
-/

namespace AllocationKeys.Olagsa

open Program

variable {n T : ℕ} {K : Type} [Field K] [LinearOrder K]

/-! ### What a pass hands on -/

/-- `VA`, `C` and the share of the subproblem of pass `i`. -/
def subproblem (VA : Fin (n + 1) → Fin T → K) (allocationIteration : List K) (i : ℕ)
    (currentC : Fin (n + 1) → Fin T → K) (current : Option (Solution n T K)) :
    Except Failure ((Fin (n + 1) → Fin T → K) × (Fin (n + 1) → Fin T → K) × K) :=
  match allocationIteration[i]? with
  | none => .error .indexError
  | some share =>
      if i = 0 then .ok (fun j t => VA j t * share, currentC, share)
      else
        match current with
        | none => .error .runtimeError
        | some current =>
            match current.toIteration share with
            | .error e => .error e
            | .ok prevIter =>
                let surplusCarry := surplusFromPreviousIteration prevIter.consumers
                match current.VAPA with
                | none => .error .attributeError
                | some VAPA =>
                    .ok
                      (fun j t => VA j t * share + surplusCarry j t,
                        fun j t => (currentC j t - VAPA j t + |currentC j t - VAPA j t|) / 2, share)

theorem solveIteration_eq (VA : Fin (n + 1) → Fin T → K) (allocationIteration : List K) (i : ℕ)
    (currentC : Fin (n + 1) → Fin T → K) (current : Option (Solution n T K)) :
    solveIteration VA allocationIteration i currentC current =
      Program.ofExcept (subproblem VA allocationIteration i currentC current) >>= fun sub =>
        solve sub.1 sub.2.1 >>= fun solution => pure (sub.2.1, sub.2.2, solution) := by
  unfold solveIteration subproblem item
  rcases allocationIteration[i]? with _ | share
  · rfl
  · simp only [pure_eq, ret_bind]
    split
    · rfl
    · rcases current with _ | current
      · rfl
      · dsimp only
        rcases current.toIteration share with e | prevIter
        · rfl
        · simp only [Program.ofExcept, ret_bind]
          rcases current.VAPA with _ | VAPA <;> rfl

/-- The passes of a loop: what pass `i` finds, after any answers of the solver. -/
inductive Pass (VA C : Fin (n + 1) → Fin T → K) (allocationIteration : List K) :
    ℕ → (Fin (n + 1) → Fin T → K) → Option (Solution n T K) → Prop
  | first : Pass VA C allocationIteration 0 C none
  | next {i : ℕ} {currentC VA' C' : Fin (n + 1) → Fin T → K} {share : K}
      {current : Option (Solution n T K)} {solution : Solution n T K}
      (h : Pass VA C allocationIteration i currentC current)
      (hsub : subproblem VA allocationIteration i currentC current = .ok (VA', C', share))
      (hsolve : (solve VA' C').Yields (fun _ _ => True) (.ok solution))
      (hoptimal : solution.status = .optimal) :
      Pass VA C allocationIteration (i + 1) C' (some solution)

/-- Parameters that `_solve` does not refuse. -/
structure Accepted (VA C : Fin (n + 1) → Fin T → K) : Prop where
  tiled : ∀ i t, VA i t = VA 0 t
  energy : ∀ i t, 0 ≤ VA i t
  demand : ∀ i t, 0 ≤ C i t

theorem solve_of_accepted {VA C : Fin (n + 1) → Fin T → K} (h : Accepted VA C) :
    (solve VA C).Calls (fun call => call = .solve (VA 0) C) ∧
      (solve VA C).Raises (fun _ _ => True) (· ≠ .valueError) := by
  rw [solve, if_neg (not_not.mpr h.tiled), if_neg (not_not.mpr ⟨h.energy 0, h.demand⟩)]
  constructor
  · refine ⟨rfl, fun reply => ?_⟩
    rcases (reply : SolverAnswer n K) with p | status | _ <;> trivial
  · refine raises_call fun reply _ => ?_
    rcases (reply : SolverAnswer n K) with p | status | _
    · exact raises_ret
    · exact raises_ret
    · exact raises_raise (by decide)

variable [IsStrictOrderedRing K]

/-- A subproblem is accepted whatever the last solution is. -/
theorem accepted_of_subproblem {VA currentC VA' C' : Fin (n + 1) → Fin T → K}
    {allocationIteration : List K} {i : ℕ} {share : K} {current : Option (Solution n T K)}
    (hVA : ∀ j t, 0 ≤ VA j t) (htiled : ∀ j t, VA j t = VA 0 t)
    (hshares : ∀ x ∈ allocationIteration, 0 ≤ x) (hC : i = 0 → ∀ j t, 0 ≤ currentC j t)
    (h : subproblem VA allocationIteration i currentC current = .ok (VA', C', share)) :
    Accepted VA' C' := by
  unfold subproblem at h
  split at h
  · cases h
  · rename_i share' hi
    have hshare : 0 ≤ share' := hshares share' (List.mem_of_getElem? hi)
    have henergy : ∀ j t, 0 ≤ VA j t * share' := fun j t => mul_nonneg (hVA j t) hshare
    split at h
    · rename_i hzero
      cases h
      refine ⟨fun j t => ?_, henergy, hC hzero⟩
      show VA j t * share = VA 0 t * share
      rw [htiled]
    · split at h
      · cases h
      · split at h
        · cases h
        · rename_i prevIter _
          split at h
          · cases h
          · rename_i VAPA _
            cases h
            -- what is carried over is a sum of positive terms, and the same on every row
            have hcarry : ∀ j t, 0 ≤ surplusFromPreviousIteration prevIter.consumers j t := by
              intro j t
              refine Finset.sum_nonneg fun c _ => ?_
              split
              · exact le_of_lt ‹_›
              · exact le_refl 0
            refine ⟨fun j t => ?_, fun j t => add_nonneg (henergy j t) (hcarry j t),
              fun j t => ?_⟩
            · show VA j t * share + _ = VA 0 t * share + _
              rw [htiled]
              rfl
            · have habs := neg_abs_le (currentC j t - VAPA j t)
              show 0 ≤ (currentC j t - VAPA j t + |currentC j t - VAPA j t|) / 2
              linarith

/-- What the chain starts from. -/
structure WellPosed (VA C : Fin (n + 1) → Fin T → K) (allocationIteration : List K) : Prop where
  start : Accepted VA C
  shares : ∀ x ∈ allocationIteration, 0 ≤ x

variable {VA C : Fin (n + 1) → Fin T → K} {allocationIteration : List K}

omit [IsStrictOrderedRing K] in
theorem demand_of_pass (h : WellPosed VA C allocationIteration) {i : ℕ}
    {currentC : Fin (n + 1) → Fin T → K} {current : Option (Solution n T K)}
    (hpass : Pass VA C allocationIteration i currentC current) :
    i = 0 → ∀ j t, 0 ≤ currentC j t := by
  intro hi
  cases hpass with
  | first => exact h.start.demand
  | next => exact absurd hi (Nat.succ_ne_zero _)

/-- **Every subproblem of a chain is accepted.** -/
theorem accepted_of_pass (h : WellPosed VA C allocationIteration) {i : ℕ}
    {currentC VA' C' : Fin (n + 1) → Fin T → K} {share : K} {current : Option (Solution n T K)}
    (hpass : Pass VA C allocationIteration i currentC current)
    (hsub : subproblem VA allocationIteration i currentC current = .ok (VA', C', share)) :
    Accepted VA' C' :=
  accepted_of_subproblem h.start.energy h.start.tiled h.shares (demand_of_pass h hpass) hsub

/-! ### The loops -/

/-- The call of the solver for the subproblem of a pass. -/
def Handed (VA C : Fin (n + 1) → Fin T → K) (allocationIteration : List K)
    (call : Call n T K) : Prop :=
  ∃ i currentC current VA' C' share, Pass VA C allocationIteration i currentC current ∧
    subproblem VA allocationIteration i currentC current = .ok (VA', C', share) ∧
    call = .solve (VA' 0) C'

omit [IsStrictOrderedRing K] in
theorem toIteration_ne_valueError {s : Solution n T K} {share : K} :
    s.toIteration share ≠ .error .valueError := by
  intro h
  unfold Solution.toIteration at h
  split at h <;> cases h

omit [IsStrictOrderedRing K] in
theorem subproblem_ne_valueError {currentC : Fin (n + 1) → Fin T → K} {i : ℕ}
    {current : Option (Solution n T K)} :
    subproblem VA allocationIteration i currentC current ≠ .error .valueError := by
  intro h
  unfold subproblem at h
  split at h
  · cases h
  · split at h
    · cases h
    · split at h
      · cases h
      · split at h
        · rename_i e he
          cases h
          exact toIteration_ne_valueError he
        · split at h <;> cases h

/-- What a pass calls, and that it is not refused. -/
theorem solveIteration_of_pass (h : WellPosed VA C allocationIteration) {i : ℕ}
    {currentC : Fin (n + 1) → Fin T → K} {current : Option (Solution n T K)}
    (hpass : Pass VA C allocationIteration i currentC current) :
    (solveIteration VA allocationIteration i currentC current).Calls
        (Handed VA C allocationIteration) ∧
      (solveIteration VA allocationIteration i currentC current).Raises (fun _ _ => True)
        (· ≠ .valueError) := by
  rw [solveIteration_eq]
  have hsolve : ∀ sub, (Program.ofExcept (subproblem VA allocationIteration i currentC current) :
      Search n T K _).Yields (fun _ _ => True) (.ok sub) →
        subproblem VA allocationIteration i currentC current = .ok sub ∧
          (solve sub.1 sub.2.1).Calls (fun call => call = .solve (sub.1 0) sub.2.1) ∧
          (solve sub.1 sub.2.1).Raises (fun _ _ => True) (· ≠ .valueError) := by
    intro sub hsub
    have hok := (yields_ofExcept.mp hsub).symm
    exact ⟨hok, solve_of_accepted (accepted_of_pass h hpass hok)⟩
  constructor
  · refine (calls_ofExcept _).bind_of_yields fun sub hsub => ?_
    obtain ⟨hok, hcalls, _⟩ := hsolve sub hsub
    refine Calls.bind (hcalls.mono ?_) fun _ => trivial
    rintro call rfl
    exact ⟨i, currentC, current, sub.1, sub.2.1, sub.2.2, hpass, hok, rfl⟩
  · refine Raises.bind ?_ fun sub hsub => ?_
    · intro e he hvalue
      rw [hvalue] at he
      exact subproblem_ne_valueError (yields_ofExcept.mp he).symm
    · exact (hsolve sub hsub).2.2.bind fun _ _ => raises_ret

omit [IsStrictOrderedRing K] in
/-- An optimal pass leads to the next one. -/
theorem pass_of_solveIteration {i : ℕ} {currentC : Fin (n + 1) → Fin T → K}
    {current : Option (Solution n T K)}
    (hpass : Pass VA C allocationIteration i currentC current)
    {result : (Fin (n + 1) → Fin T → K) × K × Solution n T K}
    (hresult : (solveIteration VA allocationIteration i currentC current).Yields
      (fun _ _ => True) (.ok result)) (hoptimal : result.2.2.status = .optimal) :
    Pass VA C allocationIteration (i + 1) result.1 (some result.2.2) := by
  rw [solveIteration_eq] at hresult
  obtain ⟨sub, hsub, hrest⟩ := yields_bind_ok.mp hresult
  obtain ⟨solution, hsolution, hret⟩ := yields_bind_ok.mp hrest
  cases hret
  exact Pass.next hpass (yields_ofExcept.mp hsub).symm hsolution hoptimal

theorem solveGeneticFrom_of_pass (h : WellPosed VA C allocationIteration) (k : ℕ) :
    ∀ {i : ℕ} {currentC : Fin (n + 1) → Fin T → K} {current : Option (Solution n T K)},
      Pass VA C allocationIteration i currentC current →
        (solveGeneticFrom VA allocationIteration k i currentC current).Calls
            (Handed VA C allocationIteration) ∧
          (solveGeneticFrom VA allocationIteration k i currentC current).Raises
            (fun _ _ => True) (· ≠ .valueError) := by
  induction k with
  | zero => exact fun _ => ⟨trivial, raises_ret⟩
  | succ k ih =>
    intro i currentC current hpass
    obtain ⟨hcalls, hraises⟩ := solveIteration_of_pass h hpass
    constructor
    · refine hcalls.bind_of_yields fun result hresult => ?_
      dsimp only
      split
      · trivial
      · rename_i hstatus
        exact (ih (pass_of_solveIteration hpass hresult (not_not.mp hstatus))).1
    · refine hraises.bind fun result hresult => ?_
      dsimp only
      split
      · exact raises_ret
      · rename_i hstatus
        exact (ih (pass_of_solveIteration hpass hresult (not_not.mp hstatus))).2

theorem solveKeyFrom_of_pass (h : WellPosed VA C allocationIteration) (k : ℕ) :
    ∀ {i : ℕ} {currentC : Fin (n + 1) → Fin T → K} {current : Option (Solution n T K)}
      {key : Key n T K}, Pass VA C allocationIteration i currentC current →
        (solveKeyFrom VA allocationIteration k i currentC current key).Calls
            (Handed VA C allocationIteration) ∧
          (solveKeyFrom VA allocationIteration k i currentC current key).Raises
            (fun _ _ => True) (· ≠ .valueError) := by
  induction k with
  | zero => exact fun _ => ⟨trivial, raises_ret⟩
  | succ k ih =>
    intro i currentC current key hpass
    obtain ⟨hcalls, hraises⟩ := solveIteration_of_pass h hpass
    constructor
    · refine hcalls.bind_of_yields fun result hresult => ?_
      dsimp only
      split
      · trivial
      · rename_i hstatus
        exact (calls_ofExcept _).bind fun iteration =>
          (ih (pass_of_solveIteration hpass hresult (not_not.mp hstatus))).1
    · refine hraises.bind fun result hresult => ?_
      dsimp only
      split
      · exact raises_ret
      · rename_i hstatus
        refine Raises.bind ?_ fun iteration _ =>
          (ih (pass_of_solveIteration hpass hresult (not_not.mp hstatus))).2
        intro e he hvalue
        rw [hvalue] at he
        exact toIteration_ne_valueError (yields_ofExcept.mp he).symm

/-- No subproblem of a chain is refused: whatever the solver answers, each pass hands on a
subproblem that is accepted, these are the only calls, and no check of the parameters raises. -/
structure ChainAccepted (VA C : Fin (n + 1) → Fin T → K) (allocationIteration : List K)
    (numIterations : ℕ) : Prop where
  accepted : ∀ {i currentC current VA' C' share}, Pass VA C allocationIteration i currentC current →
    subproblem VA allocationIteration i currentC current = .ok (VA', C', share) → Accepted VA' C'
  genetic_calls : (solveGenetic numIterations C VA allocationIteration).Calls
    (Handed VA C allocationIteration)
  genetic_raises : (solveGenetic numIterations C VA allocationIteration).Raises
    (fun _ _ => True) (· ≠ .valueError)
  key_calls : (solveKey numIterations C VA allocationIteration).Calls
    (Handed VA C allocationIteration)
  key_raises : (solveKey numIterations C VA allocationIteration).Raises
    (fun _ _ => True) (· ≠ .valueError)

/-- **A chain that is accepted at its start is accepted to its end.** -/
theorem chainAccepted (h : WellPosed VA C allocationIteration) (numIterations : ℕ) :
    ChainAccepted VA C allocationIteration numIterations where
  accepted := accepted_of_pass h
  genetic_calls := (solveGeneticFrom_of_pass h numIterations .first).1
  genetic_raises := (solveGeneticFrom_of_pass h numIterations .first).2
  key_calls := (solveKeyFrom_of_pass h numIterations .first).1
  key_raises := (solveKeyFrom_of_pass h numIterations .first).2

/-! ### The rows of a table -/

section Tables

variable {α : Type} [DecidableEq α]

/-- `==` of two cells: a missing value is not equal to itself. -/
def cellEqual : Option α → Option α → Bool
  | some x, some y => x = y
  | _, _ => false

/-- `np.array_equal`. -/
def arrayEqual (a b : List (List (Option α))) : Bool :=
  a.isEqv b fun row row' => row.isEqv row' cellEqual

/-- The check of `_solve`: `VA` is its first row, on every row. -/
def tilingCheck (VA : List (List (Option α))) : Bool :=
  arrayEqual VA (VA.map fun _ => VA.headD [])

theorem cellEqual_self {x : Option α} : cellEqual x x = true ↔ x ≠ none := by
  cases x <;> simp [cellEqual]

theorem isEqv_self {row : List (Option α)} : row.isEqv row cellEqual = true ↔ none ∉ row := by
  induction row with
  | nil => simp
  | cons x row ih =>
    rw [List.isEqv, Bool.and_eq_true, ih, cellEqual_self, List.mem_cons, not_or, ne_comm]

theorem tilingCheck_replicate {k : ℕ} {row : List (Option α)} :
    tilingCheck (List.replicate k row) = true ↔ k = 0 ∨ none ∉ row := by
  have hrows : ∀ m, arrayEqual (List.replicate m row) (List.replicate m row) = true ↔
      m = 0 ∨ none ∉ row := by
    intro m
    induction m with
    | zero => simp [arrayEqual]
    | succ m ih =>
      unfold arrayEqual at ih ⊢
      rw [List.replicate_succ, List.isEqv, Bool.and_eq_true, ih, isEqv_self]
      tauto
  rcases k with _ | k
  · simp [tilingCheck, arrayEqual]
  · have hmap : (List.replicate (k + 1) row).map
        (fun _ => (List.replicate (k + 1) row).headD []) = List.replicate (k + 1) row := by
      rw [List.map_replicate]
      rfl
    rw [tilingCheck, hmap, hrows]

/-- On numbers the check is the condition of `solve`. -/
theorem tilingCheck_numbers {VA : Fin (n + 1) → Fin T → α} :
    tilingCheck (List.ofFn fun i => List.ofFn fun t => some (VA i t)) = true ↔
      ∀ i t, VA i t = VA 0 t := by
  have hhead : (List.ofFn fun i => List.ofFn fun t => some (VA i t)).headD [] =
      List.ofFn fun t => some (VA 0 t) := by
    rw [List.ofFn_succ]
    rfl
  have hrow : ∀ f g : Fin T → α, (List.ofFn fun t => some (f t)).isEqv
      (List.ofFn fun t => some (g t)) cellEqual = true ↔ ∀ t, f t = g t := by
    intro f g
    simp [List.isEqv_eq_decide, cellEqual, Fin.forall_iff]
  rw [tilingCheck, hhead, arrayEqual, List.isEqv_eq_decide]
  simp [Fin.forall_iff, hrow, -List.ofFn_succ]

/-- The rows of the loaded `VA` pass the check unless a cell of the injection is blank and there
is a consumer. -/
theorem tilingCheck_toAlgorithmRawData {dataframe : Frame ℕ String α} {injectionName : String}
    {m : Upload.RawMatrices α}
    (h : Upload.toAlgorithmRawData dataframe injectionName = .ok m) :
    tilingCheck m.VA = true ↔ (∀ c ∈ dataframe.columns.map Prod.fst, c = injectionName) ∨
      none ∉ dataframe.cells injectionName := by
  unfold Upload.toAlgorithmRawData at h
  split at h
  · cases h
    rw [tilingCheck_replicate, List.length_map, List.length_eq_zero_iff, List.filter_eq_nil_iff]
    simp only [ne_eq, decide_not, Bool.not_eq_true', decide_eq_false_iff_not, not_not]
  · cases h

end Tables

/-- What is claimed of the chains and of a table: no chain that starts well is refused, and the
table's `VA` is one profile on every row. -/
structure AlwaysWellPosed (dataframe : Frame ℕ String K) (injectionName : String) : Prop where
  chains : ∀ {n T : ℕ} {VA C : Fin (n + 1) → Fin T → K} {allocationIteration : List K},
    WellPosed VA C allocationIteration →
      ∀ numIterations, ChainAccepted VA C allocationIteration numIterations
  tiled : ∀ m, Upload.toAlgorithmRawData dataframe injectionName = .ok m →
    tilingCheck m.VA = true

/-- **Every chain is accepted, and so is every table whose injection has no blank cell.** A table
with a consumer and a blank cell in its injection is refused. -/
theorem wellPosed_iff (dataframe : Frame ℕ String K) (injectionName : String) :
    AlwaysWellPosed dataframe injectionName ↔
      (dataframe.hasColumn injectionName = true →
        (∀ c ∈ dataframe.columns.map Prod.fst, c = injectionName) ∨
          none ∉ dataframe.cells injectionName) := by
  constructor
  · intro h hcolumn
    have hok : ∃ m, Upload.toAlgorithmRawData dataframe injectionName = .ok m := by
      rw [Upload.toAlgorithmRawData, if_pos hcolumn]
      exact ⟨_, rfl⟩
    obtain ⟨m, hm⟩ := hok
    exact (tilingCheck_toAlgorithmRawData hm).mp (h.tiled m hm)
  · intro h
    refine ⟨fun hstart => chainAccepted hstart, fun m hm => ?_⟩
    refine (tilingCheck_toAlgorithmRawData hm).mpr (h ?_)
    by_contra hcolumn
    rw [Upload.toAlgorithmRawData, if_neg hcolumn] at hm
    cases hm

/-- One consumer, and two readings of the injection. -/
def twoReadings (second : Option ℚ) : Frame ℕ String ℚ :=
  ⟨[0, 1], [("a", [some 1, some 2]), ("injection", [some 3, second])], by simp⟩

theorem wellPosed_iff_full : AlwaysWellPosed (twoReadings (some 0)) "injection" :=
  (wellPosed_iff (twoReadings (some 0)) "injection").mpr (by decide +kernel)

theorem not_wellPosed : ¬ AlwaysWellPosed (twoReadings none) "injection" := by
  intro h
  exact absurd (h.tiled ⟨[[some 1, some 2]], [[some 3, none]], ["a"]⟩ (by decide +kernel))
    (by decide +kernel)

end AllocationKeys.Olagsa
