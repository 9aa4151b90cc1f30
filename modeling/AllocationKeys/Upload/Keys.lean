import AllocationKeys.BruteForce.Shares
import AllocationKeys.Upload.Gaps
import Mathlib.Algebra.BigOperators.Group.Finset.Basic

/-!
# The keys of an uploaded table

What a user may expect of brute force, from the cells of the file to the list of keys: a table whose
cells are all nonnegative numbers is loaded as it stands, and the keys of a run on it are valid, in
the order of their final surplus, and the first one leaves no more than no sharing could avoid
(`validKeys_of_table`).

The facts about the algorithm are those of `BruteForce`; `run_number` carries them to matrices whose
cells may be missing.
-/

namespace AllocationKeys

open Algorithms

variable {n T : ℕ} {K : Type} [Field K] [LinearOrder K]

/-! ### Valid keys -/

namespace BruteForce

/-- The parts of a reported iteration: one for each name, and together the whole, or nothing where
there was nothing to share. -/
structure ValidParts (names : List String) (it : IterationResult K) : Prop where
  names : it.consumers.map ConsumerResult.name = names
  bounded : ∀ c ∈ it.consumers, 0 ≤ c.energyAllocatedPercentage ∧ c.energyAllocatedPercentage ≤ 1
  total : (it.consumers.map ConsumerResult.energyAllocatedPercentage).sum = 1 ∨
    (it.consumers.map ConsumerResult.energyAllocatedPercentage).sum = 0

/-- A key that splits the production, and leaves at least `minimum`. -/
structure ValidKey (names : List String) (minimum : K) (nbIterations : ℕ)
    (key : AllocationKeyResult K) : Prop where
  length : key.iterations.length = nbIterations
  bounded : ∀ it ∈ key.iterations,
    0 ≤ it.energyAllocatedPercentage ∧ it.energyAllocatedPercentage ≤ 1
  whole : (key.iterations.map IterationResult.energyAllocatedPercentage).sum = 1
  parts : ∀ it ∈ key.iterations, ValidParts names it
  surplus : minimum ≤ finalSurplusTotal key

/-- Valid keys in the order of their final surplus, of which the first is optimal. -/
structure ValidKeys (names : List String) (minimum : K) (nbIterations : ℕ)
    (keys : List (AllocationKeyResult K)) : Prop where
  valid : ∀ key ∈ keys, ValidKey names minimum nbIterations key
  sorted : keys.Pairwise fun a b => finalSurplusTotal a ≤ finalSurplusTotal b
  optimal : ∀ key ∈ keys.head?, finalSurplusTotal key = minimum

variable [IsStrictOrderedRing K]

omit [Field K] [LinearOrder K] [IsStrictOrderedRing K] in
theorem mem_pathResults {consumerNames : List String} {it : IterationResult K} :
    ∀ {path : List (String × IterationSummary n K)} {number : ℕ},
      it ∈ pathResults consumerNames number path →
        ∃ step ∈ path, ∃ place, it = iterationResult step.2 place consumerNames := by
  intro path
  induction path with
  | nil => intro number hit; cases hit
  | cons step path ih =>
    intro number hit
    rcases List.mem_cons.mp hit with rfl | hit
    · exact ⟨step, List.mem_cons_self, number, rfl⟩
    · obtain ⟨step', hstep, hplace⟩ := ih hit
      exact ⟨step', List.mem_cons_of_mem step hstep, hplace⟩

omit [Field K] [LinearOrder K] [IsStrictOrderedRing K] in
theorem length_pathResults (consumerNames : List String) :
    ∀ (path : List (String × IterationSummary n K)) (number : ℕ),
      (pathResults consumerNames number path).length = path.length := by
  intro path
  induction path with
  | nil => intro number; rfl
  | cons step path ih => intro number; exact congrArg (· + 1) (ih (number + 1))

/-- The key of a sequence of choices is valid. -/
theorem validKey_keyRun (rounded : K → String) (consumerNames : List String)
    {C VA : Fin (n + 1) → Fin T → K} (hC : ∀ i t, 0 ≤ C i t) (hVA : ∀ t, 0 ≤ VA 0 t)
    {nbIterations : ℕ} (hnb : nbIterations = 1 ∨ nbIterations = 2 ∨ nbIterations = 3)
    {choice : List (K × AlgoName)} (hchoice : choice ∈ choices nbIterations) :
    ValidKey (List.ofFn fun j : Fin (n + 1) => consumerName consumerNames j)
      (theoreticalMinimum C VA) nbIterations
      (keyOfRun rounded consumerNames (keyRun (makeRootIteration C VA) choice)) := by
  obtain ⟨hnonneg, hsum, hlength⟩ := choices_shares hnb hchoice
  have hsteps := length_keyRun (makeRootIteration C VA) choice
  have hshares : (keyOfRun rounded consumerNames
      (keyRun (makeRootIteration C VA) choice)).iterations.map
        IterationResult.energyAllocatedPercentage = choice.map Prod.fst :=
    (shares_pathResults ..).trans (shares_keyRun _ choice)
  refine ⟨?_, fun it hit => ?_, ?_, fun it hit => ?_, ?_⟩
  · refine (length_pathResults consumerNames _ 1).trans ?_
    rw [viewRun, List.length_map, hsteps, hlength]
  · have hmem := List.mem_map_of_mem (f := IterationResult.energyAllocatedPercentage) hit
    rw [hshares] at hmem
    have hall : ∀ x ∈ choice.map Prod.fst, 0 ≤ x := by
      intro x hx
      obtain ⟨step, hstep, rfl⟩ := List.mem_map.mp hx
      exact hnonneg step hstep
    exact ⟨hall _ hmem, hsum ▸ List.single_le_sum hall _ hmem⟩
  · rw [hshares, hsum]
  · obtain ⟨viewed, hviewed, place, rfl⟩ := mem_pathResults hit
    obtain ⟨step, hstep, rfl⟩ := List.mem_map.mp hviewed
    have hreports := reportsShares_of_origin (origin_keyRun hC hVA hnonneg step hstep) place
      consumerNames
    refine ⟨?_, hreports.bounded, ?_⟩
    · rw [iterationResult, consumerResults, List.map_ofFn]
      rfl
    · rw [hreports.total]
      split
      · exact Or.inr rfl
      · exact Or.inl rfl
  · -- the surplus of the last iteration is the final one
    have hne : (keyRun (makeRootIteration C VA) choice).map Prod.snd ≠ [] := by
      rw [← List.length_pos_iff, List.length_map, hsteps, hlength]
      omega
    have hlast := List.getLast?_eq_getLast_of_ne_nil hne
    rw [finalSurplusTotal_keyOfRun rounded consumerNames hlast]
    exact theoreticalMinimum_le hC (linked_keyRun VA hC choice) (shareOver_keyRun hnb hchoice _)
      hlast

/-- The keys of a run are valid. -/
theorem validKeys_run (rounded : K → String) (inputs : BruteForceInput)
    (rawData : AlgorithmRawData n T K) (hC : ∀ i t, 0 ≤ rawData.C i t)
    (hVA : ∀ t, 0 ≤ rawData.VA 0 t) :
    ValidKeys (List.ofFn fun j : Fin (n + 1) => consumerName rawData.consumerNames j)
      (theoreticalMinimum rawData.C rawData.VA) inputs.iterations
      (run rounded inputs rawData).keys := by
  have hnb := inputs.generator.valid
  have hvalid : ∀ key ∈ (run rounded inputs rawData).keys,
      ValidKey (List.ofFn fun j : Fin (n + 1) => consumerName rawData.consumerNames j)
        (theoreticalMinimum rawData.C rawData.VA) inputs.iterations key := by
    intro key hkey
    obtain ⟨steps, hsteps, rfl⟩ := mem_run_keys.mp hkey
    obtain ⟨choice, hchoice, rfl⟩ := List.mem_map.mp hsteps
    exact validKey_keyRun rounded rawData.consumerNames hC hVA hnb hchoice
  refine ⟨hvalid, ?_, fun first hfirst => ?_⟩
  · rw [run_keys]
    exact List.pairwise_insertionSort _ _
  · -- the enumeration holds a sequence of `prorata` only, and that leaves the minimum
    obtain ⟨choice, hchoice, hprorata⟩ := exists_prorata_choice (K := K) inputs
    obtain ⟨hmem, last, hlast, hfinal⟩ := key_of_choice rounded inputs rawData hchoice
    have hlower := (hvalid first (List.mem_of_mem_head? hfirst)).surplus
    have hattained := surplusTotal_of_prorata hC hVA hnb hchoice hprorata hlast
    refine le_antisymm ?_ hlower
    rw [← hattained, ← hfinal]
    rw [run_keys] at hfirst hmem
    exact finalSurplusTotal_head_le ((List.mem_insertionSort _).mp hmem) hfirst

end BruteForce

/-! ### From the cells to the keys -/

namespace Upload.UploadedTable

open BruteForce.Blanks Nan

/-- The number in a cell. -/
def reading (table : UploadedTable K) (name : String) (t : ℕ) : K :=
  ((table.frame.cells name).getD t none).getD 0

/-- Every cell is a nonnegative number. -/
def NonNegative (table : UploadedTable K) : Prop :=
  ∀ column ∈ table.frame.columns, ∀ cell ∈ column.2, ∃ v, cell = some v ∧ 0 ≤ v

/-- What the production exceeds the demand by, time step by time step. -/
def unavoidable (table : UploadedTable K) : K :=
  ∑ t ∈ Finset.range table.frame.index.length,
    max 0 (table.reading table.injectionName t -
      (table.consumerColumns.map fun name => table.reading name t).sum)

/-- The names that the keys show. -/
def shownNames (table : UploadedTable K) : List String :=
  (List.range table.consumerColumns.length).map (consumerName table.consumerColumns)

variable {table : UploadedTable K} {m : RawMatrices K}

theorem cell_eq (hnonneg : table.NonNegative) {name : String}
    (hname : name ∈ table.frame.columns.map Prod.fst) {t : ℕ} (ht : t < table.frame.index.length) :
    (table.frame.cells name).getD t none = number (table.reading name t) ∧
      0 ≤ table.reading name t := by
  obtain ⟨v, hv, hpos⟩ := hnonneg _ (exists_column hname) _ (getD_cells name ht)
  rw [reading, hv]
  exact ⟨rfl, hpos⟩

/-- The matrices over numbers. -/
def numbers (table : UploadedTable K) (n T : ℕ) : AlgorithmRawData n T K where
  C i t := table.reading (table.consumerColumns.getD i "") t
  VA _ t := table.reading table.injectionName t
  consumerNames := table.consumerColumns

theorem rawData_eq (hm : table.load = .ok m) (hnonneg : table.NonNegative)
    (hlength : m.C.length = n + 1) :
    m.rawData n m.shape.2 =
        ⟨fun i t => number ((table.numbers n m.shape.2).C i t),
          fun i t => number ((table.numbers n m.shape.2).VA i t),
          (table.numbers n m.shape.2).consumerNames⟩ ∧
      (∀ i t, 0 ≤ (table.numbers n m.shape.2).C i t) ∧
        ∀ i t, 0 ≤ (table.numbers n m.shape.2).VA i t := by
  obtain ⟨hnames, hC, -⟩ := load_ok hm
  have hT := shape_eq hm hlength
  have hcolumn : ∀ i : Fin (n + 1), i.1 < table.consumerColumns.length := fun i => by
    have hi := i.2
    rw [hC, List.length_map] at hlength
    omega
  have hmem : ∀ i : Fin (n + 1),
      table.consumerColumns.getD i "" ∈ table.frame.columns.map Prod.fst := fun i => by
    rw [List.getD_eq_getElem _ _ (hcolumn i)]
    exact (consumer_mem (List.getElem_mem (hcolumn i))).1
  refine ⟨?_, fun i t => (cell_eq hnonneg (hmem i) (hT ▸ t.2)).2, fun i t =>
    (cell_eq hnonneg injection_mem (hT ▸ t.2)).2⟩
  have hCcells : (m.rawData n m.shape.2).C =
      fun i t => number ((table.numbers n m.shape.2).C i t) := by
    funext i t
    show (m.C.getD i []).getD t none = _
    rw [hC, getD_map_cells (hcolumn i), ← List.getD_eq_getElem _ "" (hcolumn i)]
    exact (cell_eq hnonneg (hmem i) (hT ▸ t.2)).1
  have hVAcells : (m.rawData n m.shape.2).VA =
      fun i t => number ((table.numbers n m.shape.2).VA i t) := by
    funext i t
    rw [rawData_VA hm hlength]
    exact (cell_eq hnonneg injection_mem (hT ▸ t.2)).1
  rw [← hCcells, ← hVAcells]
  exact congrArg (AlgorithmRawData.mk _ _) hnames

theorem unavoidable_eq (hlength : table.consumerColumns.length = n + 1) :
    BruteForce.theoreticalMinimum (table.numbers n table.frame.index.length).C
      (table.numbers n table.frame.index.length).VA = table.unavoidable := by
  rw [BruteForce.theoreticalMinimum, unavoidable, Finset.sum_range]
  refine Finset.sum_congr rfl fun t _ => ?_
  have hsum : (table.consumerColumns.map fun name => table.reading name t) =
      List.ofFn fun i : Fin (n + 1) =>
        table.reading (table.consumerColumns.getD i "") (t : ℕ) := by
    refine List.ext_getElem ?_ fun i hi hi' => ?_
    · rw [List.length_map, List.length_ofFn, hlength]
    · rw [List.getElem_map, List.getElem_ofFn, List.getD_eq_getElem]
  rw [hsum, List.sum_ofFn]
  rfl

omit [Field K] [LinearOrder K] in
theorem shownNames_eq (hlength : table.consumerColumns.length = n + 1) :
    (List.ofFn fun j : Fin (n + 1) => consumerName table.consumerColumns j) =
      table.shownNames := by
  refine List.ext_getElem ?_ fun i hi hi' => ?_
  · rw [shownNames, List.length_ofFn, List.length_map, List.length_range, hlength]
  · simp only [shownNames, List.getElem_ofFn, List.getElem_map, List.getElem_range]

variable [IsStrictOrderedRing K]

/-- **The keys of an uploaded table** whose cells are all nonnegative numbers are numbers, valid and
sorted, and the first leaves only what the production exceeds the demand by. -/
theorem validKeys_of_table (rounded : Nan K → String) (keySort : KeySort K)
    (inputs : BruteForce.BruteForceInput) (hm : table.load = .ok m) (hnonneg : table.NonNegative)
    {result : AlgorithmResult (Nan K)}
    (h : runBruteForce rounded keySort inputs m = some result) :
    ∃ keys : List (AllocationKeyResult K), result.keys = keys.map (keyMap number) ∧
      BruteForce.ValidKeys table.shownNames table.unavoidable inputs.iterations keys := by
  rw [runBruteForce] at h
  split at h
  · cases h
  rename_i n hlength
  cases h
  obtain ⟨hdata, hC, hVA⟩ := rawData_eq hm hnonneg hlength
  have hcolumns : table.consumerColumns.length = n + 1 := by
    rw [(load_ok hm).2.1, List.length_map] at hlength
    exact hlength
  have hvalid := BruteForce.validKeys_run (fun x => rounded (number x)) inputs
    (table.numbers n m.shape.2) hC (hVA 0)
  refine ⟨_, by rw [hdata]; exact run_number rounded keySort inputs _, ?_⟩
  rw [← shownNames_eq hcolumns, ← unavoidable_eq hcolumns, ← shape_eq hm hlength]
  exact hvalid

end Upload.UploadedTable

end AllocationKeys
