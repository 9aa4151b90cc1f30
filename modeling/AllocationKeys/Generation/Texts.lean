import AllocationKeys.Generation.Alone
import AllocationKeys.Olagsa.Complete
import AllocationKeys.Upload.Keys

/-!
# The texts of the rows

What the result rows show: the name and the description of each key, and the names of the consumers
in each of its iterations. The texts that an algorithm writes itself are short, for a float is
printed with at most `floatTextLength` characters and there are at most three iterations. So the
rows fit their columns exactly when the names of the consumers do (`fitsColumns_iff`); those come
from the uploaded file, and nothing has looked at their length before.

* `shows_runBruteForce`: the keys of brute force;
* `shows_toAllocationKeyResult`: those that OLAGSA makes of its best solutions;
* `Computes`: what the two algorithms may return. What the search of OLAGSA finds is left open; its
  runs on numbers are among the answers (`reportsOlagsa_run`).
-/

namespace AllocationKeys

open Algorithms Program Upload

variable {K : Type}

/-- The names that the keys for the matrices show. -/
def Upload.RawMatrices.shownNames (m : RawMatrices K) : List String :=
  (List.range m.C.length).map (consumerName m.consumerNames)

theorem Upload.RawMatrices.ofFn_shownNames {m : RawMatrices K} {n : ℕ}
    (hlength : m.C.length = n + 1) :
    (List.ofFn fun j : Fin (n + 1) => consumerName m.consumerNames j) = m.shownNames := by
  rw [shownNames, hlength, List.ofFn_eq_map, ← List.map_coe_finRange_eq_range, List.map_map]
  rfl

namespace Generation

/-- The characters that Python needs to print a float: 17 digits, a point, two signs, and an
exponent of three digits. -/
def floatTextLength : ℕ := 24

/-- What a key shows: in every iteration the consumers of these names, and texts of its own that fit
their columns. -/
structure Shows (names : List String) (key : AllocationKeyResult K) : Prop where
  iterations : key.iterations ≠ []
  names : ∀ it ∈ key.iterations, it.consumers.map ConsumerResult.name = names
  name : key.name.length ≤ columnLength
  description : key.description.length ≤ columnLength

/-! ### The rows of a result -/

/-- The rows have the texts of the keys. -/
theorem fitsColumns_resultRows [Zero K] [Add K] {generationId communityId : ℤ}
    {result : AlgorithmResult K} :
    FitsColumns (resultRows generationId communityId result) ↔
      ∀ key ∈ result.keys, key.name.length ≤ columnLength ∧
        key.description.length ≤ columnLength ∧ ∀ it ∈ key.iterations,
          ∀ name ∈ it.consumers.map ConsumerResult.name, name.length ≤ columnLength := by
  simp only [FitsColumns, resultRows, List.forall_mem_map]

/-- They fit exactly when there are none or the names of the consumers fit. -/
theorem fitsColumns_iff [Zero K] [Add K] {generationId communityId : ℤ}
    {result : AlgorithmResult K} {names : List String}
    (hshows : ∀ key ∈ result.keys, Shows names key) :
    FitsColumns (resultRows generationId communityId result) ↔
      result.keys = [] ∨ ∀ name ∈ names, name.length ≤ columnLength := by
  rw [fitsColumns_resultRows]
  constructor
  · intro hfits
    rw [or_iff_not_imp_left]
    intro hkeys
    obtain ⟨key, hkey⟩ := List.exists_mem_of_ne_nil _ hkeys
    obtain ⟨it, hit⟩ := List.exists_mem_of_ne_nil _ (hshows key hkey).iterations
    rw [← (hshows key hkey).names it hit]
    exact (hfits key hkey).2.2 it hit
  · rintro (hnil | hnames) key hkey
    · rw [hnil] at hkey
      cases hkey
    · refine ⟨(hshows key hkey).name, (hshows key hkey).description, fun it hit => ?_⟩
      rw [(hshows key hkey).names it hit]
      exact hnames

/-! ### Lengths -/

theorem length_intercalate_le (separator : String) (bound : ℕ) :
    ∀ {texts : List String}, (∀ text ∈ texts, text.length ≤ bound) →
      (separator.intercalate texts).length ≤ texts.length * (bound + separator.length) := by
  intro texts
  induction texts with
  | nil => intro _; simp
  | cons text texts ih =>
    intro hbound
    obtain ⟨hhead, htail⟩ := List.forall_mem_cons.mp hbound
    rcases eq_or_ne texts [] with rfl | hne
    · simp only [String.intercalate_singleton, List.length_singleton, one_mul]
      omega
    · rw [String.intercalate_cons_of_ne_nil hne, String.length_append, String.length_append,
        List.length_cons, Nat.succ_mul]
      have := ih htail
      omega

/-- The shares of at most three iterations. -/
theorem length_shares_le {rounded : K → String}
    (hrounded : ∀ x, (rounded x).length ≤ floatTextLength) {iterations : List (IterationResult K)}
    (hlength : iterations.length ≤ 3) :
    (",".intercalate
      (iterations.map fun it => rounded it.energyAllocatedPercentage)).length ≤ 75 := by
  refine (length_intercalate_le "," floatTextLength ?_).trans ?_
  · intro text htext
    obtain ⟨it, -, rfl⟩ := List.mem_map.mp htext
    exact hrounded _
  · rw [List.length_map]
    exact Nat.mul_le_mul_right _ hlength

/-! ### Brute force -/

section BruteForce

open AllocationKeys.BruteForce

variable {n : ℕ}

section Keys

variable {rounded : K → String}

/-- The longest name is that of `prorata_total`. -/
theorem length_toString_le (algo : AlgoName) : algo.toString.length ≤ 13 := by
  cases algo <;> decide

theorem length_names_le {names : List String} (hlength : names.length ≤ 3)
    (hnames : ∀ name ∈ names, ∃ algo : AlgoName, name = algo.toString) :
    (" - ".intercalate names).length ≤ 48 := by
  refine (length_intercalate_le " - " 13 ?_).trans (Nat.mul_le_mul_right _ hlength)
  intro name hname
  obtain ⟨algo, rfl⟩ := hnames name hname
  exact length_toString_le algo

/-- The name of a key of at most three iterations. -/
theorem length_name_buildKey_le [AddCommMonoid K]
    (hrounded : ∀ x, (rounded x).length ≤ floatTextLength) {iterations : List (IterationResult K)}
    {names : List String} (hiterations : iterations.length ≤ 3) (hlength : names.length ≤ 3)
    (hnames : ∀ name ∈ names, ∃ algo : AlgoName, name = algo.toString) :
    (buildKey rounded iterations names).name.length ≤ columnLength := by
  have hshares := length_shares_le hrounded hiterations
  have hjoined := length_names_le hlength hnames
  have hsurplus := hrounded ((iterations.getLast?.map IterationResult.surplusTotal).getD 0)
  -- what stands between them
  have hone : " / Pourcentage = (".length = 18 := rfl
  have hmany : " / Pourcentages = (".length = 19 := rfl
  have hlast : ") / Surplus : ".length = 14 := rfl
  have hclose : ")".length = 1 := rfl
  simp only [buildKey, columnLength, floatTextLength] at hsurplus ⊢
  split <;> simp only [toString, String.length_append] <;> omega

/-- The key of a way through the tree shows the consumers in each of its iterations. -/
theorem shows_keyOfPath [AddCommMonoid K] (hrounded : ∀ x, (rounded x).length ≤ floatTextLength)
    (consumerNames : List String) {path : List (String × IterationSummary n K)} (hne : path ≠ [])
    (hlength : path.length ≤ 3)
    (hnames : ∀ step ∈ path, ∃ algo : AlgoName, step.1 = algo.toString) :
    Shows (List.ofFn fun j : Fin (n + 1) => consumerName consumerNames j)
      (keyOfPath rounded consumerNames path) where
  iterations := by
    show pathResults consumerNames 1 path ≠ []
    rw [← List.length_pos_iff, length_pathResults, List.length_pos_iff]
    exact hne
  names := by
    intro it hit
    obtain ⟨step, -, place, rfl⟩ := mem_pathResults hit
    rw [iterationResult, consumerResults, List.map_ofFn]
    rfl
  name := by
    refine length_name_buildKey_le hrounded ?_ ?_ ?_
    · rw [length_pathResults]
      exact hlength
    · rw [List.length_map]
      exact hlength
    · exact List.forall_mem_map.mpr hnames
  description := by
    show description.length ≤ 255
    decide

end Keys

variable [Field K] [LinearOrder K] {rounded : Nan K → String} {keySort : Blanks.KeySort K}
  {inputs : BruteForceInput}

/-- The keys with blank cells are those of the ways through the trees, too. -/
theorem mem_keys_run {T : ℕ} {rawData : AlgorithmRawData n T (Nan K)}
    {key : AllocationKeyResult (Nan K)} :
    key ∈ (Blanks.run rounded keySort inputs rawData).keys ↔
      ∃ path ∈ (inputs.generator.generate rawData.C rawData.VA).flatMap Node.paths,
        keyOfPath rounded rawData.consumerNames path = key := by
  simp only [Blanks.run, (keySort.perm _).mem_iff, flattenNode_eq, List.mem_flatMap, List.mem_map]
  constructor
  · rintro ⟨root, hroot, path, hpath, rfl⟩
    exact ⟨path, ⟨root, hroot, hpath⟩, rfl⟩
  · rintro ⟨path, ⟨root, hroot, hpath⟩, rfl⟩
    exact ⟨root, hroot, path, hpath, rfl⟩

/-- A run on the matrices has a key. -/
theorem exists_key_runBruteForce {m : RawMatrices K} {result : AlgorithmResult (Nan K)}
    (h : runBruteForce rounded keySort inputs m = some result) : result.keys ≠ [] := by
  rw [runBruteForce] at h
  split at h
  · cases h
  rename_i n hlength
  cases h
  obtain ⟨path, hpath⟩ := List.exists_mem_of_ne_nil _ (exists_path_generateWith (K := Nan K)
    Iteration.summary inputs.generator (m.rawData n m.shape.2).C (m.rawData n m.shape.2).VA)
  exact List.ne_nil_of_mem (mem_keys_run.mpr ⟨path, hpath, rfl⟩)

/-- All its keys show the consumers. -/
theorem shows_runBruteForce (hrounded : ∀ x, (rounded x).length ≤ floatTextLength)
    {m : RawMatrices K} {result : AlgorithmResult (Nan K)}
    (h : runBruteForce rounded keySort inputs m = some result) :
    ∀ key ∈ result.keys, Shows m.shownNames key := by
  rw [runBruteForce] at h
  split at h
  · cases h
  rename_i n hlength
  cases h
  intro key hkey
  obtain ⟨path, hpath, rfl⟩ := mem_keys_run.mp hkey
  obtain ⟨hsteps, hnames⟩ := names_generateWith (K := Nan K) Iteration.summary inputs.generator
    (m.rawData n m.shape.2).C (m.rawData n m.shape.2).VA path hpath
  have hone : path.length = inputs.iterations := hsteps
  rw [← RawMatrices.ofFn_shownNames hlength]
  refine shows_keyOfPath hrounded m.consumerNames ?_ ?_ hnames
  · rw [← List.length_pos_iff, hone]
    exact inputs.one_le
  · rw [hone]
    exact inputs.le_three

end BruteForce

/-! ### OLAGSA -/

section Olagsa

open AllocationKeys.Olagsa

variable {n T : ℕ} {rounded : K → String}

/-- The key of a best solution with at most three iterations. -/
theorem shows_toAllocationKeyResult [Zero K] (hrounded : ∀ x, (rounded x).length ≤ floatTextLength)
    (consumerNames : List String) {best : BestSolution n T K} (hne : best.key.iterations ≠ [])
    (hlength : best.key.iterations.length ≤ 3) :
    Shows (List.ofFn fun j : Fin (n + 1) => consumerName consumerNames j)
      (toAllocationKeyResult rounded consumerNames best) where
  iterations := by
    show best.key.iterations.mapIdx (toIterationResult consumerNames) ≠ []
    rw [← List.length_pos_iff, List.length_mapIdx, List.length_pos_iff]
    exact hne
  names := by
    intro it hit
    obtain ⟨index, hindex, rfl⟩ := List.mem_mapIdx.mp hit
    rw [toIterationResult, List.map_ofFn]
    rfl
  name := by
    have hiterations :
        (best.key.iterations.mapIdx (toIterationResult consumerNames)).length ≤ 3 := by
      rw [List.length_mapIdx]
      exact hlength
    have hshares := length_shares_le hrounded hiterations
    have hfitness := hrounded best.fitness
    have hsurplus := hrounded (((best.key.iterations.mapIdx
      (toIterationResult consumerNames)).getLast?.map IterationResult.surplusTotal).getD 0)
    -- what stands between them
    have hfirst : "Fitness = ".length = 10 := rfl
    have hone : " / Pourcentage = (".length = 18 := rfl
    have hclose : ")".length = 1 := rfl
    have hlast : " - Surplus à la fin : ".length = 22 := rfl
    simp only [columnLength, floatTextLength, toAllocationKeyResult, toString,
      String.length_append] at hfitness hsurplus ⊢
    omega
  description := by
    show "Clé obtenue grâce à l'algorithme OLAGSA".length ≤ 255
    decide

end Olagsa

/-! ### What the solver processes compute -/

section Algorithms

open Olagsa Nan BruteForce.Blanks

variable [Field K] [LinearOrder K] {rounded : Nan K → String} {m : RawMatrices K}

/-- OLAGSA may return this for the matrices: keys made of best solutions, of no more iterations than
were asked for. What its search finds is left open. -/
def ReportsOlagsa (rounded : Nan K → String) (inputs : OlagsaInput K) (m : RawMatrices K)
    (result : AlgorithmResult (Nan K)) : Prop :=
  ∃ n T, m.C.length = n + 1 ∧ ∀ key ∈ result.keys, ∃ best : BestSolution n T (Nan K),
    best.key.iterations ≠ [] ∧ best.key.iterations.length ≤ inputs.iterations ∧
      key = toAllocationKeyResult rounded m.consumerNames best

/-- Every number of a best solution. -/
def bestMap {n T : ℕ} {L : Type} (f : K → L) (best : BestSolution n T K) : BestSolution n T L where
  individual :=
    { chromosomes := best.individual.chromosomes.map f
      fitness := f best.individual.fitness
      adjustedFitness := f best.individual.adjustedFitness
      status := best.individual.status }
  fitness := f best.fitness
  key :=
    { iterations := best.key.iterations.map fun iteration =>
        { consumers := fun j =>
            { consumption := fun t => f ((iteration.consumers j).consumption t)
              energyAllocatedPercentage := f (iteration.consumers j).energyAllocatedPercentage
              consumptionTotal := f (iteration.consumers j).consumptionTotal
              energyAllocated := fun t => f ((iteration.consumers j).energyAllocated t)
              energyAllocatedTotal := f (iteration.consumers j).energyAllocatedTotal
              energyAllocatedConsumed := fun t =>
                f ((iteration.consumers j).energyAllocatedConsumed t)
              energyAllocatedConsumedTotal :=
                f (iteration.consumers j).energyAllocatedConsumedTotal
              residualVolume := fun t => f ((iteration.consumers j).residualVolume t)
              residualVolumeTotal := f (iteration.consumers j).residualVolumeTotal
              surplus := fun t => f ((iteration.consumers j).surplus t)
              surplusTotal := f (iteration.consumers j).surplusTotal }
          energyAllocated := fun j t => f (iteration.energyAllocated j t)
          energyAllocatedPercentage := f iteration.energyAllocatedPercentage
          surplusTotal := f iteration.surplusTotal }
      statuses := best.key.statuses }

omit [LinearOrder K] in
/-- The key of a best solution of numbers. -/
theorem toAllocationKeyResult_number {n T : ℕ} (consumerNames : List String)
    (best : BestSolution n T K) :
    toAllocationKeyResult rounded consumerNames (bestMap number best) =
      keyMap number (toAllocationKeyResult (fun x => rounded (number x)) consumerNames best) := by
  have hiterations : (bestMap number best).key.iterations.mapIdx (toIterationResult consumerNames) =
      (best.key.iterations.mapIdx (toIterationResult consumerNames)).map
        (iterationResultMap number) := by
    refine List.ext_getElem (by simp [bestMap]) fun index _ _ => ?_
    simp only [bestMap, List.getElem_mapIdx, List.getElem_map, toIterationResult,
      iterationResultMap, List.map_ofFn]
    rfl
  simp only [toAllocationKeyResult, keyMap, hiterations, finalSurplus_number, List.map_map]
  rfl

/-- On numbers that is what a run of OLAGSA returns. -/
theorem reportsOlagsa_run [IsStrictOrderedRing K] [FloorSemiring K] {n T : ℕ}
    {inputs : OlagsaInput K} {rawData : AlgorithmRawData n T K} (hlength : m.C.length = n + 1)
    (hnames : m.consumerNames = rawData.consumerNames) {result : AlgorithmResult K}
    (h : (run (fun x => rounded (number x)) inputs rawData).Yields Admissible (.ok result)) :
    ReportsOlagsa rounded inputs m ⟨result.keys.map (keyMap number)⟩ := by
  obtain ⟨best, hbest, hresult⟩ := yields_bind_ok.mp h
  cases hresult
  refine ⟨n, T, hlength, fun key hkey => ?_⟩
  obtain ⟨_, hmem, rfl⟩ := List.mem_map.mp hkey
  obtain ⟨bs, hbs, rfl⟩ := List.mem_map.mp hmem
  obtain ⟨hfound, hne⟩ := mem_reported.mp hbs
  have hsolved := ensures_run inputs rawData.C rawData.VA best hbest bs hfound
  refine ⟨bestMap number bs, ?_, ?_, ?_⟩
  · simpa [bestMap] using hne
  · show (bs.key.iterations.map _).length ≤ inputs.iterations
    rw [List.length_map]
    rcases hsolved.holds.statuses with ⟨hall, -⟩ | ⟨hfewer, -⟩
    · exact hall.le
    · exact hfewer.le
  · rw [hnames, toAllocationKeyResult_number]

/-- What OLAGSA may return, whatever it draws and however its solves end, or `none` when it
raises. -/
structure OlagsaAnswers (rounded : Nan K → String) where
  returns : OlagsaInput K → RawMatrices K → Option (AlgorithmResult (Nan K)) → Prop
  ends : ∀ inputs m, ∃ outcome, returns inputs m outcome
  reports : ∀ inputs m result, returns inputs m (some result) →
    ReportsOlagsa rounded inputs m result

/-- Anything that it may report. -/
def OlagsaAnswers.any : OlagsaAnswers rounded where
  returns inputs m outcome := ∀ result, outcome = some result →
    ReportsOlagsa rounded inputs m result
  ends _ _ := ⟨none, fun _ h => nomatch h⟩
  reports _ _ result h := h result rfl

/-- What the solver processes may return for the inputs and the matrices. -/
def Computes (keySort : KeySort K) (olagsa : OlagsaAnswers rounded) :
    BruteForce.BruteForceInput ⊕ OlagsaInput K → RawMatrices K →
      Option (AlgorithmResult (Nan K)) → Prop
  | .inl inputs, m, outcome => outcome = runBruteForce rounded keySort inputs m
  | .inr inputs, m, outcome => olagsa.returns inputs m outcome

variable {keySort : KeySort K} {olagsa : OlagsaAnswers rounded}
  {inputs : BruteForce.BruteForceInput ⊕ OlagsaInput K}

theorem computes_total (keySort : KeySort K) (olagsa : OlagsaAnswers rounded)
    (inputs : BruteForce.BruteForceInput ⊕ OlagsaInput K) (m : RawMatrices K) :
    ∃ outcome, Computes keySort olagsa inputs m outcome := by
  cases inputs with
  | inl inputs => exact ⟨_, rfl⟩
  | inr inputs => exact olagsa.ends inputs m

/-- Both algorithms show the consumers in every key. -/
theorem shows_of_computes (hrounded : ∀ x, (rounded x).length ≤ floatTextLength)
    {result : AlgorithmResult (Nan K)} (h : Computes keySort olagsa inputs m (some result)) :
    ∀ key ∈ result.keys, Shows m.shownNames key := by
  cases inputs with
  | inl inputs => exact shows_runBruteForce hrounded h.symm
  | inr inputs =>
    obtain ⟨n, T, hlength, hkeys⟩ := olagsa.reports inputs m result h
    intro key hkey
    obtain ⟨best, hne, hfewer, rfl⟩ := hkeys key hkey
    rw [← RawMatrices.ofFn_shownNames hlength]
    exact shows_toAllocationKeyResult hrounded m.consumerNames hne
      (hfewer.trans inputs.iterations_mem.2)

/-- Brute force returns a key for every table with a consumer. -/
theorem exists_key_of_shownNames (inputs : BruteForce.BruteForceInput)
    (hnames : m.shownNames ≠ []) :
    ∃ result, Computes keySort olagsa (.inl inputs) m (some result) ∧ result.keys ≠ [] := by
  obtain ⟨result, hresult⟩ : ∃ result, runBruteForce rounded keySort inputs m = some result := by
    rw [runBruteForce]
    split
    · rename_i hlength
      refine absurd ?_ hnames
      rw [RawMatrices.shownNames, hlength]
      rfl
    · exact ⟨_, rfl⟩
  exact ⟨result, hresult.symm, exists_key_runBruteForce hresult⟩

end Algorithms

end Generation

end AllocationKeys
