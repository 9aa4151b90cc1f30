import AllocationKeys.BruteForce.Blanks
import AllocationKeys.Crm.Timeseries
import Mathlib.Data.List.GetD

/-!
# Gaps in an upload

A blank cell of an uploaded table stays a missing number in the matrices, and brute force runs on
it. A CRM period has the same gaps filled with zeros before the matrices are made.

`handled_iff`: the results are meaningful, and the matrices are those of the CRM path, exactly for
the tables without a blank cell.
-/

namespace AllocationKeys.Upload

open Algorithms BruteForce BruteForce.Blanks

variable {K : Type}

/-- A parsed table, whose columns the parser names apart, with an injection column. -/
structure UploadedTable (K : Type) where
  frame : Frame ℕ String K
  injectionName : String
  distinct : (frame.columns.map Prod.fst).Nodup
  injection : frame.hasColumn injectionName

/-- The matrices as an algorithm takes them. -/
def RawMatrices.rawData (m : RawMatrices K) (n T : ℕ) : AlgorithmRawData n T (Nan K) where
  C i t := (m.C.getD i []).getD t none
  VA i t := (m.VA.getD i []).getD t none
  consumerNames := m.consumerNames

/-- A run of brute force on the matrices, `none` when it raises: without a consumer, a share is a
division by zero. -/
def runBruteForce [Field K] [LinearOrder K] (rounded : Nan K → String) (keySort : KeySort K)
    (inputs : BruteForceInput) (m : RawMatrices K) : Option (AlgorithmResult (Nan K)) :=
  match m.C.length with
  | 0 => none
  | n + 1 => some (run rounded keySort inputs (m.rawData n m.shape.2))

namespace UploadedTable

def load (table : UploadedTable K) : Except LoadingError (RawMatrices K) :=
  toAlgorithmRawData table.frame table.injectionName

def consumerColumns (table : UploadedTable K) : List String :=
  (table.frame.columns.map Prod.fst).filter (· ≠ table.injectionName)

/-- The cells of the table as readings of one meter for each column; a blank cell is none. -/
def readings [Zero K] (table : UploadedTable K) : List (Crm.ConsumptionRow ℕ K) :=
  table.frame.columns.flatMap fun column =>
    column.2.zipIdx.filterMap fun cell => cell.1.map fun v =>
      if column.1 = table.injectionName then ⟨cell.2, column.1, 0, v⟩
      else ⟨cell.2, column.1, v, 0⟩

/-- No cell is blank. -/
def NoBlank (table : UploadedTable K) : Prop := ∀ column ∈ table.frame.columns, none ∉ column.2

/-- A gap is refused, or treated like the zero-filled gap of the CRM path. -/
structure Handled [Field K] [LinearOrder K] (rounded : Nan K → String) (keySort : KeySort K)
    (table : UploadedTable K) : Prop where
  runs : ∀ m, table.load = .ok m → ∀ inputs result,
    runBruteForce rounded keySort inputs m = some result → Meaningful result
  likeCrm : ∀ m, table.load = .ok m → ∀ m',
    Crm.loadFromRows table.readings m.consumerNames = .ok (.ok m') → m.C = m'.C

/-! ### The matrices of a table -/

section Matrices

variable {table : UploadedTable K} {m : RawMatrices K}

theorem load_ok (h : table.load = .ok m) : m.consumerNames = table.consumerColumns ∧
    m.C = table.consumerColumns.map table.frame.cells ∧
      m.VA = List.replicate m.C.length (table.frame.cells table.injectionName) := by
  rw [load, toAlgorithmRawData, if_pos table.injection] at h
  cases h
  exact ⟨rfl, rfl, rfl⟩

/-- A name of a column stands for its cells. -/
theorem exists_column {name : String} (h : name ∈ table.frame.columns.map Prod.fst) :
    (name, table.frame.cells name) ∈ table.frame.columns := by
  obtain ⟨column, hcolumn, rfl⟩ := List.mem_map.mp h
  rw [Frame.cells_of_mem table.distinct hcolumn]
  exact hcolumn

theorem injection_mem : table.injectionName ∈ table.frame.columns.map Prod.fst := by
  have hmem := table.injection
  rw [Frame.hasColumn, List.contains_iff_mem] at hmem
  exact hmem

theorem consumer_mem {name : String} (h : name ∈ table.consumerColumns) :
    name ∈ table.frame.columns.map Prod.fst ∧ name ≠ table.injectionName := by
  simpa [consumerColumns] using h

theorem shape_eq (h : table.load = .ok m) {n : ℕ} (hlength : m.C.length = n + 1) :
    m.shape.2 = table.frame.index.length := by
  obtain ⟨-, hC, -⟩ := load_ok h
  obtain ⟨name, names, hnames⟩ : ∃ name names, table.consumerColumns = name :: names :=
    List.exists_cons_of_length_pos (by rw [hC, List.length_map] at hlength; omega)
  rw [RawMatrices.shape, hC, hnames]
  exact table.frame.length_cells name

theorem getD_cells (name : String) {t : ℕ} (ht : t < table.frame.index.length) :
    (table.frame.cells name).getD t none ∈ table.frame.cells name := by
  have hlt : t < (table.frame.cells name).length := by
    rw [Frame.length_cells]
    exact ht
  rw [List.getD_eq_getElem _ _ hlt]
  exact List.getElem_mem hlt

theorem isNumber_cell (hblank : table.NoBlank) {name : String}
    (hname : name ∈ table.frame.columns.map Prod.fst) {t : ℕ} (ht : t < table.frame.index.length) :
    Nan.IsNumber ((table.frame.cells name).getD t none : Nan K) := by
  rcases Nan.isNumber_or_nan ((table.frame.cells name).getD t none : Nan K) with h | h
  · exact h
  · have hmem := getD_cells name ht
    rw [show (table.frame.cells name).getD t none = none from h] at hmem
    exact absurd hmem (hblank _ (exists_column hname))

theorem getD_map_cells {names : List String} {i : ℕ} (hi : i < names.length) :
    (names.map table.frame.cells).getD i [] = table.frame.cells names[i] := by
  rw [List.getD_eq_getElem _ _ (by rw [List.length_map]; exact hi), List.getElem_map]

theorem rawData_C (h : table.load = .ok m) {n T : ℕ} (hlength : m.C.length = n + 1)
    (i : Fin (n + 1)) (t : Fin T) : ∃ name ∈ table.consumerColumns,
      (m.rawData n T).C i t = (table.frame.cells name).getD t none := by
  obtain ⟨-, hC, -⟩ := load_ok h
  have hi : i < table.consumerColumns.length := by
    rw [hC, List.length_map] at hlength
    omega
  refine ⟨table.consumerColumns[i], List.getElem_mem hi, ?_⟩
  show (m.C.getD i []).getD t none = _
  rw [hC, getD_map_cells hi]
  rfl

theorem rawData_VA (h : table.load = .ok m) {n T : ℕ} (hlength : m.C.length = n + 1)
    (i : Fin (n + 1)) (t : Fin T) :
    (m.rawData n T).VA i t = (table.frame.cells table.injectionName).getD t none := by
  obtain ⟨-, -, hVA⟩ := load_ok h
  have hi : i < (List.replicate m.C.length (table.frame.cells table.injectionName)).length := by
    rw [List.length_replicate, hlength]
    exact i.2
  show (m.VA.getD i []).getD t none = _
  rw [hVA, List.getD_eq_getElem _ [] hi, List.getElem_replicate]

end Matrices

/-! ### The readings of a table -/

section Readings

variable [Field K] {table : UploadedTable K}

theorem mem_readings {r : Crm.ConsumptionRow ℕ K} : r ∈ table.readings ↔
    ∃ column ∈ table.frame.columns, ∃ t v, column.2[t]? = some (some v) ∧
      r = if column.1 = table.injectionName then ⟨t, column.1, 0, v⟩ else ⟨t, column.1, v, 0⟩ := by
  rw [readings, List.mem_flatMap]
  refine exists_congr fun column => and_congr_right fun _ => ?_
  rw [List.mem_filterMap]
  constructor
  · rintro ⟨⟨cell, t⟩, hcell, hr⟩
    obtain ⟨v, rfl, rfl⟩ := Option.map_eq_some_iff.mp hr
    exact ⟨t, v, List.mem_zipIdx_iff_getElem?.mp hcell, rfl⟩
  · rintro ⟨t, v, hcell, rfl⟩
    exact ⟨(some v, t), List.mem_zipIdx_iff_getElem?.mpr hcell, rfl⟩

/-- The reading of a consumer's cell. -/
theorem exists_reading (hblank : table.NoBlank) {name : String}
    (hname : name ∈ table.consumerColumns) {t : ℕ} (ht : t < table.frame.index.length) :
    ∃ v, (table.frame.cells name)[t]? = some (some v) ∧ ⟨t, name, v, 0⟩ ∈ table.readings := by
  obtain ⟨hmem, hne⟩ := consumer_mem hname
  have hlt : t < (table.frame.cells name).length := by
    rw [Frame.length_cells]
    exact ht
  cases hcell : (table.frame.cells name)[t] with
  | none => exact absurd (hcell ▸ List.getElem_mem hlt) (hblank _ (exists_column hmem))
  | some v =>
    have hsome : (table.frame.cells name)[t]? = some (some v) := by
      rw [List.getElem?_eq_getElem hlt, hcell]
    refine ⟨v, hsome, mem_readings.mpr ⟨_, exists_column hmem, t, v, hsome, ?_⟩⟩
    rw [if_neg hne]

theorem grid_readings (hblank : table.NoBlank) (hconsumers : table.consumerColumns ≠ []) :
    Crm.grid table.readings = List.range table.frame.index.length := by
  refine labels_eq List.pairwise_lt_range fun t => ?_
  rw [List.mem_range, List.mem_map]
  constructor
  · rintro ⟨r, hr, rfl⟩
    obtain ⟨column, hcolumn, t, v, hcell, rfl⟩ := mem_readings.mp hr
    have hlt : t < column.2.length := (List.getElem?_eq_some_iff.mp hcell).1
    rw [table.frame.aligned column hcolumn] at hlt
    split_ifs <;> exact hlt
  · intro ht
    obtain ⟨name, hname⟩ := List.exists_mem_of_ne_nil _ hconsumers
    obtain ⟨v, -, hr⟩ := exists_reading hblank hname ht
    exact ⟨_, hr, rfl⟩

/-- The cells of a consumer are what the CRM path makes of their readings. -/
theorem cells_eq (hblank : table.NoBlank) (hduplicates : Crm.NoDuplicates table.readings)
    {name : String} (hname : name ∈ table.consumerColumns) :
    table.frame.cells name = (Crm.grid table.readings).map fun t =>
      some (Crm.grossAt table.readings name t) := by
  rw [grid_readings hblank (List.ne_nil_of_mem hname)]
  refine List.ext_getElem? fun t => ?_
  rw [List.getElem?_map]
  by_cases ht : t < table.frame.index.length
  · obtain ⟨v, hcell, hr⟩ := exists_reading hblank hname ht
    have hgross := Crm.grossAt_of_mem hduplicates hr
    rw [hcell, List.getElem?_range ht]
    exact congrArg (fun x => some (some x)) hgross.symm
  · rw [List.getElem?_eq_none (by rw [Frame.length_cells]; omega),
      List.getElem?_eq_none (by rw [List.length_range]; omega)]
    rfl

end Readings

/-! ### When gaps are handled -/

section Handled

variable [Field K] [LinearOrder K] {table : UploadedTable K}

theorem handled_of_noBlank (rounded : Nan K → String) (keySort : KeySort K)
    (hblank : table.NoBlank) : Handled rounded keySort table where
  runs := by
    intro m hm inputs result hresult
    rw [runBruteForce] at hresult
    split at hresult
    · cases hresult
    · rename_i n hlength
      cases hresult
      have hT := shape_eq hm hlength
      refine meaningful_of_numbers rounded keySort inputs (fun i t => ?_) fun i t => ?_
      · obtain ⟨name, hname, hcell⟩ := rawData_C hm hlength i t
        rw [hcell]
        exact isNumber_cell hblank (consumer_mem hname).1 (hT ▸ t.2)
      · rw [rawData_VA hm hlength i t]
        exact isNumber_cell hblank injection_mem (hT ▸ t.2)
  likeCrm := by
    intro m hm m' hm'
    obtain ⟨hnames, hC, -⟩ := load_ok hm
    obtain ⟨-, hduplicates, rfl⟩ := Crm.loadFromRows_ok hm'
    rw [hC, Crm.matrices, hnames]
    exact List.map_congr_left fun name hname => cells_eq hblank hduplicates hname

/-- Without a consumer brute force raises, and the CRM path refuses. -/
theorem handled_of_noConsumer (rounded : Nan K → String) (keySort : KeySort K)
    (hconsumers : table.consumerColumns = []) : Handled rounded keySort table where
  runs := by
    intro m hm inputs result hresult
    obtain ⟨-, hC, -⟩ := load_ok hm
    rw [runBruteForce, hC, hconsumers] at hresult
    cases hresult
  likeCrm := by
    intro m hm m' hm'
    obtain ⟨hnames, -, -⟩ := load_ok hm
    exact absurd (hnames.trans hconsumers) (Crm.loadFromRows_ok hm').1

omit [Field K] [LinearOrder K] in
/-- A blank cell is read by every run. -/
theorem exists_nan_cell {m : RawMatrices K} (hm : table.load = .ok m) {n : ℕ}
    (hlength : m.C.length = n + 1) (hblank : ¬ table.NoBlank) :
    ∃ (i : Fin (n + 1)) (t : Fin m.shape.2), (m.rawData n m.shape.2).C i t = Nan.nan ∨
      (m.rawData n m.shape.2).VA 0 t = Nan.nan := by
  obtain ⟨column, hcolumn, hnone⟩ : ∃ column ∈ table.frame.columns, none ∈ column.2 := by
    simpa [NoBlank] using hblank
  obtain ⟨t, ht, hcell⟩ := List.getElem_of_mem hnone
  have hT : t < m.shape.2 := by
    rw [shape_eq hm hlength, ← table.frame.aligned column hcolumn]
    exact ht
  have hcells : (table.frame.cells column.1).getD t none = none := by
    rw [Frame.cells_of_mem table.distinct hcolumn, List.getD_eq_getElem _ _ ht, hcell]
  by_cases hinjection : column.1 = table.injectionName
  · refine ⟨0, ⟨t, hT⟩, .inr ?_⟩
    rw [rawData_VA hm hlength, ← hinjection]
    exact hcells
  · obtain ⟨-, hC, -⟩ := load_ok hm
    have hmem : column.1 ∈ table.consumerColumns :=
      List.mem_filter.mpr ⟨List.mem_map_of_mem hcolumn, by simpa using hinjection⟩
    obtain ⟨i, hi, hname⟩ := List.getElem_of_mem hmem
    have hi' : i < n + 1 := by
      rw [hC, List.length_map] at hlength
      omega
    refine ⟨⟨i, hi'⟩, ⟨t, hT⟩, .inl ?_⟩
    show (m.C.getD i []).getD t none = none
    rw [hC, getD_map_cells hi, hname]
    exact hcells

/-- **Gaps are handled exactly where there are none**, or no consumer. -/
theorem handled_iff (rounded : Nan K → String) (keySort : KeySort K) (table : UploadedTable K) :
    Handled rounded keySort table ↔ table.NoBlank ∨ table.consumerColumns = [] := by
  constructor
  · intro h
    by_contra hnot
    rw [not_or] at hnot
    obtain ⟨hblank, hconsumers⟩ := hnot
    obtain ⟨m, hm⟩ : ∃ m, table.load = .ok m := by
      rw [load, toAlgorithmRawData, if_pos table.injection]
      exact ⟨_, rfl⟩
    obtain ⟨n, hlength⟩ : ∃ n, m.C.length = n + 1 := by
      obtain ⟨-, hC, -⟩ := load_ok hm
      have hpos := List.length_pos_iff.mpr hconsumers
      exact ⟨table.consumerColumns.length - 1, by rw [hC, List.length_map]; omega⟩
    have hrun : runBruteForce rounded keySort ⟨1, le_rfl, by omega⟩ m =
        some (run rounded keySort ⟨1, le_rfl, by omega⟩ (m.rawData n m.shape.2)) := by
      rw [runBruteForce, hlength]
    obtain ⟨i, t, hnan⟩ := exists_nan_cell hm hlength hblank
    obtain ⟨key, hkey, it, hit, hsurplus⟩ :=
      exists_nan_key rounded keySort ⟨1, le_rfl, by omega⟩ hnan
    have hnumber := (h.runs m hm _ _ hrun).surplus key hkey it hit
    rw [hsurplus] at hnumber
    exact Nan.not_isNumber_nan hnumber
  · rintro (hblank | hconsumers)
    · exact handled_of_noBlank rounded keySort hblank
    · exact handled_of_noConsumer rounded keySort hconsumers

end Handled

/-- One consumer with a blank cell at the second time step. -/
def oneBlank : UploadedTable ℚ where
  frame :=
    { index := [0, 1]
      columns := [("consumer", [some 1, none]), ("injection", [some 2, some 2])]
      aligned := by simp }
  injectionName := "injection"
  distinct := by decide
  injection := by decide

theorem oneBlank_not_handled :
    ¬ ∃ rounded : Nan ℚ → String, Handled rounded KeySort.insertion oneBlank := by
  rintro ⟨rounded, h⟩
  have hnan : (RawMatrices.rawData (K := ℚ) ⟨[[some 1, none]], [[some 2, some 2]], ["consumer"]⟩
      0 2).C 0 1 = Nan.nan := rfl
  obtain ⟨key, hkey, it, hit, hsurplus⟩ :=
    exists_nan_key rounded KeySort.insertion ⟨1, le_rfl, by omega⟩ (.inl hnan)
  have hload : oneBlank.load = .ok ⟨[[some 1, none]], [[some 2, some 2]], ["consumer"]⟩ := by
    decide +kernel
  have hnumber := (h.runs _ hload ⟨1, le_rfl, by omega⟩ _ rfl).surplus key hkey it hit
  rw [hsurplus] at hnumber
  exact Nan.not_isNumber_nan hnumber

end UploadedTable

end AllocationKeys.Upload
