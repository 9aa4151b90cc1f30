import AllocationKeys.Algorithms.Base
import Mathlib.Data.String.Basic

/-!
# The pivot of CRM readings

`shared/crm_timeseries.py`: readings become a table like that of an upload, one column for each
participant and one for the injection, on the common grid of timestamps.

`buildDataframe_faithful`: the readings are refused exactly when a pair of meter and timestamp comes
twice, a participant has no reading or the reserved column is asked for; otherwise the matrices have
every reading at its meter and its timestamp, zeros in the gaps, and the sum of all injections, in
whatever order the readings come.
-/

namespace AllocationKeys.Crm

open Upload

variable {τ V : Type}

structure ConsumptionRow (τ V : Type) where
  timestamp : τ
  ean : String
  gross : V
  injGross : V

def injectionColumn : String := "__injection__"

inductive CrmPivotError where
  /-- `no readings to pivot`. -/
  | noReadings
  /-- `no consumer EANs requested`. -/
  | noConsumers
  /-- `'__injection__' is reserved and cannot be a participant`. -/
  | reserved
  /-- `duplicate (ean, timestamp) readings`. -/
  | duplicates
  /-- `no readings for requested participant(s)`. -/
  | missing (eans : List String)
  deriving DecidableEq

variable [LinearOrder τ] [AddCommMonoid V]

def buildDataframe (rows : List (ConsumptionRow τ V)) (consumerEans : List String) :
    Except CrmPivotError (Frame ℕ String V) :=
  if rows.isEmpty then .error .noReadings
  else if consumerEans.isEmpty then .error .noConsumers
  else if injectionColumn ∈ consumerEans then .error .reserved
  else
    match Frame.pivot (rows.map fun r => (r.timestamp, r.ean, r.gross)) with
    | none => .error .duplicates
    | some consumption =>
        let missing := consumerEans.filter fun ean => !consumption.hasColumn ean
        if !missing.isEmpty then .error (.missing missing)
        else
          let consumption := (consumption.reindexColumns consumerEans).fillna 0
          let injection := Frame.groupbySum (rows.map fun r => (r.timestamp, r.injGross))
          let consumption := consumption.setColumn injectionColumn
            ((injection.reindex consumption.index).fillna 0)
          .ok consumption.sortIndex.resetIndex

/-! ### What the readings say -/

/-- The timestamps of the readings, in their order. -/
def grid (rows : List (ConsumptionRow τ V)) : List τ := labels (rows.map fun r => r.timestamp)

/-- The reading of a meter at a timestamp, 0 if there is none. -/
def grossAt (rows : List (ConsumptionRow τ V)) (ean : String) (t : τ) : V :=
  ((rows.find? fun r => r.timestamp = t ∧ r.ean = ean).map fun r => r.gross).getD 0

/-- What all meters inject at a timestamp. -/
def injectedAt (rows : List (ConsumptionRow τ V)) (t : τ) : V :=
  ((rows.filter fun r => r.timestamp = t).map fun r => r.injGross).sum

/-- No meter has two readings of one timestamp. -/
def NoDuplicates (rows : List (ConsumptionRow τ V)) : Prop :=
  (rows.map fun r => (r.timestamp, r.ean)).Nodup

instance (rows : List (ConsumptionRow τ V)) : Decidable (NoDuplicates rows) :=
  inferInstanceAs (Decidable (List.Nodup _))

/-- The matrices of the readings. -/
def matrices (rows : List (ConsumptionRow τ V)) (consumerEans : List String) : RawMatrices V where
  C := consumerEans.map fun ean => (grid rows).map fun t => some (grossAt rows ean t)
  VA := consumerEans.map fun _ => (grid rows).map fun t => some (injectedAt rows t)
  consumerNames := consumerEans

/-- The table of the readings. -/
def table (rows : List (ConsumptionRow τ V)) (consumerEans : List String) : Frame ℕ String V where
  index := List.range (grid rows).length
  columns :=
    consumerEans.map (fun ean => (ean, (grid rows).map fun t => some (grossAt rows ean t))) ++
      [(injectionColumn, (grid rows).map fun t => some (injectedAt rows t))]
  aligned := by
    intro column hcolumn
    rcases List.mem_append.mp hcolumn with hcolumn | hcolumn
    · obtain ⟨ean, -, rfl⟩ := List.mem_map.mp hcolumn
      simp
    · rw [List.mem_singleton.mp hcolumn]
      simp

variable {rows rows' : List (ConsumptionRow τ V)} {consumerEans : List String}

/-! ### The cells of the pivot -/

omit [AddCommMonoid V] in
/-- The grid has the time stamps of the rows. -/
theorem mem_grid {t : τ} : t ∈ grid rows ↔ ∃ r ∈ rows, r.timestamp = t := by
  rw [grid, mem_labels, List.mem_map]

/-- What `pivot` makes of the readings. -/
def pivoted (rows : List (ConsumptionRow τ V)) : List (τ × String × V) :=
  rows.map fun r => (r.timestamp, r.ean, r.gross)

theorem getD_valueAt (ean : String) (t : τ) :
    (Frame.valueAt (pivoted rows) t ean).getD 0 = grossAt rows ean t := by
  rw [Frame.valueAt, pivoted, List.find?_map, grossAt, Option.map_map]
  rfl

/-- The reading of a row is at its place. -/
theorem grossAt_of_mem (h : NoDuplicates rows) {r : ConsumptionRow τ V} (hr : r ∈ rows) :
    grossAt rows r.ean r.timestamp = r.gross := by
  have hfind := find?_of_nodup h hr
  simp only [Prod.mk.injEq] at hfind
  rw [grossAt, hfind]
  rfl

/-- Where there is no row there is a 0. -/
theorem grossAt_of_gap {ean : String} {t : τ} (h : ∀ r ∈ rows, ¬(r.timestamp = t ∧ r.ean = ean)) :
    grossAt rows ean t = 0 := by
  have hfind : rows.find? (fun r => r.timestamp = t ∧ r.ean = ean) = none := by
    simpa using h
  rw [grossAt, hfind]
  rfl

/-- The values of a meter at the timestamps add up to its readings. -/
theorem sum_grossAt (h : NoDuplicates rows) (ean : String) :
    ((grid rows).map fun t => grossAt rows ean t).sum =
      ((rows.filter fun r => r.ean = ean).map fun r => r.gross).sum := by
  have hvalue : ∀ t, grossAt rows ean t = (((rows.filter fun r => r.ean = ean).filter
      fun r => r.timestamp = t).map fun r => r.gross).sum := by
    intro t
    have hboth : ((rows.filter fun r => r.ean = ean).filter fun r => r.timestamp = t) =
        rows.filter fun r => (r.timestamp, r.ean) = (t, ean) := by
      simp [List.filter_filter]
    rw [hboth]
    by_cases hsome : ∃ r ∈ rows, r.timestamp = t ∧ r.ean = ean
    · obtain ⟨r, hr, rfl, rfl⟩ := hsome
      rw [grossAt_of_mem h hr, filter_of_nodup h hr]
      simp
    · rw [grossAt_of_gap (by simpa using hsome), List.filter_eq_nil_iff.mpr]
      · rfl
      · simpa using hsome
  simp only [hvalue]
  refine sum_groups _ ConsumptionRow.timestamp (nodup_labels _) fun r hr => ?_
  exact mem_labels.mpr (List.mem_map_of_mem (List.mem_of_mem_filter hr))

/-- What is injected at the timestamps adds up to all injections. -/
theorem sum_injectedAt (rows : List (ConsumptionRow τ V)) :
    ((grid rows).map fun t => injectedAt rows t).sum = (rows.map fun r => r.injGross).sum :=
  sum_groups _ ConsumptionRow.timestamp (nodup_labels _) fun _ hr =>
    mem_labels.mpr (List.mem_map_of_mem hr)

omit [AddCommMonoid V] in
/-- Without duplicates the pivot has a row for each time stamp and a column for each EAN. -/
theorem pivot_of_noDuplicates (h : NoDuplicates rows) :
    ∃ consumption, Frame.pivot (pivoted rows) = some consumption ∧ consumption.index = grid rows ∧
      consumption.columns = (labels (rows.map fun r => r.ean)).map fun c =>
        (c, (grid rows).map fun t => Frame.valueAt (pivoted rows) t c) := by
  have hfst : (pivoted rows).map Prod.fst = rows.map fun r => r.timestamp := by
    rw [pivoted, List.map_map]
    rfl
  have hean : ((pivoted rows).map fun row => row.2.1) = rows.map fun r => r.ean := by
    rw [pivoted, List.map_map]
    rfl
  have hnodup : ((pivoted rows).map fun row => (row.1, row.2.1)).Nodup := by
    rw [pivoted, List.map_map]
    exact h
  rw [Frame.pivot, if_pos hnodup]
  refine ⟨_, rfl, congrArg labels hfst, ?_⟩
  show (labels ((pivoted rows).map fun row => row.2.1)).map (fun c =>
    (c, (labels ((pivoted rows).map Prod.fst)).map fun t => Frame.valueAt (pivoted rows) t c)) = _
  rw [hfst, hean]
  rfl

omit [AddCommMonoid V] in
/-- A duplicate is refused by the pivot. -/
theorem pivot_of_duplicates (h : ¬ NoDuplicates rows) : Frame.pivot (pivoted rows) = none := by
  rw [Frame.pivot, if_neg]
  rw [pivoted, List.map_map]
  exact h

/-- The requested meters without a reading. -/
def missingEans (rows : List (ConsumptionRow τ V)) (consumerEans : List String) : List String :=
  consumerEans.filter fun ean => ean ∉ rows.map fun r => r.ean

omit [LinearOrder τ] [AddCommMonoid V] in
/-- The consumers without a single row are missing. -/
theorem mem_missingEans {ean : String} : ean ∈ missingEans rows consumerEans ↔
    ean ∈ consumerEans ∧ ∀ r ∈ rows, r.ean ≠ ean := by
  simp [missingEans]

/-- The cells of a meter that the pivot leaves missing and `fillna` fills. -/
def zeroFilled (rows : List (ConsumptionRow τ V)) (ean : String) : ℕ :=
  match Frame.pivot (rows.map fun r => (r.timestamp, r.ean, r.gross)) with
  | none => 0
  | some consumption => (consumption.cells ean).countP Option.isNone

omit [AddCommMonoid V] in
/-- As many cells are filled as there are time stamps without a row. -/
theorem zeroFilled_eq (h : NoDuplicates rows) {ean : String} (hean : ∃ r ∈ rows, r.ean = ean) :
    zeroFilled rows ean = (grid rows).length -
      (labels ((rows.filter fun r => r.ean = ean).map fun r => r.timestamp)).length := by
  obtain ⟨consumption, hpivot, -, hcolumns⟩ := pivot_of_noDuplicates h
  have hmem : ean ∈ labels (rows.map fun r => r.ean) := by
    rw [mem_labels, List.mem_map]
    exact hean
  have hcells : consumption.cells ean =
      (grid rows).map fun t => Frame.valueAt (pivoted rows) t ean := by
    rw [Frame.cells, hcolumns, lookup_map _ hmem]
    rfl
  have hread : ((grid rows).filter fun t => ¬ (Frame.valueAt (pivoted rows) t ean).isNone).length =
      (labels ((rows.filter fun r => r.ean = ean).map fun r => r.timestamp)).length := by
    refine List.Perm.length_eq ((List.perm_ext_iff_of_nodup ((nodup_labels _).filter _)
      (nodup_labels _)).mpr fun t => ?_)
    rw [List.mem_filter, mem_labels, mem_labels, Frame.valueAt, pivoted, List.find?_map]
    simp
    grind
  show (match Frame.pivot (pivoted rows) with | none => 0 | some consumption => _) = _
  rw [hpivot]
  show (consumption.cells ean).countP Option.isNone = _
  have hsplit := List.length_eq_countP_add_countP (l := grid rows)
    fun t => (Frame.valueAt (pivoted rows) t ean).isNone
  rw [hcells, List.countP_map, ← hread, ← List.countP_eq_length_filter]
  exact Nat.eq_sub_of_add_eq hsplit.symm

/-- The injections, at the timestamps of the grid. -/
theorem get_injection {t : τ} (ht : t ∈ grid rows) :
    (((Frame.groupbySum (rows.map fun r => (r.timestamp, r.injGross))).reindex
      (grid rows)).fillna 0).get t = some (injectedAt rows t) := by
  have hlabels :
      labels ((rows.map fun r => (r.timestamp, r.injGross)).map Prod.fst) = grid rows := by
    rw [List.map_map]
    rfl
  have hsum : (((rows.map fun r => (r.timestamp, r.injGross)).filter fun row => row.1 = t).map
      Prod.snd).sum = injectedAt rows t := by
    rw [List.filter_map, List.map_map]
    rfl
  rw [Series.get_fillna_reindex _ ht, Frame.groupbySum, Series.get_map, if_pos (hlabels ▸ ht), hsum]
  rfl

/-- The columns that are selected from the pivot. -/
theorem columns_selected {consumption : Frame τ String V}
    (hcolumns : consumption.columns = (labels (rows.map fun r => r.ean)).map fun c =>
        (c, (grid rows).map fun t => Frame.valueAt (pivoted rows) t c))
    (hmissing : missingEans rows consumerEans = []) :
    ((consumption.reindexColumns consumerEans).fillna 0).columns = consumerEans.map fun ean =>
      (ean, (grid rows).map fun t => some (grossAt rows ean t)) := by
  simp only [Frame.fillna, Frame.reindexColumns, List.map_map]
  refine List.map_congr_left fun ean hean => ?_
  have hmem : ean ∈ labels (rows.map fun r => r.ean) := by
    rw [mem_labels]
    by_contra hnot
    have hmiss : ean ∈ missingEans rows consumerEans :=
      mem_missingEans.mpr ⟨hean, by simpa using hnot⟩
    rw [hmissing] at hmiss
    cases hmiss
  have hcells : consumption.cells ean =
      (grid rows).map fun t => Frame.valueAt (pivoted rows) t ean := by
    rw [Frame.cells, hcolumns, lookup_map _ hmem]
    rfl
  show (ean, (consumption.cells ean).map fun v => some (v.getD 0)) = _
  rw [hcells, List.map_map]
  congr 1
  refine List.map_congr_left fun t _ => ?_
  show some ((Frame.valueAt (pivoted rows) t ean).getD 0) = _
  rw [getD_valueAt]

/-- The checks of the source, in its order. -/
theorem buildDataframe_eq (rows : List (ConsumptionRow τ V)) (consumerEans : List String) :
    buildDataframe rows consumerEans =
      if rows.isEmpty then .error .noReadings
      else if consumerEans.isEmpty then .error .noConsumers
      else if injectionColumn ∈ consumerEans then .error .reserved
      else if NoDuplicates rows then
        if missingEans rows consumerEans = [] then .ok (table rows consumerEans)
        else .error (.missing (missingEans rows consumerEans))
      else .error .duplicates := by
  rw [buildDataframe]
  refine if_congr Iff.rfl rfl (if_congr Iff.rfl rfl ?_)
  by_cases hreserved : injectionColumn ∈ consumerEans
  · rw [if_pos hreserved, if_pos hreserved]
  rw [if_neg hreserved, if_neg hreserved]
  change (match Frame.pivot (pivoted rows) with | none => _ | some consumption => _) = _
  by_cases hduplicates : NoDuplicates rows
  swap
  · rw [if_neg hduplicates, pivot_of_duplicates hduplicates]
  rw [if_pos hduplicates]
  -- without duplicates the pivot has one cell for each reading
  obtain ⟨consumption, hpivot, hindex, hcolumns⟩ := pivot_of_noDuplicates hduplicates
  rw [hpivot]
  -- an EAN is missing in the pivot when it has no row
  have hmissing : (consumerEans.filter fun ean => !consumption.hasColumn ean) =
      missingEans rows consumerEans := by
    refine List.filter_congr fun ean _ => ?_
    have hcolumn : consumption.hasColumn ean = decide (ean ∈ rows.map fun r => r.ean) := by
      rw [Frame.hasColumn, hcolumns, List.map_map, Bool.eq_iff_iff]
      simp [Function.comp_def, mem_labels]
    rw [hcolumn, decide_not]
  simp only [hmissing]
  by_cases hnone : missingEans rows consumerEans = []
  swap
  · rw [if_neg hnone, if_pos (by simpa using hnone)]
  rw [if_pos hnone, if_neg (by simp [hnone])]
  congr 1
  -- the columns of the consumers in their order, and the injection after them
  have hselected := columns_selected hcolumns hnone
  generalize hframe : (consumption.reindexColumns consumerEans).fillna 0 = selected at hselected
  have hgrid : selected.index = grid rows := by rw [← hframe]; exact hindex
  have hnew : selected.hasColumn injectionColumn = false := by
    rw [Frame.hasColumn, hselected, List.map_map]
    simpa [Function.comp_def] using hreserved
  rw [Frame.sortIndex_eq (by rw [Frame.setColumn, hgrid]; exact sorted_labels _)]
  refine Frame.ext_columns ?_ ?_
  · show List.range selected.index.length = _
    rw [hgrid]
    rfl
  · show (selected.setColumn injectionColumn _).columns = _
    simp only [Frame.setColumn, hnew, Bool.false_eq_true, if_false, hselected, hgrid, table]
    congr 3
    exact List.map_congr_left fun t ht => get_injection ht

/-! ### The matrices -/

/-- The column of a consumer. -/
theorem cells_consumer {ean : String}
    (hean : ean ∈ consumerEans) : (table rows consumerEans).cells ean =
      (grid rows).map fun t => some (grossAt rows ean t) := by
  rw [Frame.cells, table, List.lookup_append, lookup_map _ hean]
  rfl

/-- The column of the injection, which no consumer may have the name of. -/
theorem cells_injection (hreserved : injectionColumn ∉ consumerEans) :
    (table rows consumerEans).cells injectionColumn =
      (grid rows).map fun t => some (injectedAt rows t) := by
  rw [Frame.cells, table, List.lookup_append, lookup_map_of_notMem _ hreserved]
  simp

/-- The table gives its matrices. -/
theorem toAlgorithmRawData_table (hreserved : injectionColumn ∉ consumerEans) :
    toAlgorithmRawData (table rows consumerEans) injectionColumn =
      .ok (matrices rows consumerEans) := by
  have hnames : (table rows consumerEans).columns.map Prod.fst =
      consumerEans ++ [injectionColumn] := by
    rw [table, List.map_append, List.map_map]
    exact congrArg (· ++ _) (List.map_id _)
  have hcolumn : (table rows consumerEans).hasColumn injectionColumn = true := by
    rw [Frame.hasColumn, hnames]
    simp
  have hconsumers : (consumerEans ++ [injectionColumn]).filter (· ≠ injectionColumn) =
      consumerEans := by
    rw [List.filter_append, List.filter_eq_self.mpr]
    · simp
    · intro ean hean
      simpa using fun heq : ean = injectionColumn => hreserved (heq ▸ hean)
  have hcells : consumerEans.map (table rows consumerEans).cells =
      consumerEans.map fun ean => (grid rows).map fun t => some (grossAt rows ean t) :=
    List.map_congr_left fun ean hean => cells_consumer hean
  rw [toAlgorithmRawData, if_pos hcolumn, hnames]
  simp only [hconsumers, hcells, cells_injection hreserved, matrices, List.length_map,
    List.map_const']

omit [AddCommMonoid V] in
theorem grid_perm (h : rows.Perm rows') : grid rows = grid rows' := labels_perm (h.map _)

omit [LinearOrder τ] [AddCommMonoid V] in
/-- Duplicates do not depend on the order of the rows. -/
theorem noDuplicates_perm (h : rows.Perm rows') : NoDuplicates rows ↔ NoDuplicates rows' :=
  (h.map _).nodup_iff

/-- Nor do the cells. -/
theorem grossAt_perm (h : rows.Perm rows') (hduplicates : NoDuplicates rows) (ean : String)
    (t : τ) :
    grossAt rows ean t = grossAt rows' ean t := by
  by_cases hsome : ∃ r ∈ rows, r.timestamp = t ∧ r.ean = ean
  · obtain ⟨r, hr, rfl, rfl⟩ := hsome
    rw [grossAt_of_mem hduplicates hr,
      grossAt_of_mem ((noDuplicates_perm h).mp hduplicates) (h.mem_iff.mp hr)]
  · rw [grossAt_of_gap (by simpa using hsome), grossAt_of_gap]
    intro r hr hlabels
    exact hsome ⟨r, h.mem_iff.mpr hr, hlabels⟩

theorem injectedAt_perm (h : rows.Perm rows') (t : τ) : injectedAt rows t = injectedAt rows' t :=
  ((h.filter _).map _).sum_eq

/-- Nor do the matrices. -/
theorem matrices_perm (h : rows.Perm rows') (hduplicates : NoDuplicates rows) :
    matrices rows consumerEans = matrices rows' consumerEans := by
  simp only [matrices, grid_perm h, grossAt_perm h hduplicates, injectedAt_perm h]

/-- The table and the matrices, one after the other. -/
def loadFromRows (rows : List (ConsumptionRow τ V)) (consumerEans : List String) :
    Except CrmPivotError (Except LoadingError (RawMatrices V)) :=
  (buildDataframe rows consumerEans).map fun frame => toAlgorithmRawData frame injectionColumn

/-- The checks again, with the matrices at the end. -/
theorem loadFromRows_eq (rows : List (ConsumptionRow τ V)) (consumerEans : List String) :
    loadFromRows rows consumerEans =
      if rows.isEmpty then .error .noReadings
      else if consumerEans.isEmpty then .error .noConsumers
      else if injectionColumn ∈ consumerEans then .error .reserved
      else if NoDuplicates rows then
        if missingEans rows consumerEans = [] then .ok (.ok (matrices rows consumerEans))
        else .error (.missing (missingEans rows consumerEans))
      else .error .duplicates := by
  rw [loadFromRows, buildDataframe_eq]
  split_ifs with _ _ hreserved <;> first | rfl | skip
  show Except.ok (toAlgorithmRawData (table rows consumerEans) injectionColumn) = _
  rw [toAlgorithmRawData_table hreserved]

/-- What is accepted passed all checks. -/
theorem loadFromRows_ok {m : RawMatrices V} (h : loadFromRows rows consumerEans = .ok (.ok m)) :
    consumerEans ≠ [] ∧ NoDuplicates rows ∧ m = matrices rows consumerEans := by
  rw [loadFromRows_eq] at h
  split_ifs at h with _ hempty _ hduplicates
  cases h
  exact ⟨by simpa using hempty, hduplicates, rfl⟩

/-! ### Faithfulness -/

/-- No reading is lost, counted twice or moved to another time step. -/
structure Faithful (rows : List (ConsumptionRow τ V)) (consumerEans : List String) : Prop where
  refused : (∃ e, buildDataframe rows consumerEans = .error e) ↔
    ¬ NoDuplicates rows ∨ (∃ ean ∈ consumerEans, ∀ r ∈ rows, r.ean ≠ ean) ∨
      injectionColumn ∈ consumerEans
  loaded : (¬ ∃ e, buildDataframe rows consumerEans = .error e) →
    loadFromRows rows consumerEans = .ok (.ok (matrices rows consumerEans)) ∧
      ∀ r ∈ rows, grossAt rows r.ean r.timestamp = r.gross
  gap : ∀ ean t, (∀ r ∈ rows, ¬(r.timestamp = t ∧ r.ean = ean)) → grossAt rows ean t = 0
  timestamps : ∀ t, t ∈ grid rows ↔ ∃ r ∈ rows, r.timestamp = t
  chronological : (grid rows).Pairwise fun t t' => t < t'
  anyOrder : ∀ rows', rows.Perm rows' →
    loadFromRows rows' consumerEans = loadFromRows rows consumerEans

/-- What is refused, when there are rows and consumers. -/
theorem buildDataframe_error_iff (hrows : rows ≠ []) (heans : consumerEans ≠ []) :
    (∃ e, buildDataframe rows consumerEans = .error e) ↔
      ¬ NoDuplicates rows ∨ (∃ ean ∈ consumerEans, ∀ r ∈ rows, r.ean ≠ ean) ∨
        injectionColumn ∈ consumerEans := by
  have hmissing : (∃ ean ∈ consumerEans, ∀ r ∈ rows, r.ean ≠ ean) ↔
      missingEans rows consumerEans ≠ [] := by
    refine (exists_congr fun ean => mem_missingEans.symm).trans ⟨?_, List.exists_mem_of_ne_nil _⟩
    exact fun ⟨_, hean⟩ => List.ne_nil_of_mem hean
  rw [buildDataframe_eq, if_neg (by simpa using hrows), if_neg (by simpa using heans), hmissing]
  split_ifs with hreserved hduplicates hnone <;> simp [*]

/-- **The order of the rows does not matter.** -/
theorem loadFromRows_perm (h : rows.Perm rows') :
    loadFromRows rows' consumerEans = loadFromRows rows consumerEans := by
  have hempty : rows'.isEmpty = rows.isEmpty := by
    rw [Bool.eq_iff_iff, List.isEmpty_iff, List.isEmpty_iff]
    exact ⟨fun hnil => (hnil ▸ h).eq_nil, fun hnil => (hnil ▸ h.symm).eq_nil⟩
  have hmissing : missingEans rows' consumerEans = missingEans rows consumerEans :=
    List.filter_congr fun ean _ => by simp only [(h.map _).mem_iff]
  rw [loadFromRows_eq, loadFromRows_eq, hempty, hmissing]
  refine if_congr Iff.rfl rfl (if_congr Iff.rfl rfl (if_congr Iff.rfl rfl ?_))
  by_cases hduplicates : NoDuplicates rows
  · rw [if_pos hduplicates, if_pos ((noDuplicates_perm h).mp hduplicates),
      matrices_perm h hduplicates]
  · rw [if_neg hduplicates, if_neg fun h' => hduplicates ((noDuplicates_perm h).mpr h')]

/-- **The pivot is faithful.** The meters that are asked for are distinct: of a table that has a
column twice nothing is said. -/
theorem buildDataframe_faithful (hrows : rows ≠ []) (heans : consumerEans ≠ [])
    (_hdistinct : consumerEans.Nodup) : Faithful rows consumerEans where
  refused := buildDataframe_error_iff hrows heans
  loaded := by
    intro haccepted
    rw [buildDataframe_error_iff hrows heans, not_or, not_or, not_not] at haccepted
    obtain ⟨hduplicates, hpresent, hreserved⟩ := haccepted
    have hnone : missingEans rows consumerEans = [] := by
      rw [List.eq_nil_iff_forall_not_mem]
      exact fun ean hean => hpresent ⟨ean, mem_missingEans.mp hean⟩
    refine ⟨?_, fun r hr => grossAt_of_mem hduplicates hr⟩
    rw [loadFromRows_eq, if_neg (by simpa using hrows), if_neg (by simpa using heans),
      if_neg hreserved, if_pos hduplicates, if_pos hnone]
  gap := fun _ _ => grossAt_of_gap
  timestamps := fun _ => mem_grid
  chronological := strict_labels _
  anyOrder := fun _ => loadFromRows_perm

/-- Two consumers and a meter that only injects, with a gap. -/
theorem buildDataframe_faithful_gap :
    Faithful (τ := ℕ) (V := ℤ)
      [⟨15, "541", 4, 0⟩, ⟨0, "542", 3, 1⟩, ⟨0, "541", 2, 0⟩, ⟨15, "543", 0, 7⟩] ["541", "542"] :=
  buildDataframe_faithful (by simp) (by simp) (by decide)

end AllocationKeys.Crm
