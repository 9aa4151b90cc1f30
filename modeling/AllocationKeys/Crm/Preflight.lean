import AllocationKeys.Crm.Timeseries
import AllocationKeys.Generation.Dispatcher
import Mathlib.Data.List.ReduceOption

/-!
# The pre-flight of a CRM period

`shared/crm_meter_repository.py` and `shared/crm_preflight.py`: a period is summed up by queries
that aggregate its readings, and the summary says whether the period can be run on. The readings
themselves are fetched only then.

`evaluate_sound`: a period without a blocker is one that the pivot accepts and the solver has room
for, and the sums and gaps of its matrices are the figures of the summary. So a delivery never fails
on such a period (`loadFromCrm_accepted`).

`gross` and `inj_gross` may be `NULL`; they are added exactly.
-/

namespace AllocationKeys.Crm

open Upload
open Generation (Blocker Exc GenerationSnapshot LoadError Op Pipeline Resp Services Terminal
  loadFromCrm tooLarge)
open Program

variable {τ K : Type}

/-! ### The repository -/

/-- A row of `meter_consumption`. -/
structure MeterConsumption (τ K : Type) where
  ean : String
  idSharingOperation : Option ℤ
  timestamp : τ
  gross : Option K
  injGross : Option K
  idCommunity : ℤ

/-- The parameters of both queries, with the bounds of the period. -/
structure Query (τ : Type) where
  idCommunity : ℤ
  idSharingOperation : ℤ
  start : τ
  endExclusive : τ

structure EanCoverage (K : Type) where
  ean : String
  rowCount : ℕ
  distinctTs : ℕ
  consumptionKwh : K
  injectionKwh : K

structure CrmDataSummary (τ K : Type) where
  eans : List (EanCoverage K)
  gridSize : ℕ
  firstTimestamp : Option τ
  lastTimestamp : Option τ

def EanCoverage.hasDuplicateRows (e : EanCoverage K) : Bool := e.rowCount ≠ e.distinctTs

section Summary

variable [AddCommMonoid K] [LinearOrder K]

def EanCoverage.isConsumer (e : EanCoverage K) : Bool := 0 < e.consumptionKwh

namespace CrmDataSummary

variable (summary : CrmDataSummary τ K)

def totalRows : ℕ := (summary.eans.map EanCoverage.rowCount).sum

def totalInjectionKwh : K := (summary.eans.map EanCoverage.injectionKwh).sum

def consumers : List (EanCoverage K) := summary.eans.filter EanCoverage.isConsumer

def consumerEans : List String := summary.consumers.map EanCoverage.ean

def duplicateEans : List String :=
  (summary.eans.filter EanCoverage.hasDuplicateRows).map EanCoverage.ean

def incomplete : List (EanCoverage K) :=
  summary.eans.filter fun e => e.distinctTs < summary.gridSize

end CrmDataSummary

end Summary

section Repository

variable [LinearOrder τ] [AddCommMonoid K]

/-- `COALESCE(SUM(...), 0)`: the sum leaves `NULL` out and is `NULL` when nothing else is there. -/
def coalescedSum (values : List (Option K)) : K :=
  let sum := if values.reduceOption = [] then none else some values.reduceOption.sum
  sum.getD 0

/-- The `WHERE` clause. -/
def Query.selects (q : Query τ) (r : MeterConsumption τ K) : Bool :=
  r.idCommunity = q.idCommunity && r.idSharingOperation = some q.idSharingOperation &&
    q.start ≤ r.timestamp && r.timestamp < q.endExclusive

/-- The readings of a period. -/
def readings (table : List (MeterConsumption τ K)) (q : Query τ) : List (MeterConsumption τ K) :=
  table.filter q.selects

/-- One row of `GROUP BY mc.ean`. -/
def coverage (selected : List (MeterConsumption τ K)) (ean : String) : EanCoverage K :=
  let group := selected.filter fun r => r.ean = ean
  { ean := ean
    rowCount := group.length
    distinctTs := (labels (group.map fun r => r.timestamp)).length
    consumptionKwh := coalescedSum (group.map fun r => r.gross)
    injectionKwh := coalescedSum (group.map fun r => r.injGross) }

def summarize (table : List (MeterConsumption τ K)) (q : Query τ) : CrmDataSummary τ K :=
  let selected := readings table q
  let timestamps := labels (selected.map fun r => r.timestamp)
  { eans := (labels (selected.map fun r => r.ean)).map (coverage selected)
    gridSize := timestamps.length
    firstTimestamp := timestamps.head?
    lastTimestamp := timestamps.getLast? }

def MeterConsumption.toRow (r : MeterConsumption τ K) : ConsumptionRow τ K where
  timestamp := r.timestamp
  ean := r.ean
  gross := r.gross.getD 0
  injGross := r.injGross.getD 0

/-- The order of `ORDER BY mc.timestamp, mc.ean`. -/
def rowLe (a b : ConsumptionRow τ K) : Bool :=
  a.timestamp < b.timestamp || a.timestamp = b.timestamp && a.ean ≤ b.ean

def fetchRows (table : List (MeterConsumption τ K)) (q : Query τ) : List (ConsumptionRow τ K) :=
  ((readings table q).map MeterConsumption.toRow).insertionSort fun a b => rowLe a b

end Repository

/-! ### The pre-flight -/

def maxReadingRows : ℕ := 5000000

/-- An entry of `incomplete_meters`. -/
structure IncompleteMeter where
  ean : String
  readings : ℕ
  expected : ℕ
  missing : ℕ

structure Preflight (τ K : Type) where
  summary : CrmDataSummary τ K
  consumerEans : List String
  blockers : List Blocker
  warnings : Option (List IncompleteMeter)

def Preflight.ok (preflight : Preflight τ K) : Bool := preflight.blockers.isEmpty

/-- The gap that is reported for a meter, 0 if none is. -/
def Preflight.missing (preflight : Preflight τ K) (ean : String) : ℕ :=
  (((preflight.warnings.getD []).find? fun meter => meter.ean = ean).map
    IncompleteMeter.missing).getD 0

section Evaluate

variable [AddCommMonoid K] [LinearOrder K]

def evaluate (summary : CrmDataSummary τ K) : Preflight τ K :=
  if summary.eans.isEmpty then
    { summary := summary
      consumerEans := []
      blockers := [⟨"ERRORS.GENERATION.CRM_NO_DATA",
        "no readings for this sharing operation over this period"⟩]
      warnings := none }
  else
    let tooManyRows : List Blocker :=
      if summary.totalRows > maxReadingRows then
        [⟨"ERRORS.GENERATION.CRM_RANGE_TOO_LARGE",
          s!"{summary.totalRows} readings exceed the {maxReadingRows} limit; "
            ++ "choose a shorter period"⟩]
      else []
    let duplicates := summary.duplicateEans
    let listed := ", ".intercalate duplicates
    let duplicateReadings : List Blocker :=
      if duplicates.isEmpty then []
      else
        [⟨"ERRORS.GENERATION.CRM_DUPLICATE_READINGS",
          s!"the same timestamp appears more than once for meter(s) {listed} — the data was most "
            ++ "likely imported twice"⟩]
    let consumerEans := summary.consumerEans
    let participants : List Blocker :=
      if consumerEans.isEmpty then
        [⟨"ERRORS.GENERATION.CRM_NO_CONSUMERS", "no meter drew any energy over this period"⟩]
      else
        match tooLarge consumerEans.length summary.gridSize with
        | some oversize => [⟨"ERRORS.GENERATION.PROBLEM_TOO_LARGE", oversize⟩]
        | none => []
    let noInjection : List Blocker :=
      if summary.totalInjectionKwh ≤ 0 then
        [⟨"ERRORS.GENERATION.CRM_NO_INJECTION",
          "no energy was injected over this period — there is nothing to share"⟩]
      else []
    let incomplete := summary.incomplete
    { summary := summary
      consumerEans := consumerEans
      blockers := tooManyRows ++ duplicateReadings ++ participants ++ noInjection
      warnings :=
        if incomplete.isEmpty then none
        else some (incomplete.map fun e =>
          { ean := e.ean
            readings := e.distinctTs
            expected := summary.gridSize
            missing := summary.gridSize - e.distinctTs }) }

/-! ### What the verdict says -/

theorem evaluate_consumerEans (summary : CrmDataSummary τ K) :
    (evaluate summary).consumerEans = summary.consumerEans := by
  rw [evaluate]
  by_cases hempty : summary.eans.isEmpty
  · rw [if_pos hempty]
    simp [CrmDataSummary.consumerEans, CrmDataSummary.consumers, List.isEmpty_iff.mp hempty]
  · rw [if_neg hempty]

/-- What the preview finds when it lets a request through. -/
theorem evaluate_ok {summary : CrmDataSummary τ K} (h : (evaluate summary).ok) :
    summary.eans ≠ [] ∧ summary.duplicateEans = [] ∧ summary.consumerEans ≠ [] ∧
      tooLarge summary.consumerEans.length summary.gridSize = none := by
  rw [Preflight.ok, List.isEmpty_iff, evaluate] at h
  by_cases hempty : summary.eans.isEmpty
  · rw [if_pos hempty] at h
    cases h
  rw [if_neg hempty] at h
  obtain ⟨hrest, -⟩ := List.append_eq_nil_iff.mp h
  obtain ⟨hrest, hparticipants⟩ := List.append_eq_nil_iff.mp hrest
  obtain ⟨-, hduplicates⟩ := List.append_eq_nil_iff.mp hrest
  refine ⟨by simpa using hempty, ?_, ?_⟩
  · by_contra hne
    rw [if_neg (by simpa using hne)] at hduplicates
    cases hduplicates
  · by_cases hconsumers : summary.consumerEans.isEmpty
    · rw [if_pos hconsumers] at hparticipants
      cases hparticipants
    rw [if_neg hconsumers] at hparticipants
    refine ⟨by simpa using hconsumers, ?_⟩
    cases hlarge : tooLarge summary.consumerEans.length summary.gridSize with
    | none => rfl
    | some oversize =>
      rw [hlarge] at hparticipants
      cases hparticipants

/-- The gap that is reported for a meter of the summary, which lists a meter once. -/
theorem missing_evaluate {summary : CrmDataSummary τ K}
    (hnodup : (summary.eans.map EanCoverage.ean).Nodup) {e : EanCoverage K}
    (he : e ∈ summary.eans) :
    (evaluate summary).missing e.ean = summary.gridSize - e.distinctTs := by
  have hwarnings : (evaluate summary).warnings.getD [] = summary.incomplete.map fun e =>
      ⟨e.ean, e.distinctTs, summary.gridSize, summary.gridSize - e.distinctTs⟩ := by
    rw [evaluate]
    by_cases hempty : summary.eans.isEmpty
    · rw [if_pos hempty]
      simp [CrmDataSummary.incomplete, List.isEmpty_iff.mp hempty]
    · rw [if_neg hempty]
      by_cases hincomplete : summary.incomplete.isEmpty
      · simp [List.isEmpty_iff.mp hincomplete]
      · simp [hincomplete]
  rw [Preflight.missing, hwarnings, List.find?_map, Option.map_map]
  show Option.getD (Option.map _ (summary.incomplete.find? fun d => d.ean = e.ean)) 0 = _
  by_cases hlt : e.distinctTs < summary.gridSize
  · have hmem : e ∈ summary.incomplete := List.mem_filter.mpr ⟨he, by simpa using hlt⟩
    have hsublist : (summary.incomplete.map EanCoverage.ean).Nodup :=
      hnodup.sublist (List.filter_sublist.map _)
    rw [find?_of_nodup hsublist hmem]
    rfl
  · have hnone : (summary.incomplete.find? fun d => d.ean = e.ean) = none := by
      rw [List.find?_eq_none]
      intro d hd heq
      have hsame : d = e := List.inj_on_of_nodup_map hnodup (List.mem_of_mem_filter hd) he
        (by simpa using heq)
      exact hlt (hsame ▸ by simpa using (List.mem_filter.mp hd).2)
    rw [hnone, Option.map_none, Option.getD_none]
    omega

end Evaluate

/-! ### The summary and the readings -/

section Agreement

variable [LinearOrder τ] [AddCommMonoid K] {table : List (MeterConsumption τ K)} {q : Query τ}

omit [LinearOrder τ] in
/-- A missing value counts as 0. -/
theorem coalescedSum_eq (values : List (Option K)) :
    coalescedSum values = (values.map fun v => v.getD 0).sum := by
  have hsum : values.reduceOption.sum = (values.map fun v => v.getD 0).sum := by
    induction values with
    | nil => rfl
    | cons v values ih =>
      cases v with
      | none =>
        rw [List.reduceOption_cons_of_none, ih]
        simp
      | some v =>
        rw [List.reduceOption_cons_of_some, List.sum_cons, ih]
        simp
  rw [← hsum, coalescedSum]
  by_cases hnil : values.reduceOption = []
  · simp [hnil]
  · simp [hnil]

/-- The readings of a period, in the order of the table. -/
def rowsOf (table : List (MeterConsumption τ K)) (q : Query τ) : List (ConsumptionRow τ K) :=
  (readings table q).map MeterConsumption.toRow

/-- The rows of the query in the order they are fetched. -/
theorem fetchRows_perm (table : List (MeterConsumption τ K)) (q : Query τ) :
    (rowsOf table q).Perm (fetchRows table q) :=
  (List.perm_insertionSort _ _).symm

/-- The grid of the rows is that of the readings. -/
theorem grid_rowsOf :
    grid (rowsOf table q) = labels ((readings table q).map fun r => r.timestamp) := by
  rw [grid, rowsOf, List.map_map]
  rfl

/-- The rows of an EAN are those of its readings. -/
theorem group_rowsOf (ean : String) : (rowsOf table q).filter (fun r => r.ean = ean) =
    ((readings table q).filter fun r => r.ean = ean).map MeterConsumption.toRow := by
  rw [rowsOf, List.filter_map]
  rfl

/-- The summary has the EANs of the readings. -/
theorem eans_summarize : (summarize table q).eans.map EanCoverage.ean =
    labels ((readings table q).map fun r => r.ean) := by
  rw [summarize, List.map_map]
  exact List.map_id _

/-- A meter of the summary has a reading, and its entry is the aggregate of its readings. -/
theorem coverage_of_mem {e : EanCoverage K} (he : e ∈ (summarize table q).eans) :
    e = coverage (readings table q) e.ean ∧ ∃ r ∈ rowsOf table q, r.ean = e.ean := by
  obtain ⟨ean, hean, rfl⟩ := List.mem_map.mp he
  obtain ⟨r, hr, heq⟩ := List.mem_map.mp (mem_labels.mp hean)
  exact ⟨rfl, r.toRow, List.mem_map_of_mem hr, heq⟩

/-- Without duplicates in the summary there are none among the rows. -/
theorem noDuplicates_rowsOf (h : (summarize table q).duplicateEans = []) :
    NoDuplicates (rowsOf table q) := by
  rw [NoDuplicates, rowsOf, List.map_map]
  show ((readings table q).map fun r => (r.timestamp, r.ean)).Nodup
  refine nodup_of_groups MeterConsumption.timestamp MeterConsumption.ean fun ean => ?_
  by_cases hean : ean ∈ (readings table q).map fun r => r.ean
  · have hmem : coverage (readings table q) ean ∈ (summarize table q).eans :=
      List.mem_map_of_mem (mem_labels.mpr hean)
    rw [CrmDataSummary.duplicateEans, List.map_eq_nil_iff, List.filter_eq_nil_iff] at h
    have hcount : ((readings table q).filter fun r => r.ean = ean).length =
        (labels (((readings table q).filter fun r => r.ean = ean).map
          fun r => r.timestamp)).length :=
      of_not_not fun hne => h _ hmem (decide_eq_true hne)
    refine nodup_of_length_labels ?_
    rw [List.length_map]
    exact hcount
  · have hnil : ((readings table q).filter fun r => r.ean = ean) = [] := by
      rw [List.filter_eq_nil_iff]
      intro r hr heq
      exact hean (List.mem_map.mpr ⟨r, hr, by simpa using heq⟩)
    rw [hnil]
    exact List.nodup_nil

theorem noDuplicates_fetchRows (h : (summarize table q).duplicateEans = []) :
    NoDuplicates (fetchRows table q) :=
  (noDuplicates_perm (fetchRows_perm table q)).mp (noDuplicates_rowsOf h)

/-- The summary counts the time stamps. -/
theorem length_grid_fetchRows :
    (grid (fetchRows table q)).length = (summarize table q).gridSize := by
  rw [← grid_perm (fetchRows_perm table q), grid_rowsOf]
  rfl

/-- An EAN of the summary has a row. -/
theorem exists_row {e : EanCoverage K} (he : e ∈ (summarize table q).eans) :
    ∃ r ∈ fetchRows table q, r.ean = e.ean := by
  obtain ⟨r, hr, heq⟩ := (coverage_of_mem he).2
  exact ⟨r, (fetchRows_perm table q).mem_iff.mp hr, heq⟩

/-- The column of an EAN sums to what the summary says. -/
theorem sum_consumption (h : (summarize table q).duplicateEans = []) {e : EanCoverage K}
    (he : e ∈ (summarize table q).eans) :
    ((grid (fetchRows table q)).map fun t => grossAt (fetchRows table q) e.ean t).sum =
      e.consumptionKwh := by
  have hperm := ((fetchRows_perm table q).filter fun r => r.ean = e.ean).map
    fun r => r.gross
  rw [sum_grossAt (noDuplicates_fetchRows h), ← hperm.sum_eq, group_rowsOf, List.map_map,
    (coverage_of_mem he).1, coverage, coalescedSum_eq, List.map_map]
  rfl

/-- So does the injection. -/
theorem sum_injection :
    ((grid (fetchRows table q)).map fun t => injectedAt (fetchRows table q) t).sum =
      (summarize table q).totalInjectionKwh := by
  have hperm := (fetchRows_perm table q).map fun r => r.injGross
  have hgroups := sum_groups (fun r : MeterConsumption τ K => r.injGross.getD 0)
    MeterConsumption.ean (nodup_labels ((readings table q).map fun r => r.ean))
    fun r hr => mem_labels.mpr (List.mem_map_of_mem hr)
  rw [sum_injectedAt, ← hperm.sum_eq, rowsOf, List.map_map]
  show ((readings table q).map fun r => r.injGross.getD 0).sum = _
  rw [← hgroups, CrmDataSummary.totalInjectionKwh, summarize, List.map_map]
  refine congrArg List.sum (List.map_congr_left fun ean _ => ?_)
  show _ = coalescedSum _
  rw [coalescedSum_eq, List.map_map]
  rfl

/-- As many cells are filled as the summary says are missing. -/
theorem zeroFilled_fetchRows (h : (summarize table q).duplicateEans = []) {e : EanCoverage K}
    (he : e ∈ (summarize table q).eans) :
    zeroFilled (fetchRows table q) e.ean = (summarize table q).gridSize - e.distinctTs := by
  have hperm := ((fetchRows_perm table q).filter fun r => r.ean = e.ean).map
    fun r => r.timestamp
  rw [zeroFilled_eq (noDuplicates_fetchRows h) (exists_row he), length_grid_fetchRows,
    ← labels_perm hperm, group_rowsOf, List.map_map, (coverage_of_mem he).1]
  rfl

end Agreement

/-! ### The period the worker runs on -/

/-- The cells of a row are all there and add up to a figure. -/
def AddsUpTo [AddCommMonoid K] (row : List (Option K)) (total : K) : Prop :=
  ∃ values : List K, row = values.map some ∧ values.sum = total

section Sound

variable [LinearOrder τ] [AddCommMonoid K] [LinearOrder K] {table : List (MeterConsumption τ K)}
  {q : Query τ}

/-- What an accepted period is loaded as. -/
theorem loadFromRows_accepted
    (hdigits : ∀ r ∈ readings table q, r.ean.toList.all Char.isDigit)
    (hok : (evaluate (summarize table q)).ok) :
    loadFromRows (fetchRows table q) (summarize table q).consumerEans =
      .ok (.ok (matrices (fetchRows table q) (summarize table q).consumerEans)) := by
  obtain ⟨heans, hduplicates, hconsumers, -⟩ := evaluate_ok hok
  obtain ⟨e, he⟩ := List.exists_mem_of_ne_nil _ heans
  obtain ⟨r, hr, -⟩ := exists_row he
  have hpresent : ∀ ean ∈ (summarize table q).consumerEans,
      ∃ r ∈ fetchRows table q, r.ean = ean := by
    intro ean hean
    obtain ⟨d, hd, rfl⟩ := List.mem_map.mp hean
    exact exists_row (List.mem_of_mem_filter hd)
  have hreserved : injectionColumn ∉ (summarize table q).consumerEans := by
    intro hmem
    obtain ⟨row, hrow, heq⟩ := hpresent _ hmem
    obtain ⟨reading, hreading, rfl⟩ := List.mem_map.mp ((fetchRows_perm table q).mem_iff.mpr hrow)
    have hdigit := hdigits reading hreading
    rw [show reading.ean = injectionColumn from heq] at hdigit
    revert hdigit
    decide
  have hmissing : missingEans (fetchRows table q) (summarize table q).consumerEans = [] := by
    rw [List.eq_nil_iff_forall_not_mem]
    intro ean hean
    obtain ⟨hmem, hno⟩ := mem_missingEans.mp hean
    obtain ⟨row, hrow, heq⟩ := hpresent ean hmem
    exact hno row hrow heq
  rw [loadFromRows_eq, if_neg (by simpa using List.ne_nil_of_mem hr),
    if_neg (by simpa using hconsumers), if_neg hreserved,
    if_pos (noDuplicates_fetchRows hduplicates), if_pos hmissing]

/-- The matrices have the size that the summary says. -/
theorem shape_matrices (hconsumers : (summarize table q).consumerEans ≠ []) :
    (matrices (fetchRows table q) (summarize table q).consumerEans).shape =
      ((summarize table q).consumerEans.length, (summarize table q).gridSize) := by
  obtain ⟨ean, eans, heq⟩ := List.exists_cons_of_ne_nil hconsumers
  rw [RawMatrices.shape, matrices, heq]
  simp [length_grid_fetchRows]

/-- **A period without a blocker can be run on, with the figures of its summary.** -/
theorem evaluate_sound (hdigits : ∀ r ∈ readings table q, r.ean.toList.all Char.isDigit)
    (hok : (evaluate (summarize table q)).ok) :
    ∃ m, loadFromRows (fetchRows table q) (evaluate (summarize table q)).consumerEans =
        .ok (.ok m) ∧
      m.shape = ((evaluate (summarize table q)).consumerEans.length,
        (summarize table q).gridSize) ∧
      (∀ row ∈ m.C, row.length = (summarize table q).gridSize) ∧
      tooLarge m.shape.1 m.shape.2 = none ∧
      List.Forall₂ (fun e row => AddsUpTo row e.consumptionKwh ∧
          zeroFilled (fetchRows table q) e.ean = (evaluate (summarize table q)).missing e.ean)
        (summarize table q).consumers m.C ∧
      ∀ row ∈ m.VA, AddsUpTo row (summarize table q).totalInjectionKwh := by
  obtain ⟨-, hduplicates, hconsumers, hfits⟩ := evaluate_ok hok
  have hlength : ∀ row ∈ (matrices (fetchRows table q) (summarize table q).consumerEans).C,
      row.length = (summarize table q).gridSize := by
    intro row hrow
    obtain ⟨ean, -, rfl⟩ := List.mem_map.mp hrow
    rw [List.length_map, length_grid_fetchRows]
  rw [evaluate_consumerEans]
  refine ⟨_, loadFromRows_accepted hdigits hok, shape_matrices hconsumers, hlength,
    by rw [shape_matrices hconsumers]; exact hfits, ?_, ?_⟩
  · have hnodup : ((summarize table q).eans.map EanCoverage.ean).Nodup := by
      rw [eans_summarize]
      exact nodup_labels _
    rw [matrices, CrmDataSummary.consumerEans, List.map_map, List.forall₂_map_right_iff,
      List.forall₂_same]
    intro e he
    have hmem := List.mem_of_mem_filter he
    refine ⟨⟨_, List.map_map.symm, sum_consumption hduplicates hmem⟩, ?_⟩
    rw [zeroFilled_fetchRows hduplicates hmem, missing_evaluate hnodup hmem]
  · intro row hrow
    obtain ⟨ean, -, rfl⟩ := List.mem_map.mp hrow
    exact ⟨_, List.map_map.symm, sum_injection⟩

/-- Two consumers and a meter that only injects, with gaps. -/
def gapTable : List (MeterConsumption ℕ ℤ) :=
  [⟨"541", some 1, 15, some 4, none, 1⟩, ⟨"542", some 1, 0, some 3, some 1, 1⟩,
    ⟨"541", some 1, 0, some 2, none, 1⟩, ⟨"543", some 1, 15, none, some 7, 1⟩,
    ⟨"541", some 1, 30, some 5, none, 1⟩]

/-- A table with a gap is let through and loaded. -/
theorem evaluate_sound_gapTable :
    (evaluate (summarize gapTable ⟨1, 1, 0, 30⟩)).ok ∧
      ∃ m, loadFromRows (fetchRows gapTable ⟨1, 1, 0, 30⟩)
          (evaluate (summarize gapTable ⟨1, 1, 0, 30⟩)).consumerEans = .ok (.ok m) ∧
        m.shape = (2, 2) := by
  have hok : (evaluate (summarize gapTable ⟨1, 1, 0, 30⟩)).ok := by decide +kernel
  obtain ⟨m, hload, hshape, -⟩ := evaluate_sound (by decide +kernel) hok
  exact ⟨hok, m, hload, by rw [hshape]; decide +kernel⟩

end Sound

/-! ### The delivery of a generation on a period -/

def CrmPivotError.str : CrmPivotError → String
  | .noReadings => "no readings to pivot"
  | .noConsumers => "no consumer EANs requested"
  | .reserved => "'__injection__' is reserved and cannot be a participant"
  | .duplicates => "duplicate (ean, timestamp) readings: Index contains duplicate entries, "
      ++ "cannot reshape"
  | .missing eans =>
      let listed := ", ".intercalate (eans.map fun ean => "'" ++ ean ++ "'")
      s!"no readings for requested participant(s): [{listed}]"

section Delivery

variable [LinearOrder τ] [AddCommMonoid K] [LinearOrder K]

/-- What `_load_from_crm` makes of the readings. -/
def pivotForWorker (rows : List (ConsumptionRow τ K)) (summary : CrmDataSummary τ K) :
    Except LoadError (RawMatrices K) :=
  match loadFromRows rows (evaluate summary).consumerEans with
  | .error e => .error (.classified e.str)
  | .ok (.error e) => .error (.classified e.str)
  | .ok (.ok rawData) => .ok rawData

variable (τ) in
/-- The services of the pipeline, with this pre-flight and this pivot. -/
def withCrm (S : Services)
    (load : S.Content → String → String → Except LoadError (RawMatrices K)) : Services :=
  { S with
    RawData := RawMatrices K
    Summary := CrmDataSummary τ K
    Rows := List (ConsumptionRow τ K)
    Warnings := List IncompleteMeter
    load := load
    shape := RawMatrices.shape
    blockers := fun summary => (evaluate summary).blockers
    warnings := fun summary => (evaluate summary).warnings
    pivot := pivotForWorker }

variable {S : Services} {load : S.Content → String → String → Except LoadError (RawMatrices K)}
  {A : Type}

/-- Both queries are answered from the same table; `bounds` are those of the days of a period. -/
def AnsweredFrom (table : List (MeterConsumption τ K)) (bounds : S.Date → S.Date → τ × τ) :
    (o : Op (withCrm τ S load) A) → Resp (withCrm τ S load) A o → Prop
  | .summarize idCommunity idSharingOperation first last, answer =>
      ∀ summary, answer = .ok summary → summary = summarize table
        ⟨idCommunity, idSharingOperation, (bounds first last).1, (bounds first last).2⟩
  | .fetchRows idCommunity idSharingOperation first last, answer =>
      ∀ rows, answer = .ok rows → rows = fetchRows table
        ⟨idCommunity, idSharingOperation, (bounds first last).1, (bounds first last).2⟩
  | _, _ => True

/-- **A delivery neither rejects nor fails on a period without a blocker**: it tries again later, or
it gets matrices that the solver has room for. -/
theorem loadFromCrm_accepted {table : List (MeterConsumption τ K)}
    {bounds : S.Date → S.Date → τ × τ} {snapshot : GenerationSnapshot (withCrm τ S load)}
    {idSharingOperation : ℤ} {first last : S.Date}
    (hid : snapshot.idSharingOperation = some idSharingOperation)
    (hfirst : snapshot.periodStart = some first) (hlast : snapshot.periodEnd = some last)
    {q : Query τ} (hq : q = ⟨snapshot.idCommunity, idSharingOperation, (bounds first last).1,
      (bounds first last).2⟩)
    (hdigits : ∀ r ∈ readings table q, r.ean.toList.all Char.isDigit)
    (hok : (evaluate (summarize table q)).ok) {out : Except Exc (Except Terminal (RawMatrices K))}
    (h : (loadFromCrm snapshot : Pipeline (withCrm τ S load) A _).Yields
      (AnsweredFrom table bounds) out) :
    (∃ detail, out = .error (.transient detail)) ∨
      ∃ rawData, out = .ok (.ok rawData) ∧ tooLarge rawData.shape.1 rawData.shape.2 = none := by
  have hblockers : ((withCrm τ S load).blockers (summarize table q)).isEmpty = true := hok
  obtain ⟨-, -, hconsumers, hfits⟩ := evaluate_ok hok
  unfold loadFromCrm at h
  rw [hid, hfirst, hlast] at h
  obtain ⟨read, hread, h⟩ | ⟨e, hread, -⟩ := yields_bind.mp h
  · obtain ⟨x, hx, hread⟩ := yields_attempt.mp hread
    cases hx
    cases read with
    | error e => exact Or.inl ⟨_, h⟩
    | ok found =>
      obtain ⟨summary, ⟨answer, hanswer, hsummary⟩, hread⟩ := yields_bind_ok.mp hread
      -- the preview of the worker is that of the API
      have hsame := hanswer summary (yields_ofExcept.mp hsummary).symm
      rw [← hq] at hsame
      subst hsame
      rw [if_pos hblockers] at hread
      obtain ⟨rows, hrows, hends⟩ := yields_bind_ok.mp hread
      obtain ⟨fetched, ⟨answer', hanswer', hfetched⟩, rfl⟩ := yields_map.mp hrows
      -- and the rows it fetches are those the preview has counted
      have hsame' := hanswer' fetched (yields_ofExcept.mp hfetched).symm
      rw [← hq] at hsame'
      subst hsame'
      cases hends
      have hpivot : (withCrm τ S load).pivot (fetchRows table q) (summarize table q) =
          .ok (matrices (fetchRows table q) (summarize table q).consumerEans) := by
        show pivotForWorker _ _ = _
        rw [pivotForWorker, evaluate_consumerEans, loadFromRows_accepted hdigits hok]
        rfl
      simp only [hpivot] at h
      refine Or.inr ⟨_, h, ?_⟩
      rw [shape_matrices hconsumers]
      exact hfits
  · obtain ⟨x, hx, -⟩ := yields_attempt.mp hread
    cases hx

end Delivery

end AllocationKeys.Crm
