import Mathlib.Algebra.BigOperators.Group.List.Basic
import Mathlib.Data.List.Dedup
import Mathlib.Data.List.Sort
import Mathlib.Order.Defs.LinearOrder
import Mathlib.Tactic.Common

/-!
# Frames

Tables with labelled rows and columns. A cell holds a number or is missing (`none`). The operations
are those of a data-frame library as it documents them: `pivot` refuses a pair of labels that comes
twice and sorts the labels, `groupbySum` sorts them too, `reindexColumns` and `Series.reindex` look
labels up, and what they do not find is missing.

* `labels_perm`: the labels are the same in whatever order they come;
* `lookup_map`, `Series.get_map`: what is looked up in a table that is made label by label;
* `sortIndex_eq`: rows that are sorted stay as they are.
-/

namespace AllocationKeys

/-! ### Labels -/

section Labels

variable {ι : Type*} [LinearOrder ι]

/-- The distinct labels in their order. -/
def labels (l : List ι) : List ι := l.dedup.insertionSort (· ≤ ·)

theorem mem_labels {l : List ι} {a : ι} : a ∈ labels l ↔ a ∈ l := by
  rw [labels, List.mem_insertionSort, List.mem_dedup]

theorem nodup_labels (l : List ι) : (labels l).Nodup :=
  (List.perm_insertionSort _ _).nodup_iff.mpr l.nodup_dedup

theorem sorted_labels (l : List ι) : (labels l).Pairwise fun a b => a ≤ b :=
  List.pairwise_insertionSort _ _

theorem strict_labels (l : List ι) : (labels l).Pairwise fun a b => a < b :=
  ((sorted_labels l).and (nodup_labels l)).imp fun h => lt_of_le_of_ne h.1 h.2

/-- The labels are the same in whatever order they come. -/
theorem labels_perm {l l' : List ι} (h : l.Perm l') : labels l = labels l' := by
  have hperm : (labels l).Perm (labels l') :=
    (List.perm_insertionSort _ _).trans (h.dedup.trans (List.perm_insertionSort _ _).symm)
  exact hperm.eq_of_pairwise (fun a b _ _ => le_antisymm) (sorted_labels l) (sorted_labels l')

/-- The labels are known from what they are. -/
theorem labels_eq {l l' : List ι} (hsorted : l'.Pairwise fun a b => a < b)
    (hmem : ∀ a, a ∈ l ↔ a ∈ l') : labels l = l' := by
  have hperm : (labels l).Perm l' :=
    (List.perm_ext_iff_of_nodup (nodup_labels l) (hsorted.imp ne_of_lt)).mpr fun a =>
      mem_labels.trans (hmem a)
  exact hperm.eq_of_pairwise (fun a b _ _ => le_antisymm) (sorted_labels l)
    (hsorted.imp le_of_lt)

end Labels

/-- What is looked up in a list that is made label by label. -/
theorem lookup_map {γ α : Type*} [DecidableEq γ] (f : γ → α) {l : List γ} {c : γ} (h : c ∈ l) :
    (l.map fun c => (c, f c)).lookup c = some (f c) := by
  induction l with
  | nil => cases h
  | cons d l ih =>
    by_cases hcd : c = d
    · subst hcd
      simp
    · have hmem : c ∈ l := (List.mem_cons.mp h).resolve_left hcd
      rw [List.map_cons, List.lookup_cons, beq_false_of_ne hcd]
      exact ih hmem

theorem lookup_map_of_notMem {γ α : Type*} [DecidableEq γ] (f : γ → α) {l : List γ} {c : γ}
    (h : c ∉ l) : (l.map fun c => (c, f c)).lookup c = none := by
  rw [List.lookup_eq_none_iff]
  rintro ⟨d, a⟩ hd
  obtain ⟨d', hd', heq⟩ := List.mem_map.mp hd
  cases heq
  rw [bne_iff_ne]
  rintro rfl
  exact h hd'

theorem zip_map_self {ι α : Type*} (index : List ι) (f : ι → α) :
    index.zip (index.map f) = index.map fun t => (t, f t) := by
  induction index with
  | nil => rfl
  | cons t index ih => rw [List.map_cons, List.zip_cons_cons, ih, List.map_cons]

/-- The element with a key that no other one has. -/
theorem find?_of_nodup {α β : Type*} [DecidableEq β] {f : α → β} {l : List α} (h : (l.map f).Nodup)
    {a : α} (ha : a ∈ l) : l.find? (fun b => f b = f a) = some a := by
  induction l with
  | nil => cases ha
  | cons b l ih =>
    rw [List.map_cons, List.nodup_cons] at h
    rcases List.mem_cons.mp ha with rfl | ha
    · simp
    · have hne : f b ≠ f a := fun heq => h.1 (heq ▸ List.mem_map_of_mem ha)
      rw [List.find?_cons_of_neg (by simpa using hne)]
      exact ih h.2 ha

theorem filter_of_nodup {α β : Type*} [DecidableEq β] {f : α → β} {l : List α}
    (h : (l.map f).Nodup) {a : α} (ha : a ∈ l) : l.filter (fun b => f b = f a) = [a] := by
  induction l with
  | nil => cases ha
  | cons b l ih =>
    rw [List.map_cons, List.nodup_cons] at h
    rcases List.mem_cons.mp ha with rfl | ha
    · rw [List.filter_cons_of_pos (by simp), List.filter_eq_nil_iff.mpr]
      intro c hc
      have hne : f c ≠ f a := fun heq => h.1 (heq ▸ List.mem_map_of_mem hc)
      simpa using hne
    · have hne : f b ≠ f a := fun heq => h.1 (heq ▸ List.mem_map_of_mem ha)
      rw [List.filter_cons_of_neg (by simpa using hne)]
      exact ih h.2 ha

/-! ### Groups -/

section Groups

variable {ι β M : Type*} [DecidableEq ι]

/-- The sums of the groups make the sum of all, when every key is among the labels. -/
theorem sum_groups [AddCommMonoid M] (f : β → M) (k : β → ι) {index : List ι} (hindex : index.Nodup)
    {l : List β} (hcover : ∀ b ∈ l, k b ∈ index) :
    (index.map fun t => ((l.filter fun b => k b = t).map f).sum).sum = (l.map f).sum := by
  induction l with
  | nil => simp
  | cons b l ih =>
    have hgroup : ∀ t, (((b :: l).filter fun b => k b = t).map f).sum =
        (if t = k b then f b else 0) + ((l.filter fun b => k b = t).map f).sum := by
      intro t
      by_cases ht : k b = t
      · simp [ht]
      · simp [ht, Ne.symm ht]
    have hsingle : (index.map fun t => if t = k b then f b else 0).sum = f b := by
      rw [List.sum_map_eq_nsmul_single (k b) _ fun t ht _ => if_neg ht, if_pos rfl,
        List.count_eq_one_of_mem hindex (hcover b List.mem_cons_self), one_nsmul]
    simp only [hgroup]
    rw [List.sum_map_add, hsingle, ih fun c hc => hcover c (List.mem_cons_of_mem b hc),
      List.map_cons, List.sum_cons]

/-- Pairs do not repeat when the first components of each group do not. -/
theorem nodup_of_groups {κ : Type*} (f : β → κ) (k : β → ι) {l : List β}
    (h : ∀ t, ((l.filter fun b => k b = t).map f).Nodup) :
    (l.map fun b => (f b, k b)).Nodup := by
  induction l with
  | nil => simp
  | cons b l ih =>
    have htail : ∀ t, ((l.filter fun b => k b = t).map f).Nodup := fun t =>
      (h t).sublist (((List.sublist_cons_self b l).filter _).map f)
    rw [List.map_cons, List.nodup_cons]
    refine ⟨fun hmem => ?_, ih htail⟩
    obtain ⟨c, hc, heq⟩ := List.mem_map.mp hmem
    have hkey : k c = k b := congrArg Prod.snd heq
    have hgroup := h (k b)
    rw [List.filter_cons_of_pos (by simp), List.map_cons, List.nodup_cons] at hgroup
    exact hgroup.1 (List.mem_map.mpr
      ⟨c, List.mem_filter.mpr ⟨hc, by simpa using hkey⟩, congrArg Prod.fst heq⟩)

end Groups

theorem nodup_of_length_labels {ι : Type*} [LinearOrder ι] {l : List ι}
    (h : l.length = (labels l).length) : l.Nodup := by
  rw [labels, List.length_insertionSort] at h
  rw [← List.dedup_eq_self]
  exact (List.dedup_sublist l).eq_of_length h.symm

/-! ### Frames -/

/-- Columns of cells, next to the labels of the rows. -/
structure Frame (ι γ α : Type*) where
  index : List ι
  columns : List (γ × List (Option α))
  aligned : ∀ column ∈ columns, column.2.length = index.length

structure Series (ι α : Type*) where
  index : List ι
  values : List (Option α)
  aligned : values.length = index.length

namespace Series

variable {ι α : Type*} [DecidableEq ι]

def get (s : Series ι α) (t : ι) : Option α := ((s.index.zip s.values).lookup t).join

def reindex (s : Series ι α) (index : List ι) : Series ι α :=
  ⟨index, index.map s.get, List.length_map ..⟩

def fillna (s : Series ι α) (value : α) : Series ι α :=
  ⟨s.index, s.values.map fun v => some (v.getD value), by rw [List.length_map, s.aligned]⟩

/-- A series that is made label by label. -/
theorem get_map (index : List ι) (f : ι → Option α) (h : (index.map f).length = index.length)
    (t : ι) : (⟨index, index.map f, h⟩ : Series ι α).get t = if t ∈ index then f t else none := by
  rw [get, zip_map_self]
  by_cases ht : t ∈ index
  · rw [lookup_map f ht, if_pos ht]
    rfl
  · rw [lookup_map_of_notMem f ht, if_neg ht]
    rfl

theorem get_fillna_reindex (s : Series ι α) {index : List ι} {t : ι} (ht : t ∈ index) (value : α) :
    ((s.reindex index).fillna value).get t = some ((s.get t).getD value) := by
  have hvalues : (index.map s.get).map (fun v => some (v.getD value)) =
      index.map fun t => some ((s.get t).getD value) := List.map_map
  simp only [fillna, reindex, hvalues]
  rw [get_map, if_pos ht]

end Series

namespace Frame

variable {ι γ α : Type*}

section Pivot

variable [LinearOrder ι] [LinearOrder γ]

/-- The value of the first row with these labels. -/
def valueAt (rows : List (ι × γ × α)) (t : ι) (c : γ) : Option α :=
  (rows.find? fun row => row.1 = t ∧ row.2.1 = c).map fun row => row.2.2

/-- `pivot`, `none` when a pair of labels comes twice. -/
def pivot (rows : List (ι × γ × α)) : Option (Frame ι γ α) :=
  if (rows.map fun row => (row.1, row.2.1)).Nodup then
    let index := labels (rows.map Prod.fst)
    some
      { index := index
        columns := (labels (rows.map fun row => row.2.1)).map fun c =>
          (c, index.map fun t => valueAt rows t c)
        aligned := by simp }
  else none

end Pivot

/-- `groupby(...).sum()`. -/
def groupbySum [LinearOrder ι] [AddCommMonoid α] (rows : List (ι × α)) : Series ι α :=
  let index := labels (rows.map Prod.fst)
  ⟨index, index.map fun t => some ((rows.filter fun row => row.1 = t).map Prod.snd).sum,
    List.length_map ..⟩

variable [DecidableEq γ]

def hasColumn (f : Frame ι γ α) (c : γ) : Bool := (f.columns.map Prod.fst).contains c

/-- The cells of a column, all missing if there is none. -/
def cells (f : Frame ι γ α) (c : γ) : List (Option α) :=
  (f.columns.lookup c).getD (f.index.map fun _ => none)

theorem length_cells (f : Frame ι γ α) (c : γ) : (f.cells c).length = f.index.length := by
  rw [cells]
  cases h : f.columns.lookup c with
  | none => simp
  | some values =>
    obtain ⟨l₁, l₂, heq, -⟩ := List.lookup_eq_some_iff.mp h
    exact f.aligned (c, values) (by rw [heq]; simp)

/-- A column that no other one is named like. -/
theorem cells_of_mem {f : Frame ι γ α} (h : (f.columns.map Prod.fst).Nodup)
    {column : γ × List (Option α)} (hcolumn : column ∈ f.columns) :
    f.cells column.1 = column.2 := by
  have hlookup : f.columns.lookup column.1 = some column.2 := by
    generalize f.columns = columns at h hcolumn
    induction columns with
    | nil => cases hcolumn
    | cons first columns ih =>
      rw [List.map_cons, List.nodup_cons] at h
      rcases List.mem_cons.mp hcolumn with heq | hmem
      · rw [heq, List.lookup_cons_self]
      · have hne : column.1 ≠ first.1 := fun heq => h.1 (heq ▸ List.mem_map_of_mem hmem)
        rw [List.lookup_cons, beq_false_of_ne hne]
        exact ih h.2 hmem
  rw [cells, hlookup]
  rfl

def reindexColumns (f : Frame ι γ α) (columns : List γ) : Frame ι γ α where
  index := f.index
  columns := columns.map fun c => (c, f.cells c)
  aligned := by
    intro column hcolumn
    obtain ⟨c, -, rfl⟩ := List.mem_map.mp hcolumn
    exact f.length_cells c

def fillna (f : Frame ι γ α) (value : α) : Frame ι γ α where
  index := f.index
  columns := f.columns.map fun column => (column.1, column.2.map fun v => some (v.getD value))
  aligned := by
    intro column hcolumn
    obtain ⟨column', hcolumn', rfl⟩ := List.mem_map.mp hcolumn
    rw [List.length_map, f.aligned column' hcolumn']

/-- `frame[c] = series`, by the labels of the rows. -/
def setColumn [DecidableEq ι] (f : Frame ι γ α) (c : γ) (s : Series ι α) : Frame ι γ α where
  index := f.index
  columns :=
    if f.hasColumn c then
      f.columns.map fun column => if column.1 = c then (c, f.index.map s.get) else column
    else f.columns ++ [(c, f.index.map s.get)]
  aligned := by
    intro column hcolumn
    split at hcolumn
    · obtain ⟨column', hcolumn', rfl⟩ := List.mem_map.mp hcolumn
      split
      · simp
      · exact f.aligned column' hcolumn'
    · rcases List.mem_append.mp hcolumn with hcolumn | hcolumn
      · exact f.aligned column hcolumn
      · rw [List.mem_singleton.mp hcolumn, List.length_map]

/-- The rows sorted by their labels. -/
def sortIndex [LinearOrder ι] (f : Frame ι γ α) : Frame ι γ α where
  index := f.index.insertionSort (· ≤ ·)
  columns := f.columns.map fun column =>
    (column.1, ((f.index.zip column.2).insertionSort fun a b => a.1 ≤ b.1).map Prod.snd)
  aligned := by
    intro column hcolumn
    obtain ⟨column', hcolumn', rfl⟩ := List.mem_map.mp hcolumn
    rw [List.length_map, List.length_insertionSort, List.length_insertionSort, List.length_zip,
      f.aligned column' hcolumn', Nat.min_self]

/-- `reset_index(drop=True)`. -/
def resetIndex (f : Frame ι γ α) : Frame ℕ γ α where
  index := List.range f.index.length
  columns := f.columns
  aligned := by
    intro column hcolumn
    rw [List.length_range, f.aligned column hcolumn]

omit [DecidableEq γ] in
theorem ext_columns {f g : Frame ι γ α} (hindex : f.index = g.index)
    (hcolumns : f.columns = g.columns) : f = g := by
  cases f
  cases g
  cases hindex
  cases hcolumns
  rfl

omit [DecidableEq γ] in
/-- Rows that are sorted stay as they are. -/
theorem sortIndex_eq [LinearOrder ι] {f : Frame ι γ α} (h : f.index.Pairwise fun a b => a ≤ b) :
    f.sortIndex = f := by
  refine ext_columns h.insertionSort_eq ?_
  refine (List.map_congr_left fun column hcolumn => ?_).trans (List.map_id _)
  have hlength := f.aligned column hcolumn
  have hsorted : (f.index.zip column.2).Pairwise fun a b => a.1 ≤ b.1 := by
    rw [← List.pairwise_map (f := Prod.fst) (R := fun a b => a ≤ b),
      List.map_fst_zip (Nat.le_of_eq hlength.symm)]
    exact h
  rw [hsorted.insertionSort_eq, List.map_snd_zip (Nat.le_of_eq hlength)]
  rfl

end Frame

end AllocationKeys
