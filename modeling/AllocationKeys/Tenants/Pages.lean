import AllocationKeys.Lib.Paging
import AllocationKeys.Tenants.Reachable
import Mathlib.Tactic.Linarith
import Mathlib.Tactic.NormNum

/-!
# The pages of a list

`GET /` and `GET /{id}` answer with one page of the matching rows. Every page is a query of its own,
and PostgreSQL may bring rows that tie on the `ORDER BY` columns in any order, another one for every
query: here, each page is read from tables whose rows lie in an order of their own.

The pages make up the matching rows exactly when no two rows that tie meet at the end of a page
(`lists_partition_iff`). A list sorted by its id always does (`noTie_of_id`); one sorted only by
name or status does not.
-/

namespace AllocationKeys.Tenants

open Algorithms Generation Paging Program

variable {S : Services} {K : Type}

/-! ### Orders -/

theorem transCmp_swap {α : Type} {cmp : α → α → Ordering} [Std.TransCmp cmp] :
    Std.TransCmp fun a b => (cmp a b).swap := by
  have hswap : (fun a b => (cmp a b).swap) = fun a b => cmp b a := by
    funext a b
    exact Std.OrientedCmp.eq_swap.symm
  rw [hswap]
  infer_instance

theorem transCmp_on {α β : Type} (cmp : β → β → Ordering) [Std.TransCmp cmp] (f : α → β) :
    Std.TransCmp fun a b => cmp (f a) (f b) where
  eq_swap := Std.OrientedCmp.eq_swap
  isLE_trans := Std.TransCmp.isLE_trans

/-- Orders by several columns are orders. -/
theorem transCmp_compareBy {C α : Type} {compare : C → α → α → Ordering}
    (h : ∀ column, Std.TransCmp (compare column)) (order : List (OrderBy C)) :
    Std.TransCmp (compareBy compare order) := by
  induction order with
  | nil =>
    refine { eq_swap := rfl, isLE_trans := fun _ _ => rfl }
  | cons clause order ih =>
    have hclause : Std.TransCmp fun a b =>
        if clause.descending then (compare clause.column a b).swap
        else compare clause.column a b := by
      cases clause.descending with
      | true => exact transCmp_swap
      | false => exact h clause.column
    exact inferInstanceAs (Std.TransCmp (compareLex _ (compareBy compare order)))

/-- Rows that the order does not put after one another. -/
def leBy {C α : Type} (compare : C → α → α → Ordering) (order : List (OrderBy C)) (a b : α) :
    Bool :=
  compareBy compare order a b != .gt

section LeBy

variable {C α : Type} {compare : C → α → α → Ordering} (h : ∀ column, Std.TransCmp (compare column))
  (order : List (OrderBy C))

include h

/-- Of two rows one may come first. -/
theorem leBy_total (a b : α) : (leBy compare order a b || leBy compare order b a) = true := by
  have := transCmp_compareBy h order
  have hswap : compareBy compare order b a = (compareBy compare order a b).swap :=
    Std.OrientedCmp.eq_swap
  rw [leBy, leBy, hswap]
  cases compareBy compare order a b <;> rfl

/-- The order of the clauses is transitive. -/
theorem leBy_trans {a b c : α} (hab : leBy compare order a b = true)
    (hbc : leBy compare order b c = true) : leBy compare order a c = true := by
  have := transCmp_compareBy h order
  simp only [leBy, bne_iff_ne, Ordering.ne_gt_iff_isLE] at *
  exact Std.TransCmp.isLE_trans hab hbc

end LeBy

/-- Rows that tie, tie in every clause. -/
theorem compareBy_eq {C α : Type} {compare : C → α → α → Ordering} {order : List (OrderBy C)}
    {a b : α} (h : compareBy compare order a b = .eq) :
    ∀ clause ∈ order, compare clause.column a b = .eq := by
  induction order with
  | nil => simp
  | cons clause order ih =>
    change (if clause.descending then (compare clause.column a b).swap
      else compare clause.column a b).then (compareBy compare order a b) = .eq at h
    rw [Ordering.then_eq_eq] at h
    rw [List.forall_mem_cons]
    refine ⟨?_, ih h.2⟩
    rcases hdir : clause.descending with _ | _
    · simpa [hdir] using h.1
    · simpa [hdir] using h.1

/-- A list that is sorted, last at the latest, by what tells its rows apart has no ties. -/
theorem noTie_of_id {C α ι : Type} {compare : C → α → α → Ordering} {order : List (OrderBy C)}
    (id : C) (key : α → ι) (h : ∀ column, Std.TransCmp (compare column))
    (hid : ∀ a b, compare id a b = .eq → key a = key b)
    (hmem : ∃ clause ∈ order, clause.column = id)
    {n : ℕ} (hn : 0 < n) {rows l : List α} (hl : Admissible (leBy compare order) rows l)
    (hrows : (rows.map key).Nodup) : NoTieAtBoundary (leBy compare order) n l := by
  have hnodup : (l.map key).Nodup := (hl.perm.map key).nodup_iff.mpr hrows
  have := transCmp_compareBy h order
  intro k a b hk ha hb
  by_contra htie
  rw [Bool.not_eq_false] at htie
  obtain ⟨hm, rfl⟩ := List.getElem?_eq_some_iff.mp hb
  obtain ⟨hm', rfl⟩ := List.getElem?_eq_some_iff.mp ha
  have hpos : 0 < k * n := Nat.mul_pos hk hn
  have hsorted := List.pairwise_iff_getElem.mp hl.sorted (k * n - 1) (k * n) hm' hm
    (by omega)
  have heq : compareBy compare order l[k * n - 1] l[k * n] = .eq := by
    simp only [leBy, bne_iff_ne, Ordering.ne_gt_iff_isLE] at hsorted htie
    exact Std.OrientedCmp.isLE_antisymm hsorted htie
  obtain ⟨clause, hclause, rfl⟩ := hmem
  have hkey := hid _ _ (compareBy_eq heq clause hclause)
  have hsame : (k * n - 1) = k * n := by
    refine (@List.Nodup.getElem_inj_iff _ _ hnodup _ (by simpa) _ (by simpa)).mp ?_
    rw [List.getElem_map, List.getElem_map, hkey]
  omega

/-! ### One page -/

variable {text : TextRules} {scope : Option ℤ} {db : Databases S K}

/-- What an answered call has done. -/
theorem orFail_ok {α σ : Type} {choice : Choice S K} {s s' : σ} {x : Except Exc α} {a : α} :
    orFail choice s (some (x, s)) = some (.ok a, s') ↔ choice = .ok ∧ x = .ok a ∧ s = s' := by
  constructor
  · intro h
    cases choice <;> cases h
    exact ⟨rfl, rfl, rfl⟩
  · rintro ⟨rfl, rfl, rfl⟩
    rfl

theorem orFail_of_ok {α σ : Type} {s : σ} {x : Except Exc α} {a : α} (h : x = .ok a) :
    orFail (.ok : Choice S K) s (some (x, s)) = some (.ok a, s) := by
  rw [h]
  rfl

/-- What is shown of the pages. -/
theorem pagination_eq {page pageSize : ℤ} (hsize : 1 ≤ pageSize) (total : ℕ) :
    pagination page pageSize total =
      .ok ⟨page, pageSize, total, numPages pageSize.toNat total⟩ := by
  obtain ⟨n, rfl⟩ := Int.eq_ofNat_of_zero_le (show 0 ≤ pageSize by omega)
  have hn : 0 < n := by omega
  have hpages : -(Int.fdiv (-total) n) = (numPages n total : ℤ) := by
    have hlast := (lt_numPages_iff hn (numPages n total) total).not.mp (Nat.lt_irrefl _)
    rw [Int.fdiv_eq_ediv_of_nonneg _ (Int.natCast_nonneg n)]
    have hupper : (-(total : ℤ)) / n < -(numPages n total : ℤ) + 1 := by
      rw [Int.ediv_lt_iff_lt_mul (by omega)]
      rcases Nat.eq_zero_or_pos (numPages n total) with hzero | hpos
      · rw [hzero] at hlast ⊢
        simp only [Nat.zero_mul] at hlast
        push_cast
        omega
      · have hbefore := (lt_numPages_iff hn (numPages n total - 1) total).mp (by omega)
        have hcast : ((numPages n total - 1 : ℕ) : ℤ) * n < total := by exact_mod_cast hbefore
        rw [Nat.cast_sub hpos] at hcast
        push_cast at hcast
        linarith
    have hlower : -(numPages n total : ℤ) ≤ (-(total : ℤ)) / n := by
      rw [Int.le_ediv_iff_mul_le (by omega)]
      have hcast : (total : ℤ) ≤ (numPages n total : ℤ) * n := by exact_mod_cast not_lt.mp hlast
      linarith
    omega
  rw [pagination, if_neg (by omega), hpages]
  rfl

/-- A page by its number. -/
theorem page_eq {α : Type} {page pageSize : ℤ} (hpage : 1 ≤ page) (hsize : 1 ≤ pageSize)
    (rows : List α) : Tenants.page ((page - 1) * pageSize) pageSize rows =
      .ok (pageOf pageSize.toNat (page - 1).toNat rows) := by
  have hoffset : 0 ≤ (page - 1) * pageSize := Int.mul_nonneg (by omega) (by omega)
  rw [Tenants.page, if_neg (by omega), if_neg (by omega), pageOf,
    Int.toNat_mul (by omega) (by omega)]

/-- The status to filter by, or that the parameter is no number. -/
def statusFilter (text : TextRules) (query : QueryParam) : Except Exc (Option ℤ) :=
  match query.get "status" with
  | none => .ok none
  | some status =>
      match text.int status with
      | some status => .ok (some status)
      | none => .error (.other "invalid literal for int()")

def generationOrder (query : QueryParam) : List (OrderBy GenerationColumn) :=
  sortClauses query [("id", .id), ("name", .name), ("status", .status)] .id

def keyOrder (query : QueryParam) : List (OrderBy KeyColumn) :=
  sortClauses query [("id", .id), ("name", .name), ("surplus", .surplus)] .id

/-- The generations that the pages of a list are cut from. -/
def generationRows (text : TextRules) (scope : Option ℤ) (query : QueryParam) (status : Option ℤ)
    (db : Databases S K) : List (ℤ × GenerationModel S) :=
  db.listGenerations text scope ⟨(query.get "name").map pattern, status⟩ (generationOrder query)

/-- What the list of generations returns. -/
theorem performs_getListGenerations {query : QueryParam} {page pageSize : ℤ} (hpage : 1 ≤ page)
    (hsize : 1 ≤ pageSize) {rows : List (ℤ × GenerationModel S)} {total : ℕ} :
    (∃ events db', (getListGenerations text scope page pageSize query).Performs (exec text) db
        events (.ok (rows, total)) db') ↔
      ∃ status, statusFilter text query = .ok status ∧
        rows = pageOf pageSize.toNat (page - 1).toNat (generationRows text scope query status db) ∧
        total = (generationRows text scope query status db).length := by
  constructor
  · rintro ⟨events, db', hrun⟩
    obtain ⟨_, status, _, _, -, hfilter, hqueries⟩ := performs_bind_ok.mp hrun
    obtain ⟨hstatus, -, rfl⟩ := performs_ofExcept_ok.mp hfilter
    obtain ⟨_, total', _, _, -, hcount, hselect⟩ := performs_bind_ok.mp hqueries
    obtain ⟨_, _, hcounted, rfl, -⟩ := performs_callExcept_ok.mp hcount
    obtain ⟨-, htotal, rfl⟩ := orFail_ok.mp hcounted
    obtain ⟨_, rows', _, _, -, hpage', hreturn⟩ := performs_bind_ok.mp hselect
    obtain ⟨_, _, hpaged, rfl, -⟩ := performs_callExcept_ok.mp hpage'
    obtain ⟨-, hrows, rfl⟩ := orFail_ok.mp hpaged
    obtain ⟨-, heq, -⟩ := hreturn
    cases heq
    rw [page_eq hpage hsize] at hrows
    exact ⟨status, hstatus, (Except.ok.inj hrows).symm, (Except.ok.inj htotal).symm⟩
  · rintro ⟨status, hstatus, rfl, rfl⟩
    have hpaged := page_eq hpage hsize (generationRows text scope query status db)
    refine ⟨_, db, performs_bind_ok.mpr ⟨_, status, db, _, rfl, performs_ofExcept_ok.mpr
      ⟨hstatus, rfl, rfl⟩, performs_bind_ok.mpr ⟨_, _, db, _, rfl, performs_callExcept_ok.mpr
        ⟨.ok, _, orFail_of_ok (S := S) (K := K) rfl, rfl, rfl⟩, performs_bind_ok.mpr
          ⟨_, _, db, _, rfl, performs_callExcept_ok.mpr ⟨.ok, .ok _, ?_, rfl, rfl⟩,
            rfl, rfl, rfl⟩⟩⟩⟩
    exact orFail_of_ok (S := S) (K := K) hpaged

/-- What a list of keys is cut from. -/
def keyRows (text : TextRules) (scope : Option ℤ) (id : ℤ) (query : QueryParam)
    (db : Databases S K) : Except Exc (List (Row ℤ ℤ (KeyColumns K))) :=
  db.listKeys text scope id ((query.get "name").map pattern) (keyOrder query)

/-- What the list of keys returns. -/
theorem performs_getAllocationKeysList {id : ℤ} {query : QueryParam} {page pageSize : ℤ}
    (hpage : 1 ≤ page) (hsize : 1 ≤ pageSize)
    {rows : List (Row ℤ ℤ (KeyColumns K) × List (Row ℕ ℤ (IterationColumns K)))} {total : ℕ} :
    (∃ events db', (getAllocationKeysList scope id page pageSize query).Performs (exec text) db
        events (.ok (rows, total)) db') ↔
      ∃ list, keyRows text scope id query db = .ok list ∧
        rows = (pageOf pageSize.toNat (page - 1).toNat list).map
          (fun row => (row, db.keys.nodesOf row.id)) ∧ total = list.length := by
  constructor
  · rintro ⟨events, db', hrun⟩
    obtain ⟨_, total', _, _, -, hcount, hselect⟩ := performs_bind_ok.mp hrun
    obtain ⟨_, _, hcounted, rfl, -⟩ := performs_callExcept_ok.mp hcount
    obtain ⟨-, htotal, rfl⟩ := orFail_ok.mp hcounted
    obtain ⟨_, rows', _, _, -, hpage', hreturn⟩ := performs_bind_ok.mp hselect
    obtain ⟨_, _, hpaged, rfl, -⟩ := performs_callExcept_ok.mp hpage'
    obtain ⟨-, hrows, rfl⟩ := orFail_ok.mp hpaged
    obtain ⟨-, heq, -⟩ := hreturn
    cases heq
    change List.length <$> keyRows text scope id query db = _ at htotal
    change (keyRows text scope id query db >>= fun list => _) = _ at hrows
    cases hlist : keyRows text scope id query db with
    | error e => rw [hlist] at hrows; cases hrows
    | ok list =>
      rw [hlist] at htotal hrows
      change (Tenants.page ((page - 1) * pageSize) pageSize list >>= fun rows => _) = _ at hrows
      rw [page_eq hpage hsize] at hrows
      exact ⟨list, rfl, (Except.ok.inj hrows).symm, (Except.ok.inj htotal).symm⟩
  · rintro ⟨list, hlist, rfl, rfl⟩
    have hpaged := page_eq hpage hsize list
    refine ⟨_, db, performs_bind_ok.mpr ⟨_, _, db, _, rfl, performs_callExcept_ok.mpr
      ⟨.ok, .ok list.length, ?_, rfl, rfl⟩, performs_bind_ok.mpr ⟨_, _, db, _, rfl,
        performs_callExcept_ok.mpr ⟨.ok, .ok _, ?_, rfl, rfl⟩, rfl, rfl, rfl⟩⟩⟩
    · refine orFail_of_ok (S := S) (K := K) ?_
      change List.length <$> keyRows text scope id query db = _
      rw [hlist]
      rfl
    · refine orFail_of_ok (S := S) (K := K) ?_
      change (keyRows text scope id query db >>= fun list => _) = _
      rw [hlist]
      change (Tenants.page ((page - 1) * pageSize) pageSize list >>= fun rows => _) = _
      rw [hpaged]
      rfl

/-! ### All pages -/

/-- The pages that the requests answer, each read from tables of its own, make up the rows: pages
`1` to `totalPages` have each of them once, and no later page has any. -/
def PagesPartition {β : Type} (same : Databases S K → Prop)
    (answers : Databases S K → ℤ → List β → Pagination → Prop) (rows : List β) : Prop :=
  ∀ (dbs : ℤ → Databases S K) (data : ℤ → List β) (shown : ℤ → Pagination),
    (∀ page, same (dbs page)) →
    (∀ page, 1 ≤ page → answers (dbs page) page (data page) (shown page)) →
    ∃ totalPages : ℕ, (∀ page, 1 ≤ page → (shown page).totalPages = totalPages) ∧
      ((List.range totalPages).flatMap fun k : ℕ => data ((k : ℤ) + 1)).Perm rows ∧
      ∀ page : ℤ, totalPages < page → data page = []

/-- Pages that are cut from the rows, in an order that may differ from page to page. -/
theorem pagesPartition_iff {α β : Type} {same : Databases S K → Prop}
    {answers : Databases S K → ℤ → List β → Pagination → Prop} {le : α → α → Bool} {f : α → β}
    (list : Databases S K → List α) {rows l : List α} {pageSize : ℤ} (hsize : 1 ≤ pageSize)
    (hanswers : ∀ db, same db → ∀ page, 1 ≤ page → ∀ data shown, answers db page data shown ↔
      data = (pageOf pageSize.toNat (page - 1).toNat (list db)).map f ∧
      shown = ⟨page, pageSize, (list db).length, numPages pageSize.toNat (list db).length⟩)
    (hlist : ∀ db, same db → Admissible le rows (list db))
    (horder : ∀ l, Admissible le rows l → ∃ db, same db ∧ list db = l)
    (hle : ∀ a b, (le a b || le b a) = true)
    (htrans : ∀ a b c, le a b = true → le b c = true → le a c = true)
    (hnodup : (rows.map f).Nodup) (hl : Admissible le rows l) :
    PagesPartition same answers (rows.map f) ↔ NoTieAtBoundary le pageSize.toNat l := by
  have hn : 0 < pageSize.toNat := by omega
  rw [← pages_map_partition_iff hle htrans hn hnodup hl]
  constructor
  · -- every page may be read of tables in an order of its own
    intro hpages orders horders
    choose tables hsame htables using fun k => horder (orders k) (horders k)
    have hanswer : ∀ page : ℤ, 1 ≤ page → answers (tables (page - 1).toNat) page
        ((pageOf pageSize.toNat (page - 1).toNat (orders (page - 1).toNat)).map f)
        ⟨page, pageSize, rows.length, numPages pageSize.toNat rows.length⟩ := by
      intro page hpage
      rw [hanswers _ (hsame _) page hpage, htables, (horders _).perm.length_eq]
      exact ⟨rfl, rfl⟩
    obtain ⟨totalPages, htotal, hperm, -⟩ :=
      hpages (fun page => tables (page - 1).toNat) _ _ (fun page => hsame _) hanswer
    have hcount : totalPages = numPages pageSize.toNat rows.length := by
      exact Int.ofNat_inj.mp (htotal 1 (le_refl 1)).symm
    rw [hcount] at hperm
    simpa only [add_sub_cancel_right, Int.toNat_natCast] using hperm
  · -- the tables read for each page give an order for each page
    intro hperm dbs data shown hsame hanswer
    have hpage := fun (page : ℤ) (h : 1 ≤ page) =>
      (hanswers _ (hsame page) page h _ _).mp (hanswer page h)
    have hlength : ∀ page : ℤ, (list (dbs page)).length = rows.length := fun page =>
      (hlist _ (hsame page)).perm.length_eq
    refine ⟨numPages pageSize.toNat rows.length, fun page h => ?_, ?_, fun page h => ?_⟩
    · rw [(hpage page h).2, hlength]
    · have hall := hperm (fun k => list (dbs (k + 1))) fun k => hlist _ (hsame _)
      have hdata : ∀ k : ℕ, data ((k : ℤ) + 1) =
          (pageOf pageSize.toNat k (list (dbs (k + 1)))).map f := by
        intro k
        have hk := (hpage ((k : ℤ) + 1) (by omega)).1
        rw [add_sub_cancel_right, Int.toNat_natCast] at hk
        exact hk
      simpa only [hdata] using hall
    · rw [(hpage page (by omega)).1, pageOf_eq_nil hn (by rw [hlength]; omega), List.map_nil]

/-- Sorting a table whose rows are moved leaves an admissible order of the rows that are kept. -/
theorem admissible_orderBy {C α : Type} {compare : C → α → α → Ordering}
    (h : ∀ column, Std.TransCmp (compare column)) (order : List (OrderBy C)) {keep : α → Bool}
    {table table' : List α} (hperm : table'.Perm table) :
    Admissible (leBy compare order) (table.filter keep)
      (orderBy compare order (table'.filter keep)) where
  perm := (List.mergeSort_perm _ _).trans (hperm.filter keep)
  sorted := @List.pairwise_mergeSort _ (leBy compare order) (fun _ _ _ => leBy_trans h order)
    (leBy_total h order) _

/-- Every admissible order of the rows that are kept comes from a way the rows lie in the table. -/
theorem exists_table {C α : Type} {compare : C → α → α → Ordering} {order : List (OrderBy C)}
    {keep : α → Bool} {table l : List α}
    (hl : Admissible (leBy compare order) (table.filter keep) l) :
    ∃ table' : List α, table'.Perm table ∧ orderBy compare order (table'.filter keep) = l := by
  refine ⟨l ++ table.filter fun row => !keep row, ?_, ?_⟩
  · exact (hl.perm.append_right _).trans (List.filter_append_perm keep table)
  · have hkeep : l.filter keep = l := by
      rw [List.filter_eq_self]
      intro row hrow
      exact (List.mem_filter.mp (hl.perm.mem_iff.mp hrow)).2
    have hnone : (table.filter fun row => !keep row).filter keep = [] := by
      rw [List.filter_filter, List.filter_eq_nil_iff]
      simp
    rw [List.filter_append, hkeep, hnone, List.append_nil]
    exact List.mergeSort_of_pairwise hl.sorted

/-! ### The matching rows -/

/-- The generations that a request matches. -/
def matchingGenerations (text : TextRules) (scope : Option ℤ) (query : QueryParam)
    (status : Option ℤ) (db : Databases S K) : List (ℤ × GenerationModel S) :=
  (db.scopedGenerations scope).filter fun entry =>
    (⟨(query.get "name").map pattern, status⟩ : GenerationFilter).holds text entry.2

/-- The keys that a request matches. -/
def matchingKeys (text : TextRules) (scope : Option ℤ) (id : ℤ) (query : QueryParam)
    (db : Databases S K) : List (Row ℤ ℤ (KeyColumns K)) :=
  (db.scopedKeys scope).filter fun row =>
    row.parent == id && ((query.get "name").map pattern).all (text.ilike row.columns.name)

theorem transCmp_compareGenerations [Std.TransCmp text.compare] (column : GenerationColumn) :
    Std.TransCmp (compareGenerations (S := S) text column) := by
  cases column with
  | id =>
    exact transCmp_on (compare : ℤ → ℤ → Ordering) fun entry : ℤ × GenerationModel S => entry.1
  | name => exact transCmp_on text.compare fun entry : ℤ × GenerationModel S => entry.2.name
  | status =>
    exact transCmp_on (compare : ℤ → ℤ → Ordering)
      fun entry : ℤ × GenerationModel S => statusCode entry.2.status

theorem transCmp_compareKeys [Std.TransCmp text.compare] (column : KeyColumn) :
    Std.TransCmp (compareKeys (K := K) text column) := by
  cases column with
  | id => exact transCmp_on (compare : ℕ → ℕ → Ordering) fun row : Row ℤ ℤ (KeyColumns K) => row.id
  | name => exact transCmp_on text.compare fun row : Row ℤ ℤ (KeyColumns K) => row.columns.name
  | surplus => exact { eq_swap := rfl, isLE_trans := fun _ _ => rfl }

/-- Rows that tie by id have the same id. -/
theorem eq_of_compareGenerations_id {a b : ℤ × GenerationModel S}
    (h : compareGenerations text .id a b = .eq) : a.1 = b.1 :=
  compare_eq_iff_eq.mp h

/-- Keys that tie by id have the same id. -/
theorem eq_of_compareKeys_id {a b : Row ℤ ℤ (KeyColumns K)}
    (h : compareKeys text .id a b = .eq) : a.id = b.id :=
  compare_eq_iff_eq.mp h

/-- Without a clause on the surplus nothing is raised. -/
theorem keyRows_eq {id : ℤ} {query : QueryParam}
    (hsurplus : ∀ clause ∈ keyOrder query, clause.column ≠ .surplus) :
    keyRows text scope id query db = .ok
      (orderBy (compareKeys text) (keyOrder query) (matchingKeys text scope id query db)) := by
  have hnone : ¬ ((keyOrder query).any fun clause => clause.column == .surplus) = true := by
    simpa using hsurplus
  rw [keyRows, Databases.listKeys, if_neg hnone]
  rfl

/-! ### Whole requests -/

variable {registry : String → Option (AlgorithmMetadata S)}

variable [Zero K] [Add K]

/-- The default error and the end of the sessions change nothing of what a request answers. -/
theorem performs_serve {request : Request S} {response : Response K} :
    (∃ events db', (request.serve text registry scope).Performs (exec text) db events
        (.ok response) db') ↔
      ∃ events db', (request.handle text registry scope).Performs (exec text) db events
        (.ok response) db' := by
  have hdefault : ∀ {db db' : Databases S K} {events : List (RequestOp S K × Choice S K)},
      (withDefaultError request.defaultError (request.handle text registry scope)).Performs
        (exec text) db events (.ok response) db' ↔
      (request.handle text registry scope).Performs (exec text) db events (.ok response) db' :=
    performs_tryCatch_ok fun e => by cases e <;> exact ⟨_, rfl⟩
  constructor
  · rintro ⟨events, db', hrun⟩
    obtain ⟨events₁, out, db₁, _, -, hbody, hends⟩ := performs_bind_ok.mp hrun
    obtain ⟨_, _, db₂, _, -, -, hends⟩ := performs_bind_ok.mp hends
    obtain ⟨_, _, db₃, _, -, -, hends⟩ := performs_bind_ok.mp hends
    obtain ⟨rfl, -, -⟩ := performs_ofExcept_ok.mp hends
    exact ⟨events₁, db₁, hdefault.mp (performs_attempt.mp hbody)⟩
  · rintro ⟨events, db', hrun⟩
    have hbody := performs_attempt.mpr (hdefault.mpr hrun)
    exact ⟨_, _, performs_bind_ok.mpr ⟨events, .ok response, db', _, rfl, hbody, .ok, _, _, _, rfl,
      rfl, .ok, _, _, _, rfl, rfl, rfl, rfl, rfl⟩⟩

/-- What a request for a page of generations answers. -/
def AnswersGenerations (text : TextRules) (registry : String → Option (AlgorithmMetadata S))
    (scope : Option ℤ) (pageSize : ℤ) (query : QueryParam) (db : Databases S K) (page : ℤ)
    (data : List GenerationSchema) (pagination : Pagination) : Prop :=
  ∃ events db', ((Request.getGenerations page pageSize query).serve text registry scope).Performs
    (exec text) db events (.ok (.generations data pagination)) db'

/-- What a request for a page of the keys of a generation answers. -/
def AnswersKeys (text : TextRules) (registry : String → Option (AlgorithmMetadata S))
    (scope : Option ℤ) (id pageSize : ℤ) (query : QueryParam) (db : Databases S K) (page : ℤ)
    (data : List (PartialAllocationKeyGenerated K)) (pagination : Pagination) : Prop :=
  ∃ events db', ((Request.getAllocationKeys id page pageSize query).serve text registry
    scope).Performs (exec text) db events (.ok (.keys data pagination)) db'

/-- What is answered for a page of generations. -/
theorem answersGenerations_iff {query : QueryParam} {page pageSize : ℤ} (hpage : 1 ≤ page)
    (hsize : 1 ≤ pageSize) {data : List GenerationSchema} {shown : Pagination} :
    AnswersGenerations text registry scope pageSize query db page data shown ↔
      ∃ status, statusFilter text query = .ok status ∧
        data = (pageOf pageSize.toNat (page - 1).toNat
          (generationRows text scope query status db)).map toGenerationSchema ∧
        shown = ⟨page, pageSize, (generationRows text scope query status db).length,
          numPages pageSize.toNat (generationRows text scope query status db).length⟩ := by
  rw [AnswersGenerations, performs_serve]
  constructor
  · rintro ⟨events, db', hrun⟩
    obtain ⟨_, ⟨rows, total⟩, db₁, _, -, hlist, hanswer⟩ := performs_bind_ok.mp hrun
    obtain ⟨_, shown', _, _, -, hshown, heq⟩ := performs_bind_ok.mp hanswer
    obtain ⟨hshown, -, -⟩ := performs_ofExcept_ok.mp hshown
    obtain ⟨-, heq, -⟩ := heq
    cases heq
    rw [pagination_eq hsize] at hshown
    obtain ⟨status, hstatus, rfl, rfl⟩ :=
      (performs_getListGenerations hpage hsize).mp ⟨_, _, hlist⟩
    exact ⟨status, hstatus, rfl, (Except.ok.inj hshown).symm⟩
  · rintro ⟨status, hstatus, rfl, rfl⟩
    obtain ⟨events, db', hlist⟩ : ∃ events db', (getListGenerations text scope page pageSize
        query).Performs (exec text) db events (.ok (_, _)) db' :=
      (performs_getListGenerations hpage hsize).mpr ⟨status, hstatus, rfl, rfl⟩
    exact ⟨_, db', performs_bind_ok.mpr ⟨events, _, db', _, rfl, hlist, performs_bind_ok.mpr
      ⟨_, _, db', _, rfl, performs_ofExcept_ok.mpr ⟨pagination_eq hsize _, rfl, rfl⟩,
        rfl, rfl, rfl⟩⟩⟩

/-- What is shown of a key. -/
def showKey (db : Databases S K) (row : Row ℤ ℤ (KeyColumns K)) : PartialAllocationKeyGenerated K :=
  toPartialAllocationKeyGeneratedSchema (row, db.keys.nodesOf row.id)

/-- What is answered for a page of keys. -/
theorem answersKeys_iff {id : ℤ} {query : QueryParam} {page pageSize : ℤ} (hpage : 1 ≤ page)
    (hsize : 1 ≤ pageSize) {data : List (PartialAllocationKeyGenerated K)} {shown : Pagination} :
    AnswersKeys text registry scope id pageSize query db page data shown ↔
      ∃ rows, keyRows text scope id query db = .ok rows ∧
        data = (pageOf pageSize.toNat (page - 1).toNat rows).map (showKey db) ∧
        shown = ⟨page, pageSize, rows.length, numPages pageSize.toNat rows.length⟩ := by
  rw [AnswersKeys, performs_serve]
  constructor
  · rintro ⟨events, db', hrun⟩
    obtain ⟨_, ⟨rows, total⟩, db₁, _, -, hlist, hanswer⟩ := performs_bind_ok.mp hrun
    obtain ⟨_, shown', _, _, -, hshown, heq⟩ := performs_bind_ok.mp hanswer
    obtain ⟨hshown, -, -⟩ := performs_ofExcept_ok.mp hshown
    obtain ⟨-, heq, -⟩ := heq
    cases heq
    rw [pagination_eq hsize] at hshown
    obtain ⟨rows, hrows, rfl, rfl⟩ := (performs_getAllocationKeysList hpage hsize).mp ⟨_, _, hlist⟩
    exact ⟨rows, hrows, List.map_map, (Except.ok.inj hshown).symm⟩
  · rintro ⟨rows, hrows, rfl, rfl⟩
    obtain ⟨events, db', hlist⟩ : ∃ events db', (getAllocationKeysList scope id page pageSize
        query).Performs (exec text) db events (.ok (_, _)) db' :=
      (performs_getAllocationKeysList hpage hsize).mpr ⟨rows, hrows, rfl, rfl⟩
    refine ⟨_, db', performs_bind_ok.mpr ⟨events, _, db', _, rfl, hlist, performs_bind_ok.mpr
      ⟨_, _, db', _, rfl, performs_ofExcept_ok.mpr ⟨pagination_eq hsize _, rfl, rfl⟩, rfl, ?_,
        rfl⟩⟩⟩
    rw [List.map_map]
    rfl

/-! ### Both lists -/

/-- **The pages of the generations.** -/
theorem generations_partition_iff [Std.TransCmp text.compare]
    (hgenerations : (db.generations.map Prod.fst).Nodup) {query : QueryParam} {status : Option ℤ}
    (hstatus : statusFilter text query = .ok status) {pageSize : ℤ} (hsize : 1 ≤ pageSize) :
    PagesPartition (fun db' => db'.generations.Perm db.generations)
        (AnswersGenerations (K := K) text registry scope pageSize query)
        ((matchingGenerations text scope query status db).map toGenerationSchema) ↔
      NoTieAtBoundary (leBy (compareGenerations text) (generationOrder query)) pageSize.toNat
        (generationRows text scope query status db) := by
  have hcmp : ∀ column, Std.TransCmp (compareGenerations (S := S) text column) :=
    transCmp_compareGenerations
  have hfilter : ∀ db' : Databases S K, matchingGenerations text scope query status db' =
      db'.generations.filter fun entry => _ := fun db' => List.filter_filter
  refine pagesPartition_iff (generationRows text scope query status) hsize ?_ ?_ ?_
    (leBy_total hcmp _) (fun _ _ _ => leBy_trans hcmp _) ?_ ?_
  · intro db' _ page hpage data shown
    rw [answersGenerations_iff hpage hsize, hstatus]
    constructor
    · rintro ⟨status', heq, hdata, hshown⟩
      cases heq
      exact ⟨hdata, hshown⟩
    · rintro ⟨hdata, hshown⟩
      exact ⟨status, rfl, hdata, hshown⟩
  · intro db' hsame
    change Admissible _ _ (orderBy _ _ (matchingGenerations text scope query status db'))
    rw [hfilter, hfilter]
    exact admissible_orderBy hcmp _ hsame
  · intro l hl
    rw [hfilter] at hl
    obtain ⟨table, hperm, htable⟩ := exists_table hl
    refine ⟨{ db with generations := table }, hperm, ?_⟩
    change orderBy _ _ (matchingGenerations text scope query status _) = l
    rw [hfilter]
    exact htable
  · refine List.Nodup.of_map GenerationSchema.id ?_
    rw [List.map_map, hfilter]
    exact hgenerations.sublist (List.filter_sublist.map Prod.fst)
  · change Admissible _ _ (orderBy _ _ (matchingGenerations text scope query status db))
    rw [hfilter]
    exact admissible_orderBy hcmp _ (List.Perm.refl _)

/-- **The pages of the keys.** -/
theorem keys_partition_iff [Std.TransCmp text.compare] (hkeys : (db.keys.roots.map Row.id).Nodup)
    {id : ℤ} {query : QueryParam} (hsurplus : ∀ clause ∈ keyOrder query, clause.column ≠ .surplus)
    {pageSize : ℤ} (hsize : 1 ≤ pageSize) :
    PagesPartition
        (fun db' => db'.keys.roots.Perm db.keys.roots ∧ db'.keys.nodes = db.keys.nodes)
        (AnswersKeys text registry scope id pageSize query)
        ((matchingKeys text scope id query db).map (showKey db)) ↔
      NoTieAtBoundary (leBy (compareKeys text) (keyOrder query)) pageSize.toNat
        (orderBy (compareKeys text) (keyOrder query) (matchingKeys text scope id query db)) := by
  have hcmp : ∀ column, Std.TransCmp (compareKeys (K := K) text column) := transCmp_compareKeys
  have hfilter : ∀ db' : Databases S K, matchingKeys text scope id query db' =
      db'.keys.roots.filter fun row => _ := fun db' => List.filter_filter
  refine pagesPartition_iff (fun db' => orderBy (compareKeys text) (keyOrder query)
    (matchingKeys text scope id query db')) hsize ?_ ?_ ?_
    (leBy_total hcmp _) (fun _ _ _ => leBy_trans hcmp _) ?_ ?_
  · intro db' hsame page hpage data shown
    have hshow : showKey db' = showKey db := by
      funext row
      rw [showKey, showKey, Rows.nodesOf, Rows.nodesOf, hsame.2]
    rw [answersKeys_iff hpage hsize, keyRows_eq hsurplus, hshow]
    constructor
    · rintro ⟨rows, heq, hdata, hshown⟩
      cases heq
      exact ⟨hdata, hshown⟩
    · rintro ⟨hdata, hshown⟩
      exact ⟨_, rfl, hdata, hshown⟩
  · intro db' hsame
    rw [hfilter, hfilter]
    exact admissible_orderBy hcmp _ hsame.1
  · -- an admissible order is that of some table
    intro l hl
    rw [hfilter] at hl
    obtain ⟨table, hperm, htable⟩ := exists_table hl
    refine ⟨{ db with keys := { db.keys with roots := table } }, ⟨hperm, rfl⟩, ?_⟩
    rw [hfilter]
    exact htable
  · refine List.Nodup.of_map (fun key => key.id) ?_
    rw [List.map_map, hfilter]
    exact hkeys.sublist (List.filter_sublist.map Row.id)
  · rw [hfilter]
    exact admissible_orderBy hcmp _ (List.Perm.refl _)

/-- **The pages of both lists make up the matching rows exactly when no two rows that tie meet at
the end of a page.** -/
theorem lists_partition_iff [Std.TransCmp text.compare]
    (hgenerations : (db.generations.map Prod.fst).Nodup)
    (hkeys : (db.keys.roots.map Row.id).Nodup) (query : QueryParam) {pageSize : ℤ}
    (hsize : 1 ≤ pageSize) :
    (∀ status, statusFilter text query = .ok status →
      (PagesPartition (fun db' => db'.generations.Perm db.generations)
          (AnswersGenerations (K := K) text registry scope pageSize query)
          ((matchingGenerations text scope query status db).map toGenerationSchema) ↔
        NoTieAtBoundary (leBy (compareGenerations text) (generationOrder query)) pageSize.toNat
          (generationRows text scope query status db))) ∧
    (∀ id, (∀ clause ∈ keyOrder query, clause.column ≠ .surplus) →
      (PagesPartition
          (fun db' => db'.keys.roots.Perm db.keys.roots ∧ db'.keys.nodes = db.keys.nodes)
          (AnswersKeys text registry scope id pageSize query)
          ((matchingKeys text scope id query db).map (showKey db)) ↔
        NoTieAtBoundary (leBy (compareKeys text) (keyOrder query)) pageSize.toNat
          (orderBy (compareKeys text) (keyOrder query) (matchingKeys text scope id query db)))) :=
  ⟨fun _ hstatus => generations_partition_iff hgenerations hstatus hsize,
    fun _ hsurplus => keys_partition_iff hkeys hsurplus hsize⟩

/-! ### Two generations and two keys of the same name -/

deriving instance DecidableEq for OrderBy

/-- Text as Lean compares it. -/
def codePointText : TextRules := ⟨fun _ _ => true, compare, fun _ => none⟩

def namesake : GenerationModel plainServices where
  name := "generation"
  idCommunity := 1
  source := .file
  fileStorageKey := none
  fileName := none
  injectionName := none
  idSharingOperation := none
  periodStart := none
  periodEnd := none
  algorithmName := "brute_force"
  algorithmVersion := "1"
  inputs := ()
  status := .pending
  errorMessage := none
  dataWarnings := none

/-- A key of the first generation, without iterations. -/
def namesakeKey (id : ℕ) : Row ℤ ℤ (KeyColumns ℕ) :=
  ⟨id, 1, 1, ⟨"key", "", 0⟩⟩

def namesakes : Databases plainServices ℕ :=
  { emptyDatabases with
    generations := [(1, namesake), (2, namesake)]
    keys :=
      { (emptyDatabases : Databases plainServices ℕ).keys with
        roots := [namesakeKey 1, namesakeKey 2]
        nextRoot := 3 } }

instance : Std.TransCmp codePointText.compare :=
  inferInstanceAs (Std.TransCmp (compare : String → String → Ordering))

/-- Sorted by id, the pages of the two make up the list, of the generations and of the keys. -/
theorem lists_partition_iff_byId :
    PagesPartition (fun db' => db'.generations.Perm namesakes.generations)
        (AnswersGenerations (K := ℕ) codePointText plainRegistry (some 1) 1 [])
        ((matchingGenerations codePointText (some 1) [] none namesakes).map toGenerationSchema) ∧
      PagesPartition (fun db' => db'.keys.roots.Perm namesakes.keys.roots ∧
          db'.keys.nodes = namesakes.keys.nodes)
        (AnswersKeys codePointText plainRegistry (some 1) 1 1 [])
        ((matchingKeys codePointText (some 1) 1 [] namesakes).map (showKey namesakes)) ∧
      matchingKeys codePointText (some 1) 1 [] namesakes = [namesakeKey 1, namesakeKey 2] := by
  have hlists := @lists_partition_iff plainServices ℕ codePointText (some 1) namesakes plainRegistry
    _ _ _ (by decide) (by decide) [] 1 (le_refl 1)
  refine ⟨(hlists.1 none rfl).mpr ?_, (hlists.2 1 (by decide)).mpr ?_, rfl⟩
  · exact noTie_of_id GenerationColumn.id Prod.fst transCmp_compareGenerations
      (fun _ _ h => eq_of_compareGenerations_id h)
      ⟨⟨.id, false⟩, List.mem_singleton_self _, rfl⟩ (by decide)
      (admissible_orderBy transCmp_compareGenerations _ (List.Perm.refl _)) (by decide)
  · exact noTie_of_id KeyColumn.id Row.id transCmp_compareKeys
      (fun _ _ h => eq_of_compareKeys_id h)
      ⟨⟨.id, false⟩, List.mem_singleton_self _, rfl⟩ (by decide)
      (admissible_orderBy transCmp_compareKeys _ (List.Perm.refl _)) (by decide)

/-- Sorted by name, the pages may show one of the two twice. -/
theorem namesakes_not_partition :
    ¬ PagesPartition (fun db' => db'.generations.Perm namesakes.generations)
        (AnswersGenerations (K := ℕ) codePointText plainRegistry (some 1) 1 [("sort_name", "asc")])
        ((matchingGenerations codePointText (some 1) [("sort_name", "asc")] none namesakes).map
          toGenerationSchema) := by
  rw [generations_partition_iff (by decide) rfl (le_refl 1)]
  have horder : generationOrder [("sort_name", "asc")] = [⟨.name, false⟩] := by
    decide +kernel
  have htie : ∀ a b : ℤ × GenerationModel plainServices, a.2 = b.2 →
      leBy (compareGenerations codePointText) [⟨.name, false⟩] a b = true := by
    intro a b hab
    have hname : codePointText.compare a.2.name b.2.name = .eq := by
      rw [hab]
      exact Std.ReflCmp.compare_self
    simp [leBy, compareBy, compareGenerations, hname]
  have hrows : generationRows codePointText (some 1) [("sort_name", "asc")] none namesakes =
      [(1, namesake), (2, namesake)] := by
    have hmatching : matchingGenerations codePointText (some 1) [("sort_name", "asc")] none
        namesakes = [(1, namesake), (2, namesake)] := rfl
    change orderBy _ _ (matchingGenerations _ _ _ _ _) = _
    rw [hmatching, horder]
    refine List.mergeSort_of_pairwise (List.pairwise_cons.mpr ⟨fun b hb => ?_,
      List.pairwise_singleton _ _⟩)
    rw [List.mem_singleton.mp hb]
    exact htie _ _ rfl
  rw [horder, hrows]
  intro hboundary
  have hnot := hboundary 1 (1, namesake) (2, namesake) (by decide) rfl rfl
  rw [htie (2, namesake) (1, namesake) rfl] at hnot
  cases hnot

end AllocationKeys.Tenants
