import Mathlib.Data.List.Nodup
import Mathlib.Data.List.Perm.Subperm
import Mathlib.Data.Nat.Notation

/-!
# Pages of a sorted list

A query with an order, an offset and a limit answers with one page of the rows. Rows that tie in the
order may come in any way, and in another way for the next page. `pages_partition_iff`: the pages
then make up the rows, each row once, whatever the ways, exactly when no two rows that tie meet at
the end of a page.
-/

namespace AllocationKeys.Paging

variable {α : Type*}

/-- Page `k`, counted from 0, of `n` rows. -/
def pageOf (n k : ℕ) (l : List α) : List α := (l.drop (k * n)).take n

/-- The number of pages. -/
def numPages (n total : ℕ) : ℕ := (total + n - 1) / n

/-- The rows in an order that `le` allows. -/
structure Admissible (le : α → α → Bool) (rows l : List α) : Prop where
  perm : l.Perm rows
  sorted : l.Pairwise fun a b => le a b = true

/-- The last row of a page and the first row of the next one do not tie. -/
def NoTieAtBoundary (le : α → α → Bool) (n : ℕ) (l : List α) : Prop :=
  ∀ k a b, 0 < k → l[k * n - 1]? = some a → l[k * n]? = some b → le b a = false

/-! ### The number of pages -/

theorem lt_numPages_iff {n : ℕ} (hn : 0 < n) (k total : ℕ) :
    k < numPages n total ↔ k * n < total := by
  rw [numPages, Nat.lt_iff_add_one_le, Nat.le_div_iff_mul_le hn, Nat.succ_mul]
  omega

theorem pageOf_eq_nil {n : ℕ} (hn : 0 < n) {k : ℕ} {l : List α} (hk : numPages n l.length ≤ k) :
    pageOf n k l = [] := by
  have hle : l.length ≤ k * n :=
    Nat.not_lt.mp fun h => absurd ((lt_numPages_iff hn k _).mpr h) (by omega)
  rw [pageOf, List.drop_eq_nil_of_le hle, List.take_nil]

/-- The first pages of a list are its first rows. -/
theorem flatMap_pageOf (n : ℕ) (l : List α) (m : ℕ) :
    ((List.range m).flatMap fun k => pageOf n k l) = l.take (m * n) := by
  induction m with
  | zero => simp
  | succ m ih =>
    rw [List.range_succ, List.flatMap_append, ih, List.flatMap_singleton, pageOf, Nat.succ_mul,
      List.take_add]

theorem flatMap_pageOf_all {n : ℕ} (hn : 0 < n) (l : List α) :
    ((List.range (numPages n l.length)).flatMap fun k => pageOf n k l) = l := by
  have hle : l.length ≤ numPages n l.length * n :=
    Nat.not_lt.mp fun h => absurd ((lt_numPages_iff hn _ _).mpr h) (Nat.lt_irrefl _)
  rw [flatMap_pageOf, List.take_of_length_le hle]

/-! ### Without ties at the boundaries -/

section Order

variable {le : α → α → Bool} {rows l l' : List α} {n : ℕ}

/-- In a sorted list, the rows of a lower part come first. -/
theorem filter_eq_take {p : α → Bool} (hp : ∀ a b, le a b = true → p b = true → p a = true)
    (hl : l.Pairwise fun a b => le a b = true) : l.filter p = l.take (l.filter p).length := by
  induction l with
  | nil => rfl
  | cons a l ih =>
    obtain ⟨ha, hl⟩ := List.pairwise_cons.mp hl
    by_cases hpa : p a = true
    · rw [List.filter_cons_of_pos hpa, List.length_cons, List.take_succ_cons, ← ih hl]
    · have hnone : l.filter p = [] := by
        rw [List.filter_eq_nil_iff]
        exact fun b hb hpb => hpa (hp a b (ha b hb) hpb)
      rw [List.filter_cons_of_neg hpa, hnone]
      rfl

/-- Two neighbours that tie can be exchanged. -/
theorem admissible_swap {first rest : List α} {a b : α}
    (h : Admissible le rows (first ++ a :: b :: rest)) (htie : le b a = true) :
    Admissible le rows (first ++ b :: a :: rest) := by
  refine ⟨((List.Perm.swap a b rest).append_left first).trans h.perm, ?_⟩
  obtain ⟨hfirst, hrest, hcross⟩ := List.pairwise_append.mp h.sorted
  obtain ⟨hab, hrest⟩ := List.pairwise_cons.mp hrest
  obtain ⟨hb, hrest⟩ := List.pairwise_cons.mp hrest
  refine List.pairwise_append.mpr ⟨hfirst, ?_, fun x hx y hy => hcross x hx y ?_⟩
  · refine List.pairwise_cons.mpr ⟨fun y hy => ?_, List.pairwise_cons.mpr ⟨fun y hy => ?_, hrest⟩⟩
    · rcases List.mem_cons.mp hy with rfl | hy
      · exact htie
      · exact hb y hy
    · exact hab y (List.mem_cons_of_mem _ hy)
  · simp only [List.mem_cons] at hy ⊢
    rcases hy with rfl | rfl | hy
    · exact Or.inr (Or.inl rfl)
    · exact Or.inl rfl
    · exact Or.inr (Or.inr hy)

variable (hle : ∀ a b, (le a b || le b a) = true)
  (htrans : ∀ a b c, le a b = true → le b c = true → le a c = true)

include hle

theorem le_self (a : α) : le a a = true := by simpa using hle a a

include htrans

/-- The rows before a boundary without a tie are those below the row after it. -/
theorem take_eq_filter (hl : l.Pairwise fun a b => le a b = true) {m : ℕ} {a b : α}
    (ha : l[m]? = some a) (hb : l[m + 1]? = some b) (htie : le b a = false) :
    l.take (m + 1) = l.filter fun x => !le b x := by
  obtain ⟨hm, hb⟩ := List.getElem?_eq_some_iff.mp hb
  obtain ⟨hm', ha⟩ := List.getElem?_eq_some_iff.mp ha
  have hbefore : ∀ x ∈ l.take (m + 1), (!le b x) = true := by
    intro x hx
    obtain ⟨i, hi, rfl⟩ := List.mem_take_iff_getElem.mp hx
    have hil : i < l.length := by omega
    have hxa : le l[i] a = true := by
      rcases Nat.lt_or_eq_of_le (show i ≤ m by omega) with hlt | rfl
      · rw [← ha]
        exact List.pairwise_iff_getElem.mp hl i m (by omega) hm' hlt
      · rw [← ha]
        exact le_self hle _
    rcases hbx : le b l[i] with _ | _
    · rfl
    · rw [htrans _ _ _ hbx hxa] at htie
      cases htie
  have hafter : ∀ x ∈ l.drop (m + 1), ¬ (!le b x) = true := by
    intro x hx
    obtain ⟨i, hi, rfl⟩ := List.mem_drop_iff_getElem.mp hx
    have hil : m + 1 + i < l.length := by omega
    have hbx : le b l[m + 1 + i] = true := by
      rcases Nat.eq_zero_or_pos i with rfl | hpos
      · rw [← hb]
        exact le_self hle _
      · rw [← hb]
        exact List.pairwise_iff_getElem.mp hl (m + 1) (m + 1 + i) hm (by omega) (by omega)
    simp [hbx]
  conv_rhs => rw [← List.take_append_drop (m + 1) l, List.filter_append,
    List.filter_eq_self.mpr hbefore, List.filter_eq_nil_iff.mpr hafter, List.append_nil]

/-- Up to a boundary without a tie, every admissible order has the same rows. -/
theorem take_perm (hl : Admissible le rows l) (hl' : Admissible le rows l')
    (htie : NoTieAtBoundary le n l) (k : ℕ) : (l'.take (k * n)).Perm (l.take (k * n)) := by
  have hperm : l'.Perm l := hl'.perm.trans hl.perm.symm
  rcases Nat.eq_zero_or_pos (k * n) with hzero | hpos
  · simp [hzero]
  rcases Nat.lt_or_ge (k * n) l.length with hlt | hge
  swap
  · rw [List.take_of_length_le hge, List.take_of_length_le (by rw [hperm.length_eq]; exact hge)]
    exact hperm
  obtain ⟨m, hm⟩ : ∃ m, k * n = m + 1 := ⟨k * n - 1, by omega⟩
  have hm₁ : m + 1 < l.length := by omega
  have hm₀ : m < l.length := by omega
  have ha : l[m]? = some l[m] := List.getElem?_eq_getElem _
  have hb : l[m + 1]? = some l[m + 1] := List.getElem?_eq_getElem _
  have hk : 0 < k := Nat.pos_of_mul_pos_right hpos
  have hnot := htie k _ _ hk (by rw [hm]; exact ha) (by rw [hm]; exact hb)
  have hfilter := take_eq_filter hle htrans hl.sorted ha hb hnot
  have hdown : ∀ x y, le x y = true → (!le l[m + 1] y) = true →
      (!le l[m + 1] x) = true := by
    intro x y hxy hy
    rcases hx : le l[m + 1] x with _ | _
    · rfl
    · rw [htrans _ _ _ hx hxy] at hy
      cases hy
  have hsame := hperm.filter fun x => !le l[m + 1] x
  have hlength : (l'.filter fun x => !le l[m + 1] x).length = m + 1 := by
    rw [hsame.length_eq, ← hfilter, List.length_take]
    omega
  have htake := filter_eq_take hdown hl'.sorted
  rw [hlength] at htake
  rw [hm, ← htake, hfilter]
  exact hsame

theorem pageOf_perm (hl : Admissible le rows l) (hl' : Admissible le rows l')
    (htie : NoTieAtBoundary le n l) (k : ℕ) : (pageOf n k l').Perm (pageOf n k l) := by
  have hfirst := take_perm hle htrans hl hl' htie k
  have hnext := take_perm hle htrans hl hl' htie (k + 1)
  rw [Nat.succ_mul, List.take_add, List.take_add] at hnext
  exact (List.perm_append_left_iff (l.take (k * n))).mp ((hfirst.symm.append_right _).trans hnext)

/-- **The pages partition the rows, in whatever admissible orders they are read, exactly when no two
rows tie at the end of a page.** -/
theorem pages_partition_iff (hn : 0 < n) (hnodup : rows.Nodup) (hl : Admissible le rows l) :
    (∀ orders : ℕ → List α, (∀ k, Admissible le rows (orders k)) →
      ((List.range (numPages n rows.length)).flatMap fun k => pageOf n k (orders k)).Perm rows) ↔
      NoTieAtBoundary le n l := by
  constructor
  · intro hpages k a b hk ha hb
    by_contra htie
    rw [Bool.not_eq_false] at htie
    obtain ⟨hm, hb⟩ := List.getElem?_eq_some_iff.mp hb
    obtain ⟨hm', ha⟩ := List.getElem?_eq_some_iff.mp ha
    have hpos : 0 < k * n := Nat.mul_pos hk hn
    have hsplit : l = l.take (k * n - 1) ++ a :: b :: l.drop (k * n + 1) := by
      rw [← ha, ← hb]
      conv_lhs => rw [← List.take_append_drop (k * n - 1) l]
      congr 1
      rw [List.drop_eq_getElem_cons hm']
      congr 1
      rw [show k * n - 1 + 1 = k * n by omega, List.drop_eq_getElem_cons hm]
    have hswap := admissible_swap (hsplit ▸ hl) htie
    -- the page before the boundary is read in the order `l`, the one after it with `a` and `b`
    -- exchanged: `a` is on both
    have horders := hpages (fun j =>
        if j = k then l.take (k * n - 1) ++ b :: a :: l.drop (k * n + 1) else l) fun j => by
        split
        · exact hswap
        · exact hl
    have hall := horders.nodup_iff.mpr hnodup
    have hdisjoint := (List.nodup_flatMap.mp hall).2
    have hlast : k < numPages n rows.length :=
      (lt_numPages_iff hn k _).mpr (hl.perm.length_eq ▸ hm)
    have hnot := List.pairwise_iff_getElem.mp hdisjoint (k - 1) k (by simp; omega) (by simpa)
      (by omega)
    simp only [List.getElem_range, Function.onFun] at hnot
    rw [if_neg (by omega), if_true] at hnot
    refine hnot (a := a) ?_ ?_
    · have hstart : (k - 1) * n + n = k * n := by
        rw [← Nat.succ_mul]
        congr 1
        omega
      rw [pageOf, List.mem_take_iff_getElem]
      refine ⟨n - 1, by simp; omega, ?_⟩
      rw [List.getElem_drop, ← ha]
      congr 1
      omega
    · have hlength : (l.take (k * n - 1)).length = k * n - 1 := by
        rw [List.length_take]
        omega
      have hdrop : (l.take (k * n - 1) ++ b :: a :: l.drop (k * n + 1)).drop (k * n)
          = a :: l.drop (k * n + 1) := by
        rw [List.drop_append, hlength, List.drop_of_length_le (by omega),
          show k * n - (k * n - 1) = 1 by omega]
        rfl
      rw [pageOf, hdrop]
      obtain ⟨n', rfl⟩ : ∃ n', n = n' + 1 := ⟨n - 1, by omega⟩
      rw [List.take_succ_cons]
      exact List.mem_cons_self ..
  · intro htie orders horders
    have hpage : ∀ k, (pageOf n k (orders k)).Perm (pageOf n k l) := fun k =>
      pageOf_perm hle htrans hl (horders k) htie k
    refine (List.Perm.flatMap_left _ fun k _ => hpage k).trans ?_
    rw [← hl.perm.length_eq, flatMap_pageOf_all hn]
    exact hl.perm

/-- The same for what is shown of the rows, if different rows are shown differently. -/
theorem pages_map_partition_iff {β : Type*} {f : α → β} (hn : 0 < n) (hnodup : (rows.map f).Nodup)
    (hl : Admissible le rows l) :
    (∀ orders : ℕ → List α, (∀ k, Admissible le rows (orders k)) →
      ((List.range (numPages n rows.length)).flatMap fun k =>
        (pageOf n k (orders k)).map f).Perm (rows.map f)) ↔ NoTieAtBoundary le n l := by
  rw [← pages_partition_iff hle htrans hn (List.Nodup.of_map f hnodup) hl]
  refine forall_congr' fun orders => imp_congr_right fun horders => ?_
  rw [← List.map_flatMap]
  constructor
  · intro hperm
    have hnodupPages := List.Nodup.of_map f (hperm.nodup_iff.mpr hnodup)
    have hsubset : ((List.range (numPages n rows.length)).flatMap fun k => pageOf n k (orders k))
        ⊆ rows := by
      intro a ha
      obtain ⟨k, -, ha⟩ := List.mem_flatMap.mp ha
      exact (horders k).perm.mem_iff.mp (List.mem_of_mem_drop (List.mem_of_mem_take ha))
    have hlength := hperm.length_eq
    rw [List.length_map, List.length_map] at hlength
    exact (List.subperm_of_subset hnodupPages hsubset).perm_of_length_le (Nat.le_of_eq hlength.symm)
  · exact fun hperm => hperm.map f

end Order

end AllocationKeys.Paging
