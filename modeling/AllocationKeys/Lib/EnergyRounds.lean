import Mathlib.Algebra.BigOperators.Group.List.Lemmas
import Mathlib.Algebra.Order.BigOperators.Group.Finset
import Mathlib.Algebra.BigOperators.Ring.Finset
import Mathlib.Algebra.Order.Field.Basic
import Mathlib.Algebra.Order.Group.MinMax
import Mathlib.Tactic.Linarith
import Mathlib.Tactic.Ring

/-!
# Distributing a production profile in rounds

A production profile `V : τ → K` is handed out to consumers `ι` in successive rounds.
Round `k` has the energy `share k * V` plus whatever the round before left unused; it
gives every consumer an allocation, serves each of them up to its demand, and passes on
the demand nobody met and the energy nobody used.

* `served`, `unmet`, `unused` split one demand and one allocation, for values of any sign;
* `Complete` says that every round hands out exactly the energy it has;
* `production_balance` and `demand_balance`: nothing is created or lost over any number of
  rounds;
* `finalSurplus_ge`: no sequence of rounds leaves less than `max 0 (production - demand)`;
* `finalSurplus_of_tight`: rounds that each waste as little as possible waste, together,
  exactly that much.
-/

namespace AllocationKeys.EnergyRounds

variable {ι τ K : Type*}

section Split

variable [AddCommGroup K] [LinearOrder K]

/-- What a consumer with demand `c` uses of an allocation `a`. -/
def served (c a : K) : K := min c a

/-- The part of the demand `c` that the allocation `a` does not meet. -/
def unmet (c a : K) : K := max 0 (c - a)

/-- The part of the allocation `a` that the demand `c` does not use. -/
def unused (c a : K) : K := max 0 (a - c)

theorem unmet_nonneg (c a : K) : 0 ≤ unmet c a := le_max_left _ _

theorem unused_nonneg (c a : K) : 0 ≤ unused c a := le_max_left _ _

variable [IsOrderedAddMonoid K]

theorem served_add_unmet (c a : K) : served c a + unmet c a = c := by
  rcases le_total c a with h | h
  · rw [served, unmet, min_eq_left h, max_eq_left (sub_nonpos.mpr h), add_zero]
  · rw [served, unmet, min_eq_right h, max_eq_right (sub_nonneg.mpr h), add_sub_cancel]

theorem served_add_unused (c a : K) : served c a + unused c a = a := by
  rcases le_total c a with h | h
  · rw [served, unused, min_eq_left h, max_eq_right (sub_nonneg.mpr h), add_sub_cancel]
  · rw [served, unused, min_eq_right h, max_eq_left (sub_nonpos.mpr h), add_zero]

end Split

/-- One round: the share of the production it gets and what it gives each consumer. -/
structure Round (ι τ K : Type*) where
  share : K
  alloc : ι → τ → K

/-- The part of the production the rounds get together. -/
def shareOver [AddMonoid K] (rs : List (Round ι τ K)) : K := (rs.map Round.share).sum

@[simp] theorem shareOver_nil [AddMonoid K] : shareOver ([] : List (Round ι τ K)) = 0 := rfl

@[simp] theorem shareOver_cons [AddMonoid K] (r : Round ι τ K) (rs : List (Round ι τ K)) :
    shareOver (r :: rs) = r.share + shareOver rs := by
  simp [shareOver]

section Chain

variable [Fintype ι] [Field K] [LinearOrder K]

/-- The demand left after a round. -/
def nextDemand (d : ι → τ → K) (r : Round ι τ K) : ι → τ → K :=
  fun i t => unmet (d i t) (r.alloc i t)

/-- The energy a round passes on. -/
def nextCarry (d : ι → τ → K) (r : Round ι τ K) : τ → K :=
  fun t => ∑ i, unused (d i t) (r.alloc i t)

/-- Every round hands out its share of the production and the energy carried over, no more
and no less. -/
def Complete (V : τ → K) : (ι → τ → K) → (τ → K) → List (Round ι τ K) → Prop
  | _, _, [] => True
  | d, s, r :: rs =>
      (∀ t, ∑ i, r.alloc i t = r.share * V t + s t) ∧
        Complete V (nextDemand d r) (nextCarry d r) rs

/-- The demand left after all rounds. -/
def finalDemand : (ι → τ → K) → List (Round ι τ K) → ι → τ → K
  | d, [] => d
  | d, r :: rs => finalDemand (nextDemand d r) rs

/-- The energy left after all rounds. -/
def finalSurplus : (ι → τ → K) → (τ → K) → List (Round ι τ K) → τ → K
  | _, s, [] => s
  | d, _, r :: rs => finalSurplus (nextDemand d r) (nextCarry d r) rs

/-- What consumer `i` uses at `t` over all rounds. -/
def servedOver : (ι → τ → K) → List (Round ι τ K) → ι → τ → K
  | _, [], _, _ => 0
  | d, r :: rs, i, t => served (d i t) (r.alloc i t) + servedOver (nextDemand d r) rs i t

variable [IsStrictOrderedRing K]

/-- The energy of one round is what is used of it and what it passes on. -/
theorem round_balance {V : τ → K} {d : ι → τ → K} {s : τ → K} {r : Round ι τ K}
    (h : ∀ t, ∑ i, r.alloc i t = r.share * V t + s t) (t : τ) :
    r.share * V t + s t = ∑ i, served (d i t) (r.alloc i t) + nextCarry d r t := by
  rw [← h t, nextCarry, ← Finset.sum_add_distrib]
  exact Finset.sum_congr rfl fun i _ => (served_add_unused (d i t) (r.alloc i t)).symm

/-- **Production balance.**  What the rounds were given is what was used over all of them
plus what the last one leaves. -/
theorem production_balance (V : τ → K) (t : τ) :
    ∀ (rs : List (Round ι τ K)) (d : ι → τ → K) (s : τ → K), Complete V d s rs →
      shareOver rs * V t + s t = ∑ i, servedOver d rs i t + finalSurplus d s rs t := by
  intro rs
  induction rs with
  | nil => intro d s _; simp [servedOver, finalSurplus]
  | cons r rs ih =>
    intro d s h
    have hround := round_balance (d := d) h.1 t
    have hrest := ih (nextDemand d r) (nextCarry d r) h.2
    simp only [servedOver, finalSurplus, shareOver_cons, Finset.sum_add_distrib]
    linarith

omit [Fintype ι] in
/-- **Demand balance.**  A consumer's demand is what it used over all rounds plus what is
left unmet; nobody is served beyond its demand. -/
theorem demand_balance (i : ι) (t : τ) :
    ∀ (rs : List (Round ι τ K)) (d : ι → τ → K),
      d i t = servedOver d rs i t + finalDemand d rs i t := by
  intro rs
  induction rs with
  | nil => intro d; simp [servedOver, finalDemand]
  | cons r rs ih =>
    intro d
    have hround := served_add_unmet (d i t) (r.alloc i t)
    have hrest := ih (nextDemand d r)
    simp only [servedOver, finalDemand, nextDemand] at hrest ⊢
    linarith

omit [Fintype ι] [IsStrictOrderedRing K] in
theorem finalDemand_nonneg {d : ι → τ → K} (hd : ∀ i t, 0 ≤ d i t) (rs : List (Round ι τ K)) :
    ∀ i t, 0 ≤ finalDemand d rs i t := by
  induction rs generalizing d with
  | nil => exact hd
  | cons r rs ih => exact ih fun i t => unmet_nonneg _ _

theorem finalSurplus_nonneg {d : ι → τ → K} {s : τ → K} (hs : ∀ t, 0 ≤ s t)
    (rs : List (Round ι τ K)) : ∀ t, 0 ≤ finalSurplus d s rs t := by
  induction rs generalizing d s with
  | nil => exact hs
  | cons r rs ih => exact ih fun t => Finset.sum_nonneg fun i _ => unused_nonneg _ _

/-- **Lower bound.**  However the rounds share it out, at least the production exceeding
the demand is left. -/
theorem finalSurplus_ge {V : τ → K} {d : ι → τ → K} {s : τ → K} (hd : ∀ i t, 0 ≤ d i t)
    (hs : ∀ t, 0 ≤ s t) {rs : List (Round ι τ K)} (h : Complete V d s rs) (t : τ) :
    max 0 (shareOver rs * V t + s t - ∑ i, d i t) ≤ finalSurplus d s rs t := by
  apply max_le (finalSurplus_nonneg hs rs t)
  have hprod := production_balance V t rs d s h
  have hdem : ∑ i, servedOver d rs i t ≤ ∑ i, d i t := by
    apply Finset.sum_le_sum
    intro i _
    have hbal := demand_balance i t rs d
    have hleft := finalDemand_nonneg hd rs i t
    linarith
  linarith

/-- A round wastes as little as possible when it leaves exactly the energy its consumers
could not have used. -/
def Tight (V : τ → K) (d : ι → τ → K) (s : τ → K) (r : Round ι τ K) : Prop :=
  ∀ t, nextCarry d r t = max 0 (r.share * V t + s t - ∑ i, d i t)

/-- A round that gives everybody the same multiple of its demand at `t` is tight there; so is
one that has no demand to serve. -/
theorem tight_of_proportional {V : τ → K} {d : ι → τ → K} {s : τ → K} {r : Round ι τ K}
    (hd : ∀ i t, 0 ≤ d i t) (h : ∀ t, ∑ i, r.alloc i t = r.share * V t + s t)
    (hprop : ∀ t, (∃ m, ∀ i, r.alloc i t = m * d i t) ∨
      ((∀ i, d i t = 0) ∧ ∀ i, 0 ≤ r.alloc i t)) : Tight V d s r := by
  intro t
  rw [← h t, ← Finset.sum_sub_distrib, nextCarry]
  rcases hprop t with ⟨m, hm⟩ | ⟨hzero, hnonneg⟩
  · have hdiff : ∀ i, r.alloc i t - d i t = (m - 1) * d i t := fun i => by rw [hm i]; ring
    simp only [unused, hdiff]
    rcases le_total 1 m with hm1 | hm1
    · have hpos : ∀ i, 0 ≤ (m - 1) * d i t := fun i => mul_nonneg (sub_nonneg.mpr hm1) (hd i t)
      rw [max_eq_right (Finset.sum_nonneg fun i _ => hpos i)]
      exact Finset.sum_congr rfl fun i _ => max_eq_right (hpos i)
    · have hneg : ∀ i, (m - 1) * d i t ≤ 0 := fun i =>
        mul_nonpos_of_nonpos_of_nonneg (sub_nonpos.mpr hm1) (hd i t)
      rw [max_eq_left (Finset.sum_nonpos fun i _ => hneg i)]
      exact Finset.sum_eq_zero fun i _ => max_eq_left (hneg i)
  · simp only [unused, hzero, sub_zero]
    rw [max_eq_right (Finset.sum_nonneg fun i _ => hnonneg i)]
    exact Finset.sum_congr rfl fun i _ => max_eq_right (hnonneg i)

/-- Every round of the sequence is tight. -/
def AllTight (V : τ → K) : (ι → τ → K) → (τ → K) → List (Round ι τ K) → Prop
  | _, _, [] => True
  | d, s, r :: rs => Tight V d s r ∧ AllTight V (nextDemand d r) (nextCarry d r) rs

/-- The demand a round leaves, in total, is the demand less the energy used. -/
theorem sum_nextDemand {V : τ → K} {d : ι → τ → K} {s : τ → K} {r : Round ι τ K}
    (h : ∀ t, ∑ i, r.alloc i t = r.share * V t + s t) (t : τ) :
    ∑ i, nextDemand d r i t = ∑ i, d i t - (r.share * V t + s t - nextCarry d r t) := by
  have hround := round_balance (d := d) h t
  have hsplit : ∑ i, d i t
      = ∑ i, served (d i t) (r.alloc i t) + ∑ i, nextDemand d r i t := by
    rw [← Finset.sum_add_distrib]
    exact Finset.sum_congr rfl fun i _ => (served_add_unmet (d i t) (r.alloc i t)).symm
  linarith

/-- **Attainment.**  Tight rounds behave like a single one: together they leave exactly the
production exceeding the demand, however the production is split between them. -/
theorem finalSurplus_of_tight {V : τ → K} (hV : ∀ t, 0 ≤ V t) (t : τ) :
    ∀ (rs : List (Round ι τ K)) (d : ι → τ → K) (s : τ → K), (∀ r ∈ rs, 0 ≤ r.share) →
      Complete V d s rs → AllTight V d s rs → rs ≠ [] →
      finalSurplus d s rs t = max 0 (shareOver rs * V t + s t - ∑ i, d i t) := by
  intro rs
  induction rs with
  | nil => intro d s _ _ _ hne; exact absurd rfl hne
  | cons r rs ih =>
    intro d s hshare hcomplete htight _
    have hcarry := htight.1 t
    rcases eq_or_ne rs [] with rfl | hne
    · simpa [finalSurplus] using hcarry
    · have hrest := ih (nextDemand d r) (nextCarry d r)
        (fun r' hr' => hshare r' (List.mem_cons_of_mem r hr')) hcomplete.2 htight.2 hne
      rw [finalSurplus, hrest, sum_nextDemand hcomplete.1 t, shareOver_cons]
      have hmore : 0 ≤ shareOver rs * V t :=
        mul_nonneg (List.sum_nonneg (by
          intro x hx
          obtain ⟨r', hr', rfl⟩ := List.mem_map.mp hx
          exact hshare r' (List.mem_cons_of_mem r hr'))) (hV t)
      -- either the first round used everything, or the demand was met and stays met
      rcases le_total (r.share * V t + s t) (∑ i, d i t) with hle | hle
      · rw [max_eq_left (sub_nonpos.mpr hle)] at hcarry
        rw [hcarry]
        congr 1
        ring
      · rw [max_eq_right (sub_nonneg.mpr hle)] at hcarry
        rw [hcarry, max_eq_right (by linarith), max_eq_right (by nlinarith)]
        ring

end Chain

end AllocationKeys.EnergyRounds
