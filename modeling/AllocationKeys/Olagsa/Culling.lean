import AllocationKeys.Olagsa.Algorithm
import AllocationKeys.Olagsa.Search
import Mathlib.Algebra.Field.Rat
import Mathlib.Algebra.Order.Field.Rat
import Mathlib.Data.Rat.Floor

/-!
# Feasible and infeasible candidates

An individual whose solve is not optimal gets the fitness `100 * ponderationExcedent`, above
that of every other; the sorts put the largest fitness first. So in a species with individuals
of both kinds the infeasible ones come first: `_cull_weakest` keeps one and drops a feasible one
(`cullsFairly_iff`), and an infeasible one is reported (`reportsFairly_iff`). A run prefers no
infeasible candidate exactly when no species it culls or reports is mixed (`run_culls_iff`).
-/

namespace AllocationKeys.Olagsa

open Program

variable {n T : ℕ} {K : Type} [Field K] [LinearOrder K]

/-- The individual's last solve ended optimal. -/
def Feasible (x : Individual K) : Prop := x.status = some .optimal

instance (x : Individual K) : Decidable (Feasible x) :=
  inferInstanceAs (Decidable (x.status = some .optimal))

/-- The species has individuals of both kinds. -/
def Mixed (specie : Specie K) : Prop :=
  (∃ x ∈ specie.individuals, Feasible x) ∧ ∃ y ∈ specie.individuals, ¬ Feasible y

/-- Culling keeps no infeasible individual while it drops a feasible one. -/
def CullsFairly (specie : Specie K) : Prop :=
  ∀ dropped, specie.individuals.Perm ((cullWeakest specie).individuals ++ dropped) →
    ¬ ((∃ x ∈ dropped, Feasible x) ∧ ∃ y ∈ (cullWeakest specie).individuals, ¬ Feasible y)

/-- Of a mixed species, a feasible individual is reported. -/
def ReportsFairly (specie : Specie K) : Prop :=
  Mixed specie → ∀ best ∈ bestIndividual specie, Feasible best

section Graded

variable [IsStrictOrderedRing K]

/-- An individual at least as fit as an infeasible one is infeasible. -/
theorem not_feasible_of_le {x y : Individual K} (hx : Graded x) (hy : Graded y)
    (hle : y.fitness ≤ x.fitness) (h : ¬ Feasible y) : ¬ Feasible x := by
  intro hfeasible
  have hbound := (hx.optimal hfeasible).2
  rw [hy.notOptimal h, ponderationExcedent] at hle
  rw [ponderationExcedent] at hbound
  linarith

/-- In a mixed species the first of the sorted individuals is infeasible and the last one
feasible. -/
theorem sorted_of_mixed {specie : Specie K} (hgraded : ∀ x ∈ specie.individuals, Graded x)
    (h : Mixed specie) :
    ∃ first middle last, sortByFitness specie.individuals = first :: (middle ++ [last]) ∧
      ¬ Feasible first ∧ Feasible last := by
  obtain ⟨⟨x, hx, hfeasible⟩, y, hy, hnot⟩ := h
  rcases hsort : sortByFitness specie.individuals with _ | ⟨first, rest⟩
  · rw [sortByFitness_eq_nil] at hsort
    rw [hsort] at hx
    cases hx
  · have hmem : ∀ z, z ∈ first :: rest ↔ z ∈ specie.individuals := fun z => by
      rw [← hsort, mem_sortByFitness]
    have hfirst : ¬ Feasible first :=
      not_feasible_of_le (hgraded first ((hmem first).mp (List.mem_cons_self ..)))
        (hgraded y hy) (fitness_le_head hsort hy) hnot
    rcases List.eq_nil_or_concat rest with rfl | ⟨middle, last, rfl⟩
    · obtain rfl : x = first := by simpa using (hmem x).mpr hx
      exact absurd hfeasible hfirst
    · refine ⟨first, middle, last, by simp, hfirst, ?_⟩
      rw [List.concat_eq_append] at hsort hmem
      have hlast : last.fitness ≤ x.fitness := by
        have hpairwise := pairwise_sortByFitness specie.individuals
        rw [hsort, ← List.cons_append, List.pairwise_append] at hpairwise
        have hx' := (hmem x).mpr hx
        rw [← List.cons_append, List.mem_append, List.mem_singleton] at hx'
        rcases hx' with hx' | rfl
        · exact hpairwise.2.2 x hx' last (List.mem_singleton_self _)
        · exact le_rfl
      by_contra hnotlast
      exact not_feasible_of_le (hgraded x hx)
        (hgraded last ((hmem last).mp (by simp))) hlast hnotlast hfeasible

/-- **Culling is fair exactly when there is nothing to choose.** -/
theorem cullsFairly_iff {specie : Specie K} (hgraded : ∀ x ∈ specie.individuals, Graded x) :
    CullsFairly specie ↔ ¬ Mixed specie := by
  constructor
  · intro hfair hmixed
    obtain ⟨first, middle, last, hsort, hfirst, hlast⟩ := sorted_of_mixed hgraded hmixed
    have hlength : specie.individuals.length = middle.length + 2 := by
      rw [← length_sortByFitness, hsort]
      simp
    have hkept : (cullWeakest specie).individuals
        = (first :: (middle ++ [last])).take ((middle.length + 2) / 2) := by
      have hsorted : (first :: (middle ++ [last])).length = middle.length + 2 := by simp
      rw [cullWeakest, if_neg (by omega)]
      simp only [hsort, hsorted]
    have hperm : specie.individuals.Perm ((cullWeakest specie).individuals
        ++ (first :: (middle ++ [last])).drop ((middle.length + 2) / 2)) := by
      rw [hkept, List.take_append_drop, ← hsort]
      exact (List.perm_insertionSort _ _).symm
    refine hfair _ hperm ⟨⟨last, ?_, hlast⟩, first, ?_, hfirst⟩
    · rw [← List.cons_append, List.drop_append_of_le_length (by simp; omega)]
      simp
    · rw [hkept, show (middle.length + 2) / 2 = middle.length / 2 + 1 by omega]
      simp
  · rintro hmixed dropped hperm ⟨⟨x, hx, hfeasible⟩, y, hy, hnot⟩
    exact hmixed ⟨⟨x, hperm.mem_iff.mpr (List.mem_append_right _ hx), hfeasible⟩,
      y, hperm.mem_iff.mpr (List.mem_append_left _ hy), hnot⟩

/-- **Reporting is fair exactly when there is nothing to choose.** -/
theorem reportsFairly_iff {specie : Specie K} (hgraded : ∀ x ∈ specie.individuals, Graded x) :
    ReportsFairly specie ↔ ¬ Mixed specie := by
  constructor
  · intro hfair hmixed
    obtain ⟨first, middle, last, hsort, hfirst, -⟩ := sorted_of_mixed hgraded hmixed
    exact hfirst (hfair hmixed first (by rw [bestIndividual, hsort]; rfl))
  · intro hmixed h
    exact absurd h hmixed

end Graded

/-! ### Whole runs -/

/-- The generation that began with `species` culls, in a run that has come to `found`. -/
def Culls (ga : OlagsaGA K) (earlier : List (List (Specie K))) (found species : List (Specie K)) :
    Prop :=
  species ∈ earlier ∨
    (species = found ∧ earlier.length < ga.numGeneration ∧ stagnated ga found = false)

/-- No infeasible candidate is preferred in the run that has come to `found`: in no species it
culled, and in no species it reports if it stops there. -/
structure FairRun (ga : OlagsaGA K) (earlier : List (List (Specie K)))
    (found : List (Specie K)) : Prop where
  culls : ∀ species, Culls ga earlier found species → ∀ s ∈ inhabited ga species, CullsFairly s
  reports : ∀ final, Ends ga earlier found final → ∀ s ∈ final, ReportsFairly s

/-- No species that the run culled or reports has individuals of both kinds. -/
structure UnmixedRun (ga : OlagsaGA K) (earlier : List (List (Specie K)))
    (found : List (Specie K)) : Prop where
  culls : ∀ species, Culls ga earlier found species → ∀ s ∈ inhabited ga species, ¬ Mixed s
  reports : ∀ final, Ends ga earlier found final → ∀ s ∈ final, ¬ Mixed s

theorem sound_inhabited {ga : OlagsaGA K} {k : ℕ} {species : List (Specie K)}
    (h : EveryIndividual (Sound k) species) : EveryIndividual (Sound k) (inhabited ga species) := by
  intro s hs x hx
  obtain ⟨checked, hchecked, rfl⟩ := List.mem_map.mp hs
  obtain ⟨specie, hspecie, rfl⟩ := List.mem_map.mp (List.mem_of_mem_filter hchecked)
  obtain ⟨y, hy, rfl⟩ := List.mem_map.mp hx
  rw [(checkSpecie_fields ga specie).2.2, mem_sortByFitness] at hy
  have hsound := h specie hspecie y hy
  exact ⟨hsound.distribution, ⟨hsound.graded.optimal, hsound.graded.notOptimal⟩⟩

variable [FloorSemiring K] [IsStrictOrderedRing K]

omit [FloorSemiring K] in
/-- The individuals of the solutions are the best ones of the final species. -/
theorem ensures_collect_individuals (ga : OlagsaGA K) (C VA : Fin (n + 1) → Fin T → K)
    (species : List (Specie K)) :
    (collect ga C VA species).Ensures Admissible fun best =>
      best.map BestSolution.individual = species.filterMap bestIndividual := by
  have hcollect : (collect ga C VA species).Ensures Admissible _ :=
    ensures_mapM_map (g := BestSolution.individual) (h := id) fun best _ =>
      (ensures_solveKey ga.numKeyIteration C VA best.chromosomes).bind fun _ _ => ensures_ret rfl
  exact hcollect.mono fun best h => by rw [h, List.map_id]

/-- **When no infeasible candidate is preferred.**  The solutions of a run are the best
individuals of the species its loop leaves. A run, as far as it has come, prefers no infeasible
candidate in culling or reporting if and only if no species it culls or reports has individuals
of both kinds. -/
theorem run_culls_iff (ga : OlagsaGA K) (hk : ga.numKeyIteration ≠ 1)
    (C VA : Fin (n + 1) → Fin T → K) :
    (∀ best, (ga.run C VA).Yields Admissible (.ok best) →
        ∃ ga' earlier found final, Reaches ga C VA ga' earlier found ∧
          Ends ga' earlier found final ∧
          best.map BestSolution.individual = final.filterMap bestIndividual) ∧
      ∀ ga' earlier found, Reaches ga C VA ga' earlier found →
        (FairRun ga' earlier found ↔ UnmixedRun ga' earlier found) := by
  constructor
  · intro best hbest
    rw [run_eq_search hk] at hbest
    obtain ⟨⟨final, ga'⟩, hsearch, hcollect⟩ := yields_bind_ok.mp hbest
    obtain ⟨earlier, found, hreach, hends⟩ := search_ok hsearch
    exact ⟨ga', earlier, found, final, hreach, hends,
      ensures_collect_individuals ga' C VA final best hcollect⟩
  · intro ga' earlier found hreach
    have hiterations := numKeyIteration_of_reaches hreach
    have hsound := reaches_sound hiterations hreach
    -- a generation culls species whose individuals are graded
    have hculls : ∀ species, Culls ga' earlier found species →
        ∀ s ∈ inhabited ga' species, CullsFairly s ↔ ¬ Mixed s := by
      intro species hspecies s hs
      refine cullsFairly_iff fun x hx => ?_
      rcases hspecies with hmem | ⟨rfl, -⟩
      · obtain ⟨earlier', hreach'⟩ := reaches_of_mem hreach hmem
        exact (sound_inhabited (reaches_sound hiterations hreach') s hs x hx).graded
      · exact (sound_inhabited hsound s hs x hx).graded
    have hreports : ∀ final, Ends ga' earlier found final → ∀ s ∈ final,
        (ReportsFairly s ↔ ¬ Mixed s) := fun final hends s hs =>
      reportsFairly_iff fun x hx => (sound_of_ends hsound hends s hs x hx).graded
    constructor
    · rintro ⟨hc, hr⟩
      exact ⟨fun species h s hs => (hculls species h s hs).mp (hc species h s hs),
        fun final h s hs => (hreports final h s hs).mp (hr final h s hs)⟩
    · rintro ⟨hc, hr⟩
      exact ⟨fun species h s hs => (hculls species h s hs).mpr (hc species h s hs),
        fun final h s hs => (hreports final h s hs).mpr (hr final h s hs)⟩

/-! ### An infeasible candidate is reported -/

/-- One region, and a stop at the first generation without improvement. -/
def oneRegion : OlagsaInput ℚ :=
  { twoByDefault with
    generations := 1
    generations_ge := Nat.one_pos
    populationSize := 2
    populationSize_ge := Nat.one_lt_two
    maxGenerationsWithoutImprovement := 1
    maxGenerationsWithoutImprovement_ge := Nat.one_pos }

/-- The first candidate is solved twice, the second is not. -/
def secondCandidateFails : List (Draw 0 ℚ) :=
  [.random (1 / 4), .random (1 / 4), .random (1 / 4), .random (1 / 4),
    .solved (.optimal fun _ => 1), .solved (.optimal fun _ => 1),
    .solved (.other "infeasible")]

theorem exists_reaches_secondCandidateFails :
    ∃ ga' earlier found final, Reaches oneRegion.ga (fun _ _ => 1 : Fin 1 → Fin 1 → ℚ)
        (fun _ _ => 1) ga' earlier found ∧ Ends ga' earlier found final ∧
      ∃ specie ∈ final, Mixed specie ∧ ∃ best ∈ bestIndividual specie, ¬ Feasible best := by
  obtain ⟨out, hout, htest⟩ := exists_yields_of_playsTo admissible_of_readDraw
    (show playsTo readDraw secondCandidateFails
      (search oneRegion.ga (fun _ _ => 1 : Fin 1 → Fin 1 → ℚ) fun _ _ => 1)
      (fun out => match out with
        | .ok (species, _) => species.any fun specie =>
            (specie.individuals.any fun x => Feasible x) &&
              (specie.individuals.any fun x => ¬ Feasible x) &&
              (bestIndividual specie).any fun x => ¬ Feasible x
        | .error _ => false) = true by decide +kernel)
  rcases out with e | ⟨species, ga'⟩
  · cases htest
  · obtain ⟨earlier, found, hreach, hends⟩ := search_ok hout
    obtain ⟨specie, hspecie, hmixed⟩ := List.any_eq_true.mp htest
    simp only [Bool.and_eq_true, List.any_eq_true, decide_eq_true_eq, Option.any_eq_true]
      at hmixed
    obtain ⟨⟨hfeasible, hnot⟩, hbest⟩ := hmixed
    exact ⟨ga', earlier, found, species, hreach, hends, specie, hspecie, ⟨hfeasible, hnot⟩, hbest⟩

/-- The infeasible one of two candidates is reported for their species. -/
theorem not_fairRun :
    ¬ ∀ ga' earlier found, Reaches oneRegion.ga (fun _ _ => 1 : Fin 1 → Fin 1 → ℚ)
      (fun _ _ => 1) ga' earlier found → FairRun ga' earlier found := by
  intro h
  obtain ⟨ga', earlier, found, final, hreach, hends, specie, hspecie, hmixed, best, hbest, hnot⟩ :=
    exists_reaches_secondCandidateFails
  exact hnot ((h ga' earlier found hreach).reports final hends specie hspecie hmixed best hbest)

/-- The same run, read the other way: it has a mixed species. -/
theorem run_culls_iff_secondCandidateFails :
    ∃ ga' earlier found, Reaches oneRegion.ga (fun _ _ => 1 : Fin 1 → Fin 1 → ℚ)
        (fun _ _ => 1) ga' earlier found ∧
      (FairRun ga' earlier found ↔ UnmixedRun ga' earlier found) := by
  obtain ⟨ga', earlier, found, final, hreach, -⟩ := exists_reaches_secondCandidateFails
  exact ⟨ga', earlier, found, hreach,
    (run_culls_iff oneRegion.ga (by decide) _ _).2 ga' earlier found hreach⟩

end AllocationKeys.Olagsa
