import AllocationKeys.Olagsa.Algorithm
import AllocationKeys.Olagsa.Search
import Mathlib.Algebra.Field.Rat
import Mathlib.Algebra.Order.Field.Rat
import Mathlib.Data.Rat.Floor
import Mathlib.Order.Bounds.Basic

/-!
# What the stagnation check counts

The check adds one to a species' counter when its fittest individual is at least as fit as the
remembered best, and remembers the fittest only when it is less fit. Since the fittest
individual of a species always survives, the second never happens: the counter counts all the
generations, and the best stays that of the first one.

`Meaningful` says what the counter and the best are meant to be, in terms of the fittest
individuals of all generations so far (`tops`). A run is meaningful exactly when no species ever
has a fitter individual than its remembered best (`run_stagnation_iff`).
-/

namespace AllocationKeys.Olagsa

open Program

variable {n T : ℕ} {K : Type} [LinearOrder K]

/-! ### The fittest individuals of a run -/

/-- The largest fitness in a species. -/
def top (specie : Specie K) : Option K := (bestIndividual specie).map Individual.fitness

/-- The largest fitness of the species with an id in each of the generations `states`. -/
def tops (id : ℕ) (states : List (List (Specie K))) : List K :=
  states.filterMap fun species => (species.find? fun specie => specie.id == id).bind top

/-- The latest value is larger than all before it. -/
def Improved : List K → Prop
  | [] => False
  | f :: earlier => earlier ≠ [] ∧ ∀ x ∈ earlier, x < f

instance : DecidablePred (Improved (K := K)) := fun l => match l with
  | [] => inferInstanceAs (Decidable False)
  | f :: earlier => inferInstanceAs (Decidable (earlier ≠ [] ∧ ∀ x ∈ earlier, x < f))

/-- How many values there have been since the last one that was larger than all before it. -/
def sinceImprovement : List K → ℕ
  | [] => 0
  | f :: earlier => if Improved (f :: earlier) then 0 else sinceImprovement earlier + 1

/-- What the check of the generation `found` is meant to establish: every species' counter is
the number of generations since its best fitness last increased, its best fitness is the largest
it has held, and the search stops for lack of improvement only when no species has improved in
as many generations as the parameter says. -/
structure Meaningful (ga : OlagsaGA K) (earlier : List (List (Specie K)))
    (found : List (Specie K)) : Prop where
  counter : ∀ s ∈ found, s.individuals ≠ [] →
    (checkSpecie ga s).1.iterationWithoutImprovement =
      sinceImprovement (tops s.id (found :: earlier))
  best : ∀ s ∈ found, s.individuals ≠ [] →
    IsGreatest {x | x ∈ tops s.id (found :: earlier)} (checkSpecie ga s).1.bestFitness
  stops : stagnated ga found = true → ∀ s ∈ found,
    ∀ j < ga.maxIterationWithoutImprovement, ¬ Improved ((tops s.id (found :: earlier)).drop j)

/-- No species has a fitter individual than the best it remembers. -/
def NoGain (found : List (Specie K)) : Prop :=
  ∀ s ∈ found, ∀ f ∈ top s, f ≤ s.bestFitness

theorem top_eq_none {s : Specie K} : top s = none ↔ s.individuals = [] := by
  rw [top, bestIndividual, Option.map_eq_none_iff, List.head?_eq_none_iff, sortByFitness_eq_nil]

theorem exists_top {s : Specie K} (h : s.individuals ≠ []) : ∃ f, top s = some f :=
  Option.ne_none_iff_exists'.mp fun hnone => h (top_eq_none.mp hnone)

/-- Every individual is at most as fit as the fittest. -/
theorem fitness_le_top {s : Specie K} {f : K} (h : top s = some f) {x : Individual K}
    (hx : x ∈ s.individuals) : x.fitness ≤ f := by
  obtain ⟨best, hbest, rfl⟩ := Option.map_eq_some_iff.mp h
  obtain ⟨rest, hsort⟩ := List.head?_eq_some_iff.mp hbest
  exact fitness_le_head hsort hx

theorem exists_of_top {s : Specie K} {f : K} (h : top s = some f) :
    ∃ x ∈ s.individuals, x.fitness = f := by
  obtain ⟨best, hbest, rfl⟩ := Option.map_eq_some_iff.mp h
  exact ⟨best, mem_sortByFitness.mp (List.mem_of_head? hbest), rfl⟩

/-- The check of a species with individuals, in terms of its top. -/
theorem checkSpecie_of_top (ga : OlagsaGA K) {s : Specie K} {f : K} (h : top s = some f) :
    (s.bestFitness ≤ f → (checkSpecie ga s).1.iterationWithoutImprovement
        = s.iterationWithoutImprovement + 1 ∧
        (checkSpecie ga s).1.bestFitness = s.bestFitness) ∧
      ((checkSpecie ga s).2 = true →
        ga.maxIterationWithoutImprovement ≤ (checkSpecie ga s).1.iterationWithoutImprovement) := by
  obtain ⟨best, hbest, rfl⟩ := Option.map_eq_some_iff.mp h
  obtain ⟨rest, hsort⟩ := List.head?_eq_some_iff.mp hbest
  unfold checkSpecie
  rw [hsort]
  dsimp only
  constructor
  · intro hle
    rw [if_pos hle]
    exact ⟨rfl, rfl⟩
  · intro hflag
    exact of_decide_eq_true hflag

/-- A counter that has reached `m` means no improvement in the last `m` values. -/
theorem not_improved_of_sinceImprovement :
    ∀ {l : List K} {m : ℕ}, m ≤ sinceImprovement l → ∀ j < m, ¬ Improved (l.drop j) := by
  intro l
  induction l with
  | nil => intro m hm j hj; simp [Improved]
  | cons f l ih =>
    intro m hm j hj
    rw [sinceImprovement] at hm
    split at hm
    · omega
    · rename_i hnot
      rcases j with _ | j
      · exact hnot
      · rw [List.drop_succ_cons]
        exact ih (m := m - 1) (by omega) j (by omega)

/-- A constant history has never improved. -/
theorem sinceImprovement_replicate (m : ℕ) (b : K) :
    sinceImprovement (List.replicate m b) = m := by
  induction m with
  | zero => rfl
  | succ m ih =>
    rw [List.replicate_succ, sinceImprovement, ih, if_neg]
    rintro ⟨hne, hlt⟩
    obtain ⟨m', rfl⟩ := Nat.exists_eq_succ_of_ne_zero (n := m) (by rintro rfl; exact hne rfl)
    exact lt_irrefl b (hlt b (by simp))

/-! ### What survives a generation -/

/-- Of a species with individuals, a fittest one is kept. -/
theorem exists_kept_fittest {s : Specie K} (hne : s.individuals ≠ []) :
    ∃ x ∈ (cullWeakest s).individuals, ∀ y ∈ s.individuals, y.fitness ≤ x.fitness := by
  unfold cullWeakest
  split
  · rename_i hone
    obtain ⟨x, hx⟩ := List.length_eq_one_iff.mp hone
    rw [hx]
    exact ⟨x, by simp, by simp⟩
  · rename_i hnot
    rcases hsort : sortByFitness s.individuals with _ | ⟨best, rest⟩
    · exact absurd (sortByFitness_eq_nil.mp hsort) hne
    · have hlength : (best :: rest).length = s.individuals.length := by
        rw [← hsort, length_sortByFitness]
      have hpos := List.length_pos_iff.mpr hne
      obtain ⟨half, hhalf⟩ : ∃ half, (best :: rest).length / 2 = half + 1 :=
        Nat.exists_eq_succ_of_ne_zero (by omega)
      refine ⟨best, ?_, fun y hy => fitness_le_head hsort hy⟩
      simp only [hhalf]
      exact List.mem_cons_self ..

omit [LinearOrder K] in
theorem find?_of_nodup {species : List (Specie K)} (hids : (species.map Specie.id).Nodup)
    {s : Specie K} (hs : s ∈ species) :
    species.find? (fun specie => specie.id == s.id) = some s := by
  induction species with
  | nil => cases hs
  | cons first rest ih =>
    rw [List.map_cons, List.nodup_cons] at hids
    rcases List.mem_cons.mp hs with rfl | hs
    · exact List.find?_cons_of_pos (by simp)
    · have hne : first.id ≠ s.id := fun heq => hids.1 (heq ▸ List.mem_map_of_mem hs)
      rw [List.find?_cons_of_neg (by simpa using hne)]
      exact ih hids.2 hs

section Runs

variable [Field K]

theorem ids_of_appended {population : List (Individual K)} {species next : List (Specie K)}
    (h : Appended population species next) : next.map Specie.id = species.map Specie.id := by
  have hgrown := h.grown
  clear h
  induction hgrown with
  | nil => rfl
  | cons hhead _ ih =>
    obtain ⟨new, rfl, -⟩ := hhead
    rw [List.map_cons, List.map_cons, ih]

theorem ids_survivors (ga : OlagsaGA K) (species : List (Specie K)) :
    ((survivors ga species).map Specie.id).Sublist (species.map Specie.id) := by
  have hids : (checkSpecies ga species).map Specie.id = species.map Specie.id := by
    rw [checkSpecies, List.map_map]
    exact List.map_congr_left fun s _ => (checkSpecie_fields ga s).1
  rw [← hids, survivors, inhabited, List.map_map, List.map_map]
  have hsame : (Specie.id ∘ cullWeakest) ∘ applyAdjustedFitness = (Specie.id : Specie K → ℕ) := by
    funext s
    exact (cullWeakest_fields _).1
  rw [hsame]
  exact List.filter_sublist.map _

/-- Of a species with individuals, one at least as fit as all of them survives. -/
theorem fittest_survives (ga : OlagsaGA K) {s : Specie K} (hne : s.individuals ≠ []) :
    ∃ x ∈ (cullWeakest (applyAdjustedFitness (checkSpecie ga s).1)).individuals,
      ∀ f, top s = some f → f ≤ x.fitness := by
  have hmem : ∀ y, y ∈ (checkSpecie ga s).1.individuals ↔ y ∈ s.individuals := fun y => by
    rw [(checkSpecie_fields ga s).2.2, mem_sortByFitness]
  have hadjusted : ∀ y ∈ s.individuals,
      ∃ y' ∈ (applyAdjustedFitness (checkSpecie ga s).1).individuals, y'.fitness = y.fitness :=
    fun y hy => ⟨_, List.mem_map_of_mem ((hmem y).mpr hy), rfl⟩
  obtain ⟨y, hy⟩ := List.exists_mem_of_ne_nil _ hne
  obtain ⟨y', hy', -⟩ := hadjusted y hy
  obtain ⟨x, hx, hfittest⟩ := exists_kept_fittest (List.ne_nil_of_mem hy')
  refine ⟨x, hx, fun f hf => ?_⟩
  obtain ⟨z, hz, rfl⟩ := exists_of_top hf
  obtain ⟨z', hz', heq⟩ := hadjusted z hz
  exact heq ▸ hfittest z' hz'

/-- A species after a generation: one it found, grown from what survived of it. -/
theorem exists_found_of_appended {ga : OlagsaGA K} {population : List (Individual K)}
    {found next : List (Specie K)} (h : Appended population (survivors ga found) next)
    {s' : Specie K} (hs' : s' ∈ next) :
    ∃ s ∈ found, s.individuals ≠ [] ∧ s'.id = s.id ∧
      s'.iterationWithoutImprovement = (checkSpecie ga s).1.iterationWithoutImprovement ∧
      s'.bestFitness = (checkSpecie ga s).1.bestFitness ∧
      ∃ x ∈ s'.individuals, ∀ f, top s = some f → f ≤ x.fitness := by
  obtain ⟨c, hc, new, rfl⟩ := h.exists_of_mem hs'
  obtain ⟨s, hs, hne, rfl⟩ := mem_survivors.mp hc
  have hcull : ∀ c : Specie K,
      (cullWeakest c).iterationWithoutImprovement = c.iterationWithoutImprovement ∧
        (cullWeakest c).bestFitness = c.bestFitness := by
    intro c
    unfold cullWeakest
    split <;> exact ⟨rfl, rfl⟩
  refine ⟨s, hs, hne, ?_, (hcull _).1, (hcull _).2, ?_⟩
  · show (cullWeakest (applyAdjustedFitness (checkSpecie ga s).1)).id = s.id
    rw [(cullWeakest_fields _).1]
    exact (checkSpecie_fields ga s).1
  · obtain ⟨x, hx, hfittest⟩ := fittest_survives ga hne
    exact ⟨x, List.mem_append_left _ hx, hfittest⟩

/-! ### Whole runs -/

variable [FloorSemiring K] [IsStrictOrderedRing K] {ga ga' : OlagsaGA K}
  {C VA : Fin (n + 1) → Fin T → K}

/-- Species keep different ids. -/
theorem nodup_ids_of_reaches (hk : ga.numKeyIteration = 2 ∨ ga.numKeyIteration = 3)
    {earlier : List (List (Specie K))} {found : List (Specie K)}
    (h : Reaches ga C VA ga' earlier found) : (found.map Specie.id).Nodup := by
  induction h with
  | start hstart =>
    obtain ⟨initial, population, assigned, hinitial, -, happended, rfl⟩ :=
      appended_of_start hk hstart
    have hids : (assigned.map initializeBest).map Specie.id = initial.map Specie.id := by
      rw [← ids_of_appended happended, List.map_map]
      exact List.map_congr_left fun s _ => (initializeBest_fields s).1
    rw [hids]
    exact hinitial.ids
  | generation hreach hbreeds hassign ih =>
    rw [ids_of_appended (appended_of_ok hassign)]
    exact ih.sublist (ids_survivors ga' _)

/-- A species that has never had a fitter individual than its remembered best: its counter has
counted every generation, and every generation had the same largest fitness. -/
structure Steady (earlier : List (List (Specie K))) (s : Specie K) : Prop where
  counter : s.iterationWithoutImprovement = earlier.length
  tops : tops s.id earlier = List.replicate earlier.length s.bestFitness
  top : ∃ f, top s = some f ∧ s.bestFitness ≤ f ∧ (earlier = [] → f = s.bestFitness)

/-- **The fittest survive.**  As long as no generation has a gain, every species with
individuals is steady. -/
theorem steady_of_reaches (hk : ga.numKeyIteration = 2 ∨ ga.numKeyIteration = 3)
    {earlier : List (List (Specie K))} {found : List (Specie K)}
    (h : Reaches ga C VA ga' earlier found) (hno : ∀ species ∈ earlier, NoGain species) :
    ∀ s ∈ found, s.individuals ≠ [] → Steady earlier s := by
  induction h with
  | start hstart =>
    intro s hs hne
    obtain ⟨initial, population, assigned, hinitial, -, happended, rfl⟩ :=
      appended_of_start hk hstart
    obtain ⟨grown, hgrown, rfl⟩ := List.mem_map.mp hs
    obtain ⟨s0, hs0, new, rfl⟩ := happended.exists_of_mem hgrown
    obtain ⟨-, -, hcounter, -⟩ :=
      initializeBest_fields { s0 with individuals := s0.individuals ++ new }
    refine ⟨hcounter.trans (hinitial.fresh s0 hs0), rfl, ?_⟩
    -- the best fitness is that of the first individual, the fittest
    unfold initializeBest at hne ⊢
    split at hne
    · rename_i hnil
      exact absurd (sortByFitness_eq_nil.mp hnil) hne
    · rename_i best rest hsort
      obtain ⟨f, hf⟩ := exists_top hne
      obtain ⟨x, hx, hxf⟩ := exists_of_top hf
      have hle : best.fitness ≤ f := fitness_le_top hf (List.mem_cons_self ..)
      have hge : f ≤ best.fitness := by
        rw [← hxf]
        apply fitness_le_head hsort
        rw [← mem_sortByFitness, hsort]
        exact hx
      exact ⟨f, hf, hle, fun _ => le_antisymm hge hle⟩
  | @generation earlier found next children hreach hbreeds hassign ih =>
    intro s' hs' _
    have happended := appended_of_ok hassign
    obtain ⟨s, hs, hne, hid, hcounter, hbest, x, hx, hfit⟩ := exists_found_of_appended happended hs'
    -- the species was steady, and nothing was gained before this generation
    have hsteady :=
      ih (fun species hspecies => hno species (List.mem_cons_of_mem _ hspecies)) s hs hne
    obtain ⟨f, hf, hle, -⟩ := hsteady.top
    have hgain : f ≤ s.bestFitness := hno found (List.mem_cons_self ..) s hs f hf
    obtain ⟨hcheck, -⟩ := checkSpecie_of_top ga' hf
    obtain ⟨hcheckCounter, hcheckBest⟩ := hcheck hle
    refine ⟨?_, ?_, ?_⟩
    · rw [hcounter, hcheckCounter, hsteady.counter, List.length_cons]
    · -- the generation adds its best fitness to those of the species
      have hfind := find?_of_nodup (nodup_ids_of_reaches hk hreach) hs
      rw [hid, hbest, hcheckBest, Olagsa.tops,
        List.filterMap_cons_some (b := s.bestFitness)
          (by rw [hfind, ← le_antisymm hgain hle]; exact hf)]
      rw [List.length_cons, List.replicate_succ, ← hsteady.tops]
      rfl
    · -- the fittest of the next generation is no less fit
      obtain ⟨f', hf'⟩ := exists_top (List.ne_nil_of_mem hx)
      refine ⟨f', hf', ?_, fun hnil => by cases hnil⟩
      rw [hbest, hcheckBest]
      exact hle.trans ((hfit f hf).trans (fitness_le_top hf' hx))

/-- The history of a steady species, the present generation included. -/
theorem tops_of_steady (hk : ga.numKeyIteration = 2 ∨ ga.numKeyIteration = 3)
    {earlier : List (List (Specie K))} {found : List (Specie K)}
    (h : Reaches ga C VA ga' earlier found) {s : Specie K} (hs : s ∈ found)
    (hsteady : Steady earlier s) {f : K} (hf : top s = some f) :
    tops s.id (found :: earlier) = f :: List.replicate earlier.length s.bestFitness := by
  have hfind := find?_of_nodup (nodup_ids_of_reaches hk h) hs
  rw [Olagsa.tops, List.filterMap_cons_some (b := f) (by rw [hfind]; exact hf), ← hsteady.tops]
  rfl

omit [IsStrictOrderedRing K] in
/-- The states of a run, each with the ones before it. -/
theorem reaches_of_suffix {earlier rest : List (List (Specie K))}
    {found species : List (Specie K)} (h : Reaches ga C VA ga' earlier found)
    (hsuffix : species :: rest <:+ found :: earlier) : Reaches ga C VA ga' rest species := by
  induction h with
  | start hstart =>
    rcases List.suffix_cons_iff.mp hsuffix with heq | hnil
    · cases heq
      exact Reaches.start hstart
    · exact absurd (List.suffix_nil.mp hnil) (by simp)
  | generation hreach hbreeds hassign ih =>
    rcases List.suffix_cons_iff.mp hsuffix with heq | hrest
    · cases heq
      exact hreach.generation hbreeds hassign
    · exact ih hrest

/-- **When the check means what it counts.**  In a run that has come to the check of `found`,
every check has established what it is meant to, if and only if no species ever had a fitter
individual than the best it remembers. -/
theorem run_stagnation_iff (ga : OlagsaGA K)
    (hk : ga.numKeyIteration = 2 ∨ ga.numKeyIteration = 3) (C VA : Fin (n + 1) → Fin T → K)
    (ga' : OlagsaGA K) (earlier : List (List (Specie K))) (found : List (Specie K))
    (h : Reaches ga C VA ga' earlier found) :
    (∀ rest species, species :: rest <:+ found :: earlier → Meaningful ga' rest species) ↔
      ∀ species ∈ found :: earlier, NoGain species := by
  constructor
  · intro hmeaningful
    -- from the first generation on: without a gain so far, a gain now would reset the counter
    induction h with
    | start hstart =>
      intro species hspecies s hs f hf
      obtain rfl := List.mem_singleton.mp hspecies
      have hne : s.individuals ≠ [] := fun hnil => by rw [top_eq_none.mpr hnil] at hf; cases hf
      obtain ⟨f', hf', -, hbest⟩ :=
        (steady_of_reaches hk (Reaches.start hstart) (by simp) s hs hne).top
      rw [Option.mem_def, hf', Option.some.injEq] at hf
      exact hf ▸ (hbest rfl).le
    | @generation earlier found next children hreach hbreeds hassign ih =>
      have hearlier : ∀ species ∈ found :: earlier, NoGain species := ih fun rest species hsuffix =>
        hmeaningful rest species (hsuffix.trans (List.suffix_cons _ _))
      intro species hspecies
      rcases List.mem_cons.mp hspecies with rfl | hspecies
      · intro s hs f hf
        have hne : s.individuals ≠ [] := fun hnil => by rw [top_eq_none.mpr hnil] at hf; cases hf
        have hnext := hreach.generation hbreeds hassign
        have hsteady := steady_of_reaches hk hnext hearlier s hs hne
        by_contra hgain
        have hgain := not_le.mp hgain
        have htops := tops_of_steady hk hnext hs hsteady hf
        have himproved : Improved (tops s.id (species :: found :: earlier)) := by
          rw [htops]
          refine ⟨by simp, fun x hx => ?_⟩
          rw [(List.mem_replicate.mp hx).2]
          exact hgain
        have hcounter := (hmeaningful _ _ List.suffix_rfl).counter s hs hne
        obtain ⟨hcheck, -⟩ := checkSpecie_of_top ga' hf
        rw [htops] at himproved hcounter
        rw [sinceImprovement, if_pos himproved, (hcheck hgain.le).1] at hcounter
        omega
      · exact hearlier species hspecies
  · intro hno rest species hsuffix
    have hreach := reaches_of_suffix h hsuffix
    have hnoSpecies : NoGain species := hno species (hsuffix.subset (List.mem_cons_self ..))
    have hsteady := steady_of_reaches hk hreach fun g hg =>
      hno g (hsuffix.subset (List.mem_cons_of_mem _ hg))
    -- all generations had the largest fitness that the species remembers
    have hconstant : ∀ s ∈ species, s.individuals ≠ [] →
        tops s.id (species :: rest) = List.replicate (rest.length + 1) s.bestFitness ∧
          (checkSpecie ga' s).1.iterationWithoutImprovement = rest.length + 1 ∧
          (checkSpecie ga' s).1.bestFitness = s.bestFitness ∧
          ((checkSpecie ga' s).2 = true →
            ga'.maxIterationWithoutImprovement
              ≤ (checkSpecie ga' s).1.iterationWithoutImprovement) := by
      intro s hs hne
      obtain ⟨f, hf, hle, -⟩ := (hsteady s hs hne).top
      obtain ⟨hcheck, hflag⟩ := checkSpecie_of_top ga' hf
      obtain ⟨hcounter, hbest⟩ := hcheck hle
      refine ⟨?_, by rw [hcounter, (hsteady s hs hne).counter], hbest, hflag⟩
      rw [tops_of_steady hk hreach hs (hsteady s hs hne) hf,
        le_antisymm (hnoSpecies s hs f hf) hle, List.replicate_succ]
    refine ⟨fun s hs hne => ?_, fun s hs hne => ?_, fun hstagnated s hs j hj => ?_⟩
    · obtain ⟨htops, hcounter, -, -⟩ := hconstant s hs hne
      rw [htops, sinceImprovement_replicate, hcounter]
    · obtain ⟨htops, -, hbest, -⟩ := hconstant s hs hne
      rw [htops, hbest]
      constructor
      · exact List.mem_replicate.mpr ⟨by omega, rfl⟩
      · intro x hx
        exact (List.mem_replicate.mp hx).2.le
    · have hflag := List.all_eq_true.mp hstagnated s hs
      have hne : s.individuals ≠ [] := by
        intro hnil
        rw [checkSpecie, sortByFitness_eq_nil.mpr hnil] at hflag
        cases hflag
      obtain ⟨htops, hcounter, -, hmax⟩ := hconstant s hs hne
      refine not_improved_of_sinceImprovement ?_ j hj
      rw [htops, sinceImprovement_replicate, ← hcounter]
      exact hmax hflag

/-! ### An improvement that is counted as none -/

/-- Two generations of one region. -/
def twoGenerations : OlagsaInput ℚ :=
  { twoByDefault with
    generations := 2
    generations_ge := Nat.two_pos
    populationSize := 2
    populationSize_ge := Nat.one_lt_two }

/-- The two first candidates are solved. -/
def bothSolved : List (Draw 0 ℚ) :=
  [.random (1 / 4), .random (1 / 4), .random (1 / 4), .random (1 / 4),
    .solved (.optimal fun _ => 1), .solved (.optimal fun _ => 1),
    .solved (.optimal fun _ => 1), .solved (.optimal fun _ => 1)]

/-- The two children are copies of the one that is left, and neither is solved. -/
def childrenFail : List (Draw 0 ℚ) :=
  [.choice [0, 0], .randint 1, .randint 0, .random (1 / 2), .solved (.other "infeasible"),
    .choice [0, 0], .randint 1, .randint 0, .random (1 / 2), .solved (.other "infeasible")]

/-- The species found by the second check of the run has a gain. -/
theorem exists_reaches_gain :
    ∃ ga' earlier found, Reaches twoGenerations.ga (fun _ _ => 0 : Fin 1 → Fin 1 → ℚ)
        (fun _ _ => 1) ga' earlier found ∧
      ∃ specie ∈ found, ∃ f ∈ top specie, specie.bestFitness < f ∧ earlier ≠ [] := by
  obtain ⟨out, hout, htest⟩ := exists_yields_of_playsTo admissible_of_readDraw
    (show playsTo readDraw bothSolved
      (startSpecies twoGenerations.ga (fun _ _ => 0 : Fin 1 → Fin 1 → ℚ) fun _ _ => 1)
      (fun out => match out with
        | .ok (species, ga') =>
            (decide (0 < ga'.numGeneration) && !stagnated ga' species) &&
            decide (totalAdjusted (survivors ga' species) ≠ 0) &&
            playsTo readDraw childrenFail
              (breedChildren ga' (fun _ _ => 0 : Fin 1 → Fin 1 → ℚ) (fun _ _ => 1)
                (survivors ga' species))
              (fun out => match out with
                | .ok children => match assignSpecies children (survivors ga' species) with
                  | .ok next => next.any fun specie =>
                      (top specie).any fun f => specie.bestFitness < f
                  | .error _ => false
                | .error _ => false)
        | .error _ => false) = true by decide +kernel)
  rcases out with e | ⟨species, ga'⟩
  · cases htest
  · simp only [Bool.and_eq_true, decide_eq_true_eq, Bool.not_eq_true'] at htest
    obtain ⟨⟨⟨hrunning, hnot⟩, hfitness⟩, hchildren⟩ := htest
    obtain ⟨out, hbreeds, htest⟩ := exists_yields_of_playsTo admissible_of_readDraw hchildren
    rcases out with e | children
    · cases htest
    · dsimp only at htest
      split at htest
      · rename_i next hassign
        obtain ⟨specie, hspecie, hgain⟩ := List.any_eq_true.mp htest
        obtain ⟨f, hf, hlt⟩ := (Option.any_eq_true ..).mp hgain
        exact ⟨ga', [species], next,
          (Reaches.start hout).generation ⟨hrunning, hnot, hfitness, hbreeds⟩ hassign, specie,
          hspecie, f, hf, of_decide_eq_true hlt, by simp⟩
      · cases htest

/-- The best of the second check is not the largest fitness so far. -/
theorem not_meaningful :
    ¬ ∀ ga' earlier found, Reaches twoGenerations.ga (fun _ _ => 0 : Fin 1 → Fin 1 → ℚ)
      (fun _ _ => 1) ga' earlier found → Meaningful ga' earlier found := by
  intro h
  obtain ⟨ga', earlier, found, hreach, specie, hspecie, f, hf, hlt, -⟩ := exists_reaches_gain
  have hne : specie.individuals ≠ [] := fun hnil => by
    rw [top_eq_none.mpr hnil] at hf
    cases hf
  have hfind := find?_of_nodup (nodup_ids_of_reaches (Or.inl rfl) hreach) hspecie
  have hmem : f ∈ tops specie.id (found :: earlier) :=
    List.mem_filterMap.mpr ⟨found, List.mem_cons_self .., by rw [hfind]; exact hf⟩
  have hle := ((h ga' earlier found hreach).best specie hspecie hne).2 hmem
  obtain ⟨hcheck, -⟩ := checkSpecie_of_top ga' hf
  rw [(hcheck hlt.le).2] at hle
  exact absurd hle (not_le.mpr hlt)

/-- The same run, read the other way: some species has a gain. -/
theorem run_stagnation_iff_childrenFail :
    ∃ ga' earlier found, Reaches twoGenerations.ga (fun _ _ => 0 : Fin 1 → Fin 1 → ℚ)
        (fun _ _ => 1) ga' earlier found ∧
      ((∀ rest species, species :: rest <:+ found :: earlier → Meaningful ga' rest species) ↔
        ∀ species ∈ found :: earlier, NoGain species) := by
  obtain ⟨ga', earlier, found, hreach, -⟩ := exists_reaches_gain
  exact ⟨ga', earlier, found, hreach,
    run_stagnation_iff twoGenerations.ga (Or.inl rfl) _ _ ga' earlier found hreach⟩

end Runs

end AllocationKeys.Olagsa
