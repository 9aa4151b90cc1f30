import AllocationKeys.Olagsa.Algorithm
import AllocationKeys.Olagsa.Search
import Mathlib.Algebra.Field.Rat
import Mathlib.Algebra.Order.Field.Rat
import Mathlib.Data.Rat.Floor

/-!
# When a child finds its species

The regions of the initial species cover the simplex (`exists_initial_species`), so the first
population always finds its species. From then on the species without individuals are gone:
`survivors` drops them, and with them their regions. A child is assigned exactly when it lies in
the region of a species that had individuals when its generation began
(`assignSpecies_children`); `assignsEveryChild_iff` says so of whole runs.
-/

namespace AllocationKeys.Olagsa

open Program

variable {n T : ℕ} {K : Type} [Field K] [LinearOrder K]

/-! ### Only an assignment raises it -/

/-- Any exception but the one of `_assign_species`. -/
abbrev NotUnassigned (e : Failure) : Prop := e ≠ .unassigned

/-- The exceptions of a solve and of reading its result. -/
abbrev SolverFailure (e : Failure) : Prop := e ≠ .unassigned ∧ e ≠ .zeroDivision

section Raises

variable {ok : ∀ call : Call n T K, Reply call → Prop}

omit [Field K] [LinearOrder K] in
theorem raises_item {α : Type} (l : List α) (i : ℕ) :
    (item l i : Search n T K α).Raises ok SolverFailure := by
  unfold item
  split
  · exact raises_ret
  · exact raises_raise (by decide)

theorem raises_solve (VA C : Fin (n + 1) → Fin T → K) :
    (solve VA C).Raises ok SolverFailure := by
  unfold solve
  split
  · exact raises_raise (by decide)
  split
  · exact raises_raise (by decide)
  · apply raises_call
    rintro (p | status | _) _
    · exact raises_ret
    · exact raises_ret
    · exact raises_raise (by decide)

theorem raises_toIteration (s : Solution n T K) (share : K) :
    (Program.ofExcept (s.toIteration share) : Search n T K _).Raises ok
      SolverFailure := by
  unfold Solution.toIteration
  split
  · exact raises_raise (by decide)
  · exact raises_ret

theorem raises_solveIteration (VA : Fin (n + 1) → Fin T → K) (allocationIteration : List K)
    (i : ℕ) (currentC : Fin (n + 1) → Fin T → K) (current : Option (Solution n T K)) :
    (solveIteration VA allocationIteration i currentC current).Raises ok
      SolverFailure := by
  refine (raises_item allocationIteration i).bind fun share _ => ?_
  split
  · exact (raises_solve _ _).bind fun _ _ => raises_ret
  · split
    · exact raises_raise (by decide)
    · refine (raises_toIteration _ _).bind fun prevIter _ => ?_
      split
      · exact raises_raise (by decide)
      · exact (raises_solve _ _).bind fun _ _ => raises_ret

theorem raises_solveGenetic (numIterations : ℕ) (C VA : Fin (n + 1) → Fin T → K)
    (allocationIteration : List K) :
    (solveGenetic numIterations C VA allocationIteration).Raises ok SolverFailure := by
  have hloop : ∀ (k i : ℕ) (currentC : Fin (n + 1) → Fin T → K)
      (current : Option (Solution n T K)),
        (solveGeneticFrom VA allocationIteration k i currentC current).Raises ok
          SolverFailure := by
    intro k
    induction k with
    | zero => intro i currentC current; exact raises_ret
    | succ k ih =>
      intro i currentC current
      refine (raises_solveIteration VA allocationIteration i currentC current).bind fun r _ => ?_
      obtain ⟨currentC', share, solution⟩ := r
      dsimp only
      split
      · exact raises_ret
      · exact ih _ _ _
  exact hloop numIterations 0 C none

theorem raises_solveKey (numIterations : ℕ) (C VA : Fin (n + 1) → Fin T → K)
    (allocationIteration : List K) :
    (solveKey numIterations C VA allocationIteration).Raises ok SolverFailure := by
  have hloop : ∀ (k i : ℕ) (currentC : Fin (n + 1) → Fin T → K)
      (current : Option (Solution n T K)) (key : Key n T K),
        (solveKeyFrom VA allocationIteration k i currentC current key).Raises ok
          SolverFailure := by
    intro k
    induction k with
    | zero => intro i currentC current key; exact raises_ret
    | succ k ih =>
      intro i currentC current key
      refine (raises_solveIteration VA allocationIteration i currentC current).bind fun r _ => ?_
      obtain ⟨currentC', share, solution⟩ := r
      dsimp only
      split
      · exact raises_ret
      · exact (raises_toIteration _ _).bind fun _ _ => ih _ _ _ _
  exact hloop numIterations 0 C none ⟨[], []⟩

theorem raises_random : (random : Search n T K K).Raises Admissible NotUnassigned :=
  raises_call fun _ _ => raises_ret

theorem raises_randint (high : ℕ) :
    (randint high : Search n T K ℕ).Raises Admissible NotUnassigned :=
  raises_call fun _ _ => raises_ret

theorem raises_randIndex (l : List K) :
    (randIndex l : Search n T K ℕ).Raises Admissible NotUnassigned := by
  unfold randIndex
  split
  · exact raises_raise (by decide)
  · exact raises_randint _

theorem raises_normalize (l : List K) :
    (normalize l : Search n T K (List K)).Raises Admissible NotUnassigned := by
  unfold normalize
  split
  · exact raises_raise (by decide)
  · exact raises_ret

theorem raises_rouletteWheel (population : List (Individual K)) (size : ℕ) :
    (rouletteWheel population size : Search n T K _).Raises Admissible NotUnassigned := by
  unfold rouletteWheel
  dsimp only
  split
  · exact raises_raise (by decide)
  · refine Raises.bind (raises_call fun _ _ => raises_ret) fun indices _ => ?_
    exact raises_mapM fun i _ => (raises_item population i).mono fun _ h => h.1

theorem raises_crossoverChromosomes (parentA parentB : Individual K) :
    (crossoverChromosomes parentA parentB : Search n T K _).Raises Admissible NotUnassigned := by
  refine (raises_randIndex _).bind fun point _ => ?_
  refine (raises_randint 1).bind fun coin _ => ?_
  split <;> exact raises_normalize _

theorem raises_breedIntra (ga : OlagsaGA K) (specie : Specie K) :
    (breedIntra ga specie : Search n T K _).Raises Admissible NotUnassigned := by
  refine (raises_rouletteWheel _ 2).bind fun parents _ => ?_
  split
  · refine (raises_randint 1).bind fun coin _ => ?_
    split
    · exact (raises_crossoverChromosomes _ _).map
    · exact (raises_randint 1).bind fun _ _ => raises_ret
  · exact raises_raise (by decide)

theorem raises_breedInter (ga : OlagsaGA K) (specie : Specie K) (species : List (Specie K)) :
    (breedInter ga specie species : Search n T K _).Raises Admissible NotUnassigned := by
  unfold breedInter
  split
  · exact raises_breedIntra ga specie
  · refine (raises_rouletteWheel _ 1).bind fun parentsA _ => ?_
    refine ((raises_item parentsA 0).mono fun _ h => h.1).bind fun parentA _ => ?_
    refine (raises_rouletteWheel _ 1).bind fun parentsB _ => ?_
    refine ((raises_item parentsB 0).mono fun _ h => h.1).bind fun parentB _ => ?_
    exact (raises_crossoverChromosomes _ _).map

theorem raises_mutate (ga : OlagsaGA K) (individual : Individual K) :
    (mutate ga individual : Search n T K _).Raises Admissible NotUnassigned := by
  refine raises_random.bind fun r _ => ?_
  split
  · exact raises_ret
  · refine (raises_randIndex _).bind fun index _ => ?_
    exact raises_random.bind fun gene _ => (raises_normalize _).map

theorem raises_evaluate (ga : OlagsaGA K) (C VA : Fin (n + 1) → Fin T → K)
    (individual : Individual K) :
    (evaluate ga C VA individual).Raises ok SolverFailure := by
  refine (raises_solveGenetic _ C VA _).bind fun solution _ => ?_
  split
  · exact raises_ret
  · split
    · exact raises_ret
    · split
      · exact raises_raise (by decide)
      · exact raises_ret

theorem raises_initializePopulation (ga : OlagsaGA K) :
    (initializePopulation ga : Search n T K _).Raises Admissible NotUnassigned := by
  refine raises_mapM fun _ _ => Raises.map ?_
  exact (raises_mapM fun _ _ => raises_random).bind fun _ _ => raises_normalize _

theorem raises_collect (ga : OlagsaGA K) (C VA : Fin (n + 1) → Fin T → K)
    (species : List (Specie K)) : (collect ga C VA species).Raises ok SolverFailure :=
  raises_mapM fun _ _ => (raises_solveKey _ C VA _).bind fun _ _ => raises_ret

variable [FloorSemiring K]

theorem raises_breedChildren (ga : OlagsaGA K) (C VA : Fin (n + 1) → Fin T → K)
    (species : List (Specie K)) :
    (breedChildren ga C VA species).Raises Admissible NotUnassigned := by
  refine raises_mapM fun specie _ => ?_
  refine Raises.bind ?_ fun child _ => Raises.bind ?_ fun _ _ =>
    (raises_evaluate ga C VA _).mono fun _ h => h.1
  · split
    · refine raises_random.bind fun r _ => ?_
      split
      · exact raises_breedInter ga specie species
      · exact raises_breedIntra ga specie
    · exact raises_breedIntra ga specie
  · split
    · exact raises_mutate ga child
    · exact raises_ret

end Raises

/-! ### The initial species cover the simplex -/

omit [Field K] [LinearOrder K] in
theorem exists_mapIdx {α : Type} {P : Specie K → Prop} {regions : List α} {f : ℕ → α → Specie K}
    {region : α} (hmem : region ∈ regions) (h : ∀ j, P (f j region)) :
    ∃ s ∈ regions.mapIdx f, P s := by
  obtain ⟨j, hj, rfl⟩ := List.mem_iff_getElem.mp hmem
  exact ⟨f j regions[j], List.mem_mapIdx.mpr ⟨j, hj, rfl⟩, h j⟩

/-- **The first species cover the simplex.** -/
theorem exists_initial_species [IsStrictOrderedRing K] {ga ga' : OlagsaGA K}
    {species : List (Specie K)} (hinitial : initializeSpecies ga = .ok (species, ga'))
    {x : Individual K} (h : Distribution ga.numKeyIteration x.chromosomes) :
    ∃ s ∈ species, Lies x s := by
  have hlength := h.length
  have hsum := h.sum
  have hnonneg := h.nonneg
  rcases initializeSpecies_ok hinitial with ⟨hk, -, rfl, -⟩ | ⟨hk, rfl, -⟩
  · rw [hk] at hlength
    obtain ⟨a, b, hab⟩ := List.length_eq_two.mp hlength
    simp only [hab, List.sum_cons, List.sum_nil, add_zero, List.mem_cons, List.not_mem_nil,
      or_false, forall_eq_or_imp, forall_eq] at hsum hnonneg
    obtain ⟨seg, hseg, hwithin⟩ := segments_cover ga.speciesWaited hnonneg.1
      (show a ≤ 1 by linarith [hnonneg.2])
    refine exists_mapIdx hseg fun j => ⟨⟨a, b, 0⟩, by rw [hab]; rfl, ?_⟩
    rwa [show b = lineFunc a by rw [lineFunc]; linarith]
  · rw [hk] at hlength
    obtain ⟨a, b, c, habc⟩ := List.length_eq_three.mp hlength
    simp only [habc, List.sum_cons, List.sum_nil, add_zero, List.mem_cons, List.not_mem_nil,
      or_false, forall_eq_or_imp, forall_eq] at hsum hnonneg
    have hequilateral : Equilateral (⟨1, 0, 0⟩ : Coordinate K) ⟨0, 1, 0⟩ ⟨0, 0, 1⟩ := by
      constructor <;> simp only [distance3dSq] <;> norm_num
    obtain ⟨tri, htri, hwithin⟩ := divideTriangle_covers ga.speciesWaited hequilateral
      hnonneg.1 hnonneg.2.1 hnonneg.2.2 (show a + b + c = 1 by linarith)
    refine exists_mapIdx htri fun j => ⟨⟨a, b, c⟩, by rw [habc]; rfl, ?_⟩
    have hpoint : barycentric (⟨1, 0, 0⟩ : Coordinate K) ⟨0, 1, 0⟩ ⟨0, 0, 1⟩ a b c
        = ⟨a, b, c⟩ := by
      simp [barycentric]
    rwa [hpoint] at hwithin

/-- The start of a search does not raise it. -/
theorem raises_startSpecies [IsStrictOrderedRing K] {ga : OlagsaGA K}
    (hk : ga.numKeyIteration = 2 ∨ ga.numKeyIteration = 3) (C VA : Fin (n + 1) → Fin T → K) :
    (startSpecies ga C VA).Raises Admissible NotUnassigned := by
  have hk0 : ga.numKeyIteration ≠ 0 := by omega
  rw [startSpecies_eq]
  refine Raises.bind ?_ fun population hpopulation => ?_
  · exact (raises_initializePopulation ga).bind fun population _ =>
      raises_mapM fun x _ => (raises_evaluate ga C VA x).mono fun _ h => h.1
  · have hsound := ensures_population hk0 C VA population hpopulation
    refine Raises.bind ?_ fun result hresult => ?_
    · intro e he
      rcases initializeSpecies_error (yields_ofExcept.mp he).symm with ⟨rfl, -⟩ | ⟨rfl, -⟩
      · decide
      · decide
    · obtain ⟨species, ga'⟩ := result
      have hinitial := (yields_ofExcept.mp hresult).symm
      refine Raises.bind ?_ fun _ _ => raises_ret
      intro e he
      rw [yields_ofExcept] at he
      rcases assignSpecies_cases population species fun x hx =>
          (hsound x hx).distribution.point hk with ⟨-, next, hnext, -⟩ | ⟨hnot, -⟩
      · rw [hnext] at he
        cases he
      · exact absurd (fun x hx => exists_initial_species hinitial (hsound x hx).distribution) hnot

/-! ### The children of a generation -/

/-- The child lies in the region of a species that had individuals when the generation began. -/
def HasHome (found : List (Specie K)) (child : Individual K) : Prop :=
  ∃ specie ∈ found, specie.individuals ≠ [] ∧ Lies child specie

/-- The regions left in a generation are those of the species with individuals. -/
theorem exists_survivor_iff {ga : OlagsaGA K} {found : List (Specie K)} {child : Individual K} :
    (∃ s ∈ survivors ga found, Lies child s) ↔ HasHome found child := by
  have hregion : ∀ specie : Specie K, Lies child
      (cullWeakest (applyAdjustedFitness (checkSpecie ga specie).1)) ↔ Lies child specie := by
    intro specie
    rw [Lies, Lies, (cullWeakest_fields _).2]
    show (∃ point, _ ∧ (checkSpecie ga specie).1.isSameSpecie.pointWithin point = true) ↔ _
    rw [(checkSpecie_fields ga specie).2.1]
  constructor
  · rintro ⟨s, hs, hlies⟩
    obtain ⟨specie, hspecie, hne, rfl⟩ := mem_survivors.mp hs
    exact ⟨specie, hspecie, hne, (hregion specie).mp hlies⟩
  · rintro ⟨specie, hspecie, hne, hlies⟩
    exact ⟨_, mem_survivors.mpr ⟨specie, hspecie, hne, rfl⟩, (hregion specie).mpr hlies⟩

variable [FloorSemiring K] [IsStrictOrderedRing K]

/-- A generation can assign its children exactly when each has a home; then each is appended to
exactly one species. -/
theorem assignSpecies_children {ga ga' : OlagsaGA K}
    (hk : ga.numKeyIteration = 2 ∨ ga.numKeyIteration = 3) {C VA : Fin (n + 1) → Fin T → K}
    {earlier : List (List (Specie K))} {found : List (Specie K)}
    {children : List (Individual K)} (h : Reaches ga C VA ga' earlier found)
    (hbreeds : Breeds ga' C VA earlier found children) :
    (∀ child ∈ children, HasHome found child) ∧
        (∃ next, assignSpecies children (survivors ga' found) = .ok next ∧
          Appended children (survivors ga' found) next) ∨
      (¬ ∀ child ∈ children, HasHome found child) ∧
        assignSpecies children (survivors ga' found) = .error .unassigned := by
  have hsound := sound_of_breeds (by omega) (reaches_sound hk h) hbreeds
  have hcases := assignSpecies_cases children (survivors ga' found) fun x hx =>
    (hsound x hx).distribution.point hk
  simpa only [exists_survivor_iff] using hcases

/-- The search never raises `Individual could not be assigned to any species`, and appends every
child of every generation to exactly one species, whatever is drawn and solved. -/
def AssignsEveryChild (ga : OlagsaGA K) (C VA : Fin (n + 1) → Fin T → K) : Prop :=
  (∀ out, (ga.run C VA).Yields Admissible out → out ≠ .error .unassigned) ∧
    ∀ ga' earlier found children, Reaches ga C VA ga' earlier found →
      Breeds ga' C VA earlier found children →
        ∃ next, assignSpecies children (survivors ga' found) = .ok next ∧
          Appended children (survivors ga' found) next

/-- **When a child is lost.**  A generation of a run appends every child it breeds to exactly one
species if and only if each has a home; and a run may raise the exception if and only if some
generation that a run reaches breeds a child without one. -/
theorem assignsEveryChild_iff (ga : OlagsaGA K)
    (hk : ga.numKeyIteration = 2 ∨ ga.numKeyIteration = 3) (C VA : Fin (n + 1) → Fin T → K) :
    (∀ ga' earlier found children, Reaches ga C VA ga' earlier found →
      Breeds ga' C VA earlier found children →
        ((∃ next, assignSpecies children (survivors ga' found) = .ok next ∧
            Appended children (survivors ga' found) next) ↔
          ∀ child ∈ children, HasHome found child)) ∧
      ((ga.run C VA).Yields Admissible (.error .unassigned) ↔
        ∃ ga' earlier found children, Reaches ga C VA ga' earlier found ∧
          Breeds ga' C VA earlier found children ∧ ∃ child ∈ children, ¬ HasHome found child) := by
  constructor
  · intro ga' earlier found children hreach hbreeds
    rcases assignSpecies_children hk hreach hbreeds with ⟨hhome, hnext⟩ | ⟨hnot, herror⟩
    · exact iff_of_true hnext hhome
    · refine iff_of_false ?_ hnot
      rintro ⟨next, hnext, -⟩
      rw [hnext] at herror
      cases herror
  · rw [run_eq_search (show ga.numKeyIteration ≠ 1 by omega)]
    constructor
    · intro hyields
      -- neither the start, nor breeding, nor the keys at the end raise it
      rcases yields_bind.mp hyields with ⟨result, -, hcollect⟩ | ⟨e, hsearch, heq⟩
      · exact absurd rfl (raises_collect _ C VA _ _ hcollect).1
      · cases heq
        rcases search_error hsearch with hstart | ⟨ga', earlier, found, hreach, hbreed | hbad⟩
        · exact absurd rfl (raises_startSpecies hk C VA _ hstart)
        · exact absurd rfl (raises_breedChildren _ C VA _ _ hbreed)
        · obtain ⟨children, hbreeds, herror⟩ := hbad
          refine ⟨ga', earlier, found, children, hreach, hbreeds, ?_⟩
          rcases assignSpecies_children hk hreach hbreeds with ⟨-, next, hnext, -⟩ | ⟨hnot, -⟩
          · rw [hnext] at herror
            cases herror
          · push Not at hnot
            exact hnot
    · rintro ⟨ga', earlier, found, children, hreach, hbreeds, child, hchild, hhomeless⟩
      rcases assignSpecies_children hk hreach hbreeds with ⟨hhome, -⟩ | ⟨-, herror⟩
      · exact absurd (hhome child hchild) hhomeless
      · exact yields_bind.mpr (Or.inr ⟨_, search_of_breeds hreach hbreeds herror, rfl⟩)

/-! ### A child that is lost -/

/-- Two regions, and one generation in which every child is mutated. -/
def twoRegions : OlagsaInput ℚ :=
  { twoByDefault with
    generations := 1
    generations_ge := Nat.one_pos
    populationSize := 2
    populationSize_ge := Nat.one_lt_two
    crossoverRate := 0
    crossoverRate_mem := by decide
    interSpeciesCrossoverRate := 0
    interSpeciesCrossoverRate_mem := by decide
    mutationRate := 1
    mutationRate_mem := by decide
    expectedSpeciesCount := 2
    expectedSpeciesCount_ge := Nat.two_pos }

/-- Both candidates lie in the second region, and the children are mutated into the first. -/
def mutatedAway : List (Draw 0 ℚ) :=
  [.random (3 / 4), .random (1 / 4), .random (3 / 4), .random (1 / 4),
    .solved (.other "infeasible"), .solved (.other "infeasible"),
    .random 0, .choice [0, 0], .randint 0, .randint 0, .random 0, .randint 0, .random 0,
    .solved (.other "infeasible"),
    .random 0, .choice [0, 0], .randint 0, .randint 0, .random 0, .randint 0, .random 0,
    .solved (.other "infeasible")]

theorem yields_unassigned_mutatedAway :
    (twoRegions.ga.run (fun _ _ => 1 : Fin 1 → Fin 1 → ℚ) fun _ _ => 1).Yields Admissible
      (.error .unassigned) := by
  obtain ⟨out, hout, htest⟩ := exists_yields_of_playsTo admissible_of_readDraw
    (show playsTo readDraw mutatedAway
      (twoRegions.ga.run (fun _ _ => 1 : Fin 1 → Fin 1 → ℚ) fun _ _ => 1)
      (fun out => match out with
        | .error e => e == .unassigned
        | .ok _ => false) = true by decide +kernel)
  rcases out with e | best
  · rwa [← beq_iff_eq.mp htest]
  · cases htest

/-- The run raises the exception. -/
theorem not_assignsEveryChild :
    ¬ AssignsEveryChild twoRegions.ga (fun _ _ => 1 : Fin 1 → Fin 1 → ℚ) fun _ _ => 1 :=
  fun hnever => hnever.1 _ yields_unassigned_mutatedAway rfl

/-- That run breeds a child without a home, and its generation cannot append its children. -/
theorem assignsEveryChild_iff_twoRegions :
    ∃ ga' earlier found children,
      Reaches twoRegions.ga (fun _ _ => 1 : Fin 1 → Fin 1 → ℚ) (fun _ _ => 1) ga' earlier found ∧
      Breeds ga' (fun _ _ => 1 : Fin 1 → Fin 1 → ℚ) (fun _ _ => 1) earlier found children ∧
      (∃ child ∈ children, ¬ HasHome found child) ∧
      ¬ ∃ next, assignSpecies children (survivors ga' found) = .ok next ∧
        Appended children (survivors ga' found) next := by
  obtain ⟨hassigns, hraises⟩ := assignsEveryChild_iff twoRegions.ga (Or.inl rfl)
    (fun _ _ => 1 : Fin 1 → Fin 1 → ℚ) fun _ _ => 1
  obtain ⟨ga', earlier, found, children, hreach, hbreeds, child, hchild, hhomeless⟩ :=
    hraises.mp yields_unassigned_mutatedAway
  refine ⟨ga', earlier, found, children, hreach, hbreeds, ⟨child, hchild, hhomeless⟩, ?_⟩
  rw [hassigns ga' earlier found children hreach hbreeds]
  exact fun hhome => hhomeless (hhome child hchild)

end AllocationKeys.Olagsa
