import AllocationKeys.Olagsa.Stagnation

/-!
# The best of a species is never lost

A sort always stands before a cut, and a cut leaves at least one individual; so the fittest
individual of a species survives every generation, and the one that is reported in the end is as
fit as any the species ever received (`run_reportsBest`).

* `Keeps`: what one generation does for the species it finds, and what follows for all later ones;
* `Received`: what a species got in a run; `ReportsBest`: what the solutions are then meant to be.
-/

namespace AllocationKeys.Olagsa

open Program

variable {n T : ℕ} {K : Type} [LinearOrder K]

/-- The species with the id `id` received `x`: it held it when one of the generations `states`
began. A generation begins right after an assignment, so nothing assigned is missed. -/
def Received (states : List (List (Specie K))) (id : ℕ) (x : Individual K) : Prop :=
  ∃ species ∈ states, ∃ s ∈ species, s.id = id ∧ x ∈ s.individuals

/-- Every species that has individuals stays and has some, and its highest fitness does not
decrease. -/
def Keeps (species next : List (Specie K)) : Prop :=
  ∀ s ∈ species, ∀ f, top s = some f →
    ∃ s' ∈ next, s'.id = s.id ∧ ∃ f', top s' = some f' ∧ f ≤ f'

/-- There is one solution for every species that ever received an individual, and its fitness is
the highest of all that the species received. -/
def ReportsBest (states : List (List (Specie K))) (best : List (BestSolution n T K)) : Prop :=
  ∃ ids : List ℕ, ids.Nodup ∧ (∀ id, id ∈ ids ↔ ∃ x, Received states id x) ∧
    List.Forall₂ (fun id b => IsGreatest {f | ∃ x, Received states id x ∧ x.fitness = f} b.fitness)
      ids best

/-! ### One generation -/

theorem Keeps.refl (species : List (Specie K)) : Keeps species species :=
  fun s hs f hf => ⟨s, hs, rfl, f, hf, le_rfl⟩

theorem Keeps.trans {species next last : List (Specie K)} (h : Keeps species next)
    (h' : Keeps next last) : Keeps species last := by
  intro s hs f hf
  obtain ⟨s', hs', hid, f', hf', hle⟩ := h s hs f hf
  obtain ⟨s'', hs'', hid', f'', hf'', hle'⟩ := h' s' hs' f' hf'
  exact ⟨s'', hs'', hid'.trans hid, f'', hf'', hle.trans hle'⟩

theorem exists_top_ge {s : Specie K} {x : Individual K} (hx : x ∈ s.individuals) :
    ∃ f, top s = some f ∧ x.fitness ≤ f := by
  obtain ⟨f, hf⟩ := exists_top (List.ne_nil_of_mem hx)
  exact ⟨f, hf, fitness_le_top hf hx⟩

theorem keeps_checkSpecies (ga : OlagsaGA K) (species : List (Specie K)) :
    Keeps species (checkSpecies ga species) := by
  intro s hs f hf
  obtain ⟨hid, -, hindividuals⟩ := checkSpecie_fields ga s
  obtain ⟨x, hx, rfl⟩ := exists_of_top hf
  obtain ⟨f', hf', hle⟩ := exists_top_ge (s := (checkSpecie ga s).1) (x := x) (by
    rw [hindividuals, mem_sortByFitness]
    exact hx)
  exact ⟨_, List.mem_map_of_mem hs, hid, f', hf', hle⟩

variable [Field K]

theorem keeps_survivors (ga : OlagsaGA K) (species : List (Specie K)) :
    Keeps species (survivors ga species) := by
  intro s hs f hf
  have hne : s.individuals ≠ [] := fun hnil => by
    rw [top_eq_none.mpr hnil] at hf
    cases hf
  obtain ⟨x, hx, hfittest⟩ := fittest_survives ga hne
  obtain ⟨f', hf', hle⟩ := exists_top_ge hx
  refine ⟨_, mem_survivors.mpr ⟨s, hs, hne, rfl⟩, ?_, f', hf', (hfittest f hf).trans hle⟩
  rw [(cullWeakest_fields _).1]
  exact (checkSpecie_fields ga s).1

theorem keeps_of_appended {population : List (Individual K)} {species next : List (Specie K)}
    (h : Appended population species next) : Keeps species next := by
  have hgrown := h.grown
  clear h
  induction hgrown with
  | nil => intro s hs; cases hs
  | cons hhead _ ih =>
    intro s hs f hf
    rcases List.mem_cons.mp hs with rfl | hs
    · obtain ⟨new, rfl, -⟩ := hhead
      obtain ⟨x, hx, rfl⟩ := exists_of_top hf
      obtain ⟨f', hf', hle⟩ := exists_top_ge
        (s := { s with individuals := s.individuals ++ new }) (List.mem_append_left new hx)
      exact ⟨_, List.mem_cons_self .., rfl, f', hf', hle⟩
    · obtain ⟨s', hs', hkept⟩ := ih s hs f hf
      exact ⟨s', List.mem_cons_of_mem _ hs', hkept⟩

/-- However the loop stops, it leaves the best of every species. -/
theorem keeps_of_ends {ga : OlagsaGA K} {earlier : List (List (Specie K))}
    {found final : List (Specie K)} (h : Ends ga earlier found final) : Keeps found final := by
  cases h with
  | finished _ => exact Keeps.refl found
  | noImprovement _ _ => exact keeps_checkSpecies ga found
  | noFitness _ _ _ => exact keeps_survivors ga found

/-- What the loop leaves, a species it found had received. -/
theorem exists_found_of_ends {ga : OlagsaGA K} {earlier : List (List (Specie K))}
    {found final : List (Specie K)} (h : Ends ga earlier found final) {s' : Specie K}
    (hs' : s' ∈ final) {x' : Individual K} (hx' : x' ∈ s'.individuals) :
    ∃ s ∈ found, s.id = s'.id ∧ ∃ x ∈ s.individuals, x.fitness = x'.fitness := by
  cases h with
  | finished _ => exact ⟨s', hs', rfl, x', hx', rfl⟩
  | noImprovement _ _ =>
    obtain ⟨s, hs, rfl⟩ := List.mem_map.mp hs'
    obtain ⟨hid, -, hindividuals⟩ := checkSpecie_fields ga s
    rw [hindividuals, mem_sortByFitness] at hx'
    exact ⟨s, hs, hid.symm, x', hx', rfl⟩
  | noFitness _ _ _ =>
    obtain ⟨s, hs, -, rfl⟩ := mem_survivors.mp hs'
    obtain ⟨hid, -, hindividuals⟩ := checkSpecie_fields ga s
    obtain ⟨x, hx, rfl⟩ := List.mem_map.mp (cullWeakest_subset _ x' hx')
    rw [hindividuals, mem_sortByFitness] at hx
    exact ⟨s, hs, by rw [(cullWeakest_fields _).1]; exact hid.symm, x, hx, rfl⟩

theorem ids_of_ends {ga : OlagsaGA K} {earlier : List (List (Specie K))}
    {found final : List (Specie K)} (h : Ends ga earlier found final)
    (hids : (found.map Specie.id).Nodup) : (final.map Specie.id).Nodup := by
  cases h with
  | finished _ => exact hids
  | noImprovement _ _ =>
    have hsame : (checkSpecies ga found).map Specie.id = found.map Specie.id := by
      rw [checkSpecies, List.map_map]
      exact List.map_congr_left fun s _ => (checkSpecie_fields ga s).1
    rw [hsame]
    exact hids
  | noFitness _ _ _ => exact hids.sublist (ids_survivors ga found)

/-! ### Whole runs -/

section Runs

variable [FloorSemiring K] [IsStrictOrderedRing K] {ga ga' : OlagsaGA K}
  {C VA : Fin (n + 1) → Fin T → K}

omit [FloorSemiring K] [IsStrictOrderedRing K] in
/-- One generation keeps the best of every species. -/
theorem keeps_generation {found next : List (Specie K)} {children : List (Individual K)}
    (hassign : assignSpecies children (survivors ga' found) = .ok next) : Keeps found next :=
  (keeps_survivors ga' found).trans (keeps_of_appended (appended_of_ok hassign))

omit [IsStrictOrderedRing K] in
/-- Every generation of a run does. -/
theorem keeps_of_suffix {earlier rest : List (List (Specie K))}
    {found species next : List (Specie K)} (h : Reaches ga C VA ga' earlier found)
    (hsuffix : next :: species :: rest <:+ found :: earlier) : Keeps species next := by
  have hreach := reaches_of_suffix h hsuffix
  cases hreach with
  | generation _ _ hassign => exact keeps_generation hassign

omit [IsStrictOrderedRing K] in
/-- What a species ever had, it still has something as good as. -/
theorem keeps_of_mem {earlier : List (List (Specie K))} {found species : List (Specie K)}
    (h : Reaches ga C VA ga' earlier found) (hspecies : species ∈ found :: earlier) :
    Keeps species found := by
  induction h with
  | start hstart =>
    obtain rfl := List.mem_singleton.mp hspecies
    exact Keeps.refl species
  | generation _ _ hassign ih =>
    rcases List.mem_cons.mp hspecies with rfl | hspecies
    · exact Keeps.refl species
    · exact (ih hspecies).trans (keeps_generation hassign)

omit [FloorSemiring K] [IsStrictOrderedRing K] in
/-- The fitness of the solutions is the highest of each species that has individuals. -/
theorem ensures_collect_fitness [IsStrictOrderedRing K] (ga : OlagsaGA K)
    (C VA : Fin (n + 1) → Fin T → K) (species : List (Specie K)) :
    (collect ga C VA species).Ensures Admissible fun best =>
      best.map BestSolution.fitness = species.filterMap top := by
  have hcollect : (collect ga C VA species).Ensures Admissible _ :=
    ensures_mapM_map (g := BestSolution.fitness) (h := Individual.fitness) fun best _ =>
      (ensures_solveKey ga.numKeyIteration C VA best.chromosomes).bind fun _ _ => ensures_ret rfl
  refine hcollect.mono fun best h => ?_
  rw [h, List.map_filterMap]
  rfl

omit [Field K] [FloorSemiring K] [IsStrictOrderedRing K] in
/-- One entry of a list for each species that has individuals. -/
theorem forall₂_of_tops {best : List (BestSolution n T K)} :
    ∀ {species : List (Specie K)}, best.map BestSolution.fitness = species.filterMap top →
      List.Forall₂ (fun s b => top s = some b.fitness)
        (species.filter fun s => (top s).isSome) best := by
  intro species
  induction species generalizing best with
  | nil =>
    intro h
    rw [List.filterMap_nil, List.map_eq_nil_iff] at h
    rw [h]
    exact List.Forall₂.nil
  | cons s species ih =>
    intro h
    rcases htop : top s with _ | f
    · rw [List.filterMap_cons_none htop] at h
      rw [List.filter_cons_of_neg (by rw [htop]; simp)]
      exact ih h
    · rw [List.filterMap_cons_some htop] at h
      rw [List.filter_cons_of_pos (by rw [htop]; simp)]
      rcases best with _ | ⟨b, best⟩
      · cases h
      · obtain ⟨hb, hrest⟩ := List.cons_eq_cons.mp h
        exact List.Forall₂.cons (by rw [htop, hb]) (ih hrest)

/-- What a species holds in the end is the best of all it received. -/
theorem isGreatest_of_ends (hk : ga.numKeyIteration = 2 ∨ ga.numKeyIteration = 3)
    {earlier : List (List (Specie K))} {found final : List (Specie K)}
    (h : Reaches ga C VA ga' earlier found) (hends : Ends ga' earlier found final)
    {s : Specie K} (hs : s ∈ final) {f : K} (hf : top s = some f) :
    IsGreatest {f | ∃ x, Received (found :: earlier) s.id x ∧ x.fitness = f} f := by
  have hids := ids_of_ends hends (nodup_ids_of_reaches hk h)
  constructor
  · obtain ⟨x', hx', rfl⟩ := exists_of_top hf
    obtain ⟨s₀, hs₀, hid, x, hx, hfitness⟩ := exists_found_of_ends hends hs hx'
    exact ⟨x, ⟨found, List.mem_cons_self .., s₀, hs₀, hid, hx⟩, hfitness⟩
  · rintro _ ⟨x, ⟨species, hspecies, s₀, hs₀, hid, hx⟩, rfl⟩
    obtain ⟨f₀, hf₀, hle⟩ := exists_top_ge hx
    have hkeeps := (keeps_of_mem h hspecies).trans (keeps_of_ends hends)
    obtain ⟨s', hs', hid', f', hf', hle'⟩ := hkeeps s₀ hs₀ f₀ hf₀
    -- ids are unique, so this is the same species
    have hfind := find?_of_nodup hids hs'
    have hfind' := find?_of_nodup hids hs
    rw [hid', hid, hfind'] at hfind
    cases hfind
    rw [hf] at hf'
    cases hf'
    exact hle.trans hle'

/-- **The reported best of each species is the best ever found.**  The solutions of a run are
those of the species its loop leaves. In every run that has come to `found`, every generation has
kept the best of every species; when the loop stops there, there is one solution for each species
that ever received an individual, with the highest fitness of all it received. -/
theorem run_reportsBest (ga : OlagsaGA K) (hk : ga.numKeyIteration = 2 ∨ ga.numKeyIteration = 3)
    (C VA : Fin (n + 1) → Fin T → K) :
    (∀ best, (ga.run C VA).Yields Admissible (.ok best) →
        ∃ ga' earlier found final, Reaches ga C VA ga' earlier found ∧
          Ends ga' earlier found final ∧ (collect ga' C VA final).Yields Admissible (.ok best)) ∧
      ∀ ga' earlier found, Reaches ga C VA ga' earlier found →
        (∀ rest species next, next :: species :: rest <:+ found :: earlier → Keeps species next) ∧
        ∀ final best, Ends ga' earlier found final →
          (collect ga' C VA final).Yields Admissible (.ok best) →
            ReportsBest (found :: earlier) best := by
  constructor
  · intro best hbest
    rw [run_eq_search (by omega)] at hbest
    obtain ⟨⟨final, ga'⟩, hsearch, hcollect⟩ := yields_bind_ok.mp hbest
    obtain ⟨earlier, found, hreach, hends⟩ := search_ok hsearch
    exact ⟨ga', earlier, found, final, hreach, hends, hcollect⟩
  · intro ga' earlier found hreach
    refine ⟨fun rest species next hsuffix => keeps_of_suffix hreach hsuffix,
      fun final best hends hcollect => ?_⟩
    have hids := ids_of_ends hends (nodup_ids_of_reaches hk hreach)
    have htops := forall₂_of_tops (ensures_collect_fitness ga' C VA final best hcollect)
    refine ⟨(final.filter fun s => (top s).isSome).map Specie.id,
      hids.sublist (List.filter_sublist.map _), fun id => ?_, ?_⟩
    · constructor
      · intro hid
        obtain ⟨s, hs, rfl⟩ := List.mem_map.mp hid
        obtain ⟨hs, hsome⟩ := List.mem_filter.mp hs
        obtain ⟨f, hf⟩ := Option.isSome_iff_exists.mp hsome
        obtain ⟨⟨x, hx, -⟩, -⟩ := isGreatest_of_ends hk hreach hends hs hf
        exact ⟨x, hx⟩
      · -- one that ever had an individual keeps its fittest
        rintro ⟨x, species, hspecies, s, hs, rfl, hx⟩
        obtain ⟨f, hf, -⟩ := exists_top_ge hx
        have hkeeps := (keeps_of_mem hreach hspecies).trans (keeps_of_ends hends)
        obtain ⟨s', hs', hid, f', hf', -⟩ := hkeeps s hs f hf
        rw [← hid]
        refine List.mem_map_of_mem (List.mem_filter.mpr ⟨hs', ?_⟩)
        rw [hf']
        rfl
    · rw [List.forall₂_map_left_iff]
      refine List.forall₂_iff_zip.mpr ⟨htops.length_eq, fun {s b} hmem => ?_⟩
      have hs : s ∈ final := List.mem_of_mem_filter (List.of_mem_zip hmem).1
      exact isGreatest_of_ends hk hreach hends hs ((List.forall₂_iff_zip.mp htops).2 hmem)

/-- One generation of one region. -/
def oneGeneration : OlagsaInput ℚ :=
  { twoGenerations with
    generations := 1
    generations_ge := Nat.one_pos }

/-- The two children are not solved, and so the fittest; the key of one of them is solved. -/
theorem run_reportsBest_oneGeneration :
    ∃ best, (oneGeneration.ga.run (fun _ _ => 0 : Fin 1 → Fin 1 → ℚ) fun _ _ => 1).Yields
        Admissible (.ok best) ∧ best.map BestSolution.fitness = [100000] ∧
      ∃ ga' earlier found, Reaches oneGeneration.ga (fun _ _ => 0 : Fin 1 → Fin 1 → ℚ)
        (fun _ _ => 1) ga' earlier found ∧ ReportsBest (found :: earlier) best := by
  obtain ⟨out, hout, htest⟩ := exists_yields_of_playsTo admissible_of_readDraw
    (show playsTo readDraw (bothSolved ++ childrenFail
        ++ [.solved (.optimal fun _ => 1), .solved (.optimal fun _ => 1)])
      (oneGeneration.ga.run (fun _ _ => 0 : Fin 1 → Fin 1 → ℚ) fun _ _ => 1)
      (fun out => match out with
        | .ok best => best.map BestSolution.fitness == [100000]
        | .error _ => false) = true by decide +kernel)
  rcases out with e | best
  · cases htest
  · obtain ⟨hruns, hreached⟩ := run_reportsBest oneGeneration.ga (Or.inl rfl)
      (fun _ _ => 0 : Fin 1 → Fin 1 → ℚ) (fun _ _ => 1)
    obtain ⟨ga', earlier, found, final, hreach, hends, hcollect⟩ := hruns best hout
    exact ⟨best, hout, eq_of_beq htest, ga', earlier, found, hreach,
      (hreached ga' earlier found hreach).2 final best hends hcollect⟩

end Runs

end AllocationKeys.Olagsa
