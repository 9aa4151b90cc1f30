import AllocationKeys.BruteForce.Paths
import AllocationKeys.Lib.Nan

/-!
# The enumeration with blank cells

The enumeration of `BruteForce/Generator` for series in which a number may be missing: a blank cell
is not a number, and the arithmetic is that of `Lib/Nan`. Only the sort of the keys is another one,
for the order it leaves is open when a final surplus is not a number.

* `run_number`: on numbers it is the enumeration over a field;
* `exists_nan_key`: with a blank cell, some key has a surplus that is not a number.
-/

namespace AllocationKeys.BruteForce.Blanks

open Algorithms Nan

variable {n T : ℕ} {K : Type*} [Field K] [LinearOrder K]

/-- `keys.sort(...)`: a stable sort, where the sort keys are numbers. Where one is not, the order it
leaves is open. -/
structure KeySort (K : Type*) [Field K] [LinearOrder K] where
  sort : List (AllocationKeyResult (Nan K)) → List (AllocationKeyResult (Nan K))
  perm : ∀ keys, (sort keys).Perm keys
  stable : ∀ keys, (∀ key ∈ keys, (finalSurplusTotal key).IsNumber) →
    sort keys = keys.insertionSort fun a b => finalSurplusTotal a ≤ finalSurplusTotal b

/-- An insertion sort is one. -/
def KeySort.insertion : KeySort K where
  sort keys := keys.insertionSort fun a b => finalSurplusTotal a ≤ finalSurplusTotal b
  perm _ := List.perm_insertionSort _ _
  stable _ _ := rfl

/-- `BruteForceAlgorithm.run`. -/
def run (rounded : Nan K → String) (keySort : KeySort K) (inputs : BruteForceInput)
    (rawData : AlgorithmRawData n T (Nan K)) : AlgorithmResult (Nan K) :=
  let rootNodes := inputs.generator.generate rawData.C rawData.VA
  let keys := rootNodes.flatMap fun root => flattenNode rounded root rawData.consumerNames
  { keys := keySort.sort keys }

/-! ### On numbers -/

/-- Every number of a consumer. -/
def consumerMap {L : Type*} (f : K → L) (c : Consumer T K) : Consumer T L where
  consumption := fun t => f (c.consumption t)
  energyAllocatedPercentage := f c.energyAllocatedPercentage
  energyAllocatedPercentageTime := fun t => f (c.energyAllocatedPercentageTime t)
  energyAllocated := fun t => f (c.energyAllocated t)
  energyAllocatedConsumed := fun t => f (c.energyAllocatedConsumed t)
  energyAllocatedConsumedTotal := f c.energyAllocatedConsumedTotal
  residualVolume := fun t => f (c.residualVolume t)
  residualVolumeTotal := f c.residualVolumeTotal
  surplus := fun t => f (c.surplus t)
  surplusTotal := f c.surplusTotal

def iterationMap {L : Type*} (f : K → L) (it : Iteration n T K) : Iteration n T L where
  consumers := fun i => consumerMap f (it.consumers i)
  energyAllocated := fun i t => f (it.energyAllocated i t)
  energyAllocatedPercentage := f it.energyAllocatedPercentage
  consumptionTotal := f it.consumptionTotal
  surplus := fun t => f (it.surplus t)
  surplusTotal := f it.surplusTotal

def summaryMap {L : Type*} (f : K → L) (s : IterationSummary n K) : IterationSummary n L where
  energyAllocatedPercentage := f s.energyAllocatedPercentage
  surplusTotal := f s.surplusTotal
  consumerPercentages := fun i => f (s.consumerPercentages i)

omit [Field K] [LinearOrder K] in
@[simp] theorem consumerMap_consumption {L : Type*} (f : K → L) (c : Consumer T K) (t : Fin T) :
    (consumerMap f c).consumption t = f (c.consumption t) := rfl

/-- On numbers, settling a consumer is that over the field. -/
theorem settle_number (c : Consumer T K) :
    settle (consumerMap number c) = consumerMap number (settle c) := by
  simp only [settle, consumerMap, Consumer.computeEnergyAllocatedConsumed,
    Consumer.computeResidualVolumeAndSurplus, zero_eq, sub_number, neg_number, max_number,
    min_number, sum_number]

omit [LinearOrder K] in
/-- The totals of an iteration of numbers. -/
theorem totals_number (it : Iteration n T K) :
    (iterationMap number it).computeSurplus.computeSurplusTotal =
      iterationMap number it.computeSurplus.computeSurplusTotal := by
  simp only [Iteration.computeSurplus, Iteration.computeSurplusTotal, iterationMap, consumerMap,
    sum_number]

/-- The figures of an iteration of numbers. -/
theorem summary_number (it : Iteration n T K) :
    (iterationMap number it).summary = summaryMap number it.summary := by
  simp only [Iteration.summary, iterationMap, consumerMap, summaryMap, zero_eq,
    sum_number, number_le, number_lt, div_number, apply_ite number]

omit [LinearOrder K] in
/-- The totals of consumers that are made of numbers. -/
theorem settled_number (it : Iteration n T K) (consumers : Fin (n + 1) → Consumer T (Nan K))
    (consumers' : Fin (n + 1) → Consumer T K)
    (h : ∀ i, consumers i = consumerMap number (consumers' i)) :
    ({ iterationMap number it with consumers := consumers }).computeSurplus.computeSurplusTotal =
      iterationMap number
        ({ it with consumers := consumers' }).computeSurplus.computeSurplusTotal := by
  rw [← totals_number, funext h]
  rfl

theorem egalitaire_number (it : Iteration n T K) :
    post .egalitaire (iterationMap number it) = iterationMap number (post .egalitaire it) :=
  settled_number it _ _ fun i => settle_number
    { it.consumers i with
      energyAllocatedPercentage := 1 / ((n + 1 : ℕ) : K)
      energyAllocated := fun t => it.energyAllocated 0 t * (1 / ((n + 1 : ℕ) : K)) }

/-- On numbers the consumption is compared with 0 as over the field. -/
theorem prorataTotal_number (it : Iteration n T K) :
    post .prorataTotal (iterationMap number it) = iterationMap number (post .prorataTotal it) := by
  have htotal : (iterationMap number it).computeConsumptionTotal =
      iterationMap number it.computeConsumptionTotal := by
    simp only [Iteration.computeConsumptionTotal, iterationMap, consumerMap, sum_number]
  rw [post, algos, prorataTotal, htotal]
  refine settled_number it.computeConsumptionTotal _ _ fun i => ?_
  by_cases hzero : it.computeConsumptionTotal.consumptionTotal = 0
  · have hzero' : (iterationMap number it.computeConsumptionTotal).consumptionTotal = 0 :=
      congrArg number hzero
    rw [if_pos hzero, if_pos hzero']
    by_cases hi : i = 0
    · rw [if_pos hi, if_pos hi, ← settle_number]
      rfl
    · rw [if_neg hi, if_neg hi, ← settle_number]
      rfl
  · have hzero' : (iterationMap number it.computeConsumptionTotal).consumptionTotal ≠ 0 :=
      fun h => hzero (number_injective h)
    rw [if_neg hzero, if_neg hzero', ← settle_number]
    have hsum : ∑ t, ((iterationMap number it.computeConsumptionTotal).consumers i).consumption t =
        number (∑ t, (it.computeConsumptionTotal.consumers i).consumption t) := sum_number _ _
    rw [hsum]
    rfl

theorem prorataShare_number (consumers : Fin (n + 1) → Consumer T K) (i : Fin (n + 1)) (t : Fin T) :
    prorataShare (fun i => consumerMap number (consumers i)) i t =
      number (prorataShare consumers i t) := by
  simp only [prorataShare, consumerMap_consumption, zero_eq, one_eq,
    sum_number, number_lt, div_number, apply_ite number]

theorem prorataAllocated_number (consumers : Fin (n + 1) → Consumer T K) (profile : Fin T → K)
    (i : Fin (n + 1)) (t : Fin T) :
    prorataAllocated (fun i => consumerMap number (consumers i)) (fun t => number (profile t)) i t =
      number (prorataAllocated consumers profile i t) := by
  simp only [prorataAllocated, prorataShare_number,
    consumerMap_consumption, zero_eq, sum_number, number_lt, mul_number, apply_ite number]

/-- On numbers every time step takes the same branch as over the field. -/
theorem prorata_number (it : Iteration n T K) :
    post .prorata (iterationMap number it) = iterationMap number (post .prorata it) := by
  refine settled_number it _ _ fun i => ?_
  have hshare : prorataShare (iterationMap number it).consumers i =
      fun t => number (prorataShare it.consumers i t) :=
    funext fun t => prorataShare_number it.consumers i t
  have hallocated : prorataAllocated (iterationMap number it).consumers
      (energyProfile (iterationMap number it)) i =
      fun t => number (prorataAllocated it.consumers (energyProfile it) i t) :=
    funext fun t => prorataAllocated_number it.consumers (energyProfile it) i t
  rw [← settle_number, hshare, hallocated]
  rfl

/-- The functions compute with numbers what they compute over the field. -/
theorem post_number (algo : AlgoName) (it : Iteration n T K) :
    post algo (iterationMap number it) = iterationMap number (post algo it) := by
  cases algo with
  | egalitaire => exact egalitaire_number it
  | prorataTotal => exact prorataTotal_number it
  | prorata => exact prorata_number it

/-- The node and the iteration of a function, on numbers. -/
theorem algos_number (algo : AlgoName) (it : Iteration n T K) :
    algos Iteration.summary algo (iterationMap number it) =
      (Node.make algo.toString (summaryMap number (post algo it).summary),
        iterationMap number (post algo it)) := by
  rw [algos_eq, post_number, summary_number]

/-! ### Trees of numbers -/

mutual
def nodeMap {α β : Type*} (f : α → β) : Node α → Node β
  | .node name summary children => .node name (f summary) (nodesMap f children)

def nodesMap {α β : Type*} (f : α → β) : List (Node α) → List (Node β)
  | [] => []
  | child :: children => nodeMap f child :: nodesMap f children
end

theorem nodeMap_make {α β : Type*} (f : α → β) (name : String) (summary : α) :
    nodeMap f (Node.make name summary) = Node.make name (f summary) := rfl

theorem nodesMap_append {α β : Type*} (f : α → β) (nodes nodes' : List (Node α)) :
    nodesMap f (nodes ++ nodes') = nodesMap f nodes ++ nodesMap f nodes' := by
  induction nodes with
  | nil => rfl
  | cons node nodes ih => rw [List.cons_append, nodesMap, ih, nodesMap, List.cons_append]

/-- A child may be added before or after the map. -/
theorem nodeMap_addChild {α β : Type*} (f : α → β) (node child : Node α) :
    nodeMap f (node.addChild child) = (nodeMap f node).addChild (nodeMap f child) := by
  cases node with
  | node name summary children =>
    rw [Node.addChild, nodeMap, nodesMap_append]
    rfl

/-- A tree that is built child by child. -/
theorem foldl_addChild_number {α β γ : Type*} (f : α → β) (g : γ → Node α) (g' : γ → Node β)
    (h : ∀ x, g' x = nodeMap f (g x)) (l : List γ) (node : Node α) :
    l.foldl (fun node x => node.addChild (g' x)) (nodeMap f node) =
      nodeMap f (l.foldl (fun node x => node.addChild (g x)) node) := by
  induction l generalizing node with
  | nil => rfl
  | cons x l ih =>
    rw [List.foldl_cons, List.foldl_cons, h, ← nodeMap_addChild, ih]

/-- The first iteration on numbers. -/
theorem applyFirst_number (root : Iteration n T K) (pct : K) (algo : AlgoName) :
    applyFirst Iteration.summary (iterationMap number root) (number pct) algo =
      (nodeMap (summaryMap number) (applyFirst Iteration.summary root pct algo).1,
        iterationMap number (applyFirst Iteration.summary root pct algo).2) := by
  refine (algos_number algo
    { root.copy with
      energyAllocatedPercentage := pct
      energyAllocated := fun i t => root.energyAllocated i t * pct }).trans ?_
  rw [applyFirst, algos_eq]
  rfl

omit [LinearOrder K] in
theorem buildNextIteration_number (root previousPost : Iteration n T K) (pct : K) :
    buildNextIteration (iterationMap number root) (iterationMap number previousPost) (number pct) =
      iterationMap number (buildNextIteration root previousPost pct) := rfl

/-- The last nodes of a tree. -/
theorem fst_algos_number (algo : AlgoName) (it : Iteration n T K) :
    (algos Iteration.summary algo (iterationMap number it)).1 =
      nodeMap (summaryMap number) (algos Iteration.summary algo it).1 := by
  rw [algos_number, algos_eq]
  rfl

/-- The trees of one iteration, on numbers. -/
theorem oneIteration_number (root : Iteration n T K) :
    oneIteration Iteration.summary (iterationMap number root) =
      (oneIteration Iteration.summary root).map (nodeMap (summaryMap number)) := by
  rw [oneIteration, oneIteration, List.map_map]
  refine List.map_congr_left fun algo _ => ?_
  exact fst_algos_number algo { root with energyAllocatedPercentage := 1 }

omit [LinearOrder K] in
theorem tenth_number (i : ℕ) : (i : Nan K) / 10 = number ((i : K) / 10) := rfl

/-- The trees of two iterations, on numbers. -/
theorem twoIterations_number (root : Iteration n T K) :
    twoIterations Iteration.summary (iterationMap number root) =
      (twoIterations Iteration.summary root).map (nodeMap (summaryMap number)) := by
  rw [twoIterations, twoIterations, List.map_flatMap]
  refine List.flatMap_congr fun i _ => ?_
  rw [List.map_map]
  refine List.map_congr_left fun algo1 _ => ?_
  simp only [tenth_number, one_eq, sub_number, applyFirst_number, buildNextIteration_number,
    Iteration.copy_eq]
  exact foldl_addChild_number _ _ _ (fun algo2 => fst_algos_number algo2 _) algoNames _

/-- The trees of three iterations, on numbers. -/
theorem threeIterations_number (root : Iteration n T K) :
    threeIterations Iteration.summary (iterationMap number root) =
      (threeIterations Iteration.summary root).map (nodeMap (summaryMap number)) := by
  rw [threeIterations, threeIterations, List.map_flatMap]
  refine List.flatMap_congr fun i _ => ?_
  rw [List.map_flatMap]
  refine List.flatMap_congr fun j _ => ?_
  rw [List.map_map]
  refine List.map_congr_left fun algo1 _ => ?_
  simp only [tenth_number, one_eq, zero_eq, sub_number, number_lt, ← apply_ite number,
    applyFirst_number, buildNextIteration_number, Iteration.copy_eq, algos_eq, post_number,
    summary_number]
  refine foldl_addChild_number _ _ _ (fun algo2 => ?_) algoNames _
  rw [← nodeMap_make]
  exact foldl_addChild_number _ _ _ (fun algo3 => nodeMap_make ..) algoNames _

/-- On numbers the trees are those over the field. -/
theorem generate_number (generator : BruteForceGenerator) (C VA : Fin (n + 1) → Fin T → K) :
    generator.generate (fun i t => number (C i t)) (fun i t => number (VA i t)) =
      (generator.generate C VA).map (nodeMap (summaryMap number)) := by
  have hroot : makeRootIteration (fun i t => number (C i t)) (fun i t => number (VA i t)) =
      iterationMap number (makeRootIteration C VA) := rfl
  rw [BruteForceGenerator.generate, BruteForceGenerator.generateWith, hroot,
    BruteForceGenerator.generate, BruteForceGenerator.generateWith,
    oneIteration_number, twoIterations_number, threeIterations_number, apply_ite (List.map _),
    apply_ite (List.map _)]

/-! ### Keys of numbers -/

section Keys

variable {L : Type*}

def iterationResultMap (f : K → L) (it : IterationResult K) : IterationResult L where
  number := it.number
  energyAllocatedPercentage := f it.energyAllocatedPercentage
  surplusTotal := f it.surplusTotal
  consumers := it.consumers.map fun c => ⟨c.name, f c.energyAllocatedPercentage⟩

def keyMap (f : K → L) (key : AllocationKeyResult K) : AllocationKeyResult L where
  name := key.name
  description := key.description
  iterations := key.iterations.map (iterationResultMap f)

omit [Field K] [LinearOrder K] in
theorem iterationResult_map (f : K → L) (s : IterationSummary n K) (number : ℕ)
    (consumerNames : List String) :
    iterationResult (summaryMap f s) number consumerNames =
      iterationResultMap f (iterationResult s number consumerNames) := by
  simp only [iterationResult, iterationResultMap, summaryMap, consumerResults, List.map_ofFn]
  rfl

end Keys

omit [LinearOrder K] in
theorem finalSurplus_number (iterations : List (IterationResult K)) :
    ((iterations.map (iterationResultMap number)).getLast?.map IterationResult.surplusTotal).getD 0
      = number ((iterations.getLast?.map IterationResult.surplusTotal).getD 0) := by
  rw [List.getLast?_map]
  cases iterations.getLast? <;> rfl

omit [LinearOrder K] in
/-- The key of iterations of numbers has the same name. -/
theorem buildKey_number (rounded : Nan K → String) (iterations : List (IterationResult K))
    (names : List String) :
    buildKey rounded (iterations.map (iterationResultMap number)) names =
      keyMap number (buildKey (fun x => rounded (number x)) iterations names) := by
  simp only [buildKey, keyMap, finalSurplus_number, List.length_map,
    List.map_map]
  rfl

omit [Field K] [LinearOrder K] in
theorem snoc_number (pathIters : List (IterationResult K)) (s : IterationSummary n K)
    (consumerNames : List String) :
    pathIters.map (iterationResultMap number) ++
        [iterationResult (summaryMap number s) (pathIters.length + 1) consumerNames] =
      (pathIters ++ [iterationResult s (pathIters.length + 1) consumerNames]).map
        (iterationResultMap number) := by
  rw [iterationResult_map, List.map_append, List.map_singleton]

omit [LinearOrder K] in
mutual
/-- On numbers the keys of a tree are those over the field. -/
theorem walk_number (rounded : Nan K → String) (consumerNames : List String) :
    ∀ (node : Node (IterationSummary n K)) (pathIters : List (IterationResult K))
      (pathNames : List String),
      walk rounded consumerNames (pathIters.map (iterationResultMap number)) pathNames
          (nodeMap (summaryMap number) node) =
        (walk (fun x => rounded (number x)) consumerNames pathIters pathNames node).map
          (keyMap number)
  | .node name summary [], pathIters, pathNames => by
      rw [nodeMap, nodesMap, walk, walk, List.length_map, snoc_number, buildKey_number,
        List.map_singleton]
  | .node name summary (child :: children), pathIters, pathNames => by
      rw [nodeMap, nodesMap, walk, walk, List.length_map, snoc_number,
        ← walkChildren_number rounded consumerNames (child :: children), nodesMap]

theorem walkChildren_number (rounded : Nan K → String) (consumerNames : List String) :
    ∀ (nodes : List (Node (IterationSummary n K))) (pathIters : List (IterationResult K))
      (pathNames : List String),
      walkChildren rounded consumerNames (pathIters.map (iterationResultMap number)) pathNames
          (nodesMap (summaryMap number) nodes) =
        (walkChildren (fun x => rounded (number x)) consumerNames pathIters pathNames
          nodes).map (keyMap number)
  | [], _, _ => rfl
  | child :: children, pathIters, pathNames => by
      rw [nodesMap, walkChildren, walkChildren, List.map_append,
        walk_number rounded consumerNames child, walkChildren_number rounded consumerNames children]
end

omit [LinearOrder K] in
theorem finalSurplusTotal_number (key : AllocationKeyResult K) :
    finalSurplusTotal (keyMap number key) = number (finalSurplusTotal key) :=
  finalSurplus_number key.iterations

/-- **On numbers, the enumeration is that over the field.** -/
theorem run_number (rounded : Nan K → String) (keySort : KeySort K) (inputs : BruteForceInput)
    (rawData : AlgorithmRawData n T K) :
    (run rounded keySort inputs
        ⟨fun i t => number (rawData.C i t), fun i t => number (rawData.VA i t),
          rawData.consumerNames⟩).keys =
      (BruteForce.run (fun x => rounded (number x)) inputs rawData).keys.map (keyMap number) := by
  have hkeys : ((inputs.generator.generate (fun i t => number (rawData.C i t))
        fun i t => number (rawData.VA i t)).flatMap
          fun root => flattenNode rounded root rawData.consumerNames) =
      ((inputs.generator.generate rawData.C rawData.VA).flatMap fun root =>
        flattenNode (fun x => rounded (number x)) root rawData.consumerNames).map
          (keyMap number) := by
    rw [generate_number, List.flatMap_map, List.map_flatMap]
    exact List.flatMap_congr fun root _ => walk_number rounded rawData.consumerNames root [] []
  rw [run, hkeys, keySort.stable, BruteForce.run]
  · refine (List.map_insertionSort _ _ _ _ fun a _ b _ => ?_).symm
    rw [finalSurplusTotal_number, finalSurplusTotal_number, number_le]
  · intro key hkey
    obtain ⟨key, -, rfl⟩ := List.mem_map.mp hkey
    exact ⟨_, finalSurplusTotal_number key⟩

/-! ### With a blank cell -/

/-- A blank at some time step makes the consumer's surplus one. -/
theorem settle_nan {c : Consumer T (Nan K)} {t : Fin T}
    (h : c.consumption t = nan ∨ c.energyAllocated t = nan) : (settle c).surplusTotal = nan := by
  have hdiff : c.consumption t - c.energyAllocated t = nan := by
    rcases h with h | h
    · rw [h, nan_sub]
    · rw [h, sub_nan]
  refine sum_eq_nan (Finset.mem_univ t) ?_
  show max 0 (-(c.consumption t - c.energyAllocated t)) = nan
  rw [hdiff, neg_nan, max_nan]

/-- So `egalitaire` returns a surplus that is not a number. -/
theorem egalitaire_nan {it : Iteration n T (Nan K)} {i : Fin (n + 1)} {t : Fin T}
    (h : (it.consumers i).consumption t = nan ∨ it.energyAllocated 0 t = nan) :
    (post .egalitaire it).surplusTotal = nan := by
  refine sum_eq_nan (Finset.mem_univ i) (settle_nan (h.imp_right fun h => ?_))
  show it.energyAllocated 0 t * _ = nan
  rw [h, nan_mul]

/-- Some tree begins with a surplus that is not a number. -/
theorem generate_nan (generator : BruteForceGenerator) {C VA : Fin (n + 1) → Fin T → Nan K}
    {i : Fin (n + 1)} {t : Fin T} (h : C i t = nan ∨ VA 0 t = nan) :
    ∃ node ∈ generator.generate C VA, node.summary.surplusTotal = nan := by
  have hchildren : ∀ {γ : Type} (f : γ → Node (IterationSummary n (Nan K))) (l : List γ)
      (pct : Nan K),
      (l.foldl (fun node x => node.addChild (f x))
        (applyFirst Iteration.summary (makeRootIteration C VA) pct
          .egalitaire).1).summary.surplusTotal = nan := by
    intro γ f l pct
    rw [applyFirst, algos_eq, foldl_addChild_make]
    refine egalitaire_nan (i := i) (t := t) (h.imp_right fun h => ?_)
    show VA 0 t * _ = nan
    rw [h, nan_mul]
  rw [BruteForceGenerator.generate, BruteForceGenerator.generateWith]
  split_ifs
  · refine ⟨_, List.mem_map.mpr ⟨.egalitaire, List.mem_cons_self, rfl⟩, ?_⟩
    exact egalitaire_nan (i := i) (t := t) h
  · refine ⟨_, List.mem_flatMap.mpr ⟨0, by simp, List.mem_map.mpr
      ⟨.egalitaire, List.mem_cons_self, rfl⟩⟩, hchildren _ algoNames _⟩
  · refine ⟨_, List.mem_flatMap.mpr ⟨0, by simp, List.mem_flatMap.mpr ⟨0, by simp, List.mem_map.mpr
      ⟨.egalitaire, List.mem_cons_self, rfl⟩⟩⟩, hchildren _ algoNames _⟩

omit [LinearOrder K] in
/-- Below a node there is a key that reports it. -/
theorem exists_walk_key (rounded : Nan K → String) (consumerNames : List String) :
    ∀ (node : Node (IterationSummary n (Nan K))) (pathIters : List (IterationResult (Nan K)))
      (pathNames : List String), ∃ key ∈ walk rounded consumerNames pathIters pathNames node,
        pathIters ++ [iterationResult node.summary (pathIters.length + 1) consumerNames] ⊆
          key.iterations
  | .node name summary [], pathIters, pathNames =>
      ⟨_, by rw [walk]; exact List.mem_singleton_self _, List.Subset.refl _⟩
  | .node name summary (child :: children), pathIters, pathNames => by
      obtain ⟨key, hkey, hsubset⟩ := exists_walk_key rounded consumerNames child
        (pathIters ++ [iterationResult summary (pathIters.length + 1) consumerNames])
        (pathNames ++ [name])
      refine ⟨key, ?_, List.Subset.trans (List.subset_append_left _ _) hsubset⟩
      rw [walk, walkChildren]
      exact List.mem_append_left _ hkey

/-- **A blank cell reaches a key.** -/
theorem exists_nan_key (rounded : Nan K → String) (keySort : KeySort K) (inputs : BruteForceInput)
    {rawData : AlgorithmRawData n T (Nan K)} {i : Fin (n + 1)} {t : Fin T}
    (h : rawData.C i t = nan ∨ rawData.VA 0 t = nan) :
    ∃ key ∈ (run rounded keySort inputs rawData).keys, ∃ it ∈ key.iterations,
      it.surplusTotal = nan := by
  obtain ⟨node, hnode, hnan⟩ := generate_nan inputs.generator h
  obtain ⟨key, hkey, hsubset⟩ := exists_walk_key rounded rawData.consumerNames node [] []
  refine ⟨key, (keySort.perm _).mem_iff.mpr (List.mem_flatMap.mpr ⟨node, hnode, hkey⟩), _,
    hsubset (List.mem_singleton_self _), hnan⟩

/-! ### Meaningful results -/

/-- Every figure is a number, and the keys come in the order of their final surplus. -/
structure Meaningful (result : AlgorithmResult (Nan K)) : Prop where
  surplus : ∀ key ∈ result.keys, ∀ it ∈ key.iterations, it.surplusTotal.IsNumber
  share : ∀ key ∈ result.keys, ∀ it ∈ key.iterations, it.energyAllocatedPercentage.IsNumber
  consumers : ∀ key ∈ result.keys, ∀ it ∈ key.iterations, ∀ c ∈ it.consumers,
    c.energyAllocatedPercentage.IsNumber
  sorted : result.keys.Pairwise fun a b => finalSurplusTotal a ≤ finalSurplusTotal b

/-- **Without blanks the result is meaningful.** -/
theorem meaningful_of_numbers (rounded : Nan K → String) (keySort : KeySort K)
    (inputs : BruteForceInput) {rawData : AlgorithmRawData n T (Nan K)}
    (hC : ∀ i t, (rawData.C i t).IsNumber) (hVA : ∀ i t, (rawData.VA i t).IsNumber) :
    Meaningful (run rounded keySort inputs rawData) := by
  choose C hC using hC
  choose VA hVA using hVA
  have hrun := run_number rounded keySort inputs ⟨C, VA, rawData.consumerNames⟩
  simp only [← hC, ← hVA] at hrun
  have hiteration : ∀ key ∈ (run rounded keySort inputs rawData).keys, ∀ it ∈ key.iterations,
      ∃ it' : IterationResult K, iterationResultMap number it' = it := by
    intro key hkey it hit
    rw [hrun] at hkey
    obtain ⟨key', -, rfl⟩ := List.mem_map.mp hkey
    obtain ⟨it', -, heq⟩ := List.mem_map.mp hit
    exact ⟨it', heq⟩
  constructor
  · intro key hkey it hit
    obtain ⟨it', rfl⟩ := hiteration key hkey it hit
    exact isNumber_number _
  · intro key hkey it hit
    obtain ⟨it', rfl⟩ := hiteration key hkey it hit
    exact isNumber_number _
  · intro key hkey it hit c hc
    obtain ⟨it', rfl⟩ := hiteration key hkey it hit
    obtain ⟨c', -, rfl⟩ := List.mem_map.mp hc
    exact isNumber_number _
  · rw [hrun, List.pairwise_map]
    simp only [finalSurplusTotal_number, number_le]
    exact List.pairwise_insertionSort _ _

end AllocationKeys.BruteForce.Blanks
