import AllocationKeys.BruteForce.Generator
import Mathlib.Tactic.Linarith
import Mathlib.Tactic.NormNum

/-!
# Every key is one run of distribution functions

The nested loops of the generator come down to one list: `choices` holds every sequence of
production shares and distribution functions, and `keyRun` the iterations that one such
sequence goes through. `paths_generateWith` says that the result trees hold exactly these, in
this order, whatever the nodes keep; `run_keys` carries that over to the keys of the algorithm.
-/

namespace AllocationKeys.BruteForce

open Algorithms

variable {n T : ℕ} {K α : Type*}

/-! ### From paths to keys -/

/-- The reported iterations along a path, numbered from `number`. -/
def pathResults (consumerNames : List String) :
    ℕ → List (String × IterationSummary n K) → List (IterationResult K)
  | _, [] => []
  | number, step :: rest =>
      iterationResult step.2 number consumerNames :: pathResults consumerNames (number + 1) rest

section Keys

variable [AddCommMonoid K]

/-- The key of a path. -/
def keyOfPath (rounded : K → String) (consumerNames : List String)
    (path : List (String × IterationSummary n K)) : AllocationKeyResult K :=
  buildKey rounded (pathResults consumerNames 1 path) (path.map Prod.fst)

mutual
theorem walk_eq (rounded : K → String) (consumerNames : List String) :
    ∀ (node : Node (IterationSummary n K)) (pathIters : List (IterationResult K))
      (pathNames : List String),
      walk rounded consumerNames pathIters pathNames node = node.paths.map fun path =>
        buildKey rounded (pathIters ++ pathResults consumerNames (pathIters.length + 1) path)
          (pathNames ++ path.map Prod.fst)
  | .node name summary [], pathIters, pathNames => by
      simp [walk, Node.paths, pathResults]
  | .node name summary (child :: children), pathIters, pathNames => by
      rw [walk, walkChildren_eq rounded consumerNames (child :: children), Node.paths,
        List.map_map]
      apply List.map_congr_left
      intro path _
      simp [pathResults]

theorem walkChildren_eq (rounded : K → String) (consumerNames : List String) :
    ∀ (nodes : List (Node (IterationSummary n K))) (pathIters : List (IterationResult K))
      (pathNames : List String),
      walkChildren rounded consumerNames pathIters pathNames nodes =
        (Node.pathsList nodes).map fun path =>
          buildKey rounded (pathIters ++ pathResults consumerNames (pathIters.length + 1) path)
            (pathNames ++ path.map Prod.fst)
  | [], _, _ => rfl
  | child :: children, pathIters, pathNames => by
      rw [walkChildren, walk_eq rounded consumerNames child,
        walkChildren_eq rounded consumerNames children, Node.pathsList, List.map_append]
end

theorem flattenNode_eq (rounded : K → String) (consumerNames : List String)
    (root : Node (IterationSummary n K)) :
    flattenNode rounded root consumerNames = root.paths.map (keyOfPath rounded consumerNames) := by
  rw [flattenNode, walk_eq]
  simp [keyOfPath]

end Keys

/-! ### The ways through a tree -/

theorem foldl_addChild {γ : Type*} (f : γ → Node α) (name : String) (summary : α) :
    ∀ (l : List γ) (children : List (Node α)),
      l.foldl (fun (node : Node α) x => node.addChild (f x)) (Node.node name summary children)
        = Node.node name summary (children ++ l.map f) := by
  intro l
  induction l with
  | nil => intro children; simp
  | cons x l ih =>
    intro children
    rw [List.foldl_cons, Node.addChild, ih, List.map_cons, List.append_assoc]
    rfl

theorem foldl_addChild_make {γ : Type*} (f : γ → Node α) (name : String) (summary : α)
    (l : List γ) :
    l.foldl (fun (node : Node α) x => node.addChild (f x)) (Node.make name summary)
      = Node.node name summary (l.map f) := by
  rw [Node.make, foldl_addChild, List.nil_append]

theorem paths_make (name : String) (summary : α) :
    (Node.make name summary).paths = [[(name, summary)]] := by
  simp [Node.make, Node.paths]

theorem pathsList_eq_flatMap (nodes : List (Node α)) :
    Node.pathsList nodes = nodes.flatMap Node.paths := by
  induction nodes with
  | nil => rfl
  | cons node nodes ih => rw [Node.pathsList, ih, List.flatMap_cons]

theorem paths_node_cons (name : String) (summary : α) (child : Node α)
    (children : List (Node α)) :
    (Node.node name summary (child :: children)).paths
      = ((child :: children).flatMap Node.paths).map ((name, summary) :: ·) := by
  rw [Node.paths, pathsList_eq_flatMap]

/-- There is a way through every tree. -/
theorem paths_ne_nil : ∀ node : Node α, node.paths ≠ []
  | .node _ _ [] => by simp [Node.paths]
  | .node name summary (child :: children) => by
      rw [paths_node_cons, List.flatMap_cons]
      simp [paths_ne_nil child]

section Trees

variable [AddCommMonoid K] [One K] [Neg K] [Sub K] [Mul K] [Div K] [NatCast K] [Max K] [Min K]
  [LT K] [DecidableEq K] [DecidableLT K]

theorem applyFirst_eq (view : Iteration n T K → α) (root : Iteration n T K) (pct : K)
    (algo : AlgoName) :
    applyFirst view root pct algo =
      (Node.make algo.toString (view (applyFirst id root pct algo).2),
        (applyFirst id root pct algo).2) := by
  simp only [applyFirst, algos_eq view, algos_eq (K := K) id]

/-- Every way is as long as the number of iterations, through nodes named after functions. -/
theorem names_generateWith (view : Iteration n T K → α) (generator : BruteForceGenerator)
    (C VA : Fin (n + 1) → Fin T → K) :
    ∀ path ∈ (generator.generateWith view C VA).flatMap Node.paths,
      path.length = generator.nbIterations ∧
        ∀ step ∈ path, ∃ algo : AlgoName, step.1 = algo.toString := by
  obtain ⟨nb, rfl | rfl | rfl⟩ := generator
  · simp [BruteForceGenerator.generateWith, oneIteration, algos_eq, algoNames, paths_make]
  · simp only [BruteForceGenerator.generateWith, OfNat.ofNat_ne_one, if_false, if_true,
      twoIterations, applyFirst_eq view, algos_eq, foldl_addChild_make, List.mem_flatMap,
      List.mem_map]
    rintro path ⟨node, ⟨i, -, algo1, -, rfl⟩, hpath⟩
    simp only [algoNames, List.map_cons, List.map_nil, paths_node_cons, paths_make,
      List.flatMap_cons, List.flatMap_nil, List.append_nil, List.cons_append, List.nil_append,
      List.mem_cons, List.not_mem_nil, or_false] at hpath
    rcases hpath with rfl | rfl | rfl <;> simp
  · simp only [BruteForceGenerator.generateWith, OfNat.ofNat_ne_one, if_false,
      Nat.reduceEqDiff, threeIterations, applyFirst_eq view, algos_eq, foldl_addChild_make,
      List.mem_flatMap, List.mem_map]
    rintro path ⟨node, ⟨i, -, j, -, algo1, -, rfl⟩, hpath⟩
    simp only [algoNames, List.map_cons, List.map_nil, paths_node_cons, paths_make,
      List.flatMap_cons, List.flatMap_nil, List.append_nil, List.cons_append, List.nil_append,
      List.mem_cons, List.not_mem_nil, or_false] at hpath
    rcases hpath with rfl | rfl | rfl | rfl | rfl | rfl | rfl | rfl | rfl <;> simp

/-- There is one at least. -/
theorem exists_path_generateWith (view : Iteration n T K → α) (generator : BruteForceGenerator)
    (C VA : Fin (n + 1) → Fin T → K) :
    (generator.generateWith view C VA).flatMap Node.paths ≠ [] := by
  have htrees : generator.generateWith view C VA ≠ [] := by
    obtain ⟨nb, rfl | rfl | rfl⟩ := generator
    · simp [BruteForceGenerator.generateWith, oneIteration, algoNames]
    · simp [BruteForceGenerator.generateWith, twoIterations, algoNames, List.range_succ]
    · simp [BruteForceGenerator.generateWith, threeIterations, algoNames, List.range_succ]
  obtain ⟨node, hnode⟩ := List.exists_mem_of_ne_nil _ htrees
  obtain ⟨path, hpath⟩ := List.exists_mem_of_ne_nil _ (paths_ne_nil node)
  exact List.ne_nil_of_mem (List.mem_flatMap.mpr ⟨node, hnode, hpath⟩)

end Trees

variable [Field K] [LinearOrder K]

/-! ### Sequences of choices -/

/-- The share left for the third iteration. -/
def thirdShare (pct1 pct2 : K) : K := if 0 < 1 - pct1 - pct2 then 1 - pct1 - pct2 else 0

/-- Every sequence of shares and functions, in the order the loops reach them. -/
def choices (nbIterations : ℕ) : List (List (K × AlgoName)) :=
  if nbIterations = 1 then algoNames.map fun algo => [(1, algo)]
  else if nbIterations = 2 then
    (List.range 11).flatMap fun (i : ℕ) => algoNames.flatMap fun algo1 =>
      algoNames.map fun algo2 => [((i : K) / 10, algo1), (1 - (i : K) / 10, algo2)]
  else
    (List.range 11).flatMap fun (i : ℕ) => (List.range (10 - i + 1)).flatMap fun (j : ℕ) =>
      algoNames.flatMap fun algo1 => algoNames.flatMap fun algo2 => algoNames.map fun algo3 =>
        [((i : K) / 10, algo1), ((j : K) / 10, algo2),
          (thirdShare ((i : K) / 10) ((j : K) / 10), algo3)]

/-- The iterations after the first: each is built from the one before. -/
def continueRun (root previous : Iteration n T K) :
    List (K × AlgoName) → List (String × Iteration n T K)
  | [] => []
  | (pct, algo) :: rest =>
      let it := post algo (buildNextIteration root previous pct)
      (algo.toString, it) :: continueRun root it rest

/-- The iterations a sequence of choices goes through. -/
def keyRun (root : Iteration n T K) : List (K × AlgoName) → List (String × Iteration n T K)
  | [] => []
  | (pct, algo) :: rest =>
      let it := (applyFirst id root pct algo).2
      (algo.toString, it) :: continueRun root it rest

/-! ### The trees hold the runs -/

/-- A path of kept values from a run of iterations. -/
def viewRun (view : Iteration n T K → α) (steps : List (String × Iteration n T K)) :
    List (String × α) :=
  steps.map fun step => (step.1, view step.2)

/-- **The result trees are the runs.**  Whatever the nodes keep, the ways from the roots to the
leaves are the runs of all choices, in order. -/
theorem paths_generateWith (view : Iteration n T K → α) (generator : BruteForceGenerator)
    (C VA : Fin (n + 1) → Fin T → K) :
    (generator.generateWith view C VA).flatMap Node.paths =
      (choices generator.nbIterations).map fun choice =>
        viewRun view (keyRun (makeRootIteration C VA) choice) := by
  obtain ⟨nb, rfl | rfl | rfl⟩ := generator
  · have hroot : ∀ algo, post algo { makeRootIteration C VA with energyAllocatedPercentage := 1 }
        = (applyFirst id (makeRootIteration C VA) 1 algo).2 := by
      intro algo
      simp only [applyFirst, algos_eq, mul_one, Iteration.copy_eq]
    simp only [BruteForceGenerator.generateWith, if_true, oneIteration, algos_eq,
      Iteration.copy_eq, choices, hroot]
    simp [algoNames, paths_make, keyRun, continueRun, viewRun]
  · simp only [BruteForceGenerator.generateWith, OfNat.ofNat_ne_one, if_false, if_true,
      twoIterations, applyFirst_eq view, algos_eq, Iteration.copy_eq, foldl_addChild_make,
      choices, List.flatMap_assoc, List.map_flatMap]
    simp [algoNames, paths_node_cons, paths_make, keyRun, continueRun, viewRun]
  · simp only [BruteForceGenerator.generateWith, OfNat.ofNat_ne_one, if_false,
      Nat.reduceEqDiff, threeIterations, applyFirst_eq view, algos_eq, Iteration.copy_eq,
      foldl_addChild_make, choices, List.flatMap_assoc, List.map_flatMap]
    simp [algoNames, paths_node_cons, paths_make, keyRun, continueRun, viewRun, thirdShare]

/-! ### From runs to keys -/

/-- The runs of the algorithm, in the order of the enumeration. -/
def runs (inputs : BruteForceInput) (rawData : AlgorithmRawData n T K) :
    List (List (String × Iteration n T K)) :=
  (choices inputs.iterations).map (keyRun (makeRootIteration rawData.C rawData.VA))

/-- The key of a run: what is reported of its iterations. -/
def keyOfRun (rounded : K → String) (consumerNames : List String)
    (steps : List (String × Iteration n T K)) : AllocationKeyResult K :=
  keyOfPath rounded consumerNames (viewRun Iteration.summary steps)

/-- **The keys are the runs.**  The algorithm returns one key per run, sorted by final
surplus, ties in the order of the enumeration. -/
theorem run_keys (rounded : K → String) (inputs : BruteForceInput)
    (rawData : AlgorithmRawData n T K) :
    (run rounded inputs rawData).keys =
      ((runs inputs rawData).map (keyOfRun rounded rawData.consumerNames)).insertionSort
        fun a b => finalSurplusTotal a ≤ finalSurplusTotal b := by
  simp only [run, flattenNode_eq, ← List.map_flatMap, BruteForceGenerator.generate,
    paths_generateWith, runs, List.map_map]
  rfl

/-- Every key of the result is the key of a run, and every run has its key in the result. -/
theorem mem_run_keys {rounded : K → String} {inputs : BruteForceInput}
    {rawData : AlgorithmRawData n T K} {key : AllocationKeyResult K} :
    key ∈ (run rounded inputs rawData).keys ↔
      ∃ steps ∈ runs inputs rawData, keyOfRun rounded rawData.consumerNames steps = key := by
  rw [run_keys, List.mem_insertionSort, List.mem_map]

/-! ### Facts about the choices -/

section Choices

variable [IsStrictOrderedRing K]

theorem thirdShare_eq {i j : ℕ} (h : i + j ≤ 10) :
    thirdShare ((i : K) / 10) ((j : K) / 10) = 1 - (i : K) / 10 - (j : K) / 10 := by
  have hcast : (i : K) + j ≤ 10 := by exact_mod_cast h
  have hnonneg : (0 : K) ≤ 1 - (i : K) / 10 - (j : K) / 10 := by linarith
  unfold thirdShare
  split
  · rfl
  · linarith

/-- The shares of a choice are nonnegative and sum to one, and there is one per iteration. -/
theorem choices_shares {nbIterations : ℕ} {choice : List (K × AlgoName)}
    (hnb : nbIterations = 1 ∨ nbIterations = 2 ∨ nbIterations = 3)
    (h : choice ∈ choices nbIterations) :
    (∀ step ∈ choice, 0 ≤ step.1) ∧ (choice.map Prod.fst).sum = 1 ∧
      choice.length = nbIterations := by
  rcases hnb with rfl | rfl | rfl
  · simp only [choices, if_true, List.mem_map] at h
    obtain ⟨algo, _, rfl⟩ := h
    simp
  · simp only [choices, OfNat.ofNat_ne_one, if_false, if_true, List.mem_flatMap,
      List.mem_range, List.mem_map] at h
    obtain ⟨i, hi, algo1, _, algo2, _, rfl⟩ := h
    have hcast : (i : K) ≤ 10 := by exact_mod_cast Nat.lt_succ_iff.mp hi
    have hnonneg : (0 : K) ≤ i := Nat.cast_nonneg i
    refine ⟨?_, by simp, rfl⟩
    simp only [List.mem_cons, List.not_mem_nil, or_false, forall_eq_or_imp, forall_eq]
    constructor <;> linarith
  · simp only [choices, OfNat.ofNat_ne_one, if_false, Nat.reduceEqDiff, List.mem_flatMap,
      List.mem_range, List.mem_map] at h
    obtain ⟨i, hi, j, hj, algo1, _, algo2, _, algo3, _, rfl⟩ := h
    have hij : i + j ≤ 10 := by omega
    have hcast : (i : K) + j ≤ 10 := by exact_mod_cast hij
    have hi0 : (0 : K) ≤ i := Nat.cast_nonneg i
    have hj0 : (0 : K) ≤ j := Nat.cast_nonneg j
    rw [thirdShare_eq hij]
    refine ⟨?_, by simp, rfl⟩
    simp only [List.mem_cons, List.not_mem_nil, or_false, forall_eq_or_imp, forall_eq]
    refine ⟨?_, ?_, ?_⟩ <;> linarith

end Choices

end AllocationKeys.BruteForce
