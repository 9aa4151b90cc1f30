import AllocationKeys.BruteForce.Former
import AllocationKeys.BruteForce.Paths

/-!
# The former brute force holds the same runs

What the nodes of the former tree refer to stays as it was when the node was made: every later
step of the enumeration changes only the objects it has made itself. So at the end the references
on a path still hold the iterations of one run (`PathHolds`), and the keys read off them are those
of the algorithm that summarises each iteration at once (`run_eq_runFormer`).

`Held` relates an object to an iteration of `BruteForce/Iteration.lean`; `New` adds that the object
and its consumers were made after a given point, which is what allows changing them.
-/

namespace AllocationKeys.BruteForce.Former

open Algorithms

variable {n T : ℕ} {K : Type} [Field K] [LinearOrder K]

/-! ### Objects and iterations -/

instance : Preorder (Objects n T K) where
  le s s' := s.consumers ≤ s'.consumers ∧ s.iterations ≤ s'.iterations
  le_refl _ := ⟨le_rfl, le_rfl⟩
  le_trans _ _ _ h h' := ⟨h.1.trans h'.1, h.2.trans h'.2⟩

/-- What the former code keeps of a consumer. -/
def kept (c : BruteForce.Consumer T K) : Consumer T K where
  consumption := c.consumption
  energyAllocatedPercentage := c.energyAllocatedPercentage
  energyAllocated := c.energyAllocated
  residualVolume := c.residualVolume
  surplus := c.surplus
  surplusTotal := c.surplusTotal

/-- An object has the figures of an iteration. -/
structure Figures (o : Iteration n T K) (it : BruteForce.Iteration n T K) : Prop where
  energyAllocated : o.energyAllocated = it.energyAllocated
  energyAllocatedPercentage : o.energyAllocatedPercentage = it.energyAllocatedPercentage
  consumptionTotal : o.consumptionTotal = it.consumptionTotal
  surplus : o.surplus = it.surplus
  surplusTotal : o.surplusTotal = it.surplusTotal

/-- The object `r` and its consumers hold an iteration. -/
structure Held (s : Objects n T K) (r : ℕ) (it : BruteForce.Iteration n T K) : Prop where
  allocated : r < s.iterations.next
  consumersAllocated : ∀ i, (s.iterations.get r).consumers i < s.consumers.next
  figures : Figures (s.iterations.get r) it
  consumers : ∀ i, s.consumers.get ((s.iterations.get r).consumers i) = kept (it.consumers i)

/-- The object and its consumers were made after `s₀`, and nothing of `s₀` has changed. -/
structure New (s₀ s : Objects n T K) (r : ℕ) (it : BruteForce.Iteration n T K) : Prop where
  le : s₀ ≤ s
  held : Held s r it
  made : s₀.iterations.next ≤ r
  consumersMade : ∀ i, s₀.consumers.next ≤ (s.iterations.get r).consumers i
  distinct : Function.Injective (s.iterations.get r).consumers

omit [Field K] [LinearOrder K] in
theorem held_mono (r : ℕ) (it : BruteForce.Iteration n T K) :
    Monotone fun s : Objects n T K => Held s r it := by
  intro s s' hle h
  have hr := hle.2.2 r h.allocated
  refine ⟨h.allocated.trans_le hle.2.1, fun i => ?_, ?_, fun i => ?_⟩
  · rw [hr]
    exact (h.consumersAllocated i).trans_le hle.1.1
  · rw [hr]
    exact h.figures
  · rw [hr, hle.1.2 _ (h.consumersAllocated i)]
    exact h.consumers i

omit [Field K] [LinearOrder K] in
theorem heldBoth_mono (r : ℕ) (it : BruteForce.Iteration n T K) (r' : ℕ)
    (it' : BruteForce.Iteration n T K) :
    Monotone fun s : Objects n T K => Held s r it ∧ Held s r' it' := fun _ _ hle h =>
  ⟨held_mono r it hle h.1, held_mono r' it' hle h.2⟩

/-! ### One operation -/

section Operations

variable {s₀ s : Objects n T K} {r : ℕ} {it it' : BruteForce.Iteration n T K}

omit [Field K] [LinearOrder K] in
theorem new_setIteration (h : New s₀ s r it) {f : Iteration n T K → Iteration n T K}
    (hf : ∀ o, (f o).consumers = o.consumers)
    (hfigures : Figures (s.iterations.get r) it → Figures (f (s.iterations.get r)) it')
    (hconsumers : it'.consumers = it.consumers) : New s₀ (setIteration r f s).2 r it' := by
  have hself : (setIteration r f s).2.iterations.get r = f (s.iterations.get r) :=
    Heap.get_modify_self _ _ _
  refine ⟨⟨h.le.1, Heap.le_modify h.le.2 h.made f⟩, ⟨h.held.allocated, ?_, ?_, ?_⟩, h.made, ?_, ?_⟩
  · rw [hself, hf]
    exact h.held.consumersAllocated
  · rw [hself]
    exact hfigures h.held.figures
  · rw [hself, hf, hconsumers]
    exact h.held.consumers
  · rw [hself, hf]
    exact h.consumersMade
  · rw [hself, hf]
    exact h.distinct

omit [Field K] [LinearOrder K] in
theorem new_eachConsumer (h : New s₀ s r it) {f : Fin (n + 1) → Consumer T K → Consumer T K}
    (hf : ∀ i, f i (kept (it.consumers i)) = kept (it'.consumers i))
    (hfigures : Figures (s.iterations.get r) it → Figures (s.iterations.get r) it') :
    New s₀ (eachConsumer r f s).2 r it' := by
  refine ⟨⟨Heap.le_modifyEach h.le.1 h.consumersMade f, h.le.2⟩,
    ⟨h.held.allocated, fun i => ?_, hfigures h.held.figures, fun i => ?_⟩, h.made,
    h.consumersMade, h.distinct⟩
  · show _ < (Heap.modifyEach _ _ _ _).next
    rw [Heap.next_modifyEach]
    exact h.held.consumersAllocated i
  · rw [← hf i, ← h.held.consumers i]
    exact Heap.get_modifyEach h.distinct _ (List.nodup_finRange _) (List.mem_finRange i) _

omit [Field K] [LinearOrder K] in
theorem getConsumers_eq (h : Held s r it) :
    getConsumers r s = (fun i => kept (it.consumers i), s) :=
  Prod.ext (funext h.consumers) rfl

omit [LinearOrder K] in
theorem new_settle [LinearOrder K] (h : New s₀ s r it) :
    New s₀ (settle r s).2 r it.computeSurplus.computeSurplusTotal := by
  rw [settle, bind_apply, getConsumers_eq h.held]
  exact new_setIteration h (fun _ => rfl) (fun hfigures => ⟨hfigures.energyAllocated,
    hfigures.energyAllocatedPercentage, hfigures.consumptionTotal, rfl, rfl⟩) rfl

omit [LinearOrder K] in
theorem new_newIteration (consumers : Fin (n + 1) → BruteForce.Consumer T K)
    (energyAllocated : Fin (n + 1) → Fin T → K) (s : Objects n T K) :
    New s (newIteration (fun i => kept (consumers i)) energyAllocated s).2
      (newIteration (fun i => kept (consumers i)) energyAllocated s).1
      (BruteForce.Iteration.make consumers energyAllocated) := by
  have hself : (newIteration (fun i => kept (consumers i)) energyAllocated s).2.iterations.get
      (newIteration (fun i => kept (consumers i)) energyAllocated s).1
        = Iteration.make (s.consumers.allocAll fun i => kept (consumers i)).1 energyAllocated :=
    Heap.get_alloc _ _
  have hle : s ≤ (newIteration (fun i => kept (consumers i)) energyAllocated s).2 :=
    ⟨Heap.le_allocAll s.consumers fun i => kept (consumers i),
      Heap.le_alloc s.iterations
        (Iteration.make (s.consumers.allocAll fun i => kept (consumers i)).1 energyAllocated)⟩
  refine ⟨hle, ⟨Nat.lt_succ_self _, fun i => ?_, ?_, fun i => ?_⟩, le_rfl, fun i => ?_, ?_⟩
  · rw [hself]
    show s.consumers.next + (i : ℕ) < s.consumers.next + (n + 1)
    omega
  · rw [hself]
    exact ⟨rfl, rfl, rfl, rfl, rfl⟩
  · rw [hself]
    exact Heap.get_allocAll s.consumers (fun i => kept (consumers i)) i
  · rw [hself]
    exact Nat.le_add_right s.consumers.next i
  · rw [hself]
    exact Heap.allocAll_injective s.consumers fun i => kept (consumers i)

omit [LinearOrder K] in
/-- A copy is a new object with the same figures. -/
theorem new_copy (h : Held s r it) : New s (copy r s).2 (copy r s).1 it := by
  have hcopy : copy r s = ((newIteration (fun i => ((getConsumers r s).1 i).copy)
        (s.iterations.get r).energyAllocated s).1,
      (setIteration (newIteration (fun i => ((getConsumers r s).1 i).copy)
        (s.iterations.get r).energyAllocated s).1
        (fun fresh =>
          { fresh with
            energyAllocatedPercentage := (s.iterations.get r).energyAllocatedPercentage
            consumptionTotal := (s.iterations.get r).consumptionTotal
            surplus := (s.iterations.get r).surplus
            surplusTotal := (s.iterations.get r).surplusTotal })
        (newIteration (fun i => ((getConsumers r s).1 i).copy)
          (s.iterations.get r).energyAllocated s).2).2) := rfl
  rw [hcopy, getConsumers_eq h]
  refine new_setIteration (new_newIteration it.consumers _ s) (fun _ => rfl) (fun hmade => ?_) rfl
  exact ⟨hmade.energyAllocated.trans h.figures.energyAllocated,
    h.figures.energyAllocatedPercentage, h.figures.consumptionTotal, h.figures.surplus,
    h.figures.surplusTotal⟩

/-! ### The distribution functions -/

/-- Distributing the energy: every consumer is changed, then the surplus is totalled. -/
theorem new_distribute (h : New s₀ s r it) {f : Fin (n + 1) → Consumer T K → Consumer T K}
    {g : Fin (n + 1) → BruteForce.Consumer T K}
    (hf : ∀ i, f i (kept (it.consumers i)) = kept (g i)) :
    New s₀ (settle r (eachConsumer r f s).2).2 r
      (BruteForce.Iteration.computeSurplus { it with consumers := g }).computeSurplusTotal := by
  have hconsumers : New s₀ (eachConsumer r f s).2 r { it with consumers := g } :=
    new_eachConsumer h hf fun hfigures => ⟨hfigures.energyAllocated,
      hfigures.energyAllocatedPercentage, hfigures.consumptionTotal, hfigures.surplus,
      hfigures.surplusTotal⟩
  exact new_settle hconsumers

omit [Field K] [LinearOrder K] in
theorem profile_eq (h : Held s r it) : (s.iterations.get r).energyAllocated 0 = energyProfile it :=
  congrFun h.figures.energyAllocated 0

theorem new_egalitaire (h : New s₀ s r it) :
    New s₀ (egalitaire r s).2 r (post .egalitaire it) := by
  have hegalitaire : egalitaire r s = (r, (settle r (eachConsumer r (fun _ c => Consumer.settle
      { c with
        energyAllocatedPercentage := 1 / ((n + 1 : ℕ) : K)
        energyAllocated := fun t => (s.iterations.get r).energyAllocated 0 t
          * (1 / ((n + 1 : ℕ) : K)) }) s).2).2) := rfl
  rw [hegalitaire, profile_eq h.held]
  exact new_distribute h fun i => rfl

theorem new_prorataTotal (h : New s₀ s r it) :
    New s₀ (prorataTotal r s).2 r (post .prorataTotal it) := by
  have htotal : New s₀ (setIteration r (fun object => { object with
      consumptionTotal := ∑ i, ∑ t, (it.consumers i).consumption t }) s).2 r
      it.computeConsumptionTotal :=
    new_setIteration h (fun _ => rfl) (fun hf => ⟨hf.1, hf.2, rfl, hf.4, hf.5⟩) rfl
  have hprofile : (getIteration r (setIteration r (fun object => { object with
      consumptionTotal := ∑ i, ∑ t, (kept (it.consumers i)).consumption t }) s).2).1.energyAllocated
        0 = energyProfile it := profile_eq htotal.held
  have hpost : (post .prorataTotal it).consumers =
      if ∑ i, ∑ t, (it.consumers i).consumption t = 0 then fun i =>
        if i = 0 then BruteForce.settle
          { it.consumers i with
            energyAllocatedPercentage := 1
            energyAllocated := fun t => energyProfile it t * 1 }
        else BruteForce.settle
          { it.consumers i with
            energyAllocatedPercentage := 0
            energyAllocated := fun _ => 0 }
      else fun i => BruteForce.settle
        { it.consumers i with
          energyAllocatedPercentage := (∑ t, (it.consumers i).consumption t)
            / ∑ i, ∑ t, (it.consumers i).consumption t
          energyAllocated := fun t => energyProfile it t * ((∑ t, (it.consumers i).consumption t)
            / ∑ i, ∑ t, (it.consumers i).consumption t) } := rfl
  rw [prorataTotal, bind_apply, getConsumers_eq h.held]
  simp only [bind_apply, hprofile]
  -- without any demand the first consumer gets everything
  by_cases hzero : ∑ i, ∑ t, (it.consumers i).consumption t = 0
  · have hbranch : ∑ i, ∑ t, (kept (it.consumers i)).consumption t = 0 := hzero
    rw [if_pos hzero] at hpost
    simp only [if_pos hbranch]
    refine new_distribute htotal (g := (post .prorataTotal it).consumers) fun i => ?_
    rw [hpost]
    by_cases hi : i = 0
    · simp only [if_pos hi]
      rfl
    · simp only [if_neg hi]
      rfl
  · have hbranch : ¬ ∑ i, ∑ t, (kept (it.consumers i)).consumption t = 0 := hzero
    rw [if_neg hzero] at hpost
    simp only [if_neg hbranch]
    refine new_distribute htotal (g := (post .prorataTotal it).consumers) fun i => ?_
    rw [hpost]
    rfl

omit [LinearOrder K] in
theorem prorataTotal_fst [LinearOrder K] (r : ℕ) (s : Objects n T K) :
    (prorataTotal r s).1 = r := by
  simp only [prorataTotal, bind_apply]
  split <;> rfl

theorem prorataAllocated_kept (consumers : Fin (n + 1) → BruteForce.Consumer T K)
    (profile : Fin T → K) (i : Fin (n + 1)) :
    prorataAllocated (fun j => kept (consumers j)) profile i
      = BruteForce.prorataAllocated consumers profile i := by
  funext t
  show (if 0 < ∑ j, (consumers j).consumption t then
      if 0 < (consumers i).consumption t then
        profile t * ((consumers i).consumption t / ∑ j, (consumers j).consumption t)
      else 0
    else if i = 0 then profile t else 0) = _
  rw [BruteForce.prorataAllocated]
  simp only [prorataShare]
  split_ifs <;> rfl

theorem new_prorata (h : New s₀ s r it) : New s₀ (prorata r s).2 r (post .prorata it) := by
  have hprorata : prorata r s = (r, (settle r (eachConsumer r (fun _ c => c.settle)
      (eachConsumer r (fun i c =>
        { c with
          energyAllocatedPercentage := -1
          energyAllocated := prorataAllocated (getConsumers r s).1
            ((s.iterations.get r).energyAllocated 0) i }) s).2).2).2) := rfl
  rw [hprorata, getConsumers_eq h.held, profile_eq h.held]
  have hmarked : New s₀ (eachConsumer r (fun i c =>
      { c with
        energyAllocatedPercentage := -1
        energyAllocated := prorataAllocated (fun i => kept (it.consumers i)) (energyProfile it) i })
        s).2 r { it with consumers := fun i =>
          { it.consumers i with
            energyAllocatedPercentage := -1
            energyAllocatedPercentageTime := prorataShare it.consumers i
            energyAllocated := BruteForce.prorataAllocated it.consumers (energyProfile it) i } } :=
    new_eachConsumer h (fun i => by rw [prorataAllocated_kept]; rfl)
      fun hf => ⟨hf.1, hf.2, hf.3, hf.4, hf.5⟩
  exact new_distribute hmarked fun i => rfl

theorem new_algos (algo : AlgoName) (h : New s₀ s r it) :
    New s₀ (algos algo r s).2 (algos algo r s).1 (post algo it) := by
  cases algo with
  | egalitaire => exact new_egalitaire h
  | prorataTotal =>
    rw [algos, prorataTotal_fst]
    exact new_prorataTotal h
  | prorata => exact new_prorata h

/-! ### The iterations of a run -/

/-- What `_apply_first` distributes. -/
theorem grows_applyFirst {root : ℕ} {rootIt : BruteForce.Iteration n T K} (pct : K)
    (algo : AlgoName) (h : Held s root rootIt) :
    Grows (applyFirst root pct algo) s fun node s' => ∃ r, node = Node.make algo.toString r ∧
      Held s' r (BruteForce.applyFirst id rootIt pct algo).2 := by
  have hcopy := new_copy h
  have hroot := held_mono root rootIt hcopy.le h
  have hscaled : New s (setIteration (copy root s).1 (fun object => { object with
      energyAllocatedPercentage := pct
      energyAllocated := fun i t =>
        ((copy root s).2.iterations.get root).energyAllocated i t * pct }) (copy root s).2).2
      (copy root s).1
      { rootIt with
        energyAllocatedPercentage := pct
        energyAllocated := fun i t => rootIt.energyAllocated i t * pct } := by
    refine new_setIteration hcopy (fun _ => rfl) (fun hf => ⟨?_, rfl, hf.3, hf.4, hf.5⟩) rfl
    show (fun i t => ((copy root s).2.iterations.get root).energyAllocated i t * pct) = _
    rw [hroot.figures.energyAllocated]
  have hnode := new_algos algo hscaled
  exact ⟨hnode.le, _, rfl, hnode.held⟩

omit [LinearOrder K] in
/-- What `_build_next` makes for the next functions to copy. -/
theorem grows_buildNext [LinearOrder K] {root previous : ℕ}
    {rootIt previousIt : BruteForce.Iteration n T K} (pct : K) (hroot : Held s root rootIt)
    (hprevious : Held s previous previousIt) :
    Grows (buildNext root previous pct) s fun r s' =>
      Held s' r (buildNextIteration rootIt previousIt pct) := by
  have hcopy := new_copy hprevious
  have hroot' := held_mono root rootIt hcopy.le hroot
  have hprevious' := held_mono previous previousIt hcopy.le hprevious
  have henergy : New s (setIteration (copy previous s).1 (fun object => { object with
      energyAllocatedPercentage := pct
      energyAllocated := fun i t =>
        ((copy previous s).2.iterations.get root).energyAllocated i t * pct
          + reformatExcedents (n := n) ((copy previous s).2.iterations.get previous).surplus i t })
        (copy previous s).2).2 (copy previous s).1
      { previousIt with
        energyAllocatedPercentage := pct
        energyAllocated := fun i t => rootIt.energyAllocated i t * pct
          + BruteForce.reformatExcedents (n := n) previousIt.surplus i t } := by
    refine new_setIteration hcopy (fun _ => rfl) (fun hf => ⟨?_, rfl, hf.3, hf.4, hf.5⟩) rfl
    show (fun i t => ((copy previous s).2.iterations.get root).energyAllocated i t * pct
      + reformatExcedents (n := n) ((copy previous s).2.iterations.get previous).surplus i t) = _
    rw [hroot'.figures.energyAllocated, hprevious'.figures.surplus]
    rfl
  have hresidual : New s (buildNext root previous pct s).2 (buildNext root previous pct s).1
      (buildNextIteration rootIt previousIt pct) :=
    new_eachConsumer henergy (fun i => rfl) fun hf => ⟨hf.1, hf.2, hf.3, hf.4, hf.5⟩
  exact ⟨hresidual.le, hresidual.held⟩

/-- One distribution function on a copy. -/
theorem grows_copyNode {base : ℕ} {baseIt : BruteForce.Iteration n T K} (algo : AlgoName)
    (h : Held s base baseIt) :
    Grows (do let it ← copy base; makeNode algo it) s fun node s' =>
      ∃ r, node = Node.make algo.toString r ∧ Held s' r (post algo baseIt) := by
  have hnode := new_algos algo (new_copy h)
  exact ⟨hnode.le, _, rfl, hnode.held⟩

end Operations

/-! ### Trees of references -/

section Trees

variable {rootIt : BruteForce.Iteration n T K} {root : ℕ}

/-- The references on a path hold the iterations of a run. -/
def PathHolds (s : Objects n T K) :
    List (String × ℕ) → List (String × BruteForce.Iteration n T K) → Prop :=
  List.Forall₂ fun step it => step.1 = it.1 ∧ Held s step.2 it.2

/-- The paths of a node hold these runs, in order. -/
def NodeHolds (s : Objects n T K) (node : Node ℕ)
    (runs : List (List (String × BruteForce.Iteration n T K))) : Prop :=
  List.Forall₂ (PathHolds s) node.paths runs

omit [Field K] [LinearOrder K] in
theorem nodeHolds_mono (node : Node ℕ) (runs : List (List (String × BruteForce.Iteration n T K))) :
    Monotone fun s : Objects n T K => NodeHolds s node runs := by
  intro s s' hle h
  exact h.imp fun path run hpath => hpath.imp fun step it hstep =>
    ⟨hstep.1, held_mono step.2 it.2 hle hstep.2⟩

omit [Field K] [LinearOrder K] in
theorem nodeHolds_leaf {s : Objects n T K} {r : ℕ} {it : BruteForce.Iteration n T K}
    (name : String) (h : Held s r it) : NodeHolds s (Node.make name r) [[(name, it)]] := by
  rw [NodeHolds, paths_make]
  exact List.Forall₂.cons (List.Forall₂.cons ⟨rfl, h⟩ List.Forall₂.nil) List.Forall₂.nil

omit [Field K] [LinearOrder K] in
/-- A node with children holds its own iteration before each of theirs. -/
theorem nodeHolds_node {s : Objects n T K} {r : ℕ} {it : BruteForce.Iteration n T K}
    {name : String} {expected : AlgoName → List (List (String × BruteForce.Iteration n T K))}
    {algos : List AlgoName} {children : List (Node ℕ)} (hne : algos ≠ []) (h : Held s r it)
    (hchildren : List.Forall₂ (fun algo child => NodeHolds s child (expected algo))
      algos children) :
    NodeHolds s (children.foldl Node.addChild (Node.make name r))
      (algos.flatMap fun algo => (expected algo).map ((name, it) :: ·)) := by
  have hfold : children.foldl Node.addChild (Node.make name r) = Node.node name r children := by
    have hmap := foldl_addChild_make id name r children
    rwa [List.map_id] at hmap
  have hpaths : (Node.node name r children).paths
      = (children.flatMap Node.paths).map ((name, r) :: ·) := by
    cases hchildren with
    | nil => exact absurd rfl hne
    | cons => exact paths_node_cons _ _ _ _
  rw [hfold, NodeHolds, hpaths]
  clear hfold hpaths hne
  induction hchildren with
  | nil => exact List.Forall₂.nil
  | cons hfirst _ ih =>
    rw [List.flatMap_cons, List.map_append, List.flatMap_cons]
    refine List.rel_append ?_ ih
    rw [List.forall₂_map_left_iff, List.forall₂_map_right_iff]
    exact hfirst.imp fun path run hpath => List.Forall₂.cons ⟨rfl, h⟩ hpath

omit [Field K] [LinearOrder K] in
/-- The children of a node, each built where what is known is kept. -/
theorem grows_withChildren {s : Objects n T K} {r : ℕ} {it : BruteForce.Iteration n T K}
    {name : String} {child : AlgoName → Build n T K (Node ℕ)} {pre : Objects n T K → Prop}
    {expected : AlgoName → List (List (String × BruteForce.Iteration n T K))}
    (hpre : Monotone pre) (h : Held s r it) (hs : pre s)
    (hchild : ∀ algo s', pre s' →
      Grows (child algo) s' fun node s'' => NodeHolds s'' node (expected algo)) :
    Grows (withChildren (Node.make name r) child) s fun node s' =>
      NodeHolds s' node (algoNames.flatMap fun algo => (expected algo).map ((name, it) :: ·)) := by
  refine grows_bind (grows_mapM hpre (fun algo node => nodeHolds_mono node (expected algo))
    algoNames (fun algo _ => hchild algo) s hs) fun children s' hle hchildren => ?_
  exact grows_pure (nodeHolds_node (by simp [algoNames]) (held_mono r it hle h) hchildren)

/-- The leaves below an iteration. -/
theorem grows_leaf {s : Objects n T K} {base : ℕ} {baseIt : BruteForce.Iteration n T K}
    (algo : AlgoName) (h : Held s base baseIt) :
    Grows (do let it ← copy base; makeNode algo it) s fun node s' =>
      NodeHolds s' node [[(algo.toString, post algo baseIt)]] := by
  refine (grows_copyNode algo h).mono ?_
  rintro node s' ⟨r, rfl, hr⟩
  exact nodeHolds_leaf algo.toString hr

omit [Field K] [LinearOrder K] in
/-- The lists of runs a loop over the functions appends. -/
theorem forall₂_nodeHolds {s : Objects n T K} {nodes : List (Node ℕ)} {algos : List AlgoName}
    {expected : AlgoName → List (List (String × BruteForce.Iteration n T K))}
    (h : List.Forall₂ (fun algo node => NodeHolds s node (expected algo)) algos nodes) :
    List.Forall₂ (NodeHolds s) nodes (algos.map expected) := by
  rw [List.forall₂_map_right_iff]
  exact h.flip

theorem grows_oneIteration {s : Objects n T K} (h : Held s root rootIt) :
    Grows (oneIteration root) s fun nodes s' => List.Forall₂ (NodeHolds s') nodes
      (algoNames.map fun algo => [keyRun rootIt [((1 : K), algo)]]) := by
  refine (grows_mapM (held_mono root rootIt) (fun algo node => nodeHolds_mono node _) algoNames
    (fun algo _ s h => ?_) s h).mono fun nodes s' => forall₂_nodeHolds
  have hwhole : New s (setIteration (copy root s).1 (fun (object : Iteration n T K) =>
      { object with energyAllocatedPercentage := 1 }) (copy root s).2).2 (copy root s).1
      { rootIt with
        energyAllocatedPercentage := 1
        energyAllocated := fun i t => rootIt.energyAllocated i t * 1 } := by
    refine new_setIteration (new_copy h) (fun _ => rfl) (fun hf => ⟨?_, rfl, hf.3, hf.4, hf.5⟩) rfl
    simp only [mul_one]
    exact hf.energyAllocated
  have hnode := new_algos algo hwhole
  exact ⟨hnode.le, nodeHolds_leaf algo.toString hnode.held⟩

theorem grows_twoIterations {s : Objects n T K} (h : Held s root rootIt) :
    Grows (twoIterations root) s fun nodes s' => List.Forall₂ (NodeHolds s') nodes
      ((List.range 11).flatMap fun (i : ℕ) => algoNames.map fun algo1 =>
        algoNames.flatMap fun algo2 =>
          [keyRun rootIt [((i : K) / 10, algo1), (1 - (i : K) / 10, algo2)]]) := by
  refine grows_collect (held_mono root rootIt) nodeHolds_mono (List.range 11)
    (fun i _ s h => ?_) s h
  refine (grows_mapM (held_mono root rootIt) (fun algo1 node => nodeHolds_mono node _) algoNames
    (fun algo1 _ s h => ?_) s h).mono fun nodes s' => forall₂_nodeHolds
  refine grows_bind (grows_applyFirst ((i : K) / 10) algo1 h) fun node1 s₁ hle₁ hnode1 => ?_
  obtain ⟨r, rfl, hr⟩ := hnode1
  refine grows_bind (grows_buildNext (1 - (i : K) / 10) (held_mono root rootIt hle₁ h) hr)
    fun base2 s₂ hle₂ hbase2 => ?_
  exact grows_withChildren (held_mono base2 _) (held_mono r _ hle₂ hr) hbase2
    fun algo2 s' h' => grows_leaf algo2 h'

/-- The second iteration of three, with what follows it. -/
theorem grows_middle {s : Objects n T K} {base : ℕ} {baseIt : BruteForce.Iteration n T K}
    (pct3 : K) (algo2 : AlgoName) (h : Held s root rootIt) (hbase : Held s base baseIt) :
    Grows (do
        let it ← copy base
        let node2 ← makeNode algo2 it
        let base3 ← buildNext root node2.summary pct3
        withChildren node2 fun algo3 => do
          let it ← copy base3
          makeNode algo3 it) s fun node s' => NodeHolds s' node
      (algoNames.flatMap fun algo3 => [[(algo2.toString, post algo2 baseIt), (algo3.toString,
        post algo3 (buildNextIteration rootIt (post algo2 baseIt) pct3))]]) := by
  rw [← bind_assoc]
  refine grows_bind (grows_copyNode algo2 hbase) fun node2 s₁ hle₁ hnode2 => ?_
  obtain ⟨r, rfl, hr⟩ := hnode2
  refine grows_bind (grows_buildNext pct3 (held_mono root rootIt hle₁ h) hr)
    fun base3 s₂ hle₂ hbase3 => ?_
  exact grows_withChildren (held_mono base3 _) (held_mono r _ hle₂ hr) hbase3
    fun algo3 s' h' => grows_leaf algo3 h'

theorem grows_threeIterations {s : Objects n T K} (h : Held s root rootIt) :
    Grows (threeIterations root) s fun nodes s' => List.Forall₂ (NodeHolds s') nodes
      ((List.range 11).flatMap fun (i : ℕ) => (List.range (10 - i + 1)).flatMap fun (j : ℕ) =>
        algoNames.map fun algo1 => algoNames.flatMap fun algo2 =>
          (algoNames.flatMap fun algo3 => [keyRun rootIt [((i : K) / 10, algo1),
            ((j : K) / 10, algo2), (thirdShare ((i : K) / 10) ((j : K) / 10), algo3)]])) := by
  refine grows_collect (held_mono root rootIt) nodeHolds_mono (List.range 11)
    (fun i _ s h => ?_) s h
  refine grows_collect (held_mono root rootIt) nodeHolds_mono (List.range (10 - i + 1))
    (fun j _ s h => ?_) s h
  refine (grows_mapM (held_mono root rootIt) (fun algo1 node => nodeHolds_mono node _) algoNames
    (fun algo1 _ s h => ?_) s h).mono fun nodes s' => forall₂_nodeHolds
  refine grows_bind (grows_applyFirst ((i : K) / 10) algo1 h) fun node1 s₁ hle₁ hnode1 => ?_
  obtain ⟨r₁, rfl, hr₁⟩ := hnode1
  have h₁ := held_mono root rootIt hle₁ h
  refine grows_bind (grows_buildNext ((j : K) / 10) h₁ hr₁) fun base2 s₂ hle₂ hbase2 => ?_
  exact grows_withChildren (heldBoth_mono root rootIt base2 _) (held_mono r₁ _ hle₂ hr₁)
    ⟨held_mono root rootIt hle₂ h₁, hbase2⟩ fun algo2 s' h' =>
      grows_middle (thirdShare ((i : K) / 10) ((j : K) / 10)) algo2 h'.1 h'.2

/-- **The former trees hold the runs.**  Once the enumeration is over, the references on the ways
from the roots to the leaves hold the runs of all choices, in order. -/
theorem generate_holds (C VA : Fin (n + 1) → Fin T → K) (iterations : ℕ) :
    ∃ runs, List.Forall₂ (NodeHolds (generate C VA iterations Objects.empty).2)
      (generate C VA iterations Objects.empty).1 runs ∧
      runs.flatten = (choices iterations).map (keyRun (makeRootIteration C VA)) := by
  have hroot : Held (newIteration (fun i => Consumer.make (C i)) VA Objects.empty).2
      (newIteration (fun i => Consumer.make (C i)) VA Objects.empty).1 (makeRootIteration C VA) :=
    (new_newIteration (fun i => BruteForce.Consumer.make (C i) 0) VA Objects.empty).held
  have hflatten : ∀ {γ : Type} (l : List γ)
      (f : γ → List (List (List (String × BruteForce.Iteration n T K)))),
        (l.flatMap f).flatten = l.flatMap fun c => (f c).flatten := by
    intro γ l f
    rw [List.flatMap_def, List.flatMap_def, List.flatten_flatten, List.map_map]
    rfl
  rw [generate, bind_apply]
  by_cases h1 : iterations = 1
  · simp only [if_pos h1, choices]
    refine ⟨_, (grows_oneIteration hroot).2, ?_⟩
    rw [← List.flatMap_def, List.map_map, List.map_eq_flatMap]
    rfl
  by_cases h2 : iterations = 2
  · simp only [if_neg h1, if_pos h2, choices]
    refine ⟨_, (grows_twoIterations hroot).2, ?_⟩
    simp only [hflatten, List.map_flatMap, ← List.flatMap_def, List.map_map]
    rfl
  · simp only [if_neg h1, if_neg h2, choices]
    refine ⟨_, (grows_threeIterations hroot).2, ?_⟩
    simp only [hflatten, List.map_flatMap, ← List.flatMap_def, List.map_map]
    rfl

end Trees

/-! ### The keys -/

/-- The reported iterations along a path of references, numbered from `number`. -/
def pathResults (names : List String) (s : Objects n T K) :
    ℕ → List (String × ℕ) → List (IterationResult K)
  | _, [] => []
  | number, step :: rest =>
      s.iterationResult step.2 number names :: pathResults names s (number + 1) rest

mutual
theorem walk_eq (rounded : K → String) (names : List String) (s : Objects n T K) :
    ∀ (node : Node ℕ) (pathIters : List (IterationResult K)) (pathNames : List String),
      walk rounded names s pathIters pathNames node = node.paths.map fun path =>
        buildKey rounded (pathIters ++ pathResults names s (pathIters.length + 1) path)
          (pathNames ++ path.map Prod.fst)
  | .node name it [], pathIters, pathNames => by
      simp [walk, Node.paths, pathResults]
  | .node name it (child :: children), pathIters, pathNames => by
      rw [walk, walkChildren_eq rounded names s (child :: children), Node.paths, List.map_map]
      apply List.map_congr_left
      intro path _
      simp [pathResults]

theorem walkChildren_eq (rounded : K → String) (names : List String) (s : Objects n T K) :
    ∀ (nodes : List (Node ℕ)) (pathIters : List (IterationResult K)) (pathNames : List String),
      walkChildren rounded names s pathIters pathNames nodes =
        (Node.pathsList nodes).map fun path =>
          buildKey rounded (pathIters ++ pathResults names s (pathIters.length + 1) path)
            (pathNames ++ path.map Prod.fst)
  | [], _, _ => rfl
  | child :: children, pathIters, pathNames => by
      rw [walkChildren, walk_eq rounded names s child, walkChildren_eq rounded names s children,
        Node.pathsList, List.map_append]
end

theorem iterationResult_held {s : Objects n T K} {r : ℕ} {it : BruteForce.Iteration n T K}
    (h : Held s r it) (number : ℕ) (names : List String) :
    s.iterationResult r number names = BruteForce.iterationResult it.summary number names := by
  rw [Objects.iterationResult, funext h.consumers, iterationResult, h.figures.energyAllocated,
    h.figures.energyAllocatedPercentage, h.figures.surplusTotal]
  rfl

theorem pathResults_held {s : Objects n T K} (names : List String) {path : List (String × ℕ)}
    {run : List (String × BruteForce.Iteration n T K)} (h : PathHolds s path run) :
    path.map Prod.fst = run.map Prod.fst ∧ ∀ number, pathResults names s number path
      = BruteForce.pathResults names number (viewRun BruteForce.Iteration.summary run) := by
  induction h with
  | nil => exact ⟨rfl, fun _ => rfl⟩
  | cons hstep _ ih =>
    refine ⟨by rw [List.map_cons, hstep.1, ih.1, List.map_cons], fun number => ?_⟩
    rw [pathResults, ih.2, iterationResult_held hstep.2]
    rfl

/-- The keys below a node are those of the runs it holds. -/
theorem walk_held (rounded : K → String) (names : List String) {s : Objects n T K} {node : Node ℕ}
    {runs : List (List (String × BruteForce.Iteration n T K))} (h : NodeHolds s node runs) :
    walk rounded names s [] [] node = runs.map (keyOfRun rounded names) := by
  rw [walk_eq, ← List.forall₂_eq_eq_eq, List.forall₂_map_left_iff, List.forall₂_map_right_iff]
  refine h.imp fun path run hpath => ?_
  obtain ⟨hnames, hresults⟩ := pathResults_held names hpath
  rw [List.nil_append, List.nil_append, List.length_nil, hresults, hnames, keyOfRun, keyOfPath,
    viewRun, List.map_map]
  rfl

/-- **The memory-saving brute force returns the former keys**: the same list, in the same order,
whatever the readings, the names and the number of iterations. -/
theorem run_eq_runFormer (rounded : K → String) (inputs : BruteForceInput)
    (rawData : AlgorithmRawData n T K) :
    run rounded inputs rawData =
      runFormer rounded rawData.C rawData.VA rawData.consumerNames inputs.iterations := by
  obtain ⟨trees, htrees, hruns⟩ := generate_holds rawData.C rawData.VA inputs.iterations
  have hkeys : ∀ {roots : List (Node ℕ)} {s : Objects n T K},
      List.Forall₂ (NodeHolds s) roots trees →
        (roots.flatMap fun root => walk rounded rawData.consumerNames s [] [] root)
          = trees.flatten.map (keyOfRun rounded rawData.consumerNames) := by
    intro roots s h
    clear htrees hruns
    induction h with
    | nil => rfl
    | cons hroot _ ih =>
      rw [List.flatMap_cons, ih, walk_held rounded _ hroot, List.flatten_cons, List.map_append]
  have hformer : (runFormer rounded rawData.C rawData.VA rawData.consumerNames
      inputs.iterations).keys = (run rounded inputs rawData).keys := by
    rw [run_keys, runs, ← hruns, ← hkeys htrees]
    rfl
  exact congrArg AlgorithmResult.mk hformer.symm

end AllocationKeys.BruteForce.Former
