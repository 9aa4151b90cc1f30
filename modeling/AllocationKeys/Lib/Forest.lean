import Mathlib.Data.List.Basic
import Mathlib.Data.List.Forall2
import Mathlib.Data.List.Nodup
import Mathlib.Data.List.Sort
import Mathlib.Tactic.Common

/-!
# Three tables of owned rows

A forest is three tables: roots, nodes that belong to a root, and leaves that belong to a node.
Every row has an id, an owner and its columns. Trees are added with fresh ids (`Forest.add`), read
back (`Rows.read`), and roots removed with all that belongs to them (`Rows.remove`).

A query that asks for no order may give rows in any: what is read of a root is read in an
`Arrangement`, and `Arrangement.stored` leaves the rows as they lie in the tables. `Tree.Reorders`
says of two trees that they differ in no more than that. `Rows.restrict keep` are the rows of the
owners that are kept.

* `Rows.Descends`: every row has the owner of what it belongs to, which a removal preserves and so
  does the addition of trees with one owner each;
* `reorders_read`: whatever the arrangement, what is read of a root is its tree in another order;
* `read_restrict`, `restrict_remove`: reading and removing roots that are kept only look at the rows
  that are;
* `restrict_remove_other`, `restrict_add_other`: what is done to the rows of others leaves the rows
  that are kept;
* `contents_add`: an added tree is what is read, next to what was.
-/

namespace AllocationKeys

/-- A row: its id, the id of what it belongs to, its owner and its columns. -/
structure Row (P O α : Type) where
  id : ℕ
  parent : P
  owner : O
  columns : α

structure Rows (P O κ ι γ : Type) where
  roots : List (Row P O κ)
  nodes : List (Row ℕ O ι)
  leaves : List (Row ℕ O γ)

/-- Tables with the ids they give next. -/
structure Forest (P O κ ι γ : Type) extends Rows P O κ ι γ where
  nextRoot : ℕ
  nextNode : ℕ
  nextLeaf : ℕ

structure Leaf (O γ : Type) where
  owner : O
  columns : γ

structure Node (O ι γ : Type) where
  owner : O
  columns : ι
  leaves : List (Leaf O γ)

structure Tree (P O κ ι γ : Type) where
  parent : P
  owner : O
  columns : κ
  nodes : List (Node O ι γ)

variable {P O κ ι γ : Type}

/-- All of the tree has one owner. -/
structure Tree.OwnedBy (o : O) (tree : Tree P O κ ι γ) : Prop where
  root : tree.owner = o
  node : ∀ node ∈ tree.nodes, node.owner = o
  leaf : ∀ node ∈ tree.nodes, ∀ leaf ∈ node.leaves, leaf.owner = o

/-! ### Orders -/

/-- The order in which rows are read: the ids of nodes and of leaves, from the first. -/
structure Arrangement where
  nodes : List ℕ
  leaves : List ℕ

/-- As they lie in the tables. -/
def Arrangement.stored : Arrangement := ⟨[], []⟩

/-- Rows in the order of their ids; those without a place keep theirs, after the others. -/
def arrange {α : Type} (ids : List ℕ) (rows : List (Row P O α)) : List (Row P O α) :=
  rows.insertionSort fun a b => ids.idxOf a.id ≤ ids.idxOf b.id

section Arrange

variable {α : Type}

@[simp] theorem arrange_nil (rows : List (Row P O α)) : arrange [] rows = rows := by
  have hsorted : rows.Pairwise fun a b => ([] : List ℕ).idxOf a.id ≤ ([] : List ℕ).idxOf b.id :=
    List.pairwise_of_forall fun _ _ => Nat.le_refl _
  exact hsorted.insertionSort_eq

theorem arrange_perm (ids : List ℕ) (rows : List (Row P O α)) : (arrange ids rows).Perm rows :=
  List.perm_insertionSort _ rows

/-- **Every order of rows with ids of their own is an arrangement.** -/
theorem arrange_of_perm {rows rows' : List (Row P O α)} (hnodup : (rows.map Row.id).Nodup)
    (hperm : rows'.Perm rows) : arrange (rows'.map Row.id) rows = rows' := by
  have hnodup' : (rows'.map Row.id).Nodup := (hperm.map _).nodup_iff.mpr hnodup
  have hsorted : rows'.Pairwise fun a b =>
      (rows'.map Row.id).idxOf a.id ≤ (rows'.map Row.id).idxOf b.id := by
    rw [List.pairwise_iff_getElem]
    intro i j hi hj hlt
    have hplace : ∀ k (hk : k < rows'.length), (rows'.map Row.id).idxOf rows'[k].id = k := by
      intro k hk
      have hget := hnodup'.idxOf_getElem k (by simpa using hk)
      rwa [List.getElem_map] at hget
    rw [hplace i hi, hplace j hj]
    exact Nat.le_of_lt hlt
  have := Std.Total.mk fun a b : Row P O α =>
    Nat.le_total ((rows'.map Row.id).idxOf a.id) ((rows'.map Row.id).idxOf b.id)
  have : IsTrans (Row P O α) fun a b =>
      (rows'.map Row.id).idxOf a.id ≤ (rows'.map Row.id).idxOf b.id :=
    ⟨fun _ _ _ => Nat.le_trans⟩
  have hsort : (arrange (rows'.map Row.id) rows).Perm rows' := (arrange_perm _ _).trans hperm.symm
  refine hsort.eq_of_pairwise ?_ (List.pairwise_insertionSort _ rows) hsorted
  intro a b ha hb hab hba
  have hid : a.id ∈ rows'.map Row.id := List.mem_map_of_mem (hsort.mem_iff.mp ha)
  have hsame : a.id = b.id := (List.idxOf_inj hid).mp (Nat.le_antisymm hab hba)
  exact List.inj_on_of_nodup_map hnodup' (hsort.mem_iff.mp ha) hb hsame

end Arrange

/-- The same leaves, in another order. -/
structure Node.Reorders (node node' : Node O ι γ) : Prop where
  owner : node.owner = node'.owner
  columns : node.columns = node'.columns
  leaves : node.leaves.Perm node'.leaves

/-- The same nodes with the same leaves, in another order. -/
structure Tree.Reorders (tree tree' : Tree P O κ ι γ) : Prop where
  parent : tree.parent = tree'.parent
  owner : tree.owner = tree'.owner
  columns : tree.columns = tree'.columns
  nodes : ∃ nodes : List (Node O ι γ),
    List.Forall₂ Node.Reorders tree.nodes nodes ∧ nodes.Perm tree'.nodes

/-! ### Reading -/

namespace Rows

variable (rows : Rows P O κ ι γ)

def leavesOf (id : ℕ) : List (Row ℕ O γ) := rows.leaves.filter fun leaf => leaf.parent == id

def nodesOf (id : ℕ) : List (Row ℕ O ι) := rows.nodes.filter fun node => node.parent == id

def readNode (arrangement : Arrangement) (node : Row ℕ O ι) : Node O (ℕ × ι) (ℕ × γ) where
  owner := node.owner
  columns := (node.id, node.columns)
  leaves := (arrange arrangement.leaves (rows.leavesOf node.id)).map fun leaf =>
    ⟨leaf.owner, leaf.id, leaf.columns⟩

/-- A root with all that belongs to it, and the ids. -/
def read (arrangement : Arrangement) (root : Row P O κ) : Tree P O (ℕ × κ) (ℕ × ι) (ℕ × γ) where
  parent := root.parent
  owner := root.owner
  columns := (root.id, root.columns)
  nodes := (arrange arrangement.nodes (rows.nodesOf root.id)).map (rows.readNode arrangement)

theorem reorders_readNode (arrangement : Arrangement) (node : Row ℕ O ι) :
    (rows.readNode arrangement node).Reorders (rows.readNode .stored node) where
  owner := rfl
  columns := rfl
  leaves := by
    refine List.Perm.map _ ?_
    rw [Arrangement.stored, arrange_nil]
    exact arrange_perm _ _

/-- **What is read of a root is its tree, in another order.** -/
theorem reorders_read (arrangement : Arrangement) (root : Row P O κ) :
    (rows.read arrangement root).Reorders (rows.read .stored root) where
  parent := rfl
  owner := rfl
  columns := rfl
  nodes := by
    refine ⟨(arrange arrangement.nodes (rows.nodesOf root.id)).map (rows.readNode .stored), ?_,
      List.Perm.map _ ?_⟩
    · rw [read, List.forall₂_map_left_iff, List.forall₂_map_right_iff, List.forall₂_same]
      exact fun node _ => rows.reorders_readNode arrangement node
    · rw [Arrangement.stored, arrange_nil]
      exact arrange_perm _ _

end Rows

/-- Without the ids. -/
def Node.content (node : Node O (ℕ × ι) (ℕ × γ)) : Node O ι γ where
  owner := node.owner
  columns := node.columns.2
  leaves := node.leaves.map fun leaf => ⟨leaf.owner, leaf.columns.2⟩

def Tree.content (tree : Tree P O (ℕ × κ) (ℕ × ι) (ℕ × γ)) : Tree P O κ ι γ where
  parent := tree.parent
  owner := tree.owner
  columns := tree.columns.2
  nodes := tree.nodes.map Node.content

def Rows.contents (rows : Rows P O κ ι γ) : List (Tree P O κ ι γ) :=
  rows.roots.map fun root => (rows.read .stored root).content

theorem Node.Reorders.content {node node' : Node O (ℕ × ι) (ℕ × γ)} (h : node.Reorders node') :
    node.content.Reorders node'.content where
  owner := h.owner
  columns := congrArg Prod.snd h.columns
  leaves := h.leaves.map _

theorem Tree.Reorders.content {tree tree' : Tree P O (ℕ × κ) (ℕ × ι) (ℕ × γ)}
    (h : tree.Reorders tree') : tree.content.Reorders tree'.content where
  parent := h.parent
  owner := h.owner
  columns := congrArg Prod.snd h.columns
  nodes := by
    obtain ⟨nodes, hnodes, hperm⟩ := h.nodes
    refine ⟨nodes.map Node.content, ?_, hperm.map _⟩
    rw [Tree.content, List.forall₂_map_left_iff, List.forall₂_map_right_iff]
    exact hnodes.imp fun _ _ hnode => hnode.content

/-! ### Owners -/

namespace Rows

/-- Every node has a root and every leaf a node, with the same owner; ids are unique. -/
structure Descends (rows : Rows P O κ ι γ) : Prop where
  roots_nodup : (rows.roots.map Row.id).Nodup
  nodes_nodup : (rows.nodes.map Row.id).Nodup
  node_root : ∀ node ∈ rows.nodes, ∃ root ∈ rows.roots, root.id = node.parent ∧
    root.owner = node.owner
  leaf_node : ∀ leaf ∈ rows.leaves, ∃ node ∈ rows.nodes, node.id = leaf.parent ∧
    node.owner = leaf.owner

variable {rows : Rows P O κ ι γ}

theorem Descends.node_owner (h : rows.Descends) {node : Row ℕ O ι} {root : Row P O κ}
    (hnode : node ∈ rows.nodes) (hroot : root ∈ rows.roots) (hid : root.id = node.parent) :
    node.owner = root.owner := by
  obtain ⟨root', hroot', hid', howner⟩ := h.node_root node hnode
  have heq := List.inj_on_of_nodup_map h.roots_nodup hroot' hroot (hid'.trans hid.symm)
  rw [← howner, heq]

theorem Descends.leaf_owner (h : rows.Descends) {leaf : Row ℕ O γ} {node : Row ℕ O ι}
    (hleaf : leaf ∈ rows.leaves) (hnode : node ∈ rows.nodes) (hid : node.id = leaf.parent) :
    leaf.owner = node.owner := by
  obtain ⟨node', hnode', hid', howner⟩ := h.leaf_node leaf hleaf
  have heq := List.inj_on_of_nodup_map h.nodes_nodup hnode' hnode (hid'.trans hid.symm)
  rw [← howner, heq]

/-- The tree of a root has one owner. -/
theorem Descends.ownedBy_read (h : rows.Descends) (arrangement : Arrangement) {root : Row P O κ}
    (hroot : root ∈ rows.roots) : (rows.read arrangement root).OwnedBy root.owner := by
  refine ⟨rfl, ?_, ?_⟩
  · intro node hnode
    obtain ⟨row, hrow, rfl⟩ := List.mem_map.mp hnode
    obtain ⟨hmem, hparent⟩ := List.mem_filter.mp ((arrange_perm _ _).mem_iff.mp hrow)
    exact h.node_owner hmem hroot (eq_of_beq hparent).symm
  · intro node hnode leaf hleaf
    obtain ⟨row, hrow, rfl⟩ := List.mem_map.mp hnode
    obtain ⟨hmem, hparent⟩ := List.mem_filter.mp ((arrange_perm _ _).mem_iff.mp hrow)
    obtain ⟨leafRow, hleafRow, rfl⟩ := List.mem_map.mp hleaf
    obtain ⟨hleafMem, hleafParent⟩ := List.mem_filter.mp ((arrange_perm _ _).mem_iff.mp hleafRow)
    show leafRow.owner = root.owner
    rw [h.leaf_owner hleafMem hmem (eq_of_beq hleafParent).symm]
    exact h.node_owner hmem hroot (eq_of_beq hparent).symm

/-! ### Removing -/

/-- Remove roots, and all that belongs to them. -/
def remove (gone : Row P O κ → Bool) (rows : Rows P O κ ι γ) : Rows P O κ ι γ :=
  let nodeGone (node : Row ℕ O ι) := rows.roots.any fun root => gone root && root.id == node.parent
  { roots := rows.roots.filter fun root => !gone root
    nodes := rows.nodes.filter fun node => !nodeGone node
    leaves := rows.leaves.filter fun leaf =>
      !rows.nodes.any fun node => nodeGone node && node.id == leaf.parent }

theorem Descends.remove (h : rows.Descends) (gone : Row P O κ → Bool) :
    (rows.remove gone).Descends where
  roots_nodup := h.roots_nodup.sublist (List.filter_sublist.map _)
  nodes_nodup := h.nodes_nodup.sublist (List.filter_sublist.map _)
  node_root node hnode := by
    obtain ⟨hmem, hkept⟩ := List.mem_filter.mp hnode
    obtain ⟨root, hroot, hid, howner⟩ := h.node_root node hmem
    refine ⟨root, List.mem_filter.mpr ⟨hroot, ?_⟩, hid, howner⟩
    by_contra hgone
    simp only [Bool.not_eq_true', List.any_eq_false, Bool.and_eq_true, beq_iff_eq] at hkept hgone
    exact hkept root hroot ⟨by simpa using hgone, hid⟩
  leaf_node leaf hleaf := by
    obtain ⟨hmem, hkept⟩ := List.mem_filter.mp hleaf
    obtain ⟨node, hnode, hid, howner⟩ := h.leaf_node leaf hmem
    refine ⟨node, List.mem_filter.mpr ⟨hnode, ?_⟩, hid, howner⟩
    by_contra hgone
    rw [Bool.not_eq_true', List.any_eq_false] at hkept
    refine hkept node hnode ?_
    rw [Bool.and_eq_true]
    exact ⟨by simpa using hgone, by simpa using hid⟩

/-! ### The rows of some owners -/

/-- The rows whose owner is kept. -/
def restrict (keep : O → Bool) (rows : Rows P O κ ι γ) : Rows P O κ ι γ where
  roots := rows.roots.filter fun root => keep root.owner
  nodes := rows.nodes.filter fun node => keep node.owner
  leaves := rows.leaves.filter fun leaf => keep leaf.owner

variable {keep : O → Bool}

theorem restrict_eq_self (h : ∀ owner, keep owner = true) : rows.restrict keep = rows := by
  simp [restrict, h]

/-- The nodes of a root have its owner. -/
theorem nodesOf_restrict (h : rows.Descends) {root : Row P O κ} (hroot : root ∈ rows.roots)
    (hkeep : keep root.owner = true) :
    (rows.restrict keep).nodesOf root.id = rows.nodesOf root.id := by
  simp only [nodesOf, restrict, List.filter_filter]
  refine List.filter_congr fun node hnode => ?_
  by_cases hparent : node.parent = root.id
  · simp [hparent, h.node_owner hnode hroot hparent.symm, hkeep]
  · simp [hparent]

/-- Reading a root that is kept only looks at the rows that are. -/
theorem read_restrict (h : rows.Descends) (arrangement : Arrangement) {root : Row P O κ}
    (hroot : root ∈ rows.roots) (hkeep : keep root.owner = true) :
    (rows.restrict keep).read arrangement root = rows.read arrangement root := by
  have hleaves : ∀ node ∈ arrange arrangement.nodes (rows.nodesOf root.id),
      (rows.restrict keep).readNode arrangement node = rows.readNode arrangement node := by
    intro node hmem
    obtain ⟨hnode, hparent⟩ := List.mem_filter.mp ((arrange_perm _ _).mem_iff.mp hmem)
    have howner := h.node_owner hnode hroot (eq_of_beq hparent).symm
    simp only [readNode, leavesOf, restrict, List.filter_filter]
    congr 3
    refine List.filter_congr fun leaf hleaf => ?_
    by_cases hleafParent : leaf.parent = node.id
    · simp [hleafParent, h.leaf_owner hleaf hnode hleafParent.symm, howner, hkeep]
    · simp [hleafParent]
  simp only [read, nodesOf_restrict h hroot hkeep, List.map_congr_left hleaves]

theorem find_restrict (wanted : Row P O κ → Bool) :
    (rows.roots.find? fun root => wanted root && keep root.owner) =
      (rows.restrict keep).roots.find? wanted := by
  simp only [restrict, List.find?_filter]
  congr 1
  funext root
  cases wanted root <;> simp

/-- Looking up a root that is kept and reading it only looks at the rows that are. -/
theorem read_find (h : rows.Descends) (arrangement : Arrangement) (wanted : Row P O κ → Bool) :
    (rows.roots.find? fun root => wanted root && keep root.owner).map (rows.read arrangement) =
      ((rows.restrict keep).roots.find? wanted).map ((rows.restrict keep).read arrangement) := by
  rw [← find_restrict]
  cases hroot : rows.roots.find? fun root => wanted root && keep root.owner with
  | none => rfl
  | some root =>
    have hwanted := List.find?_some hroot
    rw [Bool.and_eq_true] at hwanted
    rw [Option.map_some, Option.map_some,
      read_restrict h arrangement (List.mem_of_find?_eq_some hroot) hwanted.2]

variable {gone : Row P O κ → Bool}

/-- What goes with a root has its owner. -/
theorem owner_of_any_gone (h : rows.Descends) {p : O → Prop}
    (hgone : ∀ root ∈ rows.roots, gone root = true → p root.owner) {node : Row ℕ O ι}
    (hnode : node ∈ rows.nodes)
    (htest : (rows.roots.any fun root => gone root && root.id == node.parent) = true) :
    p node.owner := by
  obtain ⟨root, hroot, hboth⟩ := List.any_eq_true.mp htest
  rw [Bool.and_eq_true, beq_iff_eq] at hboth
  rw [h.node_owner hnode hroot hboth.2]
  exact hgone root hroot hboth.1

/-- Removing roots that are kept only looks at the rows that are. -/
theorem restrict_remove (h : rows.Descends)
    (hgone : ∀ root ∈ rows.roots, gone root = true → keep root.owner = true) :
    (rows.remove gone).restrict keep = (rows.restrict keep).remove gone := by
  have hroots : ∀ id : ℕ, ((rows.restrict keep).roots.any fun root => gone root && root.id == id) =
      rows.roots.any fun root => gone root && root.id == id := by
    intro id
    rw [Bool.eq_iff_iff, List.any_eq_true, List.any_eq_true]
    constructor
    · rintro ⟨root, hroot, htest⟩
      exact ⟨root, (List.mem_filter.mp hroot).1, htest⟩
    · rintro ⟨root, hroot, htest⟩
      have hboth := htest
      rw [Bool.and_eq_true] at hboth
      exact ⟨root, List.mem_filter.mpr ⟨hroot, hgone root hroot hboth.1⟩, htest⟩
  simp only [remove, hroots]
  simp only [restrict, List.filter_filter, mk.injEq]
  refine ⟨List.filter_congr fun _ _ => Bool.and_comm _ _,
    List.filter_congr fun _ _ => Bool.and_comm _ _, List.filter_congr fun leaf hleaf => ?_⟩
  rw [Bool.and_comm]
  cases hkept : keep leaf.owner with
  | false => rw [Bool.and_false, Bool.and_false]
  | true =>
    congr 2
    rw [Bool.eq_iff_iff, List.any_eq_true, List.any_eq_true]
    constructor
    · rintro ⟨node, hnode, htest⟩
      refine ⟨node, List.mem_filter.mpr ⟨hnode, ?_⟩, htest⟩
      rw [Bool.and_eq_true] at htest
      exact owner_of_any_gone h (p := fun o => keep o = true) hgone hnode htest.1
    · rintro ⟨node, hnode, htest⟩
      exact ⟨node, (List.mem_filter.mp hnode).1, htest⟩

/-- Removing roots that are not kept leaves the rows that are. -/
theorem restrict_remove_other (h : rows.Descends)
    (hgone : ∀ root ∈ rows.roots, gone root = true → keep root.owner = false) :
    (rows.remove gone).restrict keep = rows.restrict keep := by
  have hkept : ∀ {owner : O}, keep owner = true → ¬ keep owner = false := by simp
  simp only [remove, restrict, List.filter_filter, mk.injEq]
  refine ⟨List.filter_congr fun root hroot => ?_, List.filter_congr fun node hnode => ?_,
    List.filter_congr fun leaf hleaf => ?_⟩
  · cases hkeep : keep root.owner with
    | false => rfl
    | true =>
      rw [Bool.true_and, Bool.not_eq_true', Bool.eq_false_iff]
      exact fun hgoes => hkept hkeep (hgone root hroot hgoes)
  · cases hkeep : keep node.owner with
    | false => rfl
    | true =>
      rw [Bool.true_and, Bool.not_eq_true', Bool.eq_false_iff]
      exact fun hgoes => hkept hkeep
        (owner_of_any_gone h (p := fun o => keep o = false) hgone hnode hgoes)
  · cases hkeep : keep leaf.owner with
    | false => rfl
    | true =>
      rw [Bool.true_and, Bool.not_eq_true', Bool.eq_false_iff]
      intro hgoes
      obtain ⟨node, hnode, hboth⟩ := List.any_eq_true.mp hgoes
      rw [Bool.and_eq_true, beq_iff_eq] at hboth
      rw [h.leaf_owner hleaf hnode hboth.2] at hkeep
      exact hkept hkeep (owner_of_any_gone h (p := fun o => keep o = false) hgone hnode hboth.1)

end Rows

/-! ### Adding trees -/

namespace Forest

/-- Add a node of a root, with its leaves. -/
def addNode (root : ℕ) (forest : Forest P O κ ι γ) (node : Node O ι γ) : Forest P O κ ι γ where
  roots := forest.roots
  nodes := forest.nodes ++ [⟨forest.nextNode, root, node.owner, node.columns⟩]
  leaves := forest.leaves ++
    node.leaves.mapIdx fun i leaf =>
      ⟨forest.nextLeaf + i, forest.nextNode, leaf.owner, leaf.columns⟩
  nextRoot := forest.nextRoot
  nextNode := forest.nextNode + 1
  nextLeaf := forest.nextLeaf + node.leaves.length

def addRoot (forest : Forest P O κ ι γ) (tree : Tree P O κ ι γ) : Forest P O κ ι γ where
  roots := forest.roots ++ [⟨forest.nextRoot, tree.parent, tree.owner, tree.columns⟩]
  nodes := forest.nodes
  leaves := forest.leaves
  nextRoot := forest.nextRoot + 1
  nextNode := forest.nextNode
  nextLeaf := forest.nextLeaf

/-- Add a tree, with fresh ids. -/
def add (forest : Forest P O κ ι γ) (tree : Tree P O κ ι γ) : Forest P O κ ι γ :=
  tree.nodes.foldl (addNode forest.nextRoot) (forest.addRoot tree)

/-- The next ids are fresh. -/
structure Fresh (forest : Forest P O κ ι γ) : Prop where
  root : ∀ root ∈ forest.roots, root.id < forest.nextRoot
  node : ∀ node ∈ forest.nodes, node.id < forest.nextNode ∧ node.parent < forest.nextRoot
  leaf : ∀ leaf ∈ forest.leaves, leaf.parent < forest.nextNode

variable {forest : Forest P O κ ι γ}

theorem Fresh.addRoot (h : forest.Fresh) (tree : Tree P O κ ι γ) : (forest.addRoot tree).Fresh where
  root root hroot := by
    rcases List.mem_append.mp hroot with hold | hnew
    · exact Nat.lt_succ_of_lt (h.root root hold)
    · rw [List.mem_singleton.mp hnew]
      exact Nat.lt_succ_self _
  node node hnode := ⟨(h.node node hnode).1, Nat.lt_succ_of_lt (h.node node hnode).2⟩
  leaf := h.leaf

theorem Fresh.addNode (h : forest.Fresh) {root : ℕ} (hroot : root < forest.nextRoot)
    (node : Node O ι γ) : (forest.addNode root node).Fresh where
  root := h.root
  node row hrow := by
    rcases List.mem_append.mp hrow with hold | hnew
    · exact ⟨Nat.lt_succ_of_lt (h.node row hold).1, (h.node row hold).2⟩
    · rw [List.mem_singleton.mp hnew]
      exact ⟨Nat.lt_succ_self _, hroot⟩
  leaf row hrow := by
    rcases List.mem_append.mp hrow with hold | hnew
    · exact Nat.lt_succ_of_lt (h.leaf row hold)
    · obtain ⟨i, hi, rfl⟩ := List.mem_mapIdx.mp hnew
      exact Nat.lt_succ_self _

/-- What a property of forests needs to hold of the forest with a tree added. -/
theorem add_induction {motive : Forest P O κ ι γ → Prop} {tree : Tree P O κ ι γ}
    (root : motive (forest.addRoot tree))
    (node : ∀ (f : Forest P O κ ι γ), ∀ node ∈ tree.nodes, motive f →
      motive (f.addNode forest.nextRoot node)) : motive (forest.add tree) := by
  have hfold : ∀ (nodes : List (Node O ι γ)), (∀ node ∈ nodes, node ∈ tree.nodes) →
      ∀ f : Forest P O κ ι γ, motive f →
        motive (nodes.foldl (addNode forest.nextRoot) f) := by
    intro nodes
    induction nodes with
    | nil => exact fun _ f hf => hf
    | cons first nodes ih =>
      intro hmem f hf
      exact ih (fun n hn => hmem n (List.mem_cons_of_mem _ hn)) _
        (node f first (hmem first List.mem_cons_self) hf)
  exact hfold tree.nodes (fun _ hn => hn) _ root

theorem Fresh.add (h : forest.Fresh) (tree : Tree P O κ ι γ) : (forest.add tree).Fresh := by
  have hboth : (forest.add tree).Fresh ∧ forest.nextRoot < (forest.add tree).nextRoot :=
    add_induction (motive := fun f => f.Fresh ∧ forest.nextRoot < f.nextRoot)
      ⟨h.addRoot tree, Nat.lt_succ_self _⟩ fun f node _ hf => ⟨hf.1.addNode hf.2 node, hf.2⟩
  exact hboth.1

/-! ### Owners after adding -/

/-- The forest has this root. -/
def HasRoot (forest : Forest P O κ ι γ) (id : ℕ) (o : O) : Prop :=
  ∃ root ∈ forest.roots, root.id = id ∧ root.owner = o

theorem descends_addRoot (h : forest.Descends) (hfresh : forest.Fresh) (tree : Tree P O κ ι γ) :
    (forest.addRoot tree).Descends where
  roots_nodup := by
    show ((forest.roots ++ [_]).map Row.id).Nodup
    rw [List.map_append, List.nodup_append']
    refine ⟨h.roots_nodup, by simp, ?_⟩
    rintro id hold hnew
    obtain ⟨root, hroot, rfl⟩ := List.mem_map.mp hold
    have heq : root.id = forest.nextRoot := by simpa using hnew
    have hlt := hfresh.root root hroot
    omega
  nodes_nodup := h.nodes_nodup
  node_root node hnode := by
    obtain ⟨root, hroot, hid, howner⟩ := h.node_root node hnode
    exact ⟨root, List.mem_append_left _ hroot, hid, howner⟩
  leaf_node := h.leaf_node

theorem descends_addNode (h : forest.Descends) (hfresh : forest.Fresh) {root : ℕ}
    {node : Node O ι γ} (hroot : forest.HasRoot root node.owner)
    (hleaves : ∀ leaf ∈ node.leaves, leaf.owner = node.owner) :
    (forest.addNode root node).Descends where
  roots_nodup := h.roots_nodup
  nodes_nodup := by
    show ((forest.nodes ++ [_]).map Row.id).Nodup
    rw [List.map_append, List.nodup_append']
    refine ⟨h.nodes_nodup, by simp, ?_⟩
    rintro id hold hnew
    obtain ⟨row, hrow, rfl⟩ := List.mem_map.mp hold
    have heq : row.id = forest.nextNode := by simpa using hnew
    have hlt := (hfresh.node row hrow).1
    omega
  node_root row hrow := by
    rcases List.mem_append.mp hrow with hold | hnew
    · exact h.node_root row hold
    · rw [List.mem_singleton.mp hnew]
      exact hroot
  leaf_node row hrow := by
    rcases List.mem_append.mp hrow with hold | hnew
    · obtain ⟨parent, hparent, hid, howner⟩ := h.leaf_node row hold
      exact ⟨parent, List.mem_append_left _ hparent, hid, howner⟩
    · obtain ⟨i, hi, rfl⟩ := List.mem_mapIdx.mp hnew
      exact ⟨_, List.mem_append_right _ (List.mem_singleton_self _), rfl,
        (hleaves _ (List.getElem_mem hi)).symm⟩

/-- **Adding a tree with one owner keeps every row with the owner of what it belongs to.** -/
theorem descends_add (h : forest.Descends) (hfresh : forest.Fresh) {tree : Tree P O κ ι γ} {o : O}
    (htree : tree.OwnedBy o) : (forest.add tree).Descends := by
  have hall : (forest.add tree).Descends ∧ (forest.add tree).Fresh ∧
      (forest.add tree).HasRoot forest.nextRoot o ∧
      forest.nextRoot < (forest.add tree).nextRoot := by
    refine add_induction
      (motive := fun f => f.Descends ∧ f.Fresh ∧ f.HasRoot forest.nextRoot o ∧
        forest.nextRoot < f.nextRoot)
      ⟨descends_addRoot h hfresh tree, hfresh.addRoot tree, ?_, Nat.lt_succ_self _⟩
      fun f node hnode hf => ?_
    · exact ⟨_, List.mem_append_right _ (List.mem_singleton_self _), rfl, htree.root⟩
    · obtain ⟨hdescends, hf, hroot, hlt⟩ := hf
      have howner := htree.node node hnode
      refine ⟨descends_addNode hdescends hf (howner ▸ hroot) fun leaf hleaf => ?_,
        hf.addNode hlt node, hroot, hlt⟩
      rw [howner]
      exact htree.leaf node hnode leaf hleaf
  exact hall.1

@[simp] theorem add_roots (forest : Forest P O κ ι γ) (tree : Tree P O κ ι γ) :
    (forest.add tree).roots =
      forest.roots ++ [⟨forest.nextRoot, tree.parent, tree.owner, tree.columns⟩] := by
  refine add_induction (motive := fun f : Forest P O κ ι γ => f.roots = forest.roots ++
    [(⟨forest.nextRoot, tree.parent, tree.owner, tree.columns⟩ : Row P O κ)]) rfl ?_
  exact fun _ _ _ hf => hf

@[simp] theorem add_nextRoot (forest : Forest P O κ ι γ) (tree : Tree P O κ ι γ) :
    (forest.add tree).nextRoot = forest.nextRoot + 1 := by
  refine add_induction (motive := fun f : Forest P O κ ι γ => f.nextRoot = forest.nextRoot + 1)
    rfl ?_
  exact fun _ _ _ hf => hf

theorem nextRoot_le_add (forest : Forest P O κ ι γ) (tree : Tree P O κ ι γ) :
    forest.nextRoot ≤ (forest.add tree).nextRoot := by
  rw [add_nextRoot]
  exact Nat.le_succ _

theorem nextNode_le_add (forest : Forest P O κ ι γ) (tree : Tree P O κ ι γ) :
    forest.nextNode ≤ (forest.add tree).nextNode := by
  refine add_induction (motive := fun f : Forest P O κ ι γ => forest.nextNode ≤ f.nextNode)
    (Nat.le_refl _) ?_
  exact fun _ _ _ hf => Nat.le_succ_of_le hf

/-! ### Reading what was added -/

/-- The nodes of a root, without ids. -/
def nodeContents (forest : Forest P O κ ι γ) (root : ℕ) : List (Node O ι γ) :=
  (forest.nodesOf root).map fun node => (forest.readNode .stored node).content

theorem content_read (forest : Forest P O κ ι γ) (root : Row P O κ) :
    (forest.read .stored root).content =
      ⟨root.parent, root.owner, root.columns, forest.nodeContents root.id⟩ := by
  simp only [Rows.read, Tree.content, nodeContents, Arrangement.stored, arrange_nil, List.map_map]
  rfl

theorem nodeContents_addNode (h : forest.Fresh) (root id : ℕ) (node : Node O ι γ) :
    (forest.addNode root node).nodeContents id =
      forest.nodeContents id ++ if root = id then [node] else [] := by
  -- the new leaves are all of the new node
  have hnew : ∀ id : ℕ, (node.leaves.mapIdx fun i leaf => (⟨forest.nextLeaf + i, forest.nextNode,
      leaf.owner, leaf.columns⟩ : Row ℕ O γ)).filter (fun leaf => leaf.parent == id) =
        if forest.nextNode = id then node.leaves.mapIdx fun i leaf =>
          ⟨forest.nextLeaf + i, forest.nextNode, leaf.owner, leaf.columns⟩ else [] := by
    intro id
    by_cases hid : forest.nextNode = id
    · rw [if_pos hid, List.filter_eq_self]
      intro row hrow
      obtain ⟨i, hi, rfl⟩ := List.mem_mapIdx.mp hrow
      simp [hid]
    · rw [if_neg hid, List.filter_eq_nil_iff]
      intro row hrow
      obtain ⟨i, hi, rfl⟩ := List.mem_mapIdx.mp hrow
      simp [hid]
  have hleaves : ∀ id, (forest.addNode root node).leavesOf id = forest.leavesOf id ++
      if forest.nextNode = id then node.leaves.mapIdx fun i leaf =>
        ⟨forest.nextLeaf + i, forest.nextNode, leaf.owner, leaf.columns⟩ else [] := by
    intro id
    rw [← hnew id]
    exact List.filter_append _ _
  -- a node that was there has the leaves it had
  have hold : ∀ row ∈ forest.nodesOf id,
      ((forest.addNode root node).readNode .stored row).content =
        (forest.readNode .stored row).content := by
    intro row hrow
    have hlt := (h.node row (List.mem_filter.mp hrow).1).1
    simp only [Rows.readNode, hleaves, if_neg (Nat.ne_of_gt hlt), List.append_nil]
  have hnewLeaves : forest.leavesOf forest.nextNode = [] := by
    rw [Rows.leavesOf, List.filter_eq_nil_iff]
    intro leaf hleaf
    have hlt := h.leaf leaf hleaf
    simp [Nat.ne_of_lt hlt]
  -- the new node has the new leaves, and no others
  have hadded : ((forest.addNode root node).readNode .stored
      ⟨forest.nextNode, root, node.owner, node.columns⟩).content = node := by
    simp only [Rows.readNode, Arrangement.stored, arrange_nil, hleaves, if_pos, hnewLeaves,
      List.nil_append, Node.content, List.map_map]
    congr 1
    exact List.ext_getElem (by simp) fun i hi hi' => by simp
  have hnodes : (forest.addNode root node).nodesOf id = forest.nodesOf id ++
      if root = id then [⟨forest.nextNode, root, node.owner, node.columns⟩] else [] := by
    simp only [Rows.nodesOf, addNode, List.filter_append]
    by_cases hid : root = id
    · simp [hid]
    · simp [hid]
  rw [nodeContents, hnodes, List.map_append, List.map_congr_left hold]
  by_cases hid : root = id
  · rw [if_pos hid, if_pos hid, List.map_singleton, hadded]
    rfl
  · rw [if_neg hid, if_neg hid]
    rfl

theorem nodeContents_foldl (root id : ℕ) (nodes : List (Node O ι γ)) :
    ∀ {f : Forest P O κ ι γ}, f.Fresh → root < f.nextRoot →
      (nodes.foldl (addNode root) f).nodeContents id =
        f.nodeContents id ++ if root = id then nodes else [] := by
  induction nodes with
  | nil => intro f _ _; simp
  | cons node nodes ih =>
    intro f hf hroot
    rw [List.foldl_cons, ih (hf.addNode hroot node) hroot, nodeContents_addNode hf]
    by_cases hid : root = id
    · simp [hid]
    · simp [hid]

theorem nodeContents_add (h : forest.Fresh) (tree : Tree P O κ ι γ) (id : ℕ) :
    (forest.add tree).nodeContents id =
      forest.nodeContents id ++ if forest.nextRoot = id then tree.nodes else [] :=
  nodeContents_foldl forest.nextRoot id tree.nodes (h.addRoot tree) (Nat.lt_succ_self _)

/-- **An added tree is what is read, next to what was.** -/
theorem contents_add (h : forest.Fresh) (tree : Tree P O κ ι γ) :
    (forest.add tree).contents = forest.contents ++ [tree] := by
  have hold : ∀ root ∈ forest.roots,
      ((forest.add tree).read .stored root).content = (forest.read .stored root).content := by
    intro root hroot
    have hlt := h.root root hroot
    rw [content_read, content_read, nodeContents_add h, if_neg (Nat.ne_of_gt hlt), List.append_nil]
  have hnone : forest.nodeContents forest.nextRoot = [] := by
    rw [nodeContents, Rows.nodesOf, List.map_eq_nil_iff, List.filter_eq_nil_iff]
    intro node hnode
    have hlt := (h.node node hnode).2
    simp [Nat.ne_of_lt hlt]
  rw [Rows.contents, add_roots, List.map_append, List.map_congr_left hold, List.map_singleton,
    content_read, nodeContents_add h, if_pos rfl, hnone]
  rfl

/-- Adding a tree of one owner leaves the rows of the others as they are. -/
theorem restrict_add_other {keep : O → Bool} {tree : Tree P O κ ι γ} {o : O}
    (htree : tree.OwnedBy o) (hkeep : keep o = false) :
    (forest.add tree).restrict keep = forest.restrict keep := by
  refine add_induction (motive := fun f => f.restrict keep = forest.restrict keep) ?_
    fun f node hnode hf => ?_
  · simp [addRoot, Rows.restrict, htree.root, hkeep]
  · rw [← hf]
    have hleaves : (node.leaves.mapIdx fun i leaf =>
        (⟨f.nextLeaf + i, f.nextNode, leaf.owner, leaf.columns⟩ : Row ℕ O γ)).filter
          (fun leaf => keep leaf.owner) = [] := by
      rw [List.filter_eq_nil_iff]
      intro row hrow
      obtain ⟨i, hi, rfl⟩ := List.mem_mapIdx.mp hrow
      simp [htree.leaf node hnode _ (List.getElem_mem hi), hkeep]
    simp only [addNode, Rows.restrict, List.filter_append, hleaves, List.append_nil]
    simp [htree.node node hnode, hkeep]

end Forest

end AllocationKeys
