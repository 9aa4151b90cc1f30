import AllocationKeys.Lib.Forest

/-!
# Three tables are a list of numbered trees

Whoever only adds trees and removes roots can forget the tables: `Rows.trees` lists every root's id
with all that is read of it, without the other ids. A removal filters the list (`trees_remove`), an
addition puts one tree at its end, under the next id (`trees_add`), and neither touches another
tree. So a forest is written once: `Forest.Later` says that a tree whose id has been given is either
what it was or gone, which removals and additions keep (`later_remove`, `later_add`).
-/

namespace AllocationKeys

variable {P O κ ι γ : Type}

namespace Rows

/-- The id of every root, with what is read of it. -/
def trees (rows : Rows P O κ ι γ) : List (ℕ × Tree P O κ ι γ) :=
  rows.roots.map fun root => (root.id, (rows.read .stored root).content)

/-- No two roots and no two nodes have the same id. -/
structure Numbered (rows : Rows P O κ ι γ) : Prop where
  roots_nodup : (rows.roots.map Row.id).Nodup
  nodes_nodup : (rows.nodes.map Row.id).Nodup

variable {rows : Rows P O κ ι γ} {gone : Row P O κ → Bool}

theorem map_fst_trees (rows : Rows P O κ ι γ) : rows.trees.map Prod.fst = rows.roots.map Row.id :=
  List.map_map

theorem Numbered.trees_nodup (h : rows.Numbered) : (rows.trees.map Prod.fst).Nodup := by
  rw [map_fst_trees]
  exact h.roots_nodup

/-! ### Removing -/

theorem Numbered.remove (h : rows.Numbered) (gone : Row P O κ → Bool) :
    (rows.remove gone).Numbered where
  roots_nodup := h.roots_nodup.sublist (List.filter_sublist.map _)
  nodes_nodup := h.nodes_nodup.sublist (List.filter_sublist.map _)

/-- The root of a kept tree is not removed under another name. -/
theorem not_any_gone (h : rows.Numbered) {root : Row P O κ} (hroot : root ∈ rows.roots)
    (hkept : gone root = false) {id : ℕ} (hid : id = root.id) :
    (rows.roots.any fun other => gone other && other.id == id) = false := by
  rw [List.any_eq_false]
  intro other hother htest
  rw [Bool.and_eq_true, beq_iff_eq] at htest
  have heq := List.inj_on_of_nodup_map h.roots_nodup hother hroot (htest.2.trans hid)
  rw [heq, hkept] at htest
  cases htest.1

theorem nodesOf_remove (h : rows.Numbered) {root : Row P O κ} (hroot : root ∈ rows.roots)
    (hkept : gone root = false) : (rows.remove gone).nodesOf root.id = rows.nodesOf root.id := by
  simp only [nodesOf, remove, List.filter_filter]
  refine List.filter_congr fun node _ => ?_
  by_cases hparent : node.parent = root.id
  · rw [not_any_gone h hroot hkept hparent]
    simp
  · simp [hparent]

theorem readNode_remove (h : rows.Numbered) (arrangement : Arrangement) {root : Row P O κ}
    (hroot : root ∈ rows.roots) (hkept : gone root = false) {node : Row ℕ O ι}
    (hnode : node ∈ rows.nodesOf root.id) :
    (rows.remove gone).readNode arrangement node = rows.readNode arrangement node := by
  obtain ⟨hmem, hparent⟩ := List.mem_filter.mp hnode
  have hstays : ∀ leaf : Row ℕ O γ, leaf.parent = node.id → (rows.nodes.any fun other =>
      (rows.roots.any fun root => gone root && root.id == other.parent) &&
        other.id == leaf.parent) = false := by
    intro leaf hleaf
    rw [List.any_eq_false]
    intro other hother htest
    rw [Bool.and_eq_true, beq_iff_eq] at htest
    have heq := List.inj_on_of_nodup_map h.nodes_nodup hother hmem (htest.2.trans hleaf)
    rw [heq, not_any_gone h hroot hkept (eq_of_beq hparent)] at htest
    cases htest.1
  simp only [readNode, leavesOf, remove, List.filter_filter]
  congr 3
  refine List.filter_congr fun leaf _ => ?_
  by_cases hleaf : leaf.parent = node.id
  · rw [hstays leaf hleaf]
    simp
  · simp [hleaf]

/-- A removal leaves what it does not remove. -/
theorem read_remove (h : rows.Numbered) (arrangement : Arrangement) {root : Row P O κ}
    (hroot : root ∈ rows.roots) (hkept : gone root = false) :
    (rows.remove gone).read arrangement root = rows.read arrangement root := by
  rw [read, read, nodesOf_remove h hroot hkept, List.map_congr_left fun node hnode =>
    readNode_remove h arrangement hroot hkept ((arrange_perm _ _).mem_iff.mp hnode)]

/-- **A removal filters the trees.** -/
theorem trees_remove (h : rows.Numbered) (gone : Row P O κ → Bool) :
    (rows.remove gone).trees =
      (rows.roots.filter fun root => !gone root).map fun root =>
        (root.id, (rows.read .stored root).content) := by
  refine List.map_congr_left fun root hroot => ?_
  obtain ⟨hmem, hkept⟩ := List.mem_filter.mp hroot
  rw [read_remove h .stored hmem (by simpa using hkept)]

theorem trees_remove_sublist (h : rows.Numbered) (gone : Row P O κ → Bool) :
    (rows.remove gone).trees.Sublist rows.trees := by
  rw [trees_remove h]
  exact List.filter_sublist.map _

end Rows

/-! ### Adding -/

namespace Forest

variable {forest forest' : Forest P O κ ι γ}

theorem numbered_add (h : forest.Numbered) (hfresh : forest.Fresh) (tree : Tree P O κ ι γ) :
    (forest.add tree).Numbered := by
  have hroots : ((forest.add tree).roots.map Row.id).Nodup := by
    rw [add_roots, List.map_append, List.nodup_append']
    refine ⟨h.roots_nodup, by simp, fun id hold hnew => ?_⟩
    obtain ⟨root, hroot, rfl⟩ := List.mem_map.mp hold
    have heq : root.id = forest.nextRoot := by simpa using hnew
    have hlt := hfresh.root root hroot
    omega
  have hnodes : (forest.add tree).Fresh ∧ ((forest.add tree).nodes.map Row.id).Nodup ∧
      forest.nextRoot < (forest.add tree).nextRoot := by
    refine add_induction
      (motive := fun f => f.Fresh ∧ (f.nodes.map Row.id).Nodup ∧ forest.nextRoot < f.nextRoot)
      ⟨hfresh.addRoot tree, h.nodes_nodup, Nat.lt_succ_self _⟩ fun f node _ hf => ?_
    obtain ⟨hf, hnodup, hlt⟩ := hf
    refine ⟨hf.addNode hlt node, ?_, hlt⟩
    show ((f.nodes ++ [_]).map Row.id).Nodup
    rw [List.map_append, List.nodup_append']
    refine ⟨hnodup, by simp, fun id hold hnew => ?_⟩
    obtain ⟨row, hrow, rfl⟩ := List.mem_map.mp hold
    have heq : row.id = f.nextNode := by simpa using hnew
    have hid := (hf.node row hrow).1
    omega
  exact ⟨hroots, hnodes.2.1⟩

/-- **An added tree comes last, under the next id.** -/
theorem trees_add (h : forest.Fresh) (tree : Tree P O κ ι γ) :
    (forest.add tree).trees = forest.trees ++ [(forest.nextRoot, tree)] := by
  have hzip : ∀ rows : Rows P O κ ι γ, rows.trees = (rows.roots.map Row.id).zip rows.contents :=
    fun rows => (List.zip_map' ..).symm
  rw [hzip, hzip, contents_add h, add_roots, List.map_append, List.map_singleton]
  exact List.zip_append (by rw [Rows.contents, List.length_map, List.length_map])

/-! ### Written once -/

/-- The trees whose ids had been given are as they were, or gone. -/
structure Later (forest forest' : Forest P O κ ι γ) : Prop where
  old : ∀ entry ∈ forest'.trees, entry.1 < forest.nextRoot → entry ∈ forest.trees
  next : forest.nextRoot ≤ forest'.nextRoot

theorem Later.refl (forest : Forest P O κ ι γ) : forest.Later forest :=
  ⟨fun _ hentry _ => hentry, Nat.le_refl _⟩

theorem Later.trans {forest'' : Forest P O κ ι γ} (h : forest.Later forest')
    (h' : forest'.Later forest'') : forest.Later forest'' where
  old entry hentry hlt := h.old entry (h'.old entry hentry (Nat.lt_of_lt_of_le hlt h.next)) hlt
  next := Nat.le_trans h.next h'.next

theorem later_add (h : forest.Fresh) (tree : Tree P O κ ι γ) : forest.Later (forest.add tree) where
  old entry hentry hlt := by
    rw [trees_add h] at hentry
    rcases List.mem_append.mp hentry with hold | hnew
    · exact hold
    · rw [List.mem_singleton.mp hnew] at hlt
      exact absurd hlt (Nat.lt_irrefl _)
  next := nextRoot_le_add forest tree

theorem later_remove (h : forest.Numbered) (gone : Row P O κ → Bool) :
    forest.Later { forest with toRows := forest.toRows.remove gone } where
  old _ hentry _ := (Rows.trees_remove_sublist h gone).mem hentry
  next := Nat.le_refl _

end Forest

end AllocationKeys
