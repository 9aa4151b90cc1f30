import Mathlib.Data.List.Forall2
import Mathlib.Logic.Function.Basic
import Mathlib.Order.Monotone.Basic

/-!
# Objects that change in place

A `Heap` holds objects by reference. Nothing is ever freed: a heap is below another one (`≤`) when
the other one still has every object allocated in it, unchanged. What is known of an object is then
kept by every program that only adds objects and changes the ones it has added.

* `alloc`, `allocAll`, `modify`, `modifyEach`: the operations, and what each leaves unchanged;
* `Grows`: a stateful program goes up in a preorder of states and establishes a postcondition, with
  the rules for a sequence (`grows_bind`) and a loop that collects results (`grows_mapM`).
-/

namespace AllocationKeys

universe u v

structure Heap (α : Type u) where
  get : ℕ → α
  next : ℕ

namespace Heap

variable {α : Type u} {ι : Type v}

def alloc (h : Heap α) (a : α) : ℕ × Heap α :=
  (h.next, ⟨Function.update h.get h.next a, h.next + 1⟩)

/-- Allocate a family of objects, in order. -/
def allocAll {m : ℕ} (h : Heap α) (a : Fin m → α) : (Fin m → ℕ) × Heap α :=
  (fun i => h.next + i,
    { get := fun r =>
        if hr : h.next ≤ r ∧ r < h.next + m then a ⟨r - h.next, by omega⟩ else h.get r
      next := h.next + m })

def modify (h : Heap α) (r : ℕ) (f : α → α) : Heap α :=
  { h with get := Function.update h.get r (f (h.get r)) }

/-- Change the objects of a family one after the other. -/
def modifyEach (h : Heap α) (refs : ι → ℕ) (f : ι → α → α) (l : List ι) : Heap α :=
  l.foldl (fun h i => h.modify (refs i) (f i)) h

/-- Every object of the first heap is in the second one, unchanged. -/
instance : Preorder (Heap α) where
  le h h' := h.next ≤ h'.next ∧ ∀ r < h.next, h'.get r = h.get r
  le_refl h := ⟨le_rfl, fun _ _ => rfl⟩
  le_trans h h' h'' hle hle' :=
    ⟨hle.1.trans hle'.1, fun r hr => (hle'.2 r (by have := hle.1; omega)).trans (hle.2 r hr)⟩

theorem le_alloc (h : Heap α) (a : α) : h ≤ (h.alloc a).2 :=
  ⟨Nat.le_succ _, fun _ hr => Function.update_of_ne (Nat.ne_of_lt hr) _ _⟩

@[simp] theorem get_alloc (h : Heap α) (a : α) : (h.alloc a).2.get (h.alloc a).1 = a :=
  Function.update_self _ _ _

theorem le_allocAll {m : ℕ} (h : Heap α) (a : Fin m → α) : h ≤ (h.allocAll a).2 := by
  refine ⟨Nat.le_add_right _ _, fun r hr => ?_⟩
  show (if hr : h.next ≤ r ∧ r < h.next + m then _ else h.get r) = h.get r
  rw [dif_neg (by omega)]

@[simp] theorem get_allocAll {m : ℕ} (h : Heap α) (a : Fin m → α) (i : Fin m) :
    (h.allocAll a).2.get ((h.allocAll a).1 i) = a i := by
  show (if hr : h.next ≤ h.next + i ∧ h.next + i < h.next + m then
    a ⟨h.next + i - h.next, by omega⟩ else h.get (h.next + i)) = a i
  rw [dif_pos (by omega)]
  congr 1
  exact Fin.ext (by simp)

theorem allocAll_injective {m : ℕ} (h : Heap α) (a : Fin m → α) :
    Function.Injective (h.allocAll a).1 := by
  intro i j hij
  have heq : h.next + (i : ℕ) = h.next + j := hij
  exact Fin.ext (by omega)

@[simp] theorem next_modify (h : Heap α) (r : ℕ) (f : α → α) : (h.modify r f).next = h.next := rfl

@[simp] theorem get_modify_self (h : Heap α) (r : ℕ) (f : α → α) :
    (h.modify r f).get r = f (h.get r) := Function.update_self _ _ _

theorem get_modify_of_ne (h : Heap α) {r r' : ℕ} (f : α → α) (hne : r' ≠ r) :
    (h.modify r f).get r' = h.get r' := Function.update_of_ne hne _ _

/-- Changing an object allocated later keeps the earlier ones. -/
theorem le_modify {h h' : Heap α} (hle : h ≤ h') {r : ℕ} (hr : h.next ≤ r) (f : α → α) :
    h ≤ h'.modify r f :=
  ⟨hle.1, fun r' hr' => (get_modify_of_ne h' f (by omega)).trans (hle.2 r' hr')⟩

theorem next_modifyEach (refs : ι → ℕ) (f : ι → α → α) (l : List ι) :
    ∀ h : Heap α, (h.modifyEach refs f l).next = h.next := by
  induction l with
  | nil => intro h; rfl
  | cons i l ih => intro h; exact ih _

theorem get_modifyEach_of_ne {refs : ι → ℕ} {f : ι → α → α} {r : ℕ} (l : List ι)
    (hne : ∀ i ∈ l, refs i ≠ r) : ∀ h : Heap α, (h.modifyEach refs f l).get r = h.get r := by
  induction l with
  | nil => intro h; rfl
  | cons i l ih =>
    intro h
    have hfirst : r ≠ refs i := fun h => hne i List.mem_cons_self h.symm
    exact (ih (fun j hj => hne j (List.mem_cons_of_mem i hj)) _).trans
      (get_modify_of_ne h (f i) hfirst)

/-- Objects of their own are each changed once. -/
theorem get_modifyEach {refs : ι → ℕ} (hrefs : Function.Injective refs) {f : ι → α → α} {i : ι}
    (l : List ι) (hnodup : l.Nodup) (hi : i ∈ l) :
    ∀ h : Heap α, (h.modifyEach refs f l).get (refs i) = f i (h.get (refs i)) := by
  induction l with
  | nil => cases hi
  | cons j l ih =>
    intro h
    obtain ⟨hj, hnodup⟩ := List.nodup_cons.mp hnodup
    by_cases hij : i = j
    · subst hij
      have hrest : ∀ k ∈ l, refs k ≠ refs i := fun k hk heq => hj (hrefs heq ▸ hk)
      exact (get_modifyEach_of_ne l hrest _).trans (get_modify_self h (refs i) (f i))
    · have hl : i ∈ l := (List.mem_cons.mp hi).resolve_left hij
      exact (ih hnodup hl _).trans
        (congrArg (f i) (get_modify_of_ne h (f j) fun heq => hij (hrefs heq)))

theorem le_modifyEach {h h' : Heap α} (hle : h ≤ h') {refs : ι → ℕ} {l : List ι}
    (hrefs : ∀ i, h.next ≤ refs i) (f : ι → α → α) : h ≤ h'.modifyEach refs f l := by
  induction l generalizing h' with
  | nil => exact hle
  | cons i l ih => exact ih (le_modify hle (hrefs i) (f i))

end Heap

/-! ### Programs that only add -/

section Grows

variable {σ : Type u} [Preorder σ] {α β : Type u}

/-- From `s` the program goes up, and ends with a result and a state that have `post`. -/
def Grows (p : StateM σ α) (s : σ) (post : α → σ → Prop) : Prop :=
  s ≤ (p s).2 ∧ post (p s).1 (p s).2

omit [Preorder σ] in
theorem bind_apply (p : StateM σ α) (f : α → StateM σ β) (s : σ) :
    (p >>= f) s = f (p s).1 (p s).2 := rfl

theorem grows_pure {a : α} {s : σ} {post : α → σ → Prop} (h : post a s) :
    Grows (pure a) s post := ⟨le_rfl, h⟩

theorem grows_bind {p : StateM σ α} {f : α → StateM σ β} {s : σ} {mid : α → σ → Prop}
    {post : β → σ → Prop} (hp : Grows p s mid)
    (hf : ∀ a s', s ≤ s' → mid a s' → Grows (f a) s' post) : Grows (p >>= f) s post :=
  ⟨hp.1.trans (hf _ _ hp.1 hp.2).1, (hf _ _ hp.1 hp.2).2⟩

theorem Grows.mono {p : StateM σ α} {s : σ} {post post' : α → σ → Prop} (h : Grows p s post)
    (hpost : ∀ a s', post a s' → post' a s') : Grows p s post' := ⟨h.1, hpost _ _ h.2⟩

/-- A loop that collects results: each has its postcondition still at the end, if what is known is
kept when the state goes up. -/
theorem grows_mapM {γ : Type v} {p : γ → StateM σ β} {pre : σ → Prop} {post : γ → β → σ → Prop}
    (hpre : Monotone pre) (hpost : ∀ c b, Monotone (post c b)) (l : List γ)
    (h : ∀ c ∈ l, ∀ s, pre s → Grows (p c) s (post c)) :
    ∀ s, pre s → Grows (l.mapM p) s fun bs s' => List.Forall₂ (fun c b => post c b s') l bs := by
  induction l with
  | nil => intro s _; exact grows_pure List.Forall₂.nil
  | cons c l ih =>
    intro s hs
    rw [List.mapM_cons]
    refine grows_bind (h c List.mem_cons_self s hs) fun b s' hle hb => ?_
    refine grows_bind (ih (fun c' hc' => h c' (List.mem_cons_of_mem c hc')) s' (hpre hle hs))
      fun bs s'' hle' hbs => ?_
    exact grows_pure (List.Forall₂.cons (hpost c b hle' hb) hbs)

/-- What a loop appends to its results. -/
def collect {γ : Type v} (l : List γ) (p : γ → StateM σ (List β)) : StateM σ (List β) := do
  let lists ← l.mapM p
  pure lists.flatten

/-- The results of a loop are in step with what each pass is to append. -/
theorem grows_collect {γ : Type v} {δ : Type v} {p : γ → StateM σ (List β)} {pre : σ → Prop}
    {held : β → δ → σ → Prop} {expected : γ → List δ} (hpre : Monotone pre)
    (hheld : ∀ b d, Monotone (held b d)) (l : List γ)
    (h : ∀ c ∈ l, ∀ s, pre s →
      Grows (p c) s fun bs s' => List.Forall₂ (fun b d => held b d s') bs (expected c))
    (s : σ) (hs : pre s) :
    Grows (collect l p) s fun bs s' =>
      List.Forall₂ (fun b d => held b d s') bs (l.flatMap expected) := by
  refine grows_bind (grows_mapM hpre (fun c bs => ?_) l h s hs) fun lists s' _ hlists => ?_
  · intro s s' hle hbs
    exact hbs.imp fun b d hb => hheld b d hle hb
  · clear h
    refine grows_pure ?_
    induction hlists with
    | nil => exact List.Forall₂.nil
    | cons hfirst _ ih =>
      rw [List.flatten_cons, List.flatMap_cons]
      exact List.rel_append hfirst ih

end Grows

end AllocationKeys
