import AllocationKeys.Lib.Program
import Mathlib.Algebra.BigOperators.Group.List.Basic

/-!
# Programs that count

A counted program also carries a number, which `count` raises by one. It counts a program when
forgetting the number gives that program (`Erases`), and the count is bounded when no answers
raise it by more than a given number (`Within`).

* `Erases.bind`, `erases_mapM`: erasure goes through sequences and loops;
* `Within.bind`, `within_mapM`: the bounds of the parts of a sequence add up, and a loop costs at
  most its length times the bound of its body.
-/

namespace AllocationKeys

namespace Program

variable {Op : Type} {Resp : Op → Type} {ε α β : Type}

abbrev Counted (Op : Type) (Resp : Op → Type) (ε α : Type) : Type :=
  StateT ℕ (Program Op Resp ε) α

/-- Raise the count by one. -/
def count : Counted Op Resp ε Unit := fun c => ret ((), c + 1)

/-- A program in which nothing is counted. -/
def uncounted (p : Program Op Resp ε α) : Counted Op Resp ε α := fun c => (·, c) <$> p

/-! ### Forgetting the count -/

/-- Without its count the program is `p`. -/
def Erases (x : Counted Op Resp ε α) (p : Program Op Resp ε α) : Prop :=
  ∀ c, Prod.fst <$> x c = p

theorem erases_pure (a : α) : Erases (pure a : Counted Op Resp ε α) (pure a) := fun _ => rfl

theorem erases_count : Erases (count : Counted Op Resp ε Unit) (pure ()) := fun _ => rfl

theorem erases_uncounted (p : Program Op Resp ε α) : Erases (uncounted p) p := by
  intro c
  show Prod.fst <$> ((·, c) <$> p) = p
  rw [← LawfulFunctor.comp_map]
  exact id_map p

theorem Erases.bind {x : Counted Op Resp ε α} {p : Program Op Resp ε α}
    {f : α → Counted Op Resp ε β} {g : α → Program Op Resp ε β} (hx : Erases x p)
    (hf : ∀ a, Erases (f a) (g a)) : Erases (x >>= f) (p >>= g) := by
  intro c
  show Prod.fst <$> (x c >>= fun r => f r.1 r.2) = p >>= g
  rw [map_bind, ← hx c, ← bind_pure_comp, LawfulMonad.bind_assoc]
  congr 1
  funext r
  rw [hf r.1 r.2]
  rfl

theorem erases_mapM {f : α → Counted Op Resp ε β} {g : α → Program Op Resp ε β} {l : List α}
    (h : ∀ a ∈ l, Erases (f a) (g a)) : Erases (l.mapM f) (l.mapM g) := by
  induction l with
  | nil => exact erases_pure []
  | cons a l ih =>
    rw [List.mapM_cons, List.mapM_cons]
    refine (h a (List.mem_cons_self ..)).bind fun b => ?_
    exact (ih fun a' ha' => h a' (List.mem_cons_of_mem a ha')).bind fun bs => erases_pure (b :: bs)

/-! ### Bounding the count -/

variable {ok : ∀ o, Resp o → Prop}

/-- However it is answered, a program that returns has raised the count by at most `bound`. -/
def Within (ok : ∀ o, Resp o → Prop) (x : Counted Op Resp ε α) (bound : ℕ) : Prop :=
  ∀ c, (x c).Ensures ok fun r => r.2 ≤ c + bound

theorem Within.mono {x : Counted Op Resp ε α} {bound bound' : ℕ} (h : Within ok x bound)
    (hle : bound ≤ bound') : Within ok x bound' := by
  intro c
  refine (h c).mono fun r hr => ?_
  omega

theorem within_pure (a : α) : Within ok (pure a : Counted Op Resp ε α) 0 :=
  fun c => ensures_ret (Nat.le_refl c)

theorem within_count : Within ok (count : Counted Op Resp ε Unit) 1 :=
  fun c => ensures_ret (Nat.le_refl (c + 1))

theorem within_uncounted (p : Program Op Resp ε α) : Within ok (uncounted p) 0 := by
  intro c
  refine Ensures.map ?_
  exact (ensures_true p).mono fun _ _ => Nat.le_refl c

/-- The bounds of the parts of a sequence add up; the second part starts from a value that the
first may return. -/
theorem Within.bind {x : Counted Op Resp ε α} {p : Program Op Resp ε α}
    {f : α → Counted Op Resp ε β} {bound bound' : ℕ} (he : Erases x p) (hx : Within ok x bound)
    (hf : ∀ a, p.Yields ok (.ok a) → Within ok (f a) bound') :
    Within ok (x >>= f) (bound + bound') := by
  intro c
  show (x c >>= fun r => f r.1 r.2).Ensures ok _
  intro r hr
  obtain ⟨mid, hmid, hrest⟩ := yields_bind_ok.mp hr
  have ha : p.Yields ok (.ok mid.1) := by
    rw [← he c]
    exact yields_map.mpr ⟨mid, hmid, rfl⟩
  have hfirst := hx c mid hmid
  have hsecond := hf mid.1 ha mid.2 r hrest
  omega

theorem within_mapM {f : α → Counted Op Resp ε β} {g : α → Program Op Resp ε β} {l : List α}
    {bound : ℕ} (he : ∀ a ∈ l, Erases (f a) (g a)) (h : ∀ a ∈ l, Within ok (f a) bound) :
    Within ok (l.mapM f) (l.length * bound) := by
  induction l with
  | nil => exact (within_pure []).mono (Nat.zero_le _)
  | cons a l ih =>
    rw [List.mapM_cons]
    have htail : ∀ b, Within ok (l.mapM f >>= fun bs => pure (b :: bs)) (l.length * bound) := by
      intro b
      refine Within.bind (erases_mapM fun a' ha' => he a' (List.mem_cons_of_mem a ha'))
        (ih (fun a' ha' => he a' (List.mem_cons_of_mem a ha'))
          fun a' ha' => h a' (List.mem_cons_of_mem a ha')) fun bs _ => within_pure (b :: bs)
    refine (Within.bind (he a (List.mem_cons_self ..)) (h a (List.mem_cons_self ..))
      fun b _ => htail b).mono ?_
    rw [List.length_cons, Nat.succ_mul]
    omega

end Program

end AllocationKeys
