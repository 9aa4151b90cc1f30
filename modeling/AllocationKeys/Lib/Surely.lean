import AllocationKeys.Lib.Perform

/-!
# What a program alone surely does

`Ends` says that no run of a program ends badly; a program that waits for an answer that never comes
satisfies it too. `Surely` also says that the program is never left without an answer. It is about
an environment that keeps to `ok`: the choices it may make of a call.

* one rule for each way to build a program, as for `Ends`;
* `Surely.of_performs`, `Surely.exists_performs`: its runs, of which there is one.
-/

namespace AllocationKeys.Program

variable {Op : Type} {Resp : Op → Type} {Choice ε α β σ : Type}

variable (exec : (o : Op) → Choice → σ → Option (Resp o × σ)) (ok : Op → Choice → Prop)

/-- With choices that `ok` allows, every call is answered, and every run satisfies `post`. -/
def Surely : Program Op Resp ε α → σ → (List (Op × Choice) → Except ε α → σ → Prop) → Prop
  | ret a, s, post => post [] (.ok a) s
  | raise e, s, post => post [] (.error e) s
  | call o next, s, post => (∃ choice r s₁, ok o choice ∧ exec o choice s = some (r, s₁)) ∧
      ∀ choice r s₁, ok o choice → exec o choice s = some (r, s₁) →
        (next r).Surely s₁ fun events out s' => post ((o, choice) :: events) out s'

variable {exec ok} {s : σ}

theorem Surely.mono {p : Program Op Resp ε α} :
    ∀ {s : σ} {post post' : List (Op × Choice) → Except ε α → σ → Prop}, p.Surely exec ok s post →
      (∀ events out s', post events out s' → post' events out s') → p.Surely exec ok s post' := by
  induction p with
  | ret a => intro s post post' h himp; exact himp _ _ _ h
  | raise e => intro s post post' h himp; exact himp _ _ _ h
  | call o next ih =>
    intro s post post' h himp
    refine ⟨h.1, fun choice r s₁ hok hexec => ?_⟩
    exact ih r (h.2 choice r s₁ hok hexec) fun events out s' => himp _ out s'

theorem surely_ofExcept {x : Except ε α} {post : List (Op × Choice) → Except ε α → σ → Prop}
    (h : post [] x s) : (ofExcept x : Program Op Resp ε α).Surely exec ok s post := by
  cases x with
  | ok a => exact h
  | error e => exact h

theorem Surely.bind {f : α → Program Op Resp ε β} {p : Program Op Resp ε α} :
    ∀ {s : σ} {mid : List (Op × Choice) → Except ε α → σ → Prop}
      {post : List (Op × Choice) → Except ε β → σ → Prop}, p.Surely exec ok s mid →
      (∀ events a s₁, mid events (.ok a) s₁ →
        (f a).Surely exec ok s₁ fun events' out s' => post (events ++ events') out s') →
      (∀ events e s₁, mid events (.error e) s₁ → post events (.error e) s₁) →
      (p >>= f).Surely exec ok s post := by
  induction p with
  | ret a => intro s mid post hp hf _; exact hf _ _ _ hp
  | raise e => intro s mid post hp _ herror; exact herror _ _ _ hp
  | call o next ih =>
    intro s mid post hp hf herror
    refine ⟨hp.1, fun choice r s₁ hok hexec => ?_⟩
    exact ih r (hp.2 choice r s₁ hok hexec) (fun events a s₂ => hf _ a s₂)
      fun events e s₂ => herror _ e s₂

theorem Surely.tryCatch {handler : ε → Program Op Resp ε α} {p : Program Op Resp ε α} :
    ∀ {s : σ} {post : List (Op × Choice) → Except ε α → σ → Prop},
      (p.Surely exec ok s fun events out s₁ => match out with
        | .ok a => post events (.ok a) s₁
        | .error e => (handler e).Surely exec ok s₁
            fun events' out s' => post (events ++ events') out s') →
      (MonadExcept.tryCatch p handler : Program Op Resp ε α).Surely exec ok s post := by
  induction p with
  | ret a => intro s post h; exact h
  | raise e => intro s post h; exact h
  | call o next ih =>
    intro s post h
    exact ⟨h.1, fun choice r s₁ hok hexec => ih r ((h.2 choice r s₁ hok hexec).mono
      fun events out s' hout => by cases out <;> exact hout)⟩

theorem Surely.attempt {p : Program Op Resp ε α}
    {post : List (Op × Choice) → Except ε (Except ε α) → σ → Prop}
    (h : p.Surely exec ok s fun events out s' => post events (.ok out) s') :
    p.attempt.Surely exec ok s post := by
  refine Surely.tryCatch (h.bind (fun events a s₁ hout => ?_) fun events e s₁ hout => ?_)
  · show post (events ++ []) (.ok (.ok a)) s₁
    rw [List.append_nil]
    exact hout
  · show post (events ++ []) (.ok (.error e)) s₁
    rw [List.append_nil]
    exact hout

/-! ### Runs -/

/-- A run with choices that are allowed is as it should be. -/
theorem Surely.of_performs {p : Program Op Resp ε α} :
    ∀ {s : σ} {post : List (Op × Choice) → Except ε α → σ → Prop}, p.Surely exec ok s post →
      ∀ {events out s'}, p.Performs exec s events out s' →
        (∀ event ∈ events, ok event.1 event.2) → post events out s' := by
  induction p with
  | ret a =>
    rintro s post h events out s' ⟨rfl, rfl, rfl⟩ -
    exact h
  | raise e =>
    rintro s post h events out s' ⟨rfl, rfl, rfl⟩ -
    exact h
  | call o next ih =>
    rintro s post h events out s' ⟨choice, r, s₁, rest, hexec, rfl, hrest⟩ hall
    obtain ⟨hok, hallowed⟩ := List.forall_mem_cons.mp hall
    exact ih r (h.2 choice r s₁ hok hexec) hrest hallowed

/-- There is a run with choices that are allowed, and it is as it should be. -/
theorem Surely.exists_performs {p : Program Op Resp ε α} :
    ∀ {s : σ} {post : List (Op × Choice) → Except ε α → σ → Prop}, p.Surely exec ok s post →
      ∃ events out s', p.Performs exec s events out s' ∧ (∀ event ∈ events, ok event.1 event.2) ∧
        post events out s' := by
  induction p with
  | ret a => intro s post h; exact ⟨[], .ok a, s, ⟨rfl, rfl, rfl⟩, by simp, h⟩
  | raise e => intro s post h; exact ⟨[], .error e, s, ⟨rfl, rfl, rfl⟩, by simp, h⟩
  | call o next ih =>
    intro s post h
    obtain ⟨⟨choice, r, s₁, hok, hexec⟩, hnext⟩ := h
    obtain ⟨events, out, s', hrun, hallowed, hpost⟩ := ih r (hnext choice r s₁ hok hexec)
    refine ⟨(o, choice) :: events, out, s', ⟨choice, r, s₁, events, hexec, rfl, hrun⟩, ?_, hpost⟩
    intro event hevent
    rcases List.mem_cons.mp hevent with rfl | hmem
    · exact hok
    · exact hallowed event hmem

end AllocationKeys.Program
