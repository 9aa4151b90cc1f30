import AllocationKeys.Lib.Perform

/-!
# Two runs of a program

`Mirrors` compares two programs on two states: for every run of the first there is a run of the
second with the same choices of the environment, and they end alike. Both return, and then `Q`
relates what they return and the states, or both raise one error in states related by `R`.
-/

namespace AllocationKeys.Program

variable {Op : Type} {Resp : Op → Type} {Choice ε α β α' β' σ : Type}

/-- Two runs end alike. -/
def Alike (R : σ → σ → Prop) (Q : α → σ → β → σ → Prop) :
    Except ε α → σ → Except ε β → σ → Prop
  | .ok a, s₁, .ok b, s₂ => Q a s₁ b s₂
  | .error e₁, s₁, .error e₂, s₂ => e₁ = e₂ ∧ R s₁ s₂
  | _, _, _, _ => False

variable (exec : (o : Op) → Choice → σ → Option (Resp o × σ)) (R : σ → σ → Prop)

/-- Every run of `p₁` from `s₁` has its like from `s₂`. -/
def Mirrors (p₁ : Program Op Resp ε α) (s₁ : σ) (p₂ : Program Op Resp ε β) (s₂ : σ)
    (Q : α → σ → β → σ → Prop) : Prop :=
  ∀ events₁ out₁ s₁', p₁.Performs exec s₁ events₁ out₁ s₁' →
    ∃ events₂ out₂ s₂', p₂.Performs exec s₂ events₂ out₂ s₂' ∧
      events₂.map Prod.snd = events₁.map Prod.snd ∧ Alike R Q out₁ s₁' out₂ s₂'

variable {exec R} {s₁ s₂ : σ} {Q : α → σ → β → σ → Prop} {Q' : α' → σ → β' → σ → Prop}

/-- States that ended alike are alike for a weaker relation too. -/
theorem Mirrors.weaken {R' : σ → σ → Prop} {p₁ : Program Op Resp ε α} {p₂ : Program Op Resp ε β}
    {P : α → σ → β → σ → Prop} (h : Mirrors exec R' p₁ s₁ p₂ s₂ P)
    (himp : ∀ a s₁ b s₂, P a s₁ b s₂ → Q a s₁ b s₂) (hR : ∀ s₁ s₂, R' s₁ s₂ → R s₁ s₂) :
    Mirrors exec R p₁ s₁ p₂ s₂ Q := by
  intro events₁ out₁ s₁' hp
  obtain ⟨events₂, out₂, s₂', hp₂, hchoices, halike⟩ := h events₁ out₁ s₁' hp
  refine ⟨events₂, out₂, s₂', hp₂, hchoices, ?_⟩
  cases out₁ <;> cases out₂
  · exact ⟨halike.1, hR _ _ halike.2⟩
  · exact halike.elim
  · exact halike.elim
  · exact himp _ _ _ _ halike

theorem Mirrors.mono {p₁ : Program Op Resp ε α} {p₂ : Program Op Resp ε β}
    {P : α → σ → β → σ → Prop} (h : Mirrors exec R p₁ s₁ p₂ s₂ P)
    (himp : ∀ a s₁ b s₂, P a s₁ b s₂ → Q a s₁ b s₂) : Mirrors exec R p₁ s₁ p₂ s₂ Q :=
  h.weaken himp fun _ _ hR => hR

theorem mirrors_ret {a : α} {b : β} (h : Q a s₁ b s₂) :
    Mirrors exec R (ret a : Program Op Resp ε α) s₁ (ret b) s₂ Q := by
  rintro events₁ out₁ s₁' ⟨rfl, rfl, rfl⟩
  exact ⟨[], .ok b, s₂, ⟨rfl, rfl, rfl⟩, rfl, h⟩

theorem mirrors_raise {e : ε} (h : R s₁ s₂) :
    Mirrors exec R (raise e : Program Op Resp ε α) s₁ (raise e) s₂ Q := by
  rintro events₁ out₁ s₁' ⟨rfl, rfl, rfl⟩
  exact ⟨[], .error e, s₂, ⟨rfl, rfl, rfl⟩, rfl, rfl, h⟩

theorem mirrors_ofExcept {x₁ : Except ε α} {x₂ : Except ε β} (h : Alike R Q x₁ s₁ x₂ s₂) :
    Mirrors exec R (ofExcept x₁ : Program Op Resp ε α) s₁ (ofExcept x₂) s₂ Q := by
  cases x₁ <;> cases x₂
  · obtain ⟨rfl, hR⟩ := h
    exact mirrors_raise hR
  · exact h.elim
  · exact h.elim
  · exact mirrors_ret h

theorem mirrors_call {o₁ o₂ : Op} {next₁ : Resp o₁ → Program Op Resp ε α}
    {next₂ : Resp o₂ → Program Op Resp ε β}
    (h : ∀ choice r₁ s₁', exec o₁ choice s₁ = some (r₁, s₁') →
      ∃ r₂ s₂', exec o₂ choice s₂ = some (r₂, s₂') ∧
        Mirrors exec R (next₁ r₁) s₁' (next₂ r₂) s₂' Q) :
    Mirrors exec R (call o₁ next₁) s₁ (call o₂ next₂) s₂ Q := by
  rintro events₁ out₁ s₁' ⟨choice, r₁, t₁, rest₁, hexec, rfl, hrest⟩
  obtain ⟨r₂, t₂, hexec₂, hmirrors⟩ := h choice r₁ t₁ hexec
  obtain ⟨rest₂, out₂, s₂', hrest₂, hchoices, halike⟩ := hmirrors rest₁ out₁ s₁' hrest
  exact ⟨(o₂, choice) :: rest₂, out₂, s₂', ⟨choice, r₂, t₂, rest₂, hexec₂, rfl, hrest₂⟩,
    by rw [List.map_cons, List.map_cons, hchoices], halike⟩

/-- Calls whose answers are returned or raised. -/
theorem mirrors_callExcept {o₁ o₂ : Op} {next₁ : Resp o₁ → Except ε α}
    {next₂ : Resp o₂ → Except ε β}
    (h : ∀ choice r₁ s₁', exec o₁ choice s₁ = some (r₁, s₁') →
      ∃ r₂ s₂', exec o₂ choice s₂ = some (r₂, s₂') ∧
        Alike R Q (next₁ r₁) s₁' (next₂ r₂) s₂') :
    Mirrors exec R (call o₁ fun r => ofExcept (next₁ r) : Program Op Resp ε α) s₁
      (call o₂ fun r => ofExcept (next₂ r)) s₂ Q := by
  refine mirrors_call fun choice r₁ s₁' hexec => ?_
  obtain ⟨r₂, s₂', hexec₂, halike⟩ := h choice r₁ s₁' hexec
  exact ⟨r₂, s₂', hexec₂, mirrors_ofExcept halike⟩

/-! ### Sequences -/

theorem Performs.bind_error {p : Program Op Resp ε α} {f : α → Program Op Resp ε β} {e : ε}
    {s' : σ} : ∀ {s : σ} {events : List (Op × Choice)}, p.Performs exec s events (.error e) s' →
      (p >>= f).Performs exec s events (.error e) s' := by
  induction p with
  | ret b => rintro s events ⟨rfl, heq, rfl⟩; cases heq
  | raise e' => rintro s events ⟨rfl, heq, rfl⟩; cases heq; exact ⟨rfl, rfl, rfl⟩
  | call o next ih =>
    rintro s events ⟨choice, r, t₁, rest, hexec, rfl, hrest⟩
    exact ⟨choice, r, t₁, rest, hexec, rfl, ih r hrest⟩

theorem Mirrors.bind {p₁ : Program Op Resp ε α} {p₂ : Program Op Resp ε β}
    {f₁ : α → Program Op Resp ε α'} {f₂ : β → Program Op Resp ε β'}
    (hp : Mirrors exec R p₁ s₁ p₂ s₂ Q)
    (hf : ∀ a t₁ b t₂, Q a t₁ b t₂ → Mirrors exec R (f₁ a) t₁ (f₂ b) t₂ Q') :
    Mirrors exec R (p₁ >>= f₁) s₁ (p₂ >>= f₂) s₂ Q' := by
  intro events out₁ s₁' hrun
  rcases performs_bind hrun with ⟨events₁, a, t₁, events₂, rfl, hfirst, hrest⟩ | ⟨e, rfl, hfirst⟩
  · obtain ⟨events₁', out₂, t₂, hfirst', hchoices, halike⟩ := hp _ _ _ hfirst
    cases out₂ with
    | error e => exact halike.elim
    | ok b =>
      obtain ⟨events₂', out₂, s₂', hrest', hchoices', halike'⟩ := hf a t₁ b t₂ halike _ _ _ hrest
      exact ⟨events₁' ++ events₂', out₂, s₂', Performs.bind hrest' hfirst',
        by rw [List.map_append, List.map_append, hchoices, hchoices'], halike'⟩
  · obtain ⟨events', out₂, t₂, hfirst', hchoices, halike⟩ := hp _ _ _ hfirst
    cases out₂ with
    | ok b => exact halike.elim
    | error e' =>
      obtain ⟨rfl, hR⟩ := halike
      exact ⟨events', .error e, t₂, hfirst'.bind_error, hchoices, rfl, hR⟩

theorem performs_tryCatch {handler : ε → Program Op Resp ε α} {out : Except ε α} {s' : σ}
    {p : Program Op Resp ε α} : ∀ {s : σ} {events : List (Op × Choice)},
      (MonadExcept.tryCatch p handler : Program Op Resp ε α).Performs exec s events out s' ↔
        (∃ a, out = .ok a ∧ p.Performs exec s events (.ok a) s') ∨
          ∃ events₁ e t events₂, events = events₁ ++ events₂ ∧
            p.Performs exec s events₁ (.error e) t ∧
            (handler e).Performs exec t events₂ out s' := by
  induction p with
  | ret a =>
    intro s events
    constructor
    · rintro ⟨rfl, rfl, rfl⟩
      exact Or.inl ⟨a, rfl, rfl, rfl, rfl⟩
    · rintro (⟨b, rfl, rfl, heq, rfl⟩ | ⟨events₁, e, t, events₂, -, ⟨-, heq, -⟩, -⟩)
      · cases heq
        exact ⟨rfl, rfl, rfl⟩
      · cases heq
  | raise e =>
    intro s events
    constructor
    · exact fun h => Or.inr ⟨[], e, s, events, rfl, ⟨rfl, rfl, rfl⟩, h⟩
    · rintro (⟨b, -, -, heq, -⟩ | ⟨events₁, e', t, events₂, rfl, ⟨rfl, heq, rfl⟩, hhandler⟩)
      · cases heq
      · cases heq
        exact hhandler
  | call o next ih =>
    intro s events
    constructor
    · rintro ⟨choice, r, t₁, rest, hexec, rfl, hrest⟩
      rcases (ih r).mp hrest with ⟨a, rfl, hp⟩ | ⟨events₁, e, t, events₂, rfl, hp, hhandler⟩
      · exact Or.inl ⟨a, rfl, choice, r, t₁, rest, hexec, rfl, hp⟩
      · exact Or.inr ⟨(o, choice) :: events₁, e, t, events₂, rfl,
          ⟨choice, r, t₁, events₁, hexec, rfl, hp⟩, hhandler⟩
    · rintro (⟨a, rfl, choice, r, t₁, rest, hexec, rfl, hp⟩ |
        ⟨events₁, e, t, events₂, rfl, ⟨choice, r, t₁, rest, hexec, rfl, hp⟩, hhandler⟩)
      · exact ⟨choice, r, t₁, rest, hexec, rfl, (ih r).mpr (Or.inl ⟨a, rfl, hp⟩)⟩
      · exact ⟨choice, r, t₁, rest ++ events₂, hexec, rfl,
          (ih r).mpr (Or.inr ⟨rest, e, t, events₂, rfl, hp, hhandler⟩)⟩

theorem Mirrors.tryCatch {p₁ : Program Op Resp ε α} {p₂ : Program Op Resp ε β}
    {handler₁ : ε → Program Op Resp ε α} {handler₂ : ε → Program Op Resp ε β}
    (hp : Mirrors exec R p₁ s₁ p₂ s₂ Q)
    (hhandler : ∀ e t₁ t₂, R t₁ t₂ → Mirrors exec R (handler₁ e) t₁ (handler₂ e) t₂ Q) :
    Mirrors exec R (MonadExcept.tryCatch p₁ handler₁ : Program Op Resp ε α) s₁
      (MonadExcept.tryCatch p₂ handler₂) s₂ Q := by
  intro events out₁ s₁' hrun
  rcases performs_tryCatch.mp hrun with ⟨a, rfl, hfirst⟩ |
    ⟨events₁, e, t₁, events₂, rfl, hfirst, hrest⟩
  · obtain ⟨events', out₂, s₂', hfirst', hchoices, halike⟩ := hp _ _ _ hfirst
    cases out₂ with
    | error e => exact halike.elim
    | ok b =>
      exact ⟨events', .ok b, s₂', performs_tryCatch.mpr (Or.inl ⟨b, rfl, hfirst'⟩), hchoices,
        halike⟩
  · obtain ⟨events₁', out₂, t₂, hfirst', hchoices, halike⟩ := hp _ _ _ hfirst
    cases out₂ with
    | ok b => exact halike.elim
    | error e' =>
      obtain ⟨rfl, hR⟩ := halike
      obtain ⟨events₂', out₂, s₂', hrest', hchoices', halike'⟩ :=
        hhandler e t₁ t₂ hR _ _ _ hrest
      exact ⟨events₁' ++ events₂', out₂, s₂',
        performs_tryCatch.mpr (Or.inr ⟨events₁', e, t₂, events₂', rfl, hfirst', hrest'⟩),
        by rw [List.map_append, List.map_append, hchoices, hchoices'], halike'⟩

theorem Mirrors.attempt {p₁ : Program Op Resp ε α} {p₂ : Program Op Resp ε β}
    (hp : Mirrors exec R p₁ s₁ p₂ s₂ Q) :
    Mirrors exec R p₁.attempt s₁ p₂.attempt s₂ fun out₁ t₁ out₂ t₂ => Alike R Q out₁ t₁ out₂ t₂ :=
  Mirrors.tryCatch (hp.bind fun _ _ _ _ h => mirrors_ret h) fun _ _ _ hR => mirrors_ret ⟨rfl, hR⟩

/-- A program ends alike from two states when all of its calls are answered alike. -/
theorem Calls.mirrors {may : Op → Prop} {p : Program Op Resp ε α} (h : p.Calls may)
    (hstep : ∀ o, may o → ∀ choice s₁ s₂ r s₁', R s₁ s₂ → exec o choice s₁ = some (r, s₁') →
      ∃ s₂', exec o choice s₂ = some (r, s₂') ∧ R s₁' s₂') :
    ∀ {s₁ s₂ : σ}, R s₁ s₂ → Mirrors exec R p s₁ p s₂ fun a t₁ b t₂ => a = b ∧ R t₁ t₂ := by
  induction p with
  | ret a => exact fun hR => mirrors_ret ⟨rfl, hR⟩
  | raise e => exact fun hR => mirrors_raise hR
  | call o next ih =>
    intro s₁ s₂ hR
    refine mirrors_call fun choice r₁ s₁' hexec => ?_
    obtain ⟨s₂', hexec₂, hR'⟩ := hstep o h.1 choice s₁ s₂ r₁ s₁' hR hexec
    exact ⟨r₁, s₂', hexec₂, ih r₁ (h.2 r₁) hR'⟩

/-! ### One run for each list of choices -/

/-- What a run does is given by the choices. -/
theorem performs_unique {p : Program Op Resp ε α} {out₁ out₂ : Except ε α} {t₁ t₂ : σ} :
    ∀ {s : σ} {events₁ events₂ : List (Op × Choice)}, p.Performs exec s events₁ out₁ t₁ →
      p.Performs exec s events₂ out₂ t₂ → events₁.map Prod.snd = events₂.map Prod.snd →
        events₁ = events₂ ∧ out₁ = out₂ ∧ t₁ = t₂ := by
  induction p with
  | ret a =>
    rintro s events₁ events₂ ⟨rfl, rfl, rfl⟩ ⟨rfl, rfl, rfl⟩ -
    exact ⟨rfl, rfl, rfl⟩
  | raise e =>
    rintro s events₁ events₂ ⟨rfl, rfl, rfl⟩ ⟨rfl, rfl, rfl⟩ -
    exact ⟨rfl, rfl, rfl⟩
  | call o next ih =>
    rintro s events₁ events₂ ⟨choice, r, u, rest, hexec, rfl, hrest⟩
      ⟨choice', r', u', rest', hexec', rfl, hrest'⟩ hchoices
    obtain ⟨rfl, htail⟩ := List.cons_eq_cons.mp hchoices
    rw [hexec] at hexec'
    cases hexec'
    obtain ⟨rfl, rfl, rfl⟩ := ih r hrest hrest' htail
    exact ⟨rfl, rfl, rfl⟩

end AllocationKeys.Program
