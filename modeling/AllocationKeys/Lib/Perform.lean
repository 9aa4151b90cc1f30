import AllocationKeys.Lib.Program

/-!
# A program alone on a state

`Performs` runs one program on a state that answers its calls: the environment makes a choice at
each call, and the run leaves the calls with their choices, how the program ended and the state.

* `Ends`: every such run from a state satisfies a postcondition, with one rule for each way to
  build a program;
* `Keeps`: every run from a state that satisfies an invariant ends in one that does;
* `perform`: the run for given choices; `exists_of_perform` makes it a proof about `Performs`.
-/

namespace AllocationKeys.Program

variable {Op : Type} {Resp : Op → Type} {Choice ε α β σ : Type}

variable (exec : (o : Op) → Choice → σ → Option (Resp o × σ))

/-- The program can make these calls with these choices, and end so. -/
def Performs : Program Op Resp ε α → σ → List (Op × Choice) → Except ε α → σ → Prop
  | ret a, s, events, out, s' => events = [] ∧ out = .ok a ∧ s' = s
  | raise e, s, events, out, s' => events = [] ∧ out = .error e ∧ s' = s
  | call o next, s, events, out, s' => ∃ choice r s₁ rest, exec o choice s = some (r, s₁) ∧
      events = (o, choice) :: rest ∧ (next r).Performs s₁ rest out s'

/-- Every run from `s` satisfies `post`. -/
def Ends (p : Program Op Resp ε α) (s : σ) (post : List (Op × Choice) → Except ε α → σ → Prop) :
    Prop :=
  ∀ events out s', p.Performs exec s events out s' → post events out s'

variable {exec} {s : σ}

/-- A weaker postcondition holds as well. -/
theorem Ends.mono {p : Program Op Resp ε α}
    {post post' : List (Op × Choice) → Except ε α → σ → Prop} (h : p.Ends exec s post)
    (himp : ∀ events out s', post events out s' → post' events out s') : p.Ends exec s post' :=
  fun events out s' hp => himp events out s' (h events out s' hp)

theorem ends_ret {a : α} {post : List (Op × Choice) → Except ε α → σ → Prop}
    (h : post [] (.ok a) s) : (ret a : Program Op Resp ε α).Ends exec s post := by
  rintro events out s' ⟨rfl, rfl, rfl⟩
  exact h

theorem ends_raise {e : ε} {post : List (Op × Choice) → Except ε α → σ → Prop}
    (h : post [] (.error e) s) : (raise e : Program Op Resp ε α).Ends exec s post := by
  rintro events out s' ⟨rfl, rfl, rfl⟩
  exact h

/-- A call and the rest after every answer. -/
theorem ends_call {o : Op} {next : Resp o → Program Op Resp ε α}
    {post : List (Op × Choice) → Except ε α → σ → Prop}
    (h : ∀ choice r s₁, exec o choice s = some (r, s₁) →
      (next r).Ends exec s₁ fun events out s' => post ((o, choice) :: events) out s') :
    (call o next).Ends exec s post := by
  rintro events out s' ⟨choice, r, s₁, rest, hexec, rfl, hrest⟩
  exact h choice r s₁ hexec rest out s' hrest

theorem ends_ofExcept {x : Except ε α} {post : List (Op × Choice) → Except ε α → σ → Prop}
    (h : post [] x s) : (ofExcept x : Program Op Resp ε α).Ends exec s post := by
  cases x with
  | ok a => exact ends_ret h
  | error e => exact ends_raise h

theorem ends_ask {o : Op} {post : List (Op × Choice) → Except ε (Resp o) → σ → Prop}
    (h : ∀ choice r s₁, exec o choice s = some (r, s₁) → post [(o, choice)] (.ok r) s₁) :
    (ask o : Program Op Resp ε _).Ends exec s post :=
  ends_call fun choice r s₁ hexec => ends_ret (h choice r s₁ hexec)

/-- A call whose answer is returned or raised. -/
theorem ends_callExcept {o : Op} {next : Resp o → Except ε α}
    {post : List (Op × Choice) → Except ε α → σ → Prop}
    (h : ∀ choice r s₁, exec o choice s = some (r, s₁) → post [(o, choice)] (next r) s₁) :
    (call o fun r => ofExcept (next r) : Program Op Resp ε α).Ends exec s post :=
  ends_call fun choice r s₁ hexec => ends_ofExcept (h choice r s₁ hexec)

/-- A performance of a sequence: of its first part and then its second, or of a first part that
raises. -/
theorem performs_bind {f : α → Program Op Resp ε β} {out : Except ε β} {s' : σ}
    {p : Program Op Resp ε α} : ∀ {s : σ} {events : List (Op × Choice)},
      (p >>= f).Performs exec s events out s' →
      (∃ events₁ a s₁ events₂, events = events₁ ++ events₂ ∧ p.Performs exec s events₁ (.ok a) s₁ ∧
        (f a).Performs exec s₁ events₂ out s') ∨
      ∃ e, out = .error e ∧ p.Performs exec s events (.error e) s' := by
  induction p with
  | ret a => intro s events h; exact Or.inl ⟨[], a, s, events, rfl, ⟨rfl, rfl, rfl⟩, h⟩
  | raise e =>
    rintro s events ⟨rfl, rfl, rfl⟩
    exact Or.inr ⟨e, rfl, rfl, rfl, rfl⟩
  | call o next ih =>
    rintro s events ⟨choice, r, s₁, rest, hexec, rfl, hrest⟩
    rcases ih r hrest with ⟨events₁, a, s₂, events₂, rfl, hp, hf⟩ | ⟨e, rfl, hp⟩
    · exact Or.inl ⟨(o, choice) :: events₁, a, s₂, events₂, rfl,
        ⟨choice, r, s₁, events₁, hexec, rfl, hp⟩, hf⟩
    · exact Or.inr ⟨e, rfl, choice, r, s₁, rest, hexec, rfl, hp⟩

/-- Performances of the two parts make one of the sequence. -/
theorem Performs.bind {p : Program Op Resp ε α} {f : α → Program Op Resp ε β} {a : α} {t s' : σ}
    {events₂ : List (Op × Choice)} {out : Except ε β} (hf : (f a).Performs exec t events₂ out s') :
    ∀ {s : σ} {events₁ : List (Op × Choice)}, p.Performs exec s events₁ (.ok a) t →
      (p >>= f).Performs exec s (events₁ ++ events₂) out s' := by
  induction p with
  | ret b => rintro s events₁ ⟨rfl, heq, rfl⟩; cases heq; exact hf
  | raise e => rintro s events₁ ⟨rfl, heq, -⟩; cases heq
  | call o next ih =>
    rintro s events₁ ⟨choice, r, t₁, rest, hexec, rfl, hrest⟩
    exact ⟨choice, r, t₁, rest ++ events₂, hexec, rfl, ih r hrest⟩

/-- A sequence ends well when both its parts do. -/
theorem performs_bind_ok {p : Program Op Resp ε α} {f : α → Program Op Resp ε β} {b : β} {s s' : σ}
    {events : List (Op × Choice)} :
    (p >>= f).Performs exec s events (.ok b) s' ↔
      ∃ events₁ a s₁ events₂, events = events₁ ++ events₂ ∧ p.Performs exec s events₁ (.ok a) s₁ ∧
        (f a).Performs exec s₁ events₂ (.ok b) s' := by
  constructor
  · intro h
    rcases performs_bind h with hparts | ⟨e, heq, -⟩
    · exact hparts
    · cases heq
  · rintro ⟨events₁, a, s₁, events₂, rfl, hp, hf⟩
    exact hf.bind hp

theorem performs_ofExcept_ok {x : Except ε α} {a : α} {s' : σ} {events : List (Op × Choice)} :
    (ofExcept x : Program Op Resp ε α).Performs exec s events (.ok a) s' ↔
      x = .ok a ∧ events = [] ∧ s = s' := by
  cases x with
  | ok a' =>
    constructor
    · rintro ⟨rfl, heq, rfl⟩
      cases heq
      exact ⟨rfl, rfl, rfl⟩
    · rintro ⟨heq, rfl, rfl⟩
      cases heq
      exact ⟨rfl, rfl, rfl⟩
  | error e =>
    constructor
    · rintro ⟨-, heq, -⟩
      cases heq
    · rintro ⟨heq, -⟩
      cases heq

/-- A call whose answer is returned. -/
theorem performs_callExcept_ok {o : Op} {next : Resp o → Except ε α} {a : α} {s' : σ}
    {events : List (Op × Choice)} :
    (call o fun r => ofExcept (next r) : Program Op Resp ε α).Performs exec s events (.ok a) s' ↔
      ∃ choice r, exec o choice s = some (r, s') ∧ next r = .ok a ∧ events = [(o, choice)] := by
  constructor
  · rintro ⟨choice, r, s₁, rest, hexec, rfl, hrest⟩
    obtain ⟨hnext, rfl, rfl⟩ := performs_ofExcept_ok.mp hrest
    exact ⟨choice, r, hexec, hnext, rfl⟩
  · rintro ⟨choice, r, hexec, hnext, rfl⟩
    exact ⟨choice, r, s', [], hexec, rfl, performs_ofExcept_ok.mpr ⟨hnext, rfl, rfl⟩⟩

/-- What an attempt returns is how the program ends. -/
theorem performs_attempt {out : Except ε α} {s' : σ} {p : Program Op Resp ε α} :
    ∀ {s : σ} {events : List (Op × Choice)},
      p.attempt.Performs exec s events (.ok out) s' ↔ p.Performs exec s events out s' := by
  induction p with
  | ret a =>
    intro s events
    constructor
    · rintro ⟨rfl, heq, rfl⟩
      exact ⟨rfl, Except.ok.inj heq, rfl⟩
    · rintro ⟨rfl, rfl, rfl⟩
      exact ⟨rfl, rfl, rfl⟩
  | raise e =>
    intro s events
    constructor
    · rintro ⟨rfl, heq, rfl⟩
      exact ⟨rfl, Except.ok.inj heq, rfl⟩
    · rintro ⟨rfl, rfl, rfl⟩
      exact ⟨rfl, rfl, rfl⟩
  | call o next ih =>
    intro s events
    constructor
    · rintro ⟨choice, r, s₁, rest, hexec, rfl, hrest⟩
      exact ⟨choice, r, s₁, rest, hexec, rfl, (ih r).mp hrest⟩
    · rintro ⟨choice, r, s₁, rest, hexec, rfl, hrest⟩
      exact ⟨choice, r, s₁, rest, hexec, rfl, (ih r).mpr hrest⟩

/-- With a handler that only raises, what ends well is the program itself. -/
theorem performs_tryCatch_ok {p : Program Op Resp ε α} {handler : ε → Program Op Resp ε α} {a : α}
    {s' : σ} (hhandler : ∀ e, ∃ e', handler e = raise e') :
    ∀ {s : σ} {events : List (Op × Choice)},
      (MonadExcept.tryCatch p handler : Program Op Resp ε α).Performs exec s events (.ok a) s' ↔
        p.Performs exec s events (.ok a) s' := by
  induction p with
  | ret b => exact Iff.rfl
  | raise e =>
    intro s events
    obtain ⟨e', he'⟩ := hhandler e
    change (handler e).Performs exec s events (.ok a) s' ↔ _
    rw [he']
    constructor
    · rintro ⟨-, heq, -⟩
      cases heq
    · rintro ⟨-, heq, -⟩
      cases heq
  | call o next ih =>
    intro s events
    constructor
    · rintro ⟨choice, r, s₁, rest, hexec, rfl, hrest⟩
      exact ⟨choice, r, s₁, rest, hexec, rfl, (ih r).mp hrest⟩
    · rintro ⟨choice, r, s₁, rest, hexec, rfl, hrest⟩
      exact ⟨choice, r, s₁, rest, hexec, rfl, (ih r).mpr hrest⟩

/-- How a run ends is how the program may end. -/
theorem Performs.yields {p : Program Op Resp ε α} {out : Except ε α} :
    ∀ {s s' : σ} {events : List (Op × Choice)}, p.Performs exec s events out s' →
      p.Yields (fun _ _ => True) out := by
  induction p with
  | ret a =>
    intro s s' events h
    exact h.2.1
  | raise e =>
    intro s s' events h
    exact h.2.1
  | call o next ih =>
    intro s s' events h
    obtain ⟨choice, r, s₁, rest, -, -, hrest⟩ := h
    exact ⟨r, trivial, ih r hrest⟩

/-- In a sequence the first part's postcondition is what the second begins with. -/
theorem Ends.bind {p : Program Op Resp ε α} {f : α → Program Op Resp ε β}
    {mid : List (Op × Choice) → Except ε α → σ → Prop}
    {post : List (Op × Choice) → Except ε β → σ → Prop} (hp : p.Ends exec s mid)
    (hf : ∀ events a s₁, mid events (.ok a) s₁ →
      (f a).Ends exec s₁ fun events' out s' => post (events ++ events') out s')
    (herror : ∀ events e s₁, mid events (.error e) s₁ → post events (.error e) s₁) :
    (p >>= f).Ends exec s post := by
  intro events out s' h
  rcases performs_bind h with ⟨events₁, a, s₁, events₂, rfl, hfirst, hrest⟩ | ⟨e, rfl, hfirst⟩
  · exact hf events₁ a s₁ (hp _ _ _ hfirst) _ _ _ hrest
  · exact herror events e s' (hp _ _ _ hfirst)

/-- After an exception the handler goes on from where the body stopped. -/
theorem Ends.tryCatch {p : Program Op Resp ε α} {handler : ε → Program Op Resp ε α}
    {post : List (Op × Choice) → Except ε α → σ → Prop} :
    ∀ {s : σ}, p.Ends exec s (fun events out s₁ => match out with
        | .ok a => post events (.ok a) s₁
        | .error e =>
            (handler e).Ends exec s₁ fun events' out s' => post (events ++ events') out s') →
      (MonadExcept.tryCatch p handler : Program Op Resp ε α).Ends exec s post := by
  induction p generalizing post with
  | ret a => intro s h; exact ends_ret (h [] _ s ⟨rfl, rfl, rfl⟩)
  | raise e => intro s h; exact h [] _ s ⟨rfl, rfl, rfl⟩
  | call o next ih =>
    intro s h
    refine ends_call fun choice r s₁ hexec => ih r fun events out s' hp => ?_
    have hout := h ((o, choice) :: events) out s' ⟨choice, r, s₁, events, hexec, rfl, hp⟩
    cases out with
    | ok a => exact hout
    | error e => exact hout

/-- An attempt returns what the program ended with. -/
theorem Ends.attempt {p : Program Op Resp ε α}
    {post : List (Op × Choice) → Except ε (Except ε α) → σ → Prop}
    (h : p.Ends exec s fun events out s' => post events (.ok out) s') :
    p.attempt.Ends exec s post := by
  refine Ends.tryCatch (h.bind (fun events a s₁ hout => ends_ret ?_) fun events e s₁ hout => ?_)
  · rw [List.append_nil]
    exact hout
  · refine ends_ret ?_
    rw [List.append_nil]
    exact hout

/-- The calls of a run are calls the program may make. -/
theorem Calls.ends {may : Op → Prop} {p : Program Op Resp ε α} (h : p.Calls may) :
    ∀ {s : σ}, p.Ends exec s fun events _ _ => ∀ event ∈ events, may event.1 := by
  induction p with
  | ret a => intro s; exact ends_ret (by simp)
  | raise e => intro s; exact ends_raise (by simp)
  | call o next ih =>
    intro s
    refine ends_call fun choice r s₁ _ => (ih r (h.2 r)).mono fun events _ _ hevents => ?_
    simp only [List.mem_cons, forall_eq_or_imp]
    exact ⟨h.1, hevents⟩

/-! ### Invariants -/

variable (exec)

/-- The invariant holds at the end of every run that begins with it. -/
def Keeps (I : σ → Prop) (p : Program Op Resp ε α) : Prop :=
  ∀ s, I s → p.Ends exec s fun _ _ s' => I s'

variable {exec} {I : σ → Prop}

theorem keeps_ret {a : α} : (ret a : Program Op Resp ε α).Keeps exec I := fun _ hs => ends_ret hs

theorem keeps_raise {e : ε} : (raise e : Program Op Resp ε α).Keeps exec I :=
  fun _ hs => ends_raise hs

theorem keeps_ofExcept {x : Except ε α} : (ofExcept x : Program Op Resp ε α).Keeps exec I :=
  fun _ hs => ends_ofExcept hs

/-- Parts that keep an invariant make a sequence that does. -/
theorem Keeps.bind {p : Program Op Resp ε α} {f : α → Program Op Resp ε β}
    (hp : p.Keeps exec I) (hf : ∀ a, (f a).Keeps exec I) : (p >>= f).Keeps exec I :=
  fun s hs => (hp s hs).bind (fun _ a s₁ hs₁ => hf a s₁ hs₁) fun _ _ _ hs₁ => hs₁

theorem Keeps.map {p : Program Op Resp ε α} (hp : p.Keeps exec I) (f : α → β) :
    (f <$> p).Keeps exec I := by
  rw [← bind_pure_comp]
  exact hp.bind fun _ => keeps_ret

/-- A handler that keeps it may be added. -/
theorem Keeps.tryCatch {p : Program Op Resp ε α} {handler : ε → Program Op Resp ε α}
    (hp : p.Keeps exec I) (hhandler : ∀ e, (handler e).Keeps exec I) :
    (MonadExcept.tryCatch p handler : Program Op Resp ε α).Keeps exec I := by
  intro s hs
  refine Ends.tryCatch ((hp s hs).mono fun events out s' hs' => ?_)
  cases out with
  | ok a => exact hs'
  | error e => exact hhandler e s' hs'

theorem Keeps.attempt {p : Program Op Resp ε α} (hp : p.Keeps exec I) :
    p.attempt.Keeps exec I :=
  fun s hs => Ends.attempt (hp s hs)

/-- A program keeps what all of its calls keep. -/
theorem Calls.keeps {may : Op → Prop} {p : Program Op Resp ε α} (h : p.Calls may)
    (hstep : ∀ o, may o → ∀ choice s r s', exec o choice s = some (r, s') → I s → I s') :
    p.Keeps exec I := by
  induction p with
  | ret a => exact keeps_ret
  | raise e => exact keeps_raise
  | call o next ih =>
    intro s hs
    exact ends_call fun choice r s₁ hexec =>
      ih r (h.2 r) s₁ (hstep o h.1 choice s r s₁ hexec hs)

/-! ### Given choices -/

variable (exec)

/-- Run a program with the choices of a list, all of which it must use up. -/
def perform : List Choice → Program Op Resp ε α → σ →
    Option (List (Op × Choice) × Except ε α × σ)
  | [], ret a, s => some ([], .ok a, s)
  | [], raise e, s => some ([], .error e, s)
  | choice :: choices, call o next, s =>
      (exec o choice s).bind fun result =>
        (perform choices (next result.1) result.2).map fun rest =>
          ((o, choice) :: rest.1, rest.2)
  | _, _, _ => none

variable {exec}

/-- What is computed from choices is a performance. -/
theorem performs_of_perform {p : Program Op Resp ε α} :
    ∀ {choices : List Choice} {s : σ} {events : List (Op × Choice)} {out : Except ε α} {s' : σ},
      perform exec choices p s = some (events, out, s') → p.Performs exec s events out s' := by
  induction p with
  | ret a =>
    intro choices s events out s' h
    cases choices with
    | nil => cases h; exact ⟨rfl, rfl, rfl⟩
    | cons choice choices => cases h
  | raise e =>
    intro choices s events out s' h
    cases choices with
    | nil => cases h; exact ⟨rfl, rfl, rfl⟩
    | cons choice choices => cases h
  | call o next ih =>
    intro choices s events out s' h
    cases choices with
    | nil => cases h
    | cons choice choices =>
      simp only [perform, Option.bind_eq_some_iff, Option.map_eq_some_iff] at h
      obtain ⟨⟨r, s₁⟩, hexec, ⟨rest, out', s''⟩, hrest, heq⟩ := h
      cases heq
      exact ⟨choice, r, s₁, rest, hexec, rfl, ih r hrest⟩

/-- A run that the choices show to end as is looked for. -/
theorem exists_of_perform {p : Program Op Resp ε α} {choices : List Choice}
    {test : List (Op × Choice) × Except ε α × σ → Bool}
    (h : (perform exec choices p s).any test = true) :
    ∃ events out s', p.Performs exec s events out s' ∧ test (events, out, s') = true := by
  obtain ⟨⟨events, out, s'⟩, hperform, htest⟩ := (Option.any_eq_true _ _).mp h
  exact ⟨events, out, s', performs_of_perform hperform, htest⟩

end AllocationKeys.Program
