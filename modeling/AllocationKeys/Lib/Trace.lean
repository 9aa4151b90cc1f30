import AllocationKeys.Lib.Concurrent

/-!
# What the threads of a machine have done

`Machine.traced` keeps a log next to the state, of the roles taken and of the calls with their
answers. The log changes nothing: it can be erased from every run (`run_erase`), and every run has
one (`exists_run_traced`). What a discipline asks of a call can still be said of it once it is on
the log (`held_of_run`).

`Machine.restrict` takes away the answers that a run is assumed not to give (`run_restrict`), so
that a `Triple` need not account for them.
-/

namespace AllocationKeys.Concurrent

variable {Role Op : Type} {Resp : Op → Type} {Choice ε σ α : Type}

/-- What a thread has done. -/
inductive Entry (Role Op : Type) (Resp : Op → Type) where
  | launched (t : ℕ) (role : Role)
  | called (t : ℕ) (o : Op) (r : Resp o)

def Entry.thread : Entry Role Op Resp → ℕ
  | .launched t _ => t
  | .called t _ _ => t

/-- A state with a log, the latest entry first. -/
abbrev Logged (Role Op : Type) (Resp : Op → Type) (σ : Type) : Type :=
  σ × List (Entry Role Op Resp)

variable {M : Machine Role Op Resp Choice ε σ} {s : σ} {label : Label Role Choice} {t : ℕ}

namespace Machine

variable (M) in
def traced : Machine Role Op Resp Choice ε (Logged Role Op Resp σ) where
  program := M.program
  launch t role s := (M.launch t role s.1).map fun s' => (s', .launched t role :: s.2)
  exec t o choice s := (M.exec t o choice s.1).map fun result =>
    (result.1, result.2, .called t o result.1 :: s.2)
  abort t s := (M.abort t s.1, s.2)

/-- The configuration without its log. -/
def erase (c : Config Role Op Resp ε (Logged Role Op Resp σ)) : Config Role Op Resp ε σ :=
  ⟨c.state.1, c.threads⟩

variable {c c' : Config Role Op Resp ε (Logged Role Op Resp σ)}

/-- A step with a record is a step. -/
theorem step_erase (h : M.traced.step c label = some c') :
    M.step (erase c) label = some (erase c') := by
  rcases step_cases h with ⟨t, role, s, rfl, hidle, hlaunch, rfl⟩ |
    ⟨t, choice, role, o, next, r, s, rfl, hrunning, hexec, rfl⟩ |
    ⟨t, role, rest, rfl, hrunning, rfl⟩
  · obtain ⟨s', hs', rfl⟩ := Option.map_eq_some_iff.mp hlaunch
    simp only [step, erase, hidle, hs', Option.map_some]
    rfl
  · obtain ⟨result, hresult, heq⟩ := Option.map_eq_some_iff.mp hexec
    cases heq
    simp only [step, erase, hrunning, hresult, Option.map_some]
  · simp only [step, erase, hrunning]
    rfl

/-- A run with a record is a run. -/
theorem run_erase {ok : Config Role Op Resp ε (Logged Role Op Resp σ) → Label Role Choice → Prop}
    (h : M.traced.Run ok c c') : M.Run (fun _ _ => True) (erase c) (erase c') := by
  induction h with
  | refl => exact Relation.ReflTransGen.refl
  | tail _ hstep ih =>
    obtain ⟨label, -, hstep⟩ := hstep
    exact ih.tail ⟨label, trivial, step_erase hstep⟩

/-- Every step can be taken with a record. -/
theorem exists_step_traced {d : Config Role Op Resp ε σ} (h : M.step (erase c) label = some d) :
    ∃ c', M.traced.step c label = some c' ∧ erase c' = d := by
  rcases step_cases h with ⟨t, role, s, rfl, hidle, hlaunch, rfl⟩ |
    ⟨t, choice, role, o, next, r, s, rfl, hrunning, hexec, rfl⟩ |
    ⟨t, role, rest, rfl, hrunning, rfl⟩
  · refine ⟨⟨(s, .launched t role :: c.state.2), _⟩, ?_, rfl⟩
    have hidle' : c.threads t = .idle := hidle
    have hlaunch' : M.launch t role c.state.1 = some s := hlaunch
    simp only [step, hidle', traced, hlaunch', Option.map_some]
    rfl
  · refine ⟨⟨(s, .called t o r :: c.state.2), _⟩, ?_, rfl⟩
    have hrunning' : c.threads t = .running role (.call o next) := hrunning
    have hexec' : M.exec t o choice c.state.1 = some (r, s) := hexec
    simp only [step, hrunning', traced, hexec', Option.map_some]
    rfl
  · have hrunning' : c.threads t = .running role rest := hrunning
    refine ⟨⟨(M.abort t c.state.1, c.state.2), _⟩, ?_, rfl⟩
    simp only [step, hrunning', traced]
    rfl

/-- Every run can be logged. -/
theorem exists_run_traced {ok : Config Role Op Resp ε σ → Label Role Choice → Prop}
    {d : Config Role Op Resp ε σ} (h : M.Run ok (start s) d) :
    ∃ c, M.traced.Run (fun c label => ok (erase c) label) (start (s, [])) c ∧ erase c = d := by
  induction h with
  | refl => exact ⟨start (s, []), Relation.ReflTransGen.refl, rfl⟩
  | tail _ hstep ih =>
    obtain ⟨label, hok, hstep⟩ := hstep
    obtain ⟨c, hrun, rfl⟩ := ih
    obtain ⟨c', hstep', rfl⟩ := exists_step_traced hstep
    exact ⟨c', hrun.tail ⟨label, hok, hstep'⟩, rfl⟩

/-! ### Threads and their entries -/

/-- The record of a step only grows. -/
theorem mem_of_step (h : M.traced.step c label = some c') {e : Entry Role Op Resp}
    (he : e ∈ c.state.2) : e ∈ c'.state.2 := by
  rcases step_cases h with ⟨t, role, s, -, -, hlaunch, rfl⟩ |
    ⟨t, choice, role, o, next, r, s, -, -, hexec, rfl⟩ | ⟨t, role, rest, -, -, rfl⟩
  · obtain ⟨s', -, rfl⟩ := Option.map_eq_some_iff.mp hlaunch
    exact List.mem_cons_of_mem _ he
  · obtain ⟨result, -, heq⟩ := Option.map_eq_some_iff.mp hexec
    cases heq
    exact List.mem_cons_of_mem _ he
  · exact he

/-- What is recorded stays recorded. -/
theorem mem_of_run {ok : Config Role Op Resp ε (Logged Role Op Resp σ) → Label Role Choice → Prop}
    (h : M.traced.Run ok c c') {e : Entry Role Op Resp} (he : e ∈ c.state.2) :
    e ∈ c'.state.2 := by
  induction h with
  | refl => exact he
  | tail _ hstep ih =>
    obtain ⟨label, -, hstep⟩ := hstep
    exact mem_of_step hstep ih

/-- A call is answered as without the log, and put on it. -/
theorem exec_traced {o : Op} {choice : Choice} {r : Resp o} {s s' : Logged Role Op Resp σ}
    (h : M.traced.exec t o choice s = some (r, s')) :
    M.exec t o choice s.1 = some (r, s'.1) ∧ s'.2 = .called t o r :: s.2 := by
  obtain ⟨⟨r', s₁⟩, hexec, heq⟩ := Option.map_eq_some_iff.mp h
  cases heq
  exact ⟨hexec, rfl⟩

/-- A thread with an entry has taken a role. -/
theorem not_idle_of_run
    {ok : Config Role Op Resp ε (Logged Role Op Resp σ) → Label Role Choice → Prop}
    (h : M.traced.Run ok (start (s, [])) c) {e : Entry Role Op Resp} (he : e ∈ c.state.2) :
    c.threads e.thread ≠ .idle := by
  induction h with
  | refl => cases he
  | @tail b c' _ hstep ih =>
    obtain ⟨label, -, hstep⟩ := hstep
    have hupdate : ∀ (t : ℕ) (new : Thread Role Op Resp ε), new ≠ .idle →
        (e.thread ≠ t → e ∈ b.state.2) → Function.update b.threads t new e.thread ≠ .idle := by
      intro t new hnew hold
      by_cases ht : e.thread = t
      · rw [ht, Function.update_self]
        exact hnew
      · rw [Function.update_of_ne ht]
        exact ih (hold ht)
    rcases step_cases hstep with ⟨t, role, s, -, -, hlaunch, rfl⟩ |
      ⟨t, choice, role, o, next, r, s, -, -, hexec, rfl⟩ | ⟨t, role, rest, -, -, rfl⟩
    · obtain ⟨s', -, rfl⟩ := Option.map_eq_some_iff.mp hlaunch
      refine hupdate t _ (by simp) fun hne => (List.mem_cons.mp he).resolve_left fun heq => ?_
      exact hne (by rw [heq]; rfl)
    · obtain ⟨result, -, heq⟩ := Option.map_eq_some_iff.mp hexec
      cases heq
      refine hupdate t _ (by simp) fun hne => (List.mem_cons.mp he).resolve_left fun heq => ?_
      exact hne (by rw [heq]; rfl)
    · exact hupdate t _ (by simp) fun _ => he

/-- The role of a thread is on the log. -/
theorem launched_of_run
    {ok : Config Role Op Resp ε (Logged Role Op Resp σ) → Label Role Choice → Prop}
    (h : M.traced.Run ok (start (s, [])) c) {role : Role} {rest : Program Op Resp ε Unit}
    (hrunning : c.threads t = .running role rest) : .launched t role ∈ c.state.2 := by
  induction h generalizing role rest with
  | refl => cases hrunning
  | @tail b c' _ hstep ih =>
    obtain ⟨label, -, hstep⟩ := hstep
    have hkept := fun {role rest} (hold : b.threads t = .running role rest) =>
      mem_of_step hstep (ih hold)
    rcases step_cases hstep with ⟨t', role', s, -, -, hlaunch, rfl⟩ |
      ⟨t', choice, role', o, next, r, s, -, hold, -, rfl⟩ | ⟨t', role', rest', -, -, rfl⟩
    · by_cases ht : t = t'
      · subst ht
        obtain ⟨s', -, rfl⟩ := Option.map_eq_some_iff.mp hlaunch
        cases (Function.update_self t _ b.threads).symm.trans hrunning
        exact List.mem_cons_self ..
      · exact hkept ((Function.update_of_ne ht _ b.threads).symm.trans hrunning)
    · by_cases ht : t = t'
      · subst ht
        cases (Function.update_self t _ b.threads).symm.trans hrunning
        exact hkept hold
      · exact hkept ((Function.update_of_ne ht _ b.threads).symm.trans hrunning)
    · by_cases ht : t = t'
      · subst ht
        cases (Function.update_self t _ b.threads).symm.trans hrunning
      · exact hkept ((Function.update_of_ne ht _ b.threads).symm.trans hrunning)

/-- What a play has launched was one of its steps. -/
theorem launched_of_play
    {ok : Config Role Op Resp ε (Logged Role Op Resp σ) → Label Role Choice → Prop}
    [∀ c label, Decidable (ok c label)] {role : Role} {labels : List (Label Role Choice)} :
    ∀ {c c' : Config Role Op Resp ε (Logged Role Op Resp σ)},
      M.traced.play ok labels c = some c' → .launched t role ∈ c'.state.2 →
        .launched t role ∈ c.state.2 ∨ .launch t role ∈ labels := by
  induction labels with
  | nil =>
    intro c c' h hmem
    cases h
    exact Or.inl hmem
  | cons label labels ih =>
    intro c c' h hmem
    simp only [play] at h
    split at h
    · obtain ⟨next, hnext, hrest⟩ := Option.bind_eq_some_iff.mp h
      rcases ih hrest hmem with hlogged | hlater
      · rcases step_cases hnext with ⟨t₁, role₁, s, rfl, -, hlaunch, rfl⟩ |
          ⟨t₁, choice, role₁, o, rest, r, s, -, -, hexec, rfl⟩ | ⟨t₁, role₁, rest, -, -, rfl⟩
        · obtain ⟨s', -, rfl⟩ := Option.map_eq_some_iff.mp hlaunch
          rcases List.mem_cons.mp hlogged with heq | hold
          · cases heq
            exact Or.inr (List.mem_cons_self ..)
          · exact Or.inl hold
        · rw [(exec_traced hexec).2] at hlogged
          exact Or.inl ((List.mem_cons.mp hlogged).resolve_left (by simp))
        · exact Or.inl hlogged
      · exact Or.inr (List.mem_cons_of_mem _ hlater)
    · cases h

/-- What is so when a call is made, and stays so whoever steps, is so of every call on the log. -/
theorem held_of_run {L : Discipline Op σ} {ends : Role → ℕ → Except ε Unit → σ → Prop}
    (hobeys : ObeysTo M L ends) (hstart : L.inv s) {holds : ℕ → Op → σ → Prop}
    (hcall : ∀ t o s, L.pre t o s → holds t o s)
    (hkeep : ∀ t t' o s s', L.Keeps t' s s' → holds t o s → holds t o s')
    {ok : Config Role Op Resp ε (Logged Role Op Resp σ) → Label Role Choice → Prop}
    (h : M.traced.Run ok (start (s, [])) c) {o : Op} {r : Resp o}
    (hcalled : .called t o r ∈ c.state.2) : holds t o c.state.1 := by
  induction h with
  | refl => cases hcalled
  | @tail b c' hrun hstep ih =>
    obtain ⟨label, -, hstep⟩ := hstep
    have hgood : GoodTo M L ends (erase b) :=
      good_of_run hobeys (good_start hstart) (run_erase hrun)
    obtain ⟨t', hkeeps⟩ := keeps_step hobeys hgood (step_erase hstep)
    refine hkeep t t' o _ _ hkeeps ?_
    rcases step_cases hstep with ⟨t₁, role, s, -, -, hlaunch, rfl⟩ |
      ⟨t₁, choice, role, o₁, next, r₁, s, -, hrunning, hexec, rfl⟩ | ⟨t₁, role, rest, -, -, rfl⟩
    · obtain ⟨s', -, rfl⟩ := Option.map_eq_some_iff.mp hlaunch
      exact ih ((List.mem_cons.mp hcalled).resolve_left (by simp))
    · have hlog := (exec_traced hexec).2
      rw [hlog] at hcalled
      rcases List.mem_cons.mp hcalled with heq | hold
      · cases heq
        exact hcall _ _ _ (hgood.pre hrunning)
      · exact ih hold
    · exact ih hcalled

/-- In a run without kills no thread is killed. -/
theorem not_killed_of_run {ok : Config Role Op Resp ε σ → Label Role Choice → Prop}
    (hok : ∀ c t, ¬ ok c (.kill t)) {c : Config Role Op Resp ε σ} (h : M.Run ok (start s) c) :
    c.threads t ≠ .killed := by
  induction h with
  | refl => exact fun hkilled => by cases hkilled
  | @tail b c' _ hstep ih =>
    obtain ⟨label, hlabel, hstep⟩ := hstep
    have hupdate : ∀ (t' : ℕ) (new : Thread Role Op Resp ε), new ≠ .killed →
        Function.update b.threads t' new t ≠ .killed := by
      intro t' new hnew
      by_cases ht : t = t'
      · rw [ht, Function.update_self]
        exact hnew
      · rw [Function.update_of_ne ht]
        exact ih
    rcases step_cases hstep with ⟨t', role, s, -, -, -, rfl⟩ |
      ⟨t', choice, role, o, next, r, s, -, -, -, rfl⟩ | ⟨t', role, rest, rfl, -, -⟩
    · exact hupdate t' _ (by simp)
    · exact hupdate t' _ (by simp)
    · exact absurd hlabel (hok b t')

/-! ### Runs that are assumed not to give some answers -/

open Classical in
variable (M) in
/-- The machine without the answers that are not allowed, and without some launches. -/
noncomputable def restrict (accept : ℕ → Role → σ → Prop)
    (allow : ℕ → (o : Op) → Choice → σ → Prop) : Machine Role Op Resp Choice ε σ where
  program := M.program
  launch t role s := if accept t role s then M.launch t role s else none
  exec t o choice s := if allow t o choice s then M.exec t o choice s else none
  abort := M.abort

variable {accept : ℕ → Role → σ → Prop} {allow : ℕ → (o : Op) → Choice → σ → Prop}

/-- A launch of the restricted machine is accepted, and a launch of the machine. -/
theorem launch_restrict {role : Role} {s' : σ}
    (h : (M.restrict accept allow).launch t role s = some s') :
    accept t role s ∧ M.launch t role s = some s' := by
  simp only [restrict] at h
  split at h
  · exact ⟨‹_›, h⟩
  · cases h

/-- A call of the restricted machine is allowed, and a call of the machine. -/
theorem exec_restrict {o : Op} {choice : Choice} {r : Resp o} {s' : σ}
    (h : (M.restrict accept allow).exec t o choice s = some (r, s')) :
    allow t o choice s ∧ M.exec t o choice s = some (r, s') := by
  simp only [restrict] at h
  split at h
  · exact ⟨‹_›, h⟩
  · cases h

/-- A run that launches only what is accepted, and makes only calls that are allowed, is a run of
the restricted machine. -/
theorem run_restrict {ok : Config Role Op Resp ε σ → Label Role Choice → Prop}
    {c₀ c : Config Role Op Resp ε σ}
    (hlaunches : ∀ c t role, M.Run ok c₀ c → ok c (.launch t role) → c.threads t = .idle →
      accept t role c.state)
    (hallow : ∀ c t choice role o next, M.Run ok c₀ c → ok c (.act t choice) →
      c.threads t = .running role (.call o next) → allow t o choice c.state)
    (h : M.Run ok c₀ c) : (M.restrict accept allow).Run ok c₀ c := by
  induction h with
  | refl => exact Relation.ReflTransGen.refl
  | @tail b c' hrun hstep ih =>
    obtain ⟨label, hlabel, hstep⟩ := hstep
    refine ih.tail ⟨label, hlabel, ?_⟩
    rcases step_cases hstep with ⟨t, role, s, rfl, hidle, hlaunch, rfl⟩ |
      ⟨t, choice, role, o, next, r, s, rfl, hrunning, hexec, rfl⟩ |
    ⟨t, role, rest, rfl, hrunning, rfl⟩
    · simp only [step, hidle, restrict, if_pos (hlaunches b t role hrun hlabel hidle), hlaunch,
        Option.map_some]
    · have hallowed := hallow b t choice role o next hrun hlabel hrunning
      simp only [step, hrunning, restrict, if_pos hallowed, hexec, Option.map_some]
    · simp only [step, hrunning, restrict]

end Machine

end AllocationKeys.Concurrent
