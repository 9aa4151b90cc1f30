import AllocationKeys.Lib.Concurrent

/-!
# A call that is made once

One call of a machine is special: only the programs of some roles make it, each at most once, and at
a time only one thread has such a role.

* `CallsOnce may special p`: every call of the program is one of `may`, and after a `special` one no
  other of these follows; one rule for each way to build a program that needs one;
* `Machine.Single`: what a machine must satisfy, with the owner of the special call and whether it
  was `done`;
* `Machine.single_of_run`: along every run, the special call is made only while it is not done.
-/

namespace AllocationKeys

namespace Program

variable {Op : Type} {Resp : Op → Type} {ε α β : Type} {may special : Op → Prop}

/-- Every call is one of `may`, and at most one of them is `special`. -/
def CallsOnce (may special : Op → Prop) : Program Op Resp ε α → Prop
  | ret _ => True
  | raise _ => True
  | call o next => may o ∧ (special o → ∀ r, (next r).Calls fun o => may o ∧ ¬ special o) ∧
      (¬ special o → ∀ r, (next r).CallsOnce may special)

/-- A program without the special call makes it at most once. -/
theorem Calls.callsOnce {p : Program Op Resp ε α} (h : p.Calls fun o => may o ∧ ¬ special o) :
    p.CallsOnce may special := by
  induction p with
  | ret a => trivial
  | raise e => trivial
  | call o next ih => exact ⟨h.1.1, fun _ => h.2, fun _ r => ih r (h.2 r)⟩

/-- The other calls are of the allowed kind. -/
theorem CallsOnce.calls {p : Program Op Resp ε α} (h : p.CallsOnce may special) :
    p.Calls may := by
  induction p with
  | ret a => trivial
  | raise e => trivial
  | call o next ih =>
    refine ⟨h.1, fun r => ?_⟩
    by_cases hspecial : special o
    · exact (h.2.1 hspecial r).mono fun _ => And.left
    · exact ih r (h.2.2 hspecial r)

/-- The second part of a sequence may make the call that the first part does not make. -/
theorem Calls.bindOnce {p : Program Op Resp ε α} {f : α → Program Op Resp ε β}
    (hp : p.Calls fun o => may o ∧ ¬ special o) (hf : ∀ a, (f a).CallsOnce may special) :
    (p >>= f).CallsOnce may special := by
  induction p with
  | ret a => exact hf a
  | raise e => trivial
  | call o next ih =>
    exact ⟨hp.1.1, fun honce => absurd honce hp.1.2, fun _ r => ih r (hp.2 r)⟩

/-- A first part that makes the special call at most once may be followed by one without it. -/
theorem CallsOnce.bind {p : Program Op Resp ε α} {f : α → Program Op Resp ε β}
    (hp : p.CallsOnce may special) (hf : ∀ a, (f a).Calls fun o => may o ∧ ¬ special o) :
    (p >>= f).CallsOnce may special := by
  induction p with
  | ret a => exact (hf a).callsOnce
  | raise e => trivial
  | call o next ih =>
    exact ⟨hp.1, fun honce r => (hp.2.1 honce r).bind hf, fun hnot r => ih r (hp.2.2 hnot r)⟩

theorem CallsOnce.attempt {p : Program Op Resp ε α} (hp : p.CallsOnce may special) :
    p.attempt.CallsOnce may special := by
  induction p with
  | ret a => trivial
  | raise e => trivial
  | call o next ih =>
    exact ⟨hp.1, fun honce r => (hp.2.1 honce r).attempt, fun hnot r => ih r (hp.2.2 hnot r)⟩

end Program

/-! ### Runs -/

namespace Concurrent.Machine

variable {Role Op : Type} {Resp : Op → Type} {Choice ε σ : Type}
  {M : Machine Role Op Resp Choice ε σ} {creates : Role → Bool} {owner : σ → Option ℕ}
  {done : σ → Bool} {may : Role → Op → Prop} {special : Op → Prop}

/-- The threads whose roles `creates` make the special call, one thread at a time. -/
structure Single (M : Machine Role Op Resp Choice ε σ) (creates : Role → Bool)
    (owner : σ → Option ℕ) (done : σ → Bool) (may : Role → Op → Prop) (special : Op → Prop) :
    Prop where
  program : ∀ role, creates role = true → (M.program role).CallsOnce (may role) special
  others : ∀ role, creates role = false →
    (M.program role).Calls fun o => may role o ∧ ¬ special o
  launch : ∀ t role s s', M.launch t role s = some s' → done s' = done s ∧
    (creates role = true → owner s = none ∧ done s = false ∧ owner s' = some t) ∧
    (creates role = false → owner s' = owner s)
  exec : ∀ t o choice s r s', M.exec t o choice s = some (r, s') →
    owner s' = owner s ∧ (done s' = done s ∨ special o)
  abort : ∀ t s, owner (M.abort t s) = owner s ∧ done (M.abort t s) = done s

/-- The rest of the program of a thread. -/
structure Undone (creates : Role → Bool) (may : Role → Op → Prop) (special : Op → Prop)
    (owner : Option ℕ) (done : Bool) (t : ℕ) (role : Role) (rest : Program Op Resp ε Unit) :
    Prop where
  others : creates role = false → rest.Calls fun o => may role o ∧ ¬ special o
  owner : creates role = true → owner = some t
  before : done = false → rest.CallsOnce (may role) special
  after : done = true → rest.Calls fun o => may role o ∧ ¬ special o

/-- Every thread has the special call at most before it is done. -/
def OnceEach (creates : Role → Bool) (owner : σ → Option ℕ) (done : σ → Bool)
    (may : Role → Op → Prop) (special : Op → Prop) (c : Config Role Op Resp ε σ) : Prop :=
  ∀ t role rest, c.threads t = .running role rest →
    Undone creates may special (owner c.state) (done c.state) t role rest

/-- A step of either kind of thread leaves at most one special call for each object. -/
theorem single_step (hsingle : Single M creates owner done may special)
    {c c' : Config Role Op Resp ε σ} {label : Label Role Choice}
    (h : OnceEach creates owner done may special c) (hstep : M.step c label = some c') :
    OnceEach creates owner done may special c' := by
  rcases step_cases hstep with ⟨t, role, s, -, -, hlaunch, rfl⟩ |
    ⟨t, choice, role, o, next, r, s, -, hrunning, hexec, rfl⟩ | ⟨t, role, rest, -, -, rfl⟩
  · -- a launch: the thread has its whole program before it
    obtain ⟨hdone, hcreates, hquiet⟩ := hsingle.launch t role _ s hlaunch
    intro t' role' rest' hthread
    by_cases ht : t' = t
    · subst ht
      have heq := (Function.update_self t' _ c.threads).symm.trans hthread
      cases heq
      by_cases hrole : creates role = true
      · obtain ⟨-, hfresh, howner⟩ := hcreates hrole
        refine ⟨fun hnot => absurd (hrole.symm.trans hnot) Bool.noConfusion, fun _ => howner,
          fun _ => hsingle.program role hrole, fun hd => ?_⟩
        rw [hdone, hfresh] at hd
        cases hd
      · have hothers := hsingle.others role (by simpa using hrole)
        exact ⟨fun _ => hothers, fun hyes => absurd hyes hrole, fun _ => hothers.callsOnce,
          fun _ => hothers⟩
    · have hthread := (Function.update_of_ne ht _ c.threads).symm.trans hthread
      obtain ⟨hothers, howner, hbefore, hafter⟩ := h t' role' rest' hthread
      rw [← hdone] at hbefore hafter
      refine ⟨hothers, fun hrole' => ?_, hbefore, hafter⟩
      have howned := howner hrole'
      by_cases hrole : creates role = true
      · rw [(hcreates hrole).1] at howned
        cases howned
      · exact (hquiet (by simpa using hrole)).trans howned
  · -- a call: the thread has the rest of its program before it
    obtain ⟨howner, hdone⟩ := hsingle.exec t o choice _ r s hexec
    obtain ⟨hothers, howned, hbefore, hafter⟩ := h t role _ hrunning
    intro t' role' rest' hthread
    by_cases ht : t' = t
    · subst ht
      have heq := (Function.update_self t' _ c.threads).symm.trans hthread
      cases heq
      refine ⟨fun hrole => (hothers hrole).2 r, fun hrole => howner.trans (howned hrole), ?_, ?_⟩
      · intro hfresh
        by_cases hold : done c.state = false
        · by_cases honce : special o
          · exact ((hbefore hold).2.1 honce r).callsOnce
          · exact (hbefore hold).2.2 honce r
        · exact ((hafter (by simpa using hold)).2 r).callsOnce
      · intro hdone'
        by_cases hold : done c.state = false
        · have honce : special o := hdone.resolve_left fun heq => by
            rw [heq, hold] at hdone'
            cases hdone'
          exact (hbefore hold).2.1 honce r
        · exact (hafter (by simpa using hold)).2 r
    · -- the other threads: the call leaves the record, or it is the one made once
      have hthread := (Function.update_of_ne ht _ c.threads).symm.trans hthread
      obtain ⟨hothers', howned', hbefore', hafter'⟩ := h t' role' rest' hthread
      have hsame : done s = done c.state →
          Undone creates may special (owner s) (done s) t' role' rest' := by
        intro heq
        rw [heq, howner]
        exact ⟨hothers', howned', hbefore', hafter'⟩
      rcases hdone with heq | honce
      · exact hsame heq
      · -- the thread that makes the call is the owner, so this one does not make it
        have hcreates : creates role = true := by
          by_contra hrole
          exact (hothers (by simpa using hrole)).1.2 honce
        have hrole' : creates role' = false := by
          by_contra hrole'
          have heq := (howned' (by simpa using hrole')).symm.trans (howned hcreates)
          exact ht (Option.some.inj heq)
        have hcalls := hothers' hrole'
        exact ⟨fun _ => hcalls, fun hyes => absurd (hyes.symm.trans hrole') Bool.noConfusion,
          fun _ => hcalls.callsOnce, fun _ => hcalls⟩
  · -- an abort: the thread has no program any more
    intro t' role' rest' hthread
    by_cases ht : t' = t
    · subst ht
      have heq := (Function.update_self t' _ c.threads).symm.trans hthread
      cases heq
    · have hthread := (Function.update_of_ne ht _ c.threads).symm.trans hthread
      rw [(hsingle.abort t _).1, (hsingle.abort t _).2]
      exact h t' role' rest' hthread

/-- In every run each object has at most one special call, made by the thread that created it. -/
theorem single_of_run (hsingle : Single M creates owner done may special)
    {ok : Config Role Op Resp ε σ → Label Role Choice → Prop} {s : σ} {c : Config Role Op Resp ε σ}
    (hrun : M.Run ok (start s) c) : OnceEach creates owner done may special c := by
  induction hrun with
  | refl => exact fun _ _ _ hthread => by cases hthread
  | tail _ hstep ih =>
    obtain ⟨label, -, hstep⟩ := hstep
    exact single_step hsingle ih hstep

/-- The special call is made only while it is not done. -/
theorem OnceEach.call {c : Config Role Op Resp ε σ} (h : OnceEach creates owner done may special c)
    {t : ℕ} {role : Role} {o : Op} {next : Resp o → Program Op Resp ε Unit}
    (hrunning : c.threads t = .running role (.call o next)) :
    may role o ∧ (special o → done c.state = false) := by
  obtain ⟨-, -, hbefore, hafter⟩ := h t role _ hrunning
  by_cases hdone : done c.state = false
  · exact ⟨(hbefore hdone).1, fun _ => hdone⟩
  · have hcalls := hafter (by simpa using hdone)
    exact ⟨hcalls.1.1, fun honce => absurd honce hcalls.1.2⟩

end Concurrent.Machine

end AllocationKeys
