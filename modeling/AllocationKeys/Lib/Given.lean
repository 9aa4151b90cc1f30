import AllocationKeys.Lib.Perform
import AllocationKeys.Lib.Trace

/-!
# Calls that depend on the answers

`Calls` says what a program may call whatever it is answered. A program that calls with what it was
told needs to be told the truth first: `CallsGiven ok may` is about the answers that satisfy `ok`.

* one rule for each way to build a program, as for `Calls`;
* `CallsGiven.keeps`: a run whose answers satisfy `ok` keeps what the calls it may make keep;
* `Machine.callsGiven_of_run`: when the calls that the threads may make keep an invariant under
  which the answers satisfy `ok`, the invariant holds and every thread makes only calls it may make,
  along every run;
* `Machine.called_of_run`: so every call on the log was made in a role that may make it;
* `Machine.run_logged`: a run launches only what is on the log it ends with.
-/

namespace AllocationKeys

namespace Program

variable {Op : Type} {Resp : Op → Type} {ε α β : Type} {ok ok' : ∀ o, Resp o → Prop}
  {may may' : Op → Prop}

/-- Given answers that satisfy `ok`, every call of the program is one of `may`. -/
def CallsGiven (ok : ∀ o, Resp o → Prop) (may : Op → Prop) : Program Op Resp ε α → Prop
  | ret _ => True
  | raise _ => True
  | call o next => may o ∧ ∀ r, ok o r → (next r).CallsGiven ok may

theorem CallsGiven.mono {p : Program Op Resp ε α} (h : p.CallsGiven ok may)
    (himp : ∀ o, may o → may' o) : p.CallsGiven ok may' := by
  induction p with
  | ret a => trivial
  | raise e => trivial
  | call o next ih => exact ⟨himp o h.1, fun r hr => ih r (h.2 r hr)⟩

/-- Fewer answers to expect. -/
theorem CallsGiven.narrow {p : Program Op Resp ε α} (h : p.CallsGiven ok may)
    (himp : ∀ o r, ok' o r → ok o r) : p.CallsGiven ok' may := by
  induction p with
  | ret a => trivial
  | raise e => trivial
  | call o next ih => exact ⟨h.1, fun r hr => ih r (h.2 r (himp o r hr))⟩

theorem CallsGiven.and {p : Program Op Resp ε α} (h : p.CallsGiven ok may)
    (h' : p.CallsGiven ok may') : p.CallsGiven ok fun o => may o ∧ may' o := by
  induction p with
  | ret a => trivial
  | raise e => trivial
  | call o next ih => exact ⟨⟨h.1, h'.1⟩, fun r hr => ih r (h.2 r hr) (h'.2 r hr)⟩

/-- What is called whatever is answered. -/
theorem Calls.given {p : Program Op Resp ε α} (h : p.Calls may) : p.CallsGiven ok may := by
  induction p with
  | ret a => trivial
  | raise e => trivial
  | call o next ih => exact ⟨h.1, fun r _ => ih r (h.2 r)⟩

/-- Nothing is expected of the answers. -/
theorem CallsGiven.calls {p : Program Op Resp ε α} (h : p.CallsGiven (fun _ _ => True) may) :
    p.Calls may := by
  induction p with
  | ret a => trivial
  | raise e => trivial
  | call o next ih => exact ⟨h.1, fun r => ih r (h.2 r trivial)⟩

/-- The second part of a sequence starts from a value that the first part can return. -/
theorem CallsGiven.bind {p : Program Op Resp ε α} {f : α → Program Op Resp ε β}
    (hp : p.CallsGiven ok may) (hf : ∀ a, p.Yields ok (.ok a) → (f a).CallsGiven ok may) :
    (p >>= f).CallsGiven ok may := by
  induction p with
  | ret a => exact hf a rfl
  | raise e => trivial
  | call o next ih =>
    exact ⟨hp.1, fun r hr => ih r (hp.2 r hr) fun a ha => hf a ⟨r, hr, ha⟩⟩

theorem CallsGiven.map {p : Program Op Resp ε α} (hp : p.CallsGiven ok may) (f : α → β) :
    (f <$> p).CallsGiven ok may := by
  rw [← bind_pure_comp]
  exact hp.bind fun _ _ => trivial

theorem CallsGiven.tryCatch {p : Program Op Resp ε α} {handler : ε → Program Op Resp ε α}
    (hp : p.CallsGiven ok may) (hhandler : ∀ e, (handler e).CallsGiven ok may) :
    (MonadExcept.tryCatch p handler : Program Op Resp ε α).CallsGiven ok may := by
  induction p with
  | ret a => trivial
  | raise e => exact hhandler e
  | call o next ih => exact ⟨hp.1, fun r hr => ih r (hp.2 r hr)⟩

theorem CallsGiven.attempt {p : Program Op Resp ε α} (hp : p.CallsGiven ok may) :
    p.attempt.CallsGiven ok may :=
  CallsGiven.tryCatch (hp.bind fun _ _ => trivial) fun _ => trivial

/-- What the calls keep, a run keeps whose answers are as expected. -/
theorem CallsGiven.keeps {Choice σ : Type} {exec : (o : Op) → Choice → σ → Option (Resp o × σ)}
    {I : σ → Prop} {p : Program Op Resp ε α} (hp : p.CallsGiven ok may) {s s' : σ}
    {events : List (Op × Choice)} {out : Except ε α} (hrun : p.Performs exec s events out s')
    (hok : ∀ event ∈ events, ∀ s₁ r s₂, exec event.1 event.2 s₁ = some (r, s₂) → ok event.1 r)
    (hkeep : ∀ o, may o → ∀ choice s₁ r s₂, exec o choice s₁ = some (r, s₂) → I s₁ → I s₂)
    (hs : I s) : I s' := by
  induction p generalizing s events with
  | ret a =>
    obtain ⟨-, -, rfl⟩ := hrun
    exact hs
  | raise e =>
    obtain ⟨-, -, rfl⟩ := hrun
    exact hs
  | call o next ih =>
    obtain ⟨choice, r, s₁, rest, hexec, rfl, hrest⟩ := hrun
    have hr : ok o r := hok (o, choice) List.mem_cons_self s r s₁ hexec
    exact ih r (hp.2 r hr) hrest (fun event hevent => hok event (List.mem_cons_of_mem _ hevent))
      (hkeep o hp.1 choice s r s₁ hexec hs)

end Program

/-! ### Runs -/

namespace Concurrent.Machine

variable {Role Op : Type} {Resp : Op → Type} {Choice ε σ : Type}
  {M : Machine Role Op Resp Choice ε σ} {s : σ}

/-- What the calls of the threads rest on. -/
structure Grounded (M : Machine Role Op Resp Choice ε σ) (may : Role → Op → Prop)
    (ok : ∀ o, Resp o → Prop) (inv : σ → Prop) : Prop where
  launch : ∀ t role s s', inv s → M.launch t role s = some s' → inv s'
  exec : ∀ t role o choice r s s', inv s → may role o → M.exec t o choice s = some (r, s') →
    inv s' ∧ ok o r
  abort : ∀ t s, inv s → inv (M.abort t s)

variable {may : Role → Op → Prop} {ok : ∀ o, Resp o → Prop} {inv : σ → Prop}

/-- Every thread makes only calls it may make, given true answers. -/
def Grounds (may : Role → Op → Prop) (ok : ∀ o, Resp o → Prop) (inv : σ → Prop)
    (c : Config Role Op Resp ε σ) : Prop :=
  inv c.state ∧ ∀ t role rest, c.threads t = .running role rest → rest.CallsGiven ok (may role)

theorem callsGiven_step (hgrounded : Grounded M may ok inv) {c c' : Config Role Op Resp ε σ}
    {label : Label Role Choice}
    (hprogram : ∀ t role, label = .launch t role → (M.program role).CallsGiven ok (may role))
    (h : Grounds may ok inv c) (hstep : M.step c label = some c') : Grounds may ok inv c' := by
  obtain ⟨hinv, hcalls⟩ := h
  have hupdate : ∀ (s : σ) (t : ℕ) (new : Thread Role Op Resp ε), inv s →
      (∀ role rest, new = .running role rest → rest.CallsGiven ok (may role)) →
      Grounds may ok inv ⟨s, Function.update c.threads t new⟩ := by
    intro s t new hs hnew
    refine ⟨hs, fun t' role rest hrunning => ?_⟩
    by_cases ht : t' = t
    · subst ht
      exact hnew role rest ((Function.update_self t' new c.threads).symm.trans hrunning)
    · exact hcalls t' role rest ((Function.update_of_ne ht new c.threads).symm.trans hrunning)
  rcases step_cases hstep with ⟨t, role, s, rfl, -, hlaunch, rfl⟩ |
    ⟨t, choice, role, o, next, r, s, -, hrunning, hexec, rfl⟩ | ⟨t, role, rest, -, -, rfl⟩
  · refine hupdate s t _ (hgrounded.launch t role _ s hinv hlaunch) fun role' rest heq => ?_
    cases heq
    exact hprogram t role rfl
  · obtain ⟨hmay, hnext⟩ := hcalls t role _ hrunning
    obtain ⟨hs, hr⟩ := hgrounded.exec t role o choice r _ s hinv hmay hexec
    refine hupdate s t _ hs fun role' rest heq => ?_
    cases heq
    exact hnext r hr
  · exact hupdate _ t _ (hgrounded.abort t _ hinv) fun _ _ heq => by cases heq

theorem callsGiven_of_run (hgrounded : Grounded M may ok inv)
    {allowed : Config Role Op Resp ε σ → Label Role Choice → Prop}
    (hprogram : ∀ c t role, allowed c (.launch t role) →
      (M.program role).CallsGiven ok (may role))
    (hstart : inv s) {c : Config Role Op Resp ε σ} (hrun : M.Run allowed (start s) c) :
    Grounds may ok inv c := by
  induction hrun with
  | refl => exact ⟨hstart, fun _ _ _ hrunning => by cases hrunning⟩
  | tail _ hstep ih =>
    obtain ⟨label, hallowed, hstep⟩ := hstep
    refine callsGiven_step hgrounded (fun t role heq => ?_) ih hstep
    subst heq
    exact hprogram _ t role hallowed

/-- What is on the log was called in a role that is on it too, and that may call it. -/
theorem called_of_run {inv : Logged Role Op Resp σ → Prop}
    (hgrounded : Grounded M.traced may ok inv)
    {allowed : Config Role Op Resp ε (Logged Role Op Resp σ) → Label Role Choice → Prop}
    (hprogram : ∀ c t role, allowed c (.launch t role) →
      (M.program role).CallsGiven ok (may role))
    (hstart : inv (s, [])) {c : Config Role Op Resp ε (Logged Role Op Resp σ)}
    (hrun : M.traced.Run allowed (start (s, [])) c) {t : ℕ} {o : Op} {r : Resp o}
    (hcalled : .called t o r ∈ c.state.2) : ∃ role, .launched t role ∈ c.state.2 ∧ may role o := by
  induction hrun with
  | refl => cases hcalled
  | @tail b c' hrun hstep ih =>
    obtain ⟨label, -, hstep⟩ := hstep
    have hkept : .called t o r ∈ b.state.2 →
        ∃ role, .launched t role ∈ c'.state.2 ∧ may role o := by
      intro hold
      obtain ⟨role, hlaunched, hmay⟩ := ih hold
      exact ⟨role, mem_of_step hstep hlaunched, hmay⟩
    rcases step_cases hstep with ⟨t₁, role, s', -, -, hlaunch, rfl⟩ |
      ⟨t₁, choice, role, o₁, next, r₁, s', -, hrunning, hexec, rfl⟩ | ⟨t₁, role, rest, -, -, rfl⟩
    · obtain ⟨s₁, -, rfl⟩ := Option.map_eq_some_iff.mp hlaunch
      exact hkept ((List.mem_cons.mp hcalled).resolve_left (by simp))
    · have hlog := (exec_traced hexec).2
      rw [hlog] at hcalled
      rcases List.mem_cons.mp hcalled with heq | hold
      · cases heq
        have hgrounds := callsGiven_of_run hgrounded hprogram hstart hrun
        exact ⟨role, mem_of_step hstep (launched_of_run hrun hrunning),
          (hgrounds.2 _ _ _ hrunning).1⟩
      · exact hkept hold
    · exact hkept hcalled

/-- What is launched is on the log that the run ends with. -/
theorem run_logged {allowed : Config Role Op Resp ε (Logged Role Op Resp σ) → Label Role Choice →
    Prop} {c₀ c : Config Role Op Resp ε (Logged Role Op Resp σ)} {log : List (Entry Role Op Resp)}
    (hrun : M.traced.Run allowed c₀ c) (hlog : c.state.2 ⊆ log) :
    M.traced.Run (fun d label => allowed d label ∧
      ∀ t role, label = .launch t role → .launched t role ∈ log) c₀ c := by
  induction hrun with
  | refl => exact Relation.ReflTransGen.refl
  | tail _ hstep ih =>
    obtain ⟨label, hallowed, hstep⟩ := hstep
    refine (ih fun e he => hlog (mem_of_step hstep he)).tail ⟨label, ⟨hallowed, ?_⟩, hstep⟩
    intro t role heq
    subst heq
    rcases step_cases hstep with ⟨t', role', s', hlabel, -, hlaunch, rfl⟩ |
      ⟨t', choice, role', o, next, r, s', hlabel, -⟩ | ⟨t', role', rest, hlabel, -⟩
    · cases hlabel
      obtain ⟨s₁, -, rfl⟩ := Option.map_eq_some_iff.mp hlaunch
      exact hlog (List.mem_cons_self ..)
    · cases hlabel
    · cases hlabel

end Concurrent.Machine

end AllocationKeys
