import AllocationKeys.Lib.Program
import Mathlib.Data.Nat.Notation
import Mathlib.Logic.Function.Basic
import Mathlib.Logic.Relation

/-!
# Programs that share a state

A `Machine` runs any number of programs over one shared state. Each thread plays a role; a call
of a program is one atomic step on the state, and between two calls of a thread the others may
step any number of times. A thread can be killed at any moment.

Safety is proved thread by thread. A `Discipline` says what every state satisfies (`inv`), what a
thread may rely on while others step (`rely`), and what must hold when a thread makes a call
(`pre`):

* `Triple`: a program, run from a state with some knowledge, makes its calls under their
  preconditions, keeps the invariant and what the others rely on, and ends as said; there is one
  rule for each way to build a program;
* `Obeys`: what the roles of a machine must satisfy;
* `good_of_run`, `GoodTo.pre`: in every run the invariant holds and every call is made under its
  precondition.
-/

namespace AllocationKeys.Concurrent

variable {Role Op : Type} {Resp : Op → Type} {Choice ε σ α β : Type}

/-! ### Machines -/

/-- How a shared state answers the calls of threads that play roles. `exec` is given the choice
the environment makes, and has no result where a call must wait or cannot be answered so. -/
structure Machine (Role Op : Type) (Resp : Op → Type) (Choice ε σ : Type) where
  program : Role → Program Op Resp ε Unit
  launch : ℕ → Role → σ → Option σ
  exec : ℕ → (o : Op) → Choice → σ → Option (Resp o × σ)
  abort : ℕ → σ → σ

inductive Thread (Role Op : Type) (Resp : Op → Type) (ε : Type) where
  | idle
  | running (role : Role) (rest : Program Op Resp ε Unit)
  | killed

structure Config (Role Op : Type) (Resp : Op → Type) (ε σ : Type) where
  state : σ
  threads : ℕ → Thread Role Op Resp ε

/-- A step: a thread takes a role, makes its next call, or is killed. -/
inductive Label (Role Choice : Type) where
  | launch (t : ℕ) (role : Role)
  | act (t : ℕ) (choice : Choice)
  | kill (t : ℕ)

variable (M : Machine Role Op Resp Choice ε σ)

namespace Machine

def step (c : Config Role Op Resp ε σ) : Label Role Choice → Option (Config Role Op Resp ε σ)
  | .launch t role =>
      match c.threads t with
      | .idle => (M.launch t role c.state).map fun s =>
          ⟨s, Function.update c.threads t (.running role (M.program role))⟩
      | _ => none
  | .act t choice =>
      match c.threads t with
      | .running role (.call o next) => (M.exec t o choice c.state).map fun result =>
          ⟨result.2, Function.update c.threads t (.running role (next result.1))⟩
      | _ => none
  | .kill t =>
      match c.threads t with
      | .running _ _ => some ⟨M.abort t c.state, Function.update c.threads t .killed⟩
      | _ => none

/-- All threads idle. -/
def start (s : σ) : Config Role Op Resp ε σ := ⟨s, fun _ => .idle⟩

/-- The runs whose steps are all among `ok`. -/
def Run (ok : Config Role Op Resp ε σ → Label Role Choice → Prop) :
    Config Role Op Resp ε σ → Config Role Op Resp ε σ → Prop :=
  Relation.ReflTransGen fun c c' => ∃ label, ok c label ∧ M.step c label = some c'

/-- A run given by its steps, which must be among `ok`. -/
def play (ok : Config Role Op Resp ε σ → Label Role Choice → Prop)
    [∀ c label, Decidable (ok c label)] :
    List (Label Role Choice) → Config Role Op Resp ε σ → Option (Config Role Op Resp ε σ)
  | [], c => some c
  | label :: labels, c => if ok c label then (M.step c label).bind (play ok labels) else none

variable {M}

/-- What a step can be. -/
theorem step_cases {c c' : Config Role Op Resp ε σ} {label : Label Role Choice}
    (h : M.step c label = some c') :
    (∃ t role s, label = .launch t role ∧ c.threads t = .idle ∧
        M.launch t role c.state = some s ∧
        c' = ⟨s, Function.update c.threads t (.running role (M.program role))⟩) ∨
      (∃ t choice role o next r s, label = .act t choice ∧
        c.threads t = .running role (.call o next) ∧ M.exec t o choice c.state = some (r, s) ∧
        c' = ⟨s, Function.update c.threads t (.running role (next r))⟩) ∨
      ∃ t role rest, label = .kill t ∧ c.threads t = .running role rest ∧
        c' = ⟨M.abort t c.state, Function.update c.threads t .killed⟩ := by
  cases label with
  | launch t role =>
    simp only [step] at h
    split at h
    · rename_i hidle
      obtain ⟨s, hs, rfl⟩ := Option.map_eq_some_iff.mp h
      exact Or.inl ⟨t, role, s, rfl, hidle, hs, rfl⟩
    · cases h
  | act t choice =>
    simp only [step] at h
    split at h
    · rename_i role o next hrunning
      obtain ⟨⟨r, s⟩, hexec, rfl⟩ := Option.map_eq_some_iff.mp h
      exact Or.inr (Or.inl ⟨t, choice, role, o, next, r, s, rfl, hrunning, hexec, rfl⟩)
    · cases h
  | kill t =>
    simp only [step] at h
    split at h
    · rename_i role rest hrunning
      cases h
      exact Or.inr (Or.inr ⟨t, role, rest, rfl, hrunning, rfl⟩)
    · cases h

theorem run_of_play {ok : Config Role Op Resp ε σ → Label Role Choice → Prop}
    [∀ c label, Decidable (ok c label)] {labels : List (Label Role Choice)} :
    ∀ {c c' : Config Role Op Resp ε σ}, M.play ok labels c = some c' → M.Run ok c c' := by
  induction labels with
  | nil =>
    intro c c' h
    cases h
    exact Relation.ReflTransGen.refl
  | cons label labels ih =>
    intro c c' h
    simp only [play] at h
    split at h
    · rename_i hok
      obtain ⟨next, hnext, hrest⟩ := Option.bind_eq_some_iff.mp h
      exact Relation.ReflTransGen.head ⟨label, hok, hnext⟩ (ih hrest)
    · cases h

/-- A run that a play shows to reach what is looked for. -/
theorem exists_of_play {ok : Config Role Op Resp ε σ → Label Role Choice → Prop}
    [∀ c label, Decidable (ok c label)] {labels : List (Label Role Choice)}
    {c : Config Role Op Resp ε σ} {p : Config Role Op Resp ε σ → Bool}
    (h : (M.play ok labels c).any p = true) : ∃ c', M.Run ok c c' ∧ p c' = true := by
  rcases hplay : M.play ok labels c with _ | c'
  · rw [hplay] at h
    cases h
  · rw [hplay] at h
    exact ⟨c', run_of_play hplay, h⟩

theorem Run.mono {ok ok' : Config Role Op Resp ε σ → Label Role Choice → Prop}
    (himp : ∀ c label, ok c label → ok' c label) {c c' : Config Role Op Resp ε σ}
    (h : M.Run ok c c') : M.Run ok' c c' := by
  induction h with
  | refl => exact Relation.ReflTransGen.refl
  | tail _ hstep ih =>
    obtain ⟨label, hok, hstep⟩ := hstep
    exact ih.tail ⟨label, himp _ label hok, hstep⟩

/-- A thread makes only the calls its role may make. -/
theorem calls_step {may : Role → Op → Prop} {c c' : Config Role Op Resp ε σ}
    {label : Label Role Choice}
    (hprogram : ∀ t role, label = .launch t role → (M.program role).Calls (may role))
    (hcalls : ∀ t role rest, c.threads t = .running role rest → rest.Calls (may role))
    (hstep : M.step c label = some c') :
    ∀ t role rest, c'.threads t = .running role rest → rest.Calls (may role) := by
  have hupdate : ∀ (s : σ) (t : ℕ) (new : Thread Role Op Resp ε),
      (∀ role rest, new = .running role rest → rest.Calls (may role)) →
      ∀ t' role rest, (⟨s, Function.update c.threads t new⟩ : Config Role Op Resp ε σ).threads t' =
        .running role rest → rest.Calls (may role) := by
    intro s t new hnew t' role rest hrunning
    by_cases ht : t' = t
    · subst ht
      exact hnew role rest ((Function.update_self t' new c.threads).symm.trans hrunning)
    · exact hcalls t' role rest ((Function.update_of_ne ht new c.threads).symm.trans hrunning)
  rcases step_cases hstep with ⟨t, role, s, rfl, -, -, rfl⟩ |
    ⟨t, choice, role, o, next, r, s, -, hrunning, -, rfl⟩ | ⟨t, role, rest, -, -, rfl⟩
  · refine hupdate s t _ fun role' rest heq => ?_
    cases heq
    exact hprogram t role rfl
  · refine hupdate s t _ fun role' rest heq => ?_
    cases heq
    exact (hcalls t role _ hrunning).2 r
  · exact hupdate _ t _ fun _ _ heq => by cases heq

theorem calls_of_run {may : Role → Op → Prop}
    {ok : Config Role Op Resp ε σ → Label Role Choice → Prop}
    (hprogram : ∀ c t role, ok c (.launch t role) → (M.program role).Calls (may role))
    {s : σ} {c : Config Role Op Resp ε σ} (hrun : M.Run ok (start s) c) :
    ∀ t role rest, c.threads t = .running role rest → rest.Calls (may role) := by
  induction hrun with
  | refl => intro t role rest hrunning; cases hrunning
  | tail _ hstep ih =>
    obtain ⟨label, hok, hstep⟩ := hstep
    refine calls_step (fun t role heq => ?_) ih hstep
    subst heq
    exact hprogram _ t role hok

end Machine

/-! ### Disciplines -/

/-- What the threads of a shared state owe each other. -/
structure Discipline (Op σ : Type) where
  inv : σ → Prop
  rely : ℕ → σ → σ → Prop
  pre : ℕ → Op → σ → Prop
  rely_refl : ∀ t s, rely t s s
  rely_trans : ∀ {t s₁ s₂ s₃}, rely t s₁ s₂ → rely t s₂ s₃ → rely t s₁ s₃

variable (L : Discipline Op σ)

/-- What a step of thread `t` must keep: the invariant, and what the other threads rely on. -/
def Discipline.Keeps (t : ℕ) (s s' : σ) : Prop :=
  L.inv s' ∧ ∀ t', t' ≠ t → L.rely t' s s'

/-- What is known is not lost while other threads step. -/
def Discipline.Stable (t : ℕ) (K : σ → Prop) : Prop :=
  ∀ s s', L.rely t s s' → L.inv s' → K s → K s'

/-- The rest of thread `t`'s program is safe when its last step has left `s`, and ends as `post`
says, seen from the state after its last call. -/
def Safe (t : ℕ) (post : Except ε α → σ → Prop) : Program Op Resp ε α → σ → Prop
  | .ret a, s => post (.ok a) s
  | .raise e, s => post (.error e) s
  | .call o next, s => ∀ s₁, L.rely t s s₁ → L.inv s₁ → L.pre t o s₁ ∧
      ∀ choice r s₂, M.exec t o choice s₁ = some (r, s₂) →
        L.Keeps t s₁ s₂ ∧ Safe t post (next r) s₂

/-- The program is safe from every state with the knowledge `K`. -/
def Triple (t : ℕ) (K : σ → Prop) (p : Program Op Resp ε α) (post : Except ε α → σ → Prop) :
    Prop :=
  ∀ s, L.inv s → K s → Safe M L t post p s

/-- The call `o`, made by `t` with the knowledge `K`, leaves the knowledge `Q` of its answer. -/
structure CallSpec (t : ℕ) (K : σ → Prop) (o : Op) (Q : Resp o → σ → Prop) : Prop where
  stable : L.Stable t K
  pre : ∀ s, L.inv s → K s → L.pre t o s
  exec : ∀ s choice r s', L.inv s → K s → M.exec t o choice s = some (r, s') →
    L.Keeps t s s' ∧ Q r s'

variable {M L} {t : ℕ} {K K' : σ → Prop} {post post' : Except ε α → σ → Prop}

theorem Safe.mono {p : Program Op Resp ε α} :
    ∀ {s : σ}, Safe M L t post p s → L.inv s → (∀ out s', L.inv s' → post out s' → post' out s') →
      Safe M L t post' p s := by
  induction p with
  | ret a => intro s h hinv himp; exact himp _ s hinv h
  | raise e => intro s h hinv himp; exact himp _ s hinv h
  | call o next ih =>
    intro s h _ himp s₁ hrely hinv
    obtain ⟨hpre, hexec⟩ := h s₁ hrely hinv
    refine ⟨hpre, fun choice r s₂ hr => ?_⟩
    obtain ⟨hkeeps, hnext⟩ := hexec choice r s₂ hr
    exact ⟨hkeeps, ih r hnext hkeeps.1 himp⟩

theorem Safe.bind {p : Program Op Resp ε α} {f : α → Program Op Resp ε β}
    {post : Except ε β → σ → Prop} : ∀ {s : σ}, L.inv s →
      Safe M L t (fun out s' => match out with
        | .ok a => Safe M L t post (f a) s'
        | .error e => post (.error e) s') p s →
      Safe M L t post (p >>= f) s := by
  induction p with
  | ret a => intro s _ h; exact h
  | raise e => intro s _ h; exact h
  | call o next ih =>
    intro s _ h s₁ hrely hinv
    obtain ⟨hpre, hexec⟩ := h s₁ hrely hinv
    refine ⟨hpre, fun choice r s₂ hr => ?_⟩
    obtain ⟨hkeeps, hnext⟩ := hexec choice r s₂ hr
    exact ⟨hkeeps, ih r hkeeps.1 hnext⟩

theorem Safe.tryCatch {p : Program Op Resp ε α} {handler : ε → Program Op Resp ε α} :
    ∀ {s : σ}, L.inv s →
      Safe M L t (fun out s' => match out with
        | .ok a => post (.ok a) s'
        | .error e => Safe M L t post (handler e) s') p s →
      Safe M L t post (tryCatch p handler) s := by
  induction p with
  | ret a => intro s _ h; exact h
  | raise e => intro s _ h; exact h
  | call o next ih =>
    intro s _ h s₁ hrely hinv
    obtain ⟨hpre, hexec⟩ := h s₁ hrely hinv
    refine ⟨hpre, fun choice r s₂ hr => ?_⟩
    obtain ⟨hkeeps, hnext⟩ := hexec choice r s₂ hr
    exact ⟨hkeeps, ih r hkeeps.1 hnext⟩

/-! ### The rules -/

theorem Triple.mono {p : Program Op Resp ε α} (h : Triple M L t K p post)
    (hK : ∀ s, L.inv s → K' s → K s) (hpost : ∀ out s, L.inv s → post out s → post' out s) :
    Triple M L t K' p post' :=
  fun s hinv hs => (h s hinv (hK s hinv hs)).mono hinv hpost

theorem Triple.weaken {p : Program Op Resp ε α} (h : Triple M L t K p post)
    (hK : ∀ s, L.inv s → K' s → K s) : Triple M L t K' p post :=
  h.mono hK fun _ _ _ hout => hout

theorem Triple.imp {p : Program Op Resp ε α} (h : Triple M L t K p post)
    (hpost : ∀ out s, L.inv s → post out s → post' out s) : Triple M L t K p post' :=
  h.mono (fun _ _ hs => hs) hpost

theorem triple_ret {a : α} (h : ∀ s, L.inv s → K s → post (.ok a) s) :
    Triple M L t K (.ret a) post :=
  h

theorem triple_raise {e : ε} (h : ∀ s, L.inv s → K s → post (.error e) s) :
    Triple M L t K (.raise e) post :=
  h

theorem triple_call {o : Op} {next : Resp o → Program Op Resp ε α} {Q : Resp o → σ → Prop}
    (hspec : CallSpec M L t K o Q) (hnext : ∀ r, Triple M L t (Q r) (next r) post) :
    Triple M L t K (.call o next) post := by
  intro s _ hs s₁ hrely hinv₁
  have hs₁ := hspec.stable s s₁ hrely hinv₁ hs
  refine ⟨hspec.pre s₁ hinv₁ hs₁, fun choice r s₂ hexec => ?_⟩
  obtain ⟨hkeeps, hr⟩ := hspec.exec s₁ choice r s₂ hinv₁ hs₁ hexec
  exact ⟨hkeeps, hnext r s₂ hkeeps.1 hr⟩

theorem triple_ask {o : Op} {post : Except ε (Resp o) → σ → Prop} {Q : Resp o → σ → Prop}
    (hspec : CallSpec M L t K o Q) (hpost : ∀ r s, L.inv s → Q r s → post (.ok r) s) :
    Triple M L t K (Program.ask o : Program Op Resp ε _) post :=
  triple_call hspec fun r => triple_ret (hpost r)

theorem triple_ofExcept {x : Except ε α} (h : ∀ s, L.inv s → K s → post x s) :
    Triple M L t K (Program.ofExcept x : Program Op Resp ε α) post := by
  cases x with
  | ok a => exact triple_ret h
  | error e => exact triple_raise h

theorem Triple.bind {p : Program Op Resp ε α} {f : α → Program Op Resp ε β}
    {m : Except ε α → σ → Prop} {post : Except ε β → σ → Prop} (hp : Triple M L t K p m)
    (hf : ∀ a, Triple M L t (m (.ok a)) (f a) post)
    (herror : ∀ e s, L.inv s → m (.error e) s → post (.error e) s) :
    Triple M L t K (p >>= f) post := by
  intro s hinv hs
  refine Safe.bind hinv ((hp s hinv hs).mono hinv fun out s' hinv' hout => ?_)
  cases out with
  | ok a => exact hf a s' hinv' hout
  | error e => exact herror e s' hinv' hout

theorem Triple.map {p : Program Op Resp ε α} {f : α → β} {m : Except ε α → σ → Prop}
    {post : Except ε β → σ → Prop} (hp : Triple M L t K p m)
    (hok : ∀ a s, L.inv s → m (.ok a) s → post (.ok (f a)) s)
    (herror : ∀ e s, L.inv s → m (.error e) s → post (.error e) s) :
    Triple M L t K (f <$> p) post := by
  rw [← bind_pure_comp]
  exact hp.bind (fun a => triple_ret (hok a)) herror

theorem Triple.tryCatch {p : Program Op Resp ε α} {handler : ε → Program Op Resp ε α}
    {m : Except ε α → σ → Prop} (hp : Triple M L t K p m)
    (hok : ∀ a s, L.inv s → m (.ok a) s → post (.ok a) s)
    (hhandler : ∀ e, Triple M L t (m (.error e)) (handler e) post) :
    Triple M L t K (MonadExcept.tryCatch p handler) post := by
  intro s hinv hs
  refine Safe.tryCatch hinv ((hp s hinv hs).mono hinv fun out s' hinv' hout => ?_)
  cases out with
  | ok a => exact hok a s' hinv' hout
  | error e => exact hhandler e s' hinv' hout

/-- What is known after an attempt depends on how the program ended. -/
theorem Triple.attempt_bind {p : Program Op Resp ε α} {f : Except ε α → Program Op Resp ε β}
    {m : Except ε α → σ → Prop} {post : Except ε β → σ → Prop} (hp : Triple M L t K p m)
    (hf : ∀ x, Triple M L t (m x) (f x) post) : Triple M L t K (p.attempt >>= f) post := by
  -- the attempt itself never raises
  refine Triple.bind (m := fun out s => ∃ x, out = .ok x ∧ m x s) ?_ (fun x => ?_) ?_
  · refine Triple.tryCatch (m := fun out s => match out with
      | .ok x => m x s
      | .error e => m (.error e) s) ?_ (fun x s _ hs => ⟨x, rfl, hs⟩) fun e => ?_
    · exact hp.bind (fun a => triple_ret fun s _ hs => hs) fun e s _ hs => hs
    · exact triple_ret fun s _ hs => ⟨.error e, rfl, hs⟩
  · refine (hf x).weaken fun s _ hs => ?_
    obtain ⟨x', heq, hmid⟩ := hs
    cases heq
    exact hmid
  · rintro e s - ⟨x, heq, -⟩
    cases heq

/-- What every call that the program may make leaves known stays known. -/
theorem triple_of_calls {may : Op → Prop} {p : Program Op Resp ε α} (hp : p.Calls may)
    (hspec : ∀ o, may o → CallSpec M L t K o fun _ => K) : Triple M L t K p fun _ => K := by
  induction p with
  | ret a => exact triple_ret fun _ _ hs => hs
  | raise e => exact triple_raise fun _ _ hs => hs
  | call o next ih => exact triple_call (hspec o hp.1) fun r => ih r (hp.2 r)

theorem Safe.yields {ok : ∀ o, Resp o → Prop}
    (hok : ∀ o choice s r s', M.exec t o choice s = some (r, s') → ok o r)
    {p : Program Op Resp ε α} :
    ∀ {s : σ}, Safe M L t post p s →
      Safe M L t (fun out s => post out s ∧ p.Yields ok out) p s := by
  induction p with
  | ret a => intro s h; exact ⟨h, rfl⟩
  | raise e => intro s h; exact ⟨h, rfl⟩
  | call o next ih =>
    intro s h s₁ hrely hinv
    obtain ⟨hpre, hexec⟩ := h s₁ hrely hinv
    refine ⟨hpre, fun choice r s₂ hr => ?_⟩
    obtain ⟨hkeeps, hnext⟩ := hexec choice r s₂ hr
    exact ⟨hkeeps, (ih r hnext).mono hkeeps.1 fun out s' _ hout =>
      ⟨hout.1, r, hok o choice s₁ r s₂ hr, hout.2⟩⟩

/-- A program ends only as the answers of the machine allow. -/
theorem Triple.yields {ok : ∀ o, Resp o → Prop}
    (hok : ∀ o choice s r s', M.exec t o choice s = some (r, s') → ok o r)
    {p : Program Op Resp ε α} (h : Triple M L t K p post) :
    Triple M L t K p fun out s => post out s ∧ p.Yields ok out :=
  fun s hinv hs => (h s hinv hs).yields hok

/-! ### Whole runs -/

variable (M L) in
/-- Every role starts safe and ends as `post` says, and neither a start nor a kill breaks
anything. -/
structure ObeysTo (post : Role → ℕ → Except ε Unit → σ → Prop) : Prop where
  launch : ∀ t role s s', L.inv s → M.launch t role s = some s' →
    L.Keeps t s s' ∧ Safe M L t (post role t) (M.program role) s'
  abort : ∀ t s, L.inv s → L.Keeps t s (M.abort t s)

variable (M L) in
/-- Every role starts safe, and neither a start nor a kill breaks anything. -/
abbrev Obeys : Prop := ObeysTo M L fun _ _ _ _ => True

variable (M L) in
/-- The invariant holds, and every running thread is safe. -/
structure GoodTo (post : Role → ℕ → Except ε Unit → σ → Prop) (c : Config Role Op Resp ε σ) :
    Prop where
  inv : L.inv c.state
  safe : ∀ t role rest, c.threads t = .running role rest →
    ∃ s, L.rely t s c.state ∧ Safe M L t (post role t) rest s

variable (M L) in
abbrev Good (c : Config Role Op Resp ε σ) : Prop := GoodTo M L (fun _ _ _ _ => True) c

variable {ends : Role → ℕ → Except ε Unit → σ → Prop}

theorem good_start {s : σ} (h : L.inv s) : GoodTo M L ends (Machine.start s) :=
  ⟨h, fun _ _ _ hrunning => by cases hrunning⟩

/-- The other threads stay safe when one of them steps. -/
theorem GoodTo.others {c : Config Role Op Resp ε σ} (h : GoodTo M L ends c) {s : σ}
    (hkeeps : L.Keeps t c.state s) {new : Thread Role Op Resp ε}
    (hnew : ∀ role rest, new = .running role rest → Safe M L t (ends role t) rest s) :
    GoodTo M L ends ⟨s, Function.update c.threads t new⟩ := by
  refine ⟨hkeeps.1, fun t' role rest hrunning => ?_⟩
  by_cases ht : t' = t
  · subst ht
    have hself : new = .running role rest := by
      rw [← hrunning]
      exact (Function.update_self t' new c.threads).symm
    exact ⟨s, L.rely_refl t' s, hnew role rest hself⟩
  · have hother : c.threads t' = .running role rest := by
      rw [← hrunning]
      exact (Function.update_of_ne ht new c.threads).symm
    obtain ⟨s₀, hrely, hsafe⟩ := h.safe t' role rest hother
    exact ⟨s₀, L.rely_trans hrely (hkeeps.2 t' ht), hsafe⟩

/-- A call is made under its precondition. -/
theorem GoodTo.pre {c : Config Role Op Resp ε σ} (h : GoodTo M L ends c) {role : Role} {o : Op}
    {next : Resp o → Program Op Resp ε Unit}
    (hrunning : c.threads t = .running role (.call o next)) :
    L.pre t o c.state := by
  obtain ⟨s, hrely, hsafe⟩ := h.safe t role _ hrunning
  exact (hsafe c.state hrely h.inv).1

theorem good_step (hobeys : ObeysTo M L ends) {c c' : Config Role Op Resp ε σ}
    {label : Label Role Choice} (h : GoodTo M L ends c) (hstep : M.step c label = some c') :
    GoodTo M L ends c' := by
  rcases Machine.step_cases hstep with ⟨t, role, s, -, -, hlaunch, rfl⟩ |
    ⟨t, choice, role, o, next, r, s, -, hrunning, hexec, rfl⟩ | ⟨t, role, rest, -, -, rfl⟩
  · obtain ⟨hkeeps, hsafe⟩ := hobeys.launch t role c.state s h.inv hlaunch
    refine h.others hkeeps fun role' rest heq => ?_
    cases heq
    exact hsafe
  · obtain ⟨s₀, hrely, hsafe⟩ := h.safe t role _ hrunning
    obtain ⟨hkeeps, hnext⟩ := (hsafe c.state hrely h.inv).2 choice r s hexec
    refine h.others hkeeps fun role' rest heq => ?_
    cases heq
    exact hnext
  · exact h.others (hobeys.abort t c.state h.inv) fun _ _ heq => by cases heq

/-- A step keeps what the threads that do not make it rely on. -/
theorem keeps_step (hobeys : ObeysTo M L ends) {c c' : Config Role Op Resp ε σ}
    {label : Label Role Choice} (h : GoodTo M L ends c) (hstep : M.step c label = some c') :
    ∃ t, L.Keeps t c.state c'.state := by
  rcases Machine.step_cases hstep with ⟨t, role, s, -, -, hlaunch, rfl⟩ |
    ⟨t, choice, role, o, next, r, s, -, hrunning, hexec, rfl⟩ | ⟨t, role, rest, -, -, rfl⟩
  · exact ⟨t, (hobeys.launch t role c.state s h.inv hlaunch).1⟩
  · obtain ⟨s₀, hrely, hsafe⟩ := h.safe t role _ hrunning
    exact ⟨t, ((hsafe c.state hrely h.inv).2 choice r s hexec).1⟩
  · exact ⟨t, hobeys.abort t c.state h.inv⟩

/-- **Every run is good.** -/
theorem good_of_run (hobeys : ObeysTo M L ends)
    {ok : Config Role Op Resp ε σ → Label Role Choice → Prop} {c c' : Config Role Op Resp ε σ}
    (h : GoodTo M L ends c) (hrun : M.Run ok c c') : GoodTo M L ends c' := by
  induction hrun with
  | refl => exact h
  | tail _ hstep ih =>
    obtain ⟨label, -, hstep⟩ := hstep
    exact good_step hobeys ih hstep

end AllocationKeys.Concurrent
