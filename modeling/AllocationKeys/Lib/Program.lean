import Mathlib.Tactic.Common

/-!
# Programs that ask their environment

A `Program` is a tree of calls: each asks the environment a question of type `Op` and goes on
with the answer, until it returns a value or raises an error. Random draws, a numerical solver
or a database are such environments.

* `Yields ok p out`: the program may end with `out`, given answers that `ok` admits;
* `yields_bind`: how runs compose;
* `Ensures ok p post`: whatever is answered, a value that is returned satisfies `post`, with one
  rule for each way to build a program, and for loops over a list; `Raises` is the same for
  errors;
* `Calls may p`: every call the program can make is one of `may`;
* `eval`: a program run on a function for the answers;
* `play`: a program run on given answers; `yields_of_play` makes it a proof about `Yields`.
-/

namespace AllocationKeys

/-- A computation with errors of type `ε` that calls operations `o : Op` answered in
`Resp o`. -/
inductive Program (Op : Type) (Resp : Op → Type) (ε α : Type) where
  | ret (a : α)
  | raise (e : ε)
  | call (o : Op) (next : Resp o → Program Op Resp ε α)

namespace Program

variable {Op : Type} {Resp : Op → Type} {ε α β γ σ : Type}

/-! ### Building programs -/

protected def bind : Program Op Resp ε α → (α → Program Op Resp ε β) → Program Op Resp ε β
  | ret a, f => f a
  | raise e, _ => raise e
  | call o next, f => call o fun r => (next r).bind f

instance : Monad (Program Op Resp ε) where
  pure := ret
  bind := Program.bind

/-- Run `handler` on the error a program raises. -/
protected def tryCatch : Program Op Resp ε α → (ε → Program Op Resp ε α) → Program Op Resp ε α
  | ret a, _ => ret a
  | raise e, handler => handler e
  | call o next, handler => call o fun r => (next r).tryCatch handler

instance : MonadExcept ε (Program Op Resp ε) where
  throw := raise
  tryCatch := Program.tryCatch

/-- Run a program and return how it ended. -/
def attempt (p : Program Op Resp ε α) : Program Op Resp ε (Except ε α) :=
  tryCatch (p >>= fun a => ret (.ok a)) fun e => ret (.error e)

/-- One call, returning its answer. -/
def ask (o : Op) : Program Op Resp ε (Resp o) := call o ret

/-- A pure computation that may fail. -/
def ofExcept : Except ε α → Program Op Resp ε α
  | .ok a => ret a
  | .error e => raise e

@[simp] theorem pure_eq (a : α) : (pure a : Program Op Resp ε α) = ret a := rfl

@[simp] theorem throw_eq (e : ε) : (throw e : Program Op Resp ε α) = raise e := rfl

@[simp] theorem ret_bind (a : α) (f : α → Program Op Resp ε β) : ret a >>= f = f a := rfl

@[simp] theorem raise_bind (e : ε) (f : α → Program Op Resp ε β) :
    (raise e : Program Op Resp ε α) >>= f = raise e := rfl

@[simp] theorem call_bind (o : Op) (next : Resp o → Program Op Resp ε α)
    (f : α → Program Op Resp ε β) : call o next >>= f = call o fun r => next r >>= f := rfl

@[simp] theorem ask_bind (o : Op) (f : Resp o → Program Op Resp ε β) :
    (ask o : Program Op Resp ε _) >>= f = call o f := rfl

/-- Binding the return changes nothing. -/
theorem bind_ret (p : Program Op Resp ε α) : p >>= ret = p := by
  induction p with
  | ret a => rfl
  | raise e => rfl
  | call o next ih => exact congrArg (call o) (funext ih)

/-- Two binds in a row may be nested either way. -/
theorem bind_assoc (p : Program Op Resp ε α) (f : α → Program Op Resp ε β)
    (g : β → Program Op Resp ε γ) : (p >>= f) >>= g = p >>= fun a => f a >>= g := by
  induction p with
  | ret a => rfl
  | raise e => rfl
  | call o next ih => exact congrArg (call o) (funext ih)

instance : LawfulMonad (Program Op Resp ε) :=
  LawfulMonad.mk' (Program Op Resp ε) bind_ret (fun _ _ => rfl) bind_assoc

/-! ### What a program may do -/

/-- The program may end with `out` when every answer satisfies `ok`. -/
def Yields (ok : ∀ o, Resp o → Prop) : Program Op Resp ε α → Except ε α → Prop
  | ret a, out => out = .ok a
  | raise e, out => out = .error e
  | call o next, out => ∃ r, ok o r ∧ (next r).Yields ok out

variable {ok : ∀ o, Resp o → Prop}

@[simp] theorem yields_ret {a : α} {out : Except ε α} :
    (ret a : Program Op Resp ε α).Yields ok out ↔ out = .ok a := Iff.rfl

@[simp] theorem yields_raise {e : ε} {out : Except ε α} :
    (raise e : Program Op Resp ε α).Yields ok out ↔ out = .error e := Iff.rfl

@[simp] theorem yields_call {o : Op} {next : Resp o → Program Op Resp ε α} {out : Except ε α} :
    (call o next).Yields ok out ↔ ∃ r, ok o r ∧ (next r).Yields ok out := Iff.rfl

@[simp] theorem yields_ask {o : Op} {out : Except ε (Resp o)} :
    (ask o : Program Op Resp ε _).Yields ok out ↔ ∃ r, ok o r ∧ out = .ok r := Iff.rfl

@[simp] theorem yields_ofExcept {x out : Except ε α} :
    (ofExcept x : Program Op Resp ε α).Yields ok out ↔ out = x := by
  cases x <;> exact Iff.rfl

/-- A sequence ends as its second part does, or with the error of its first. -/
theorem yields_bind {p : Program Op Resp ε α} {f : α → Program Op Resp ε β}
    {out : Except ε β} :
    (p >>= f).Yields ok out ↔ (∃ a, p.Yields ok (.ok a) ∧ (f a).Yields ok out) ∨
      ∃ e, p.Yields ok (.error e) ∧ out = .error e := by
  induction p with
  | ret a => simp
  | raise e => simp
  | call o next ih =>
    simp only [call_bind, yields_call, ih]
    constructor
    · rintro ⟨r, hr, ⟨a, ha, hf⟩ | ⟨e, he, hout⟩⟩
      · exact Or.inl ⟨a, ⟨r, hr, ha⟩, hf⟩
      · exact Or.inr ⟨e, ⟨r, hr, he⟩, hout⟩
    · rintro (⟨a, ⟨r, hr, ha⟩, hf⟩ | ⟨e, ⟨r, hr, he⟩, hout⟩)
      · exact ⟨r, hr, Or.inl ⟨a, ha, hf⟩⟩
      · exact ⟨r, hr, Or.inr ⟨e, he, hout⟩⟩

/-- A sequence returns when its first part returns and its second part does, after that. -/
theorem yields_bind_ok {p : Program Op Resp ε α} {f : α → Program Op Resp ε β} {b : β} :
    (p >>= f).Yields ok (.ok b) ↔ ∃ a, p.Yields ok (.ok a) ∧ (f a).Yields ok (.ok b) := by
  rw [yields_bind]
  constructor
  · rintro (h | ⟨e, -, he⟩)
    · exact h
    · cases he
  · exact Or.inl

/-- A mapped program returns the mapped results. -/
@[simp] theorem yields_map {p : Program Op Resp ε α} {f : α → β} {b : β} :
    (f <$> p).Yields ok (.ok b) ↔ ∃ a, p.Yields ok (.ok a) ∧ f a = b := by
  rw [← bind_pure_comp, yields_bind_ok]
  simp only [pure_eq, yields_ret, Except.ok.injEq, eq_comm]

/-- An attempt returns how the program ends. -/
theorem yields_attempt {p : Program Op Resp ε α} {out : Except ε (Except ε α)} :
    p.attempt.Yields ok out ↔ ∃ x, out = .ok x ∧ p.Yields ok x := by
  induction p with
  | ret a =>
    show out = .ok (.ok a) ↔ ∃ x, out = .ok x ∧ x = .ok a
    simp
  | raise e =>
    show out = .ok (.error e) ↔ ∃ x, out = .ok x ∧ x = .error e
    simp
  | call o next ih =>
    show (∃ r, ok o r ∧ (next r).attempt.Yields ok out) ↔ _
    simp only [ih, yields_call]
    constructor
    · rintro ⟨r, hr, x, hx, hyields⟩
      exact ⟨x, hx, r, hr, hyields⟩
    · rintro ⟨x, hx, r, hr, hyields⟩
      exact ⟨r, hr, x, hx, hyields⟩

/-! ### Partial correctness -/

/-- Whatever is answered, a value the program returns satisfies `post`. -/
def Ensures (ok : ∀ o, Resp o → Prop) (p : Program Op Resp ε α) (post : α → Prop) : Prop :=
  ∀ a, p.Yields ok (.ok a) → post a

/-- A weaker postcondition is ensured too. -/
theorem Ensures.mono {p : Program Op Resp ε α} {post post' : α → Prop} (h : p.Ensures ok post)
    (himp : ∀ a, post a → post' a) : p.Ensures ok post' :=
  fun a ha => himp a (h a ha)

theorem ensures_true (p : Program Op Resp ε α) : p.Ensures ok fun _ => True :=
  fun _ _ => trivial

theorem ensures_ret {a : α} {post : α → Prop} (h : post a) :
    (ret a : Program Op Resp ε α).Ensures ok post := by
  intro b hb
  cases hb
  exact h

theorem ensures_raise {e : ε} {post : α → Prop} :
    (raise e : Program Op Resp ε α).Ensures ok post := by
  intro b hb
  cases hb

/-- A call ensures what its continuation ensures after every answer it may get. -/
theorem ensures_call {o : Op} {next : Resp o → Program Op Resp ε α} {post : α → Prop}
    (h : ∀ r, ok o r → (next r).Ensures ok post) : (call o next).Ensures ok post := by
  rintro a ⟨r, hr, ha⟩
  exact h r hr a ha

/-- In a sequence the postcondition of the first part is what the second may rely on. -/
theorem Ensures.bind {p : Program Op Resp ε α} {f : α → Program Op Resp ε β} {mid : α → Prop}
    {post : β → Prop} (hp : p.Ensures ok mid) (hf : ∀ a, mid a → (f a).Ensures ok post) :
    (p >>= f).Ensures ok post := by
  intro b hb
  obtain ⟨a, ha, hfa⟩ := yields_bind_ok.mp hb
  exact hf a (hp a ha) b hfa

/-- A mapped program ensures what the program ensures of the mapped result. -/
theorem Ensures.map {p : Program Op Resp ε α} {f : α → β} {post : β → Prop}
    (hp : p.Ensures ok fun a => post (f a)) : (f <$> p).Ensures ok post := by
  intro b hb
  obtain ⟨a, ha, rfl⟩ := yields_map.mp hb
  exact hp a ha

/-- A loop that collects one result per element collects results that satisfy `post`. -/
theorem ensures_mapM {f : α → Program Op Resp ε β} {post : β → Prop} {l : List α}
    (hstep : ∀ x ∈ l, (f x).Ensures ok post) :
    (l.mapM f).Ensures ok fun bs => bs.length = l.length ∧ ∀ b ∈ bs, post b := by
  induction l with
  | nil => exact ensures_ret ⟨rfl, by simp⟩
  | cons x l ih =>
    rw [List.mapM_cons]
    refine (hstep x (List.mem_cons_self ..)).bind fun b hb => ?_
    refine (ih fun y hy => hstep y (List.mem_cons_of_mem x hy)).bind fun bs hbs => ?_
    refine ensures_ret ⟨by simp [hbs.1], ?_⟩
    simp only [List.mem_cons, forall_eq_or_imp]
    exact ⟨hb, hbs.2⟩

/-- A loop whose results each show their element shows the list. -/
theorem ensures_mapM_map {f : α → Program Op Resp ε β} {g : β → γ} {h : α → γ} {l : List α}
    (hstep : ∀ x ∈ l, (f x).Ensures ok fun b => g b = h x) :
    (l.mapM f).Ensures ok fun bs => bs.map g = l.map h := by
  induction l with
  | nil => exact ensures_ret rfl
  | cons x l ih =>
    rw [List.mapM_cons]
    refine (hstep x (List.mem_cons_self ..)).bind fun b hb => ?_
    refine (ih fun y hy => hstep y (List.mem_cons_of_mem x hy)).bind fun bs hbs => ?_
    exact ensures_ret (by rw [List.map_cons, List.map_cons, hb, hbs])

/-! ### Errors -/

/-- Whatever is answered, an error the program raises satisfies `bad`. -/
def Raises (ok : ∀ o, Resp o → Prop) (p : Program Op Resp ε α) (bad : ε → Prop) : Prop :=
  ∀ e, p.Yields ok (.error e) → bad e

/-- A weaker condition holds of the exceptions too. -/
theorem Raises.mono {p : Program Op Resp ε α} {bad bad' : ε → Prop} (h : p.Raises ok bad)
    (himp : ∀ e, bad e → bad' e) : p.Raises ok bad' := fun e he => himp e (h e he)

theorem raises_ret {a : α} {bad : ε → Prop} : (ret a : Program Op Resp ε α).Raises ok bad := by
  intro e he
  cases he

theorem raises_raise {e : ε} {bad : ε → Prop} (h : bad e) :
    (raise e : Program Op Resp ε α).Raises ok bad := by
  intro e' he
  cases he
  exact h

/-- A call raises what its continuation raises after some answer it may get. -/
theorem raises_call {o : Op} {next : Resp o → Program Op Resp ε α} {bad : ε → Prop}
    (h : ∀ r, ok o r → (next r).Raises ok bad) : (call o next).Raises ok bad := by
  rintro e ⟨r, hr, he⟩
  exact h r hr e he

/-- A sequence raises what its first part raises, or its second part after a result of the first. -/
theorem Raises.bind {p : Program Op Resp ε α} {f : α → Program Op Resp ε β} {bad : ε → Prop}
    (hp : p.Raises ok bad) (hf : ∀ a, p.Yields ok (.ok a) → (f a).Raises ok bad) :
    (p >>= f).Raises ok bad := by
  intro e he
  rcases yields_bind.mp he with ⟨a, ha, hfa⟩ | ⟨e', he', heq⟩
  · exact hf a ha e hfa
  · cases heq
    exact hp e he'

theorem Raises.map {p : Program Op Resp ε α} {f : α → β} {bad : ε → Prop}
    (hp : p.Raises ok bad) : (f <$> p).Raises ok bad := by
  rw [← bind_pure_comp]
  exact hp.bind fun _ _ => raises_ret

/-- A loop raises what some of its passes raises. -/
theorem raises_mapM {f : α → Program Op Resp ε β} {bad : ε → Prop} {l : List α}
    (hstep : ∀ x ∈ l, (f x).Raises ok bad) : (l.mapM f).Raises ok bad := by
  induction l with
  | nil => exact raises_ret
  | cons x l ih =>
    rw [List.mapM_cons]
    refine (hstep x (List.mem_cons_self ..)).bind fun b _ => ?_
    refine (ih fun y hy => hstep y (List.mem_cons_of_mem x hy)).bind fun bs _ => ?_
    exact raises_ret

/-! ### Programs that return -/

/-- Whatever is answered, the program returns a value, and one that satisfies `post`. -/
structure Returns (ok : ∀ o, Resp o → Prop) (p : Program Op Resp ε α) (post : α → Prop) :
    Prop where
  ensures : p.Ensures ok post
  raises : p.Raises ok fun _ => False

/-- A program that returns has no other outcome than a result with the postcondition. -/
theorem Returns.exists_ok {p : Program Op Resp ε α} {post : α → Prop} (h : p.Returns ok post)
    {out : Except ε α} (hout : p.Yields ok out) : ∃ a, out = .ok a ∧ post a := by
  rcases out with e | a
  · exact (h.raises e hout).elim
  · exact ⟨a, rfl, h.ensures a hout⟩

theorem Returns.mono {p : Program Op Resp ε α} {post post' : α → Prop} (h : p.Returns ok post)
    (himp : ∀ a, post a → post' a) : p.Returns ok post' := ⟨h.ensures.mono himp, h.raises⟩

theorem returns_ret {a : α} {post : α → Prop} (h : post a) :
    (ret a : Program Op Resp ε α).Returns ok post := ⟨ensures_ret h, raises_ret⟩

theorem returns_call {o : Op} {next : Resp o → Program Op Resp ε α} {post : α → Prop}
    (h : ∀ r, ok o r → (next r).Returns ok post) : (call o next).Returns ok post :=
  ⟨ensures_call fun r hr => (h r hr).ensures, raises_call fun r hr => (h r hr).raises⟩

/-- A sequence returns when both parts do. -/
theorem Returns.bind {p : Program Op Resp ε α} {f : α → Program Op Resp ε β} {mid : α → Prop}
    {post : β → Prop} (hp : p.Returns ok mid) (hf : ∀ a, mid a → (f a).Returns ok post) :
    (p >>= f).Returns ok post :=
  ⟨hp.ensures.bind fun a ha => (hf a ha).ensures,
    hp.raises.bind fun a ha => (hf a (hp.ensures a ha)).raises⟩

theorem Returns.map {p : Program Op Resp ε α} {f : α → β} {post : β → Prop}
    (h : p.Returns ok fun a => post (f a)) : (f <$> p).Returns ok post :=
  ⟨h.ensures.map, h.raises.map⟩

/-- A loop whose passes return returns as many results as it has passes. -/
theorem returns_mapM {f : α → Program Op Resp ε β} {post : β → Prop} {l : List α}
    (hstep : ∀ x ∈ l, (f x).Returns ok post) :
    (l.mapM f).Returns ok fun bs => bs.length = l.length ∧ ∀ b ∈ bs, post b :=
  ⟨ensures_mapM fun x hx => (hstep x hx).ensures, raises_mapM fun x hx => (hstep x hx).raises⟩

/-! ### The calls a program makes -/

/-- Whatever is answered, every call of the program satisfies `may`. -/
def Calls (may : Op → Prop) : Program Op Resp ε α → Prop
  | ret _ => True
  | raise _ => True
  | call o next => may o ∧ ∀ r, (next r).Calls may

variable {may : Op → Prop}

/-- More calls may be allowed. -/
theorem Calls.mono {may' : Op → Prop} {p : Program Op Resp ε α} (h : p.Calls may)
    (himp : ∀ o, may o → may' o) : p.Calls may' := by
  induction p with
  | ret a => trivial
  | raise e => trivial
  | call o next ih => exact ⟨himp o h.1, fun r => ih r (h.2 r)⟩

theorem calls_ask {o : Op} (h : may o) : (ask o : Program Op Resp ε _).Calls may :=
  ⟨h, fun _ => trivial⟩

theorem calls_ofExcept (x : Except ε α) : (ofExcept x : Program Op Resp ε α).Calls may := by
  cases x <;> trivial

theorem calls_call {o : Op} {next : Resp o → Except ε α} (h : may o) :
    (call o fun r => ofExcept (next r) : Program Op Resp ε α).Calls may :=
  ⟨h, fun r => calls_ofExcept (next r)⟩

/-- A sequence makes the calls of its parts. -/
theorem Calls.bind {p : Program Op Resp ε α} {f : α → Program Op Resp ε β} (hp : p.Calls may)
    (hf : ∀ a, (f a).Calls may) : (p >>= f).Calls may := by
  induction p with
  | ret a => exact hf a
  | raise e => trivial
  | call o next ih => exact ⟨hp.1, fun r => ih r (hp.2 r)⟩

/-- The second part of a sequence starts from a value that the first part can return. -/
theorem Calls.bind_of_yields {p : Program Op Resp ε α} {f : α → Program Op Resp ε β}
    (hp : p.Calls may) (hf : ∀ a, p.Yields (fun _ _ => True) (.ok a) → (f a).Calls may) :
    (p >>= f).Calls may := by
  induction p with
  | ret a => exact hf a rfl
  | raise e => trivial
  | call o next ih =>
    exact ⟨hp.1, fun r => ih r (hp.2 r) fun a ha => hf a ⟨r, trivial, ha⟩⟩

theorem Calls.map {p : Program Op Resp ε α} (hp : p.Calls may) (f : α → β) :
    (f <$> p).Calls may := by
  rw [← bind_pure_comp]
  exact hp.bind fun _ => trivial

/-- A loop makes the calls of its passes. -/
theorem calls_mapM {f : α → Program Op Resp ε β} {l : List α} (h : ∀ x ∈ l, (f x).Calls may) :
    (l.mapM f).Calls may := by
  induction l with
  | nil => trivial
  | cons x l ih =>
    rw [List.mapM_cons]
    refine (h x (List.mem_cons_self ..)).bind fun b => ?_
    exact (ih fun y hy => h y (List.mem_cons_of_mem x hy)).bind fun bs => trivial

/-- A handler adds its calls to those of the body. -/
theorem Calls.tryCatch {p : Program Op Resp ε α} {handler : ε → Program Op Resp ε α}
    (hp : p.Calls may) (hhandler : ∀ e, (handler e).Calls may) :
    (MonadExcept.tryCatch p handler : Program Op Resp ε α).Calls may := by
  induction p with
  | ret a => trivial
  | raise e => exact hhandler e
  | call o next ih => exact ⟨hp.1, fun r => ih r (hp.2 r)⟩

/-- Turning the exception into a result adds no call. -/
theorem Calls.attempt {p : Program Op Resp ε α} (hp : p.Calls may) : p.attempt.Calls may :=
  Calls.tryCatch (hp.bind fun _ => trivial) fun _ => trivial

theorem calls_true (p : Program Op Resp ε α) : p.Calls fun _ => True := by
  induction p with
  | ret a => trivial
  | raise e => trivial
  | call o next ih => exact ⟨trivial, ih⟩

/-! ### A function for the answers -/

/-- Run a program whose calls are answered by a function: the calls it makes, in order, and how
it ends. -/
def eval (answer : ∀ o, Resp o) : Program Op Resp ε α → List Op × Except ε α
  | ret a => ([], .ok a)
  | raise e => ([], .error e)
  | call o next => (o :: ((next (answer o)).eval answer).1, ((next (answer o)).eval answer).2)

variable {answer : ∀ o, Resp o}

/-- A sequence makes the calls of its first part, then those of the second if there is one. -/
theorem eval_bind (p : Program Op Resp ε α) (f : α → Program Op Resp ε β) :
    (p >>= f).eval answer = match p.eval answer with
      | (calls, .ok a) => (calls ++ ((f a).eval answer).1, ((f a).eval answer).2)
      | (calls, .error e) => (calls, .error e) := by
  induction p with
  | ret a => rfl
  | raise e => rfl
  | call o next ih =>
    rw [call_bind, eval, ih]
    rcases hnext : (next (answer o)).eval answer with ⟨calls, e | a⟩
    · simp only [eval, hnext]
    · simp only [eval, hnext]
      rfl

/-- After a first part that returns, the calls of the second follow, and its outcome is the outcome.
-/
theorem eval_bind_ok {p : Program Op Resp ε α} {f : α → Program Op Resp ε β} {calls : List Op}
    {a : α} (h : p.eval answer = (calls, .ok a)) :
    (p >>= f).eval answer = (calls ++ ((f a).eval answer).1, ((f a).eval answer).2) := by
  rw [eval_bind, h]

/-! ### Playing given answers -/

/-- Run a program on a list of answers; `read` says which of them answer which call. -/
def play {A : Type} (read : ∀ o, A → Option (Resp o)) :
    List A → Program Op Resp ε α → Option (Except ε α)
  | _, ret a => some (.ok a)
  | _, raise e => some (.error e)
  | [], call _ _ => none
  | a :: answers, call o next => (read o a).bind fun r => play read answers (next r)

/-- What a program does on given answers is something it may do. -/
theorem yields_of_play {A : Type} {read : ∀ o, A → Option (Resp o)}
    (hread : ∀ o a r, read o a = some r → ok o r) {p : Program Op Resp ε α} :
    ∀ {answers : List A} {out : Except ε α}, play read answers p = some out →
      p.Yields ok out := by
  induction p with
  | ret a => intro answers out h; simpa [play, eq_comm] using h
  | raise e => intro answers out h; simpa [play, eq_comm] using h
  | call o next ih =>
    intro answers out h
    rcases answers with _ | ⟨a, answers⟩
    · cases h
    · simp only [play, Option.bind_eq_some_iff] at h
      obtain ⟨r, hr, hplay⟩ := h
      exact ⟨r, hread o a r hr, ih r hplay⟩

/-- The program, run on the given answers, ends with an outcome that passes `test`. -/
def playsTo {A : Type} (read : ∀ o, A → Option (Resp o)) (answers : List A)
    (p : Program Op Resp ε α) (test : Except ε α → Bool) : Bool :=
  match play read answers p with
  | some out => test out
  | none => false

/-- A test passed on given answers holds of an outcome the program may have. -/
theorem exists_yields_of_playsTo {A : Type} {read : ∀ o, A → Option (Resp o)}
    (hread : ∀ o a r, read o a = some r → ok o r) {p : Program Op Resp ε α} {answers : List A}
    {test : Except ε α → Bool} (h : playsTo read answers p test = true) :
    ∃ out, p.Yields ok out ∧ test out = true := by
  unfold playsTo at h
  split at h
  · rename_i out hplay
    exact ⟨out, yields_of_play hread hplay, h⟩
  · cases h

end Program

end AllocationKeys
