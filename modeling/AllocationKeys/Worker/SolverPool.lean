import AllocationKeys.Lib.Concurrent
import Mathlib.Data.Finset.Insert
import Mathlib.Data.List.Nodup

/-!
# The solver pool of a worker

`_SolverPool` of `worker/main.py` and the offloading branch of `_run_algorithm` in
`worker/dispatcher.py`: the tasks of one worker solve in the processes of a pool, at most as many at
once as the semaphore has permits. A process that dies breaks the whole pool; the next `submit`
makes a new one.

The tasks of the event loop, the processes and the deaths of processes step in any order, and any
task may be cancelled at any of its `await`s. `submit` has no `await`, so it is one step. A pool is
known by its number, a future by its place in the list of all futures.

* `permits_of_run`: no permit is lost or made, and no more solves are awaited than there are
  permits;
* `breaks_of_run`: a solve crashes if and only if its pool broke, and pools are made only for pools
  that broke.
-/

namespace AllocationKeys.Worker.SolverPool

open Concurrent Program

variable {J A : Type} {t : ℕ}

/-! ### The pool and the semaphore -/

/-- The exceptions a solve ends with. -/
inductive Exc where
  /-- `BrokenProcessPool`, a `BrokenExecutor`. -/
  | brokenExecutor (detail : String)
  /-- `_SolverCrashError`. -/
  | solverCrash (detail : String)
  | other (detail : String)

/-- A solve handed to a pool. -/
structure Future (J A : Type) where
  thread : ℕ
  job : J
  pool : ℕ
  result : Option (Except Exc A)

structure World (J A : Type) where
  /-- The counter of the semaphore. -/
  permits : ℕ
  /-- The tasks inside `async with semaphore`. -/
  holders : List ℕ
  /-- The pool in use; the earlier ones have been replaced. -/
  current : ℕ
  /-- The pools that are known to be broken. -/
  broken : Finset ℕ
  futures : List (Future J A)
  /-- The tasks there have been, and those of them that were cancelled. -/
  tasks : List ℕ
  cancelled : List ℕ

namespace World

/-- A worker that starts with `size` processes. -/
def ready (size : ℕ) : World J A := ⟨size, [], 0, ∅, [], [], []⟩

/-- `ProcessPoolExecutor.submit`; a pool that is not broken may still refuse. -/
def poolSubmit (t : ℕ) (job : J) (refused : Option String) (w : World J A) :
    Except Exc ℕ × World J A :=
  if w.current ∈ w.broken then
    (.error (.brokenExecutor
      "A child process terminated abruptly, the process pool is not usable anymore"), w)
  else
    match refused with
    | some detail => (.error (.other detail), w)
    | none => (.ok w.futures.length, { w with futures := w.futures ++ [⟨t, job, w.current, none⟩] })

def newPool (w : World J A) : World J A := { w with current := w.current + 1 }

/-- `_SolverPool.submit`. -/
def submit (t : ℕ) (job : J) (refused : Option String) (w : World J A) :
    Except Exc ℕ × World J A :=
  match w.poolSubmit t job refused with
  | (.error (.brokenExecutor _), w) => w.newPool.poolSubmit t job refused
  | done => done

def release (t : ℕ) (w : World J A) : World J A :=
  { w with permits := w.permits + 1, holders := w.holders.erase t }

/-- A future gets its result. -/
def resolve (i : ℕ) (result : Except Exc A) (w : World J A) : World J A :=
  { w with futures := w.futures.modify i fun f => { f with result := some result } }

/-- A task is cancelled, and leaves the semaphore if it was inside. -/
def cancel (t : ℕ) (w : World J A) : World J A :=
  { (if t ∈ w.holders then w.release t else w) with cancelled := t :: w.cancelled }

end World

inductive Op (J A : Type) where
  | acquire
  | submit (job : J)
  | await (future : ℕ)
  | release
  /-- A process returns the result of a solve, or the text of its exception. -/
  | finish (future : ℕ) (answer : Except String A)
  /-- A process dies, and its pool is found to be broken. -/
  | breakPool (pool : ℕ)
  /-- A future of a broken pool is told. -/
  | fail (future : ℕ) (detail : String)

@[reducible] def Resp : Op J A → Type
  | .submit _ => Except Exc ℕ
  | .await _ => Except Exc A
  | .acquire | .release | .finish .. | .breakPool _ | .fail .. => Unit

/-- What a call does; the choice is whether a pool refuses. A call waits where there is no permit,
or no result yet. -/
def exec (t : ℕ) : (o : Op J A) → Option String → World J A → Option (Resp o × World J A)
  | .acquire, _, w =>
      if 0 < w.permits then
        some ((), { w with permits := w.permits - 1, holders := t :: w.holders })
      else none
  | .submit job, refused, w => some (w.submit t job refused)
  | .await i, _, w => (w.futures[i]?.bind Future.result).map fun result => (result, w)
  | .release, _, w => some ((), w.release t)
  | .finish i answer, _, w =>
      if ∃ f, w.futures[i]? = some f ∧ f.result = none ∧ f.pool ∉ w.broken then
        some ((), w.resolve i (answer.mapError .other))
      else none
  | .breakPool p, _, w =>
      if p ≤ w.current then some ((), { w with broken := insert p w.broken }) else none
  | .fail i detail, _, w =>
      if ∃ f, w.futures[i]? = some f ∧ f.result = none ∧ f.pool ∈ w.broken then
        some ((), w.resolve i (.error (.brokenExecutor detail)))
      else none

/-! ### The tasks -/

abbrev Task (J A α : Type) : Type := Program (Op J A) Resp Exc α

def acquire : Task J A Unit := call .acquire ret

def submit (job : J) : Task J A ℕ := call (.submit job) Program.ofExcept

def await (future : ℕ) : Task J A A := call (.await future) Program.ofExcept

def release : Task J A Unit := call .release ret

/-- `_run_algorithm`, with an executor and a semaphore. -/
def runAlgorithm (job : J) : Task J A A :=
  tryCatch (do
    acquire
    let result ← (submit job >>= await).attempt
    release
    Program.ofExcept result) fun e => match e with
      | .brokenExecutor detail => throw (.solverCrash detail)
      | e => throw e

/-- A task of the event loop, or an event of the processes. -/
inductive Role (J A : Type) where
  | solve (job : J)
  | finish (future : ℕ) (answer : Except String A)
  | breakPool (pool : ℕ)
  | fail (future : ℕ) (detail : String)

def program : Role J A → Task J A Unit
  | .solve job => do let _ ← runAlgorithm job
  | .finish i answer => call (Op.finish i answer) ret
  | .breakPool p => call (Op.breakPool p) ret
  | .fail i detail => call (Op.fail i detail) ret

/-- The tasks and the processes of one worker; no two tasks are the same. -/
def worker (J A : Type) :
    Machine (Role J A) (Op J A) Resp (Option String) Exc (World J A) where
  program := program
  launch t _ w := if t ∈ w.tasks then none else some { w with tasks := t :: w.tasks }
  exec := exec
  abort := World.cancel

/-! ### Futures -/

/-- The futures may have got results since, and new ones may have been added; a future of a broken
pool gets no result but the break. -/
structure Later (w w' : World J A) : Prop where
  broken : w.broken ⊆ w'.broken
  futures : ∀ (i : ℕ) f, w.futures[i]? = some f → ∃ f', w'.futures[i]? = some f' ∧
    f'.thread = f.thread ∧ f'.job = f.job ∧ f'.pool = f.pool ∧
    (f' = f ∨ f.result = none ∧
      (f.pool ∈ w.broken → ∃ detail, f'.result = some (.error (.brokenExecutor detail))))

theorem Later.refl (w : World J A) : Later w w :=
  ⟨Finset.Subset.refl _, fun _ f h => ⟨f, h, rfl, rfl, rfl, Or.inl rfl⟩⟩

theorem Later.trans {w₁ w₂ w₃ : World J A} (h : Later w₁ w₂) (h' : Later w₂ w₃) : Later w₁ w₃ := by
  refine ⟨h.broken.trans h'.broken, fun i f hf => ?_⟩
  obtain ⟨f₂, hf₂, hthread₂, hjob₂, hpool₂, hresult₂⟩ := h.futures i f hf
  obtain ⟨f₃, hf₃, hthread₃, hjob₃, hpool₃, hresult₃⟩ := h'.futures i f₂ hf₂
  refine ⟨f₃, hf₃, hthread₃.trans hthread₂, hjob₃.trans hjob₂, hpool₃.trans hpool₂, ?_⟩
  rcases hresult₂ with rfl | ⟨hnone, hbroken₂⟩
  · rcases hresult₃ with rfl | ⟨hnone, hbroken₃⟩
    · exact Or.inl rfl
    · exact Or.inr ⟨hnone, fun hpool => hbroken₃ (h.broken hpool)⟩
  · refine Or.inr ⟨hnone, fun hpool => ?_⟩
    rcases hresult₃ with rfl | ⟨-, hbroken₃⟩
    · exact hbroken₂ hpool
    · exact hbroken₃ (h.broken (hpool₂ ▸ hpool))

/-- A result stays. -/
theorem Later.result {w w' : World J A} (h : Later w w') {i : ℕ} {f : Future J A}
    (hf : w.futures[i]? = some f) (hresult : f.result ≠ none) : w'.futures[i]? = some f := by
  obtain ⟨f', hf', -, -, -, hsame | ⟨hnone, -⟩⟩ := h.futures i f hf
  · rw [hf', hsame]
  · exact absurd hnone hresult

/-- A new future is a later world. -/
theorem later_append {w : World J A} (f : Future J A) :
    Later w { w with futures := w.futures ++ [f] } := by
  refine ⟨Finset.Subset.refl _, fun i g hg => ⟨g, ?_, rfl, rfl, rfl, Or.inl rfl⟩⟩
  exact (List.getElem?_append_left (List.getElem?_eq_some_iff.mp hg).1).trans hg

/-- A result that the pool may give. -/
def Gives (w : World J A) (i : ℕ) (result : Except Exc A) : Prop :=
  ∃ f, w.futures[i]? = some f ∧ f.result = none ∧
    (f.pool ∈ w.broken → ∃ detail, result = .error (.brokenExecutor detail))

/-- A result that is due is a later world. -/
theorem later_resolve {w : World J A} {i : ℕ} {result : Except Exc A} (h : Gives w i result) :
    Later w (w.resolve i result) := by
  refine ⟨Finset.Subset.refl _, fun j f hf => ?_⟩
  have hget : (w.resolve i result).futures[j]? =
      (fun g : Future J A => if i = j then { g with result := some result } else g) <$>
        w.futures[j]? := by
    rw [World.resolve, List.getElem?_modify]
  rw [hf] at hget
  by_cases hij : i = j
  · subst hij
    obtain ⟨g, hg, hnone, hgives⟩ := h
    rw [hf] at hg
    cases hg
    simp only [if_true, Option.map_eq_map, Option.map_some] at hget
    refine ⟨_, hget, rfl, rfl, rfl, Or.inr ⟨hnone, fun hpool => ?_⟩⟩
    obtain ⟨detail, hdetail⟩ := hgives hpool
    exact ⟨detail, congrArg some hdetail⟩
  · refine ⟨f, ?_, rfl, rfl, rfl, Or.inl rfl⟩
    rw [hget]
    simp only [hij, if_false, Option.map_eq_map, Option.map_some]

/-- A result does not change whose future it is. -/
theorem threads_resolve (w : World J A) (i : ℕ) (result : Except Exc A) :
    (w.resolve i result).futures.map Future.thread = w.futures.map Future.thread := by
  refine List.ext_getElem? fun j => ?_
  rw [World.resolve, List.getElem?_map, List.getElem?_map, List.getElem?_modify]
  cases w.futures[j]? with
  | none => rfl
  | some f =>
    simp only [Option.map_eq_map, Option.map_some]
    split <;> rfl

/-- The futures after a result: the old ones, one of them with it. -/
theorem mem_resolve {w : World J A} {i : ℕ} {result : Except Exc A} {f : Future J A}
    (h : f ∈ (w.resolve i result).futures) :
    f ∈ w.futures ∨ ∃ g, w.futures[i]? = some g ∧ f = { g with result := some result } := by
  obtain ⟨j, hj⟩ := List.mem_iff_getElem?.mp h
  rw [World.resolve, List.getElem?_modify] at hj
  obtain ⟨g, hg, hf⟩ := Option.map_eq_some_iff.mp hj
  by_cases hij : i = j
  · subst hij
    rw [if_pos rfl] at hf
    exact Or.inr ⟨g, hg, hf.symm⟩
  · rw [if_neg hij] at hf
    subst hf
    exact Or.inl (List.mem_of_getElem? hg)

/-! ### What holds of every worker -/

/-- A result a future may have. -/
def Allowed (w : World J A) (f : Future J A) : Option (Except Exc A) → Prop
  | some (.error (.brokenExecutor _)) => f.pool ∈ w.broken
  | some (.error (.solverCrash _)) => False
  | _ => True

structure Inv (size : ℕ) (w : World J A) : Prop where
  conserved : w.permits + w.holders.length = size
  nodup : w.holders.Nodup
  replaced : ∀ p < w.current, p ∈ w.broken
  made : ∀ p ∈ w.broken, p ≤ w.current
  pool : ∀ f ∈ w.futures, f.pool ≤ w.current
  allowed : ∀ f ∈ w.futures, Allowed w f f.result
  held : ∀ f ∈ w.futures, f.result = none → f.thread ∈ w.holders ∨ f.thread ∈ w.cancelled
  once : (w.futures.map Future.thread).Nodup
  created : (∀ t ∈ w.holders, t ∈ w.tasks) ∧ ∀ f ∈ w.futures, f.thread ∈ w.tasks

/-- The task has handed nothing to a pool. -/
def Fresh (t : ℕ) (w : World J A) : Prop := ∀ f ∈ w.futures, f.thread ≠ t

/-- What a task relies on while others step. -/
structure Rely (t : ℕ) (w w' : World J A) : Prop where
  later : Later w w'
  holders : t ∈ w'.holders ↔ t ∈ w.holders
  fresh : Fresh t w → Fresh t w'
  tasks : t ∈ w.tasks → t ∈ w'.tasks

def pre (t : ℕ) : Op J A → World J A → Prop
  | .acquire, w => t ∉ w.holders ∧ t ∈ w.tasks
  | .submit _, w => t ∈ w.holders ∧ Fresh t w
  | .release, w => t ∈ w.holders ∧ ∀ f ∈ w.futures, f.thread = t → f.result ≠ none
  | _, _ => True

def discipline (J A : Type) (size : ℕ) : Discipline (Op J A) (World J A) where
  inv := Inv size
  rely := Rely
  pre := pre
  rely_refl _ w := ⟨Later.refl w, Iff.rfl, id, id⟩
  rely_trans h h' := ⟨h.later.trans h'.later, h'.holders.trans h.holders, h'.fresh ∘ h.fresh,
    h'.tasks ∘ h.tasks⟩

/-! ### What a call keeps -/

variable {size : ℕ}

/-- Steps that leave the futures and the holders as they are. -/
theorem rely_same {w w' : World J A} (hbroken : w.broken ⊆ w'.broken)
    (hfutures : w'.futures = w.futures) (hholders : t ∈ w'.holders ↔ t ∈ w.holders)
    (htasks : t ∈ w.tasks → t ∈ w'.tasks) : Rely t w w' := by
  refine ⟨⟨hbroken, fun i f h => ⟨f, hfutures ▸ h, rfl, rfl, rfl, Or.inl rfl⟩⟩, hholders, ?_,
    htasks⟩
  intro hfresh f hf
  exact hfresh f (hfutures ▸ hf)

/-- A free permit may be taken. -/
theorem keeps_acquire {w : World J A} (hinv : Inv size w) (ht : t ∉ w.holders) (htask : t ∈ w.tasks)
    (hpermits : 0 < w.permits) :
    (discipline J A size).Keeps t w
      { w with permits := w.permits - 1, holders := t :: w.holders } := by
  refine ⟨⟨?_, ?_, hinv.replaced, hinv.made, hinv.pool, hinv.allowed, ?_, hinv.once, ?_⟩, ?_⟩
  · have hconserved := hinv.conserved
    show w.permits - 1 + (w.holders.length + 1) = size
    omega
  · exact List.nodup_cons.mpr ⟨ht, hinv.nodup⟩
  · intro f hf hnone
    exact (hinv.held f hf hnone).imp_left (List.mem_cons_of_mem t)
  · refine ⟨fun t' ht' => ?_, hinv.created.2⟩
    rcases List.mem_cons.mp ht' with rfl | hold
    · exact htask
    · exact hinv.created.1 t' hold
  · intro t' hne
    refine rely_same (Finset.Subset.refl _) rfl ?_ id
    rw [List.mem_cons]
    exact ⟨fun h => h.resolve_left hne, Or.inr⟩

/-- The invariant survives a release by a holder whose jobs are over or were cancelled. -/
theorem inv_release {w : World J A} (hinv : Inv size w) (ht : t ∈ w.holders)
    (hheld : ∀ f ∈ w.futures, f.result = none → f.thread = t → f.thread ∈ w.cancelled) :
    Inv size (w.release t) := by
  refine ⟨?_, hinv.nodup.erase t, hinv.replaced, hinv.made, hinv.pool, hinv.allowed, ?_, hinv.once,
    fun t' ht' => hinv.created.1 t' (List.mem_of_mem_erase ht'), hinv.created.2⟩
  · have hconserved := hinv.conserved
    have hlength := List.length_erase_of_mem ht
    have hpos := List.length_pos_of_mem ht
    show w.permits + 1 + (w.holders.erase t).length = size
    omega
  · intro f hf hnone
    by_cases hthread : f.thread = t
    · exact Or.inr (hheld f hf hnone hthread)
    · exact (hinv.held f hf hnone).imp_left (List.mem_erase_of_ne hthread).mpr

/-- A release is nothing to the other threads. -/
theorem rely_release {w : World J A} {t' : ℕ} (hne : t' ≠ t) : Rely t' w (w.release t) :=
  rely_same (Finset.Subset.refl _) rfl (List.mem_erase_of_ne hne) id

/-- A holder whose jobs have results may release. -/
theorem keeps_release {w : World J A} (hinv : Inv size w) (ht : t ∈ w.holders)
    (hresolved : ∀ f ∈ w.futures, f.thread = t → f.result ≠ none) :
    (discipline J A size).Keeps t w (w.release t) :=
  ⟨inv_release hinv ht fun f hf hnone hthread => absurd hnone (hresolved f hf hthread),
    fun _ hne => rely_release hne⟩

/-- A task may be cancelled at any time. -/
theorem keeps_cancel {w : World J A} (hinv : Inv size w) :
    (discipline J A size).Keeps t w (w.cancel t) := by
  -- the task is cancelled before it leaves the semaphore
  have hmarked : Inv size { w with cancelled := t :: w.cancelled } :=
    ⟨hinv.conserved, hinv.nodup, hinv.replaced, hinv.made, hinv.pool, hinv.allowed,
      fun f hf hnone => (hinv.held f hf hnone).imp_right (List.mem_cons_of_mem t), hinv.once,
      hinv.created⟩
  by_cases ht : t ∈ w.holders
  · rw [World.cancel, if_pos ht]
    exact ⟨inv_release hmarked ht fun f _ _ hthread => hthread ▸ List.mem_cons_self ..,
      fun _ hne => rely_same (Finset.Subset.refl _) rfl (List.mem_erase_of_ne hne) id⟩
  · rw [World.cancel, if_neg ht]
    exact ⟨hmarked, fun _ _ => rely_same (Finset.Subset.refl _) rfl Iff.rfl id⟩

/-- A pool in use, or its replacement, takes the solve or refuses it. -/
theorem submit_cases {w : World J A} (hinv : Inv size w) (job : J) (refused : Option String) :
    ∃ current, w.current ≤ current ∧ current ∉ w.broken ∧ (∀ p < current, p ∈ w.broken) ∧
      (w.submit t job refused = (.ok w.futures.length, { w with
          current := current, futures := w.futures ++ [⟨t, job, current, none⟩] }) ∨
        ∃ detail, w.submit t job refused = (.error (.other detail), { w with current := current }))
    := by
  have hnext : w.current + 1 ∉ w.broken := fun h => absurd (hinv.made _ h) (by omega)
  by_cases hbroken : w.current ∈ w.broken
  · refine ⟨w.current + 1, Nat.le_succ _, hnext, fun p hp => ?_, ?_⟩
    · rcases Nat.lt_succ_iff_lt_or_eq.mp hp with hlt | rfl
      · exact hinv.replaced p hlt
      · exact hbroken
    · simp only [World.submit, World.poolSubmit, World.newPool, hbroken, hnext, if_true, if_false]
      cases refused with
      | none => exact Or.inl rfl
      | some detail => exact Or.inr ⟨detail, rfl⟩
  · refine ⟨w.current, Nat.le_refl _, hbroken, hinv.replaced, ?_⟩
    simp only [World.submit, World.poolSubmit, hbroken, if_false]
    cases refused with
    | none => exact Or.inl rfl
    | some detail => exact Or.inr ⟨detail, rfl⟩

/-- A pool that is broken may be replaced. -/
theorem inv_current {w : World J A} (hinv : Inv size w) {current : ℕ} (hle : w.current ≤ current)
    (hreplaced : ∀ p < current, p ∈ w.broken) : Inv size { w with current := current } :=
  ⟨hinv.conserved, hinv.nodup, hreplaced, fun p hp => Nat.le_trans (hinv.made p hp) hle,
    fun f hf => Nat.le_trans (hinv.pool f hf) hle, hinv.allowed, hinv.held, hinv.once, hinv.created⟩

/-- A holder may submit a job, to the current pool or to a new one. -/
theorem keeps_submit {w : World J A} (hinv : Inv size w) (ht : t ∈ w.holders) (hfresh : Fresh t w)
    (job : J) (refused : Option String) :
    (discipline J A size).Keeps t w (w.submit t job refused).2 := by
  obtain ⟨current, hle, -, hreplaced, heq | ⟨detail, heq⟩⟩ := submit_cases (t := t) hinv job refused
  · -- accepted: one future more, of the current pool
    have hnew := inv_current hinv hle hreplaced
    rw [heq]
    refine ⟨⟨hnew.conserved, hnew.nodup, hnew.replaced, hnew.made, ?_, ?_, ?_, ?_, hnew.created.1,
      ?_⟩, ?_⟩
    · intro f hf
      rcases List.mem_append.mp hf with hold | hone
      · exact hnew.pool f hold
      · rw [List.mem_singleton.mp hone]
    · intro f hf
      rcases List.mem_append.mp hf with hold | hone
      · exact hnew.allowed f hold
      · rw [List.mem_singleton.mp hone]
        trivial
    · intro f hf hnone
      rcases List.mem_append.mp hf with hold | hone
      · exact hnew.held f hold hnone
      · rw [List.mem_singleton.mp hone]
        exact Or.inl ht
    · rw [List.map_append, List.map_singleton, List.nodup_append]
      refine ⟨hnew.once, List.nodup_singleton t, fun t₁ ht₁ t₂ ht₂ => ?_⟩
      obtain ⟨f, hf, rfl⟩ := List.mem_map.mp ht₁
      rw [List.mem_singleton.mp ht₂]
      exact hfresh f hf
    · intro f hf
      rcases List.mem_append.mp hf with hold | hone
      · exact hnew.created.2 f hold
      · rw [List.mem_singleton.mp hone]
        exact hinv.created.1 t ht
    · intro t' hne
      have hlater := later_append (w := w) ⟨t, job, current, none⟩
      refine ⟨⟨hlater.broken, hlater.futures⟩, Iff.rfl, fun hfresh' f hf => ?_, id⟩
      rcases List.mem_append.mp hf with hold | hone
      · exact hfresh' f hold
      · rw [List.mem_singleton.mp hone]
        exact fun heq => hne heq.symm
  · -- refused: the pool may be new, the futures are those that were there
    rw [heq]
    exact ⟨inv_current hinv hle hreplaced,
      fun _ _ => rely_same (Finset.Subset.refl _) rfl Iff.rfl id⟩

/-- A pool that exists may break. -/
theorem keeps_break {w : World J A} (hinv : Inv size w) {p : ℕ} (hp : p ≤ w.current) :
    (discipline J A size).Keeps t w { w with broken := insert p w.broken } := by
  refine ⟨⟨hinv.conserved, hinv.nodup, fun q hq => Finset.mem_insert_of_mem (hinv.replaced q hq),
    fun q hq => ?_, hinv.pool, fun f hf => ?_, hinv.held, hinv.once, hinv.created⟩,
    fun _ _ => rely_same (Finset.subset_insert p _) rfl Iff.rfl id⟩
  · rcases Finset.mem_insert.mp hq with rfl | hold
    · exact hp
    · exact hinv.made q hold
  · have hallowed := hinv.allowed f hf
    rcases hresult : f.result with _ | ⟨_ | _ | _⟩ | a <;> rw [hresult] at hallowed
    · trivial
    · exact Finset.mem_insert_of_mem hallowed
    · exact hallowed.elim
    · trivial
    · trivial

/-- A future gets a result that its pool may give. -/
theorem keeps_resolve {w : World J A} (hinv : Inv size w) {i : ℕ} {result : Except Exc A}
    (hgives : Gives w i result)
    (hallowed : ∀ f, w.futures[i]? = some f → Allowed w f (some result)) :
    (discipline J A size).Keeps t w (w.resolve i result) := by
  have hthread : ∀ f ∈ (w.resolve i result).futures, ∃ g ∈ w.futures, f.thread = g.thread ∧
      f.pool = g.pool ∧ (f.result = none → g = f) := by
    intro f hf
    rcases mem_resolve hf with hold | ⟨g, hg, rfl⟩
    · exact ⟨f, hold, rfl, rfl, fun _ => rfl⟩
    · exact ⟨g, List.mem_of_getElem? hg, rfl, rfl, fun hnone => by cases hnone⟩
  refine ⟨⟨hinv.conserved, hinv.nodup, hinv.replaced, hinv.made, ?_, ?_, ?_, ?_,
    hinv.created.1, ?_⟩,
    fun t' _ => ⟨later_resolve hgives, Iff.rfl, fun hfresh f hf => ?_, id⟩⟩
  · intro f hf
    obtain ⟨g, hg, -, hpool, -⟩ := hthread f hf
    exact hpool ▸ hinv.pool g hg
  · intro f hf
    rcases mem_resolve hf with hold | ⟨g, hg, rfl⟩
    · exact hinv.allowed f hold
    · exact hallowed g hg
  · intro f hf hnone
    obtain ⟨g, hg, -, -, hsame⟩ := hthread f hf
    rw [hsame hnone] at hg
    exact hinv.held f hg hnone
  · rw [threads_resolve]
    exact hinv.once
  · intro f hf
    obtain ⟨g, hg, heq, -, -⟩ := hthread f hf
    exact heq ▸ hinv.created.2 g hg
  · obtain ⟨g, hg, heq, -, -⟩ := hthread f hf
    exact heq ▸ hfresh g hg

/-! ### What a task knows -/

/-- The task is outside the semaphore, and has handed nothing to a pool. -/
def Outside (t : ℕ) (w : World J A) : Prop := t ∉ w.holders ∧ t ∈ w.tasks ∧ Fresh t w

def Inside (t : ℕ) (w : World J A) : Prop := t ∈ w.holders ∧ Fresh t w

/-- The task has handed its solve to a pool. -/
def Submitted (t : ℕ) (job : J) (i : ℕ) (w : World J A) : Prop :=
  t ∈ w.holders ∧ ∃ f, w.futures[i]? = some f ∧ f.thread = t ∧ f.job = job

/-- How a solve has ended: no pool took it, or its future has this result. -/
def Recorded (t : ℕ) (job : J) (out : Except Exc A) (w : World J A) : Prop :=
  (Fresh t w ∧ ∃ detail, out = .error (.other detail)) ∨
    ∃ (i : ℕ) (f : Future J A),
      w.futures[i]? = some f ∧ f.thread = t ∧ f.job = job ∧ f.result = some out

abbrev Stable (size t : ℕ) (knows : World J A → Prop) : Prop := (discipline J A size).Stable t knows

theorem stable_outside : Stable size t (Outside (J := J) (A := A) t) :=
  fun _ _ hrely _ h =>
    ⟨fun hmem => h.1 (hrely.holders.mp hmem), hrely.tasks h.2.1, hrely.fresh h.2.2⟩

theorem stable_inside : Stable size t (Inside (J := J) (A := A) t) :=
  fun _ _ hrely _ h => ⟨hrely.holders.mpr h.1, hrely.fresh h.2⟩

theorem stable_submitted (job : J) (i : ℕ) :
    Stable size t (Submitted (A := A) t job i) := by
  rintro w w' hrely - ⟨hmem, f, hf, hthread, hjob⟩
  obtain ⟨f', hf', hthread', hjob', -, -⟩ := hrely.later.futures i f hf
  exact ⟨hrely.holders.mpr hmem, f', hf', hthread'.trans hthread, hjob'.trans hjob⟩

theorem stable_recorded (job : J) (out : Except Exc A) : Stable size t (Recorded t job out) := by
  rintro w w' hrely - (⟨hfresh, hout⟩ | ⟨i, f, hf, hthread, hjob, hresult⟩)
  · exact Or.inl ⟨hrely.fresh hfresh, hout⟩
  · exact Or.inr ⟨i, f, hrely.later.result hf (by rw [hresult]; simp), hthread, hjob, hresult⟩

theorem stable_holder : Stable size t fun w : World J A => t ∈ w.holders :=
  fun _ _ hrely _ h => hrely.holders.mpr h

theorem stable_left : Stable size t fun w : World J A => t ∉ w.holders :=
  fun _ _ hrely _ h hmem => h (hrely.holders.mp hmem)

/-- A task has at most one future. -/
theorem resolved_of_recorded {w : World J A} (hinv : Inv size w) {job : J} {out : Except Exc A}
    (h : Recorded t job out w) : ∀ f ∈ w.futures, f.thread = t → f.result ≠ none := by
  rintro f hf hthread
  rcases h with ⟨hfresh, -⟩ | ⟨i, g, hg, hgthread, -, hresult⟩
  · exact absurd hthread (hfresh f hf)
  · have hsame : f = g :=
      List.inj_on_of_nodup_map hinv.once hf (List.mem_of_getElem? hg) (hthread.trans hgthread.symm)
    rw [hsame, hresult]
    simp

/-! ### What a task does -/

/-- A task of the worker, from some knowledge. -/
abbrev Spec {α : Type} (size t : ℕ) (knows : World J A → Prop) (p : Task J A α)
    (post : Except Exc α → World J A → Prop) : Prop :=
  Triple (worker J A) (discipline J A size) t knows p post

/-- After the acquire the thread holds a permit. -/
theorem spec_acquire : Spec (J := J) (A := A) size t (Outside t) acquire fun out w =>
    out = .ok () ∧ Inside t w := by
  refine triple_call (Q := fun _ => Inside t)
    ⟨stable_outside, fun _ _ h => ⟨h.1, h.2.1⟩, fun w choice r w' hinv h hexec => ?_⟩
    fun r => triple_ret fun _ _ h => ⟨rfl, h⟩
  simp only [worker, exec] at hexec
  split at hexec
  · cases hexec
    exact ⟨keeps_acquire hinv h.1 h.2.1 ‹_›, List.mem_cons_self .., h.2.2⟩
  · cases hexec

/-- A job is submitted, or refused and the permit kept. -/
theorem spec_submit (job : J) : Spec (A := A) size t (Inside t) (submit job) fun out w =>
    (∃ i, out = .ok i ∧ Submitted t job i w) ∨
      ∃ detail, out = .error (.other detail) ∧ Inside t w := by
  refine triple_call (Q := fun out w => (∃ i, out = .ok i ∧ Submitted t job i w) ∨
      ∃ detail, out = .error (.other detail) ∧ Inside t w)
    ⟨stable_inside, fun _ _ h => h, fun w refused r w' hinv h hexec => ?_⟩
    fun r => triple_ofExcept fun _ _ h => h
  have hpair : w.submit t job refused = (r, w') := Option.some.inj hexec
  have hresult := congrArg Prod.fst hpair
  have hworld := congrArg Prod.snd hpair
  subst hresult hworld
  refine ⟨keeps_submit hinv h.1 h.2 job refused, ?_⟩
  obtain ⟨current, -, -, -, heq | ⟨detail, heq⟩⟩ := submit_cases (t := t) hinv job refused
  · rw [heq]
    exact Or.inl ⟨_, rfl, h.1, _, List.getElem?_concat_length, rfl, rfl⟩
  · rw [heq]
    exact Or.inr ⟨detail, rfl, h⟩

/-- An awaited job has its result, and the permit is still held. -/
theorem spec_await (job : J) (i : ℕ) : Spec (A := A) size t (Submitted t job i) (await i)
    fun out w => t ∈ w.holders ∧ Recorded t job out w := by
  refine triple_call (Q := fun out w => t ∈ w.holders ∧ Recorded t job out w)
    ⟨stable_submitted job i, fun _ _ _ => trivial, fun w choice r w' hinv h hexec => ?_⟩
    fun r => triple_ofExcept fun _ _ h => h
  obtain ⟨hmem, f, hf, hthread, hjob⟩ := h
  simp only [worker, exec, hf, Option.bind_some] at hexec
  obtain ⟨result, hresult, heq⟩ := Option.map_eq_some_iff.mp hexec
  cases heq
  exact ⟨⟨hinv, fun t' _ => (discipline J A size).rely_refl t' _⟩, hmem,
    Or.inr ⟨i, f, hf, hthread, hjob, hresult⟩⟩

/-- The release is the last use of the permit. -/
theorem spec_release (job : J) (out : Except Exc A) :
    Spec size t (fun w => t ∈ w.holders ∧ Recorded t job out w) release fun ended w =>
      ended = .ok () ∧ t ∉ w.holders ∧ Recorded t job out w := by
  refine triple_call (Q := fun _ w => t ∉ w.holders ∧ Recorded t job out w)
    ⟨fun w w' hrely hinv h => ⟨stable_holder w w' hrely hinv h.1,
      stable_recorded job out w w' hrely hinv h.2⟩,
      fun w hinv h => ⟨h.1, resolved_of_recorded hinv h.2⟩, fun w choice r w' hinv h hexec => ?_⟩
    fun r => triple_ret fun _ _ h => ⟨rfl, h⟩
  cases hexec
  exact ⟨keeps_release hinv h.1 (resolved_of_recorded hinv h.2), hinv.nodup.not_mem_erase, h.2⟩

/-- A break is reported as a crash of the solver. -/
def report : Except Exc A → Except Exc A
  | .error (.brokenExecutor detail) => .error (.solverCrash detail)
  | out => out

/-- The task has left the semaphore, and reports how its solve has ended. -/
def Reported (t : ℕ) (job : J) (out : Except Exc A) (w : World J A) : Prop :=
  t ∉ w.holders ∧ ∃ out', out = report out' ∧ Recorded t job out' w

/-- The whole method, from the acquire to the release. -/
theorem spec_runAlgorithm (job : J) :
    Spec (A := A) size t (Outside t) (runAlgorithm job) (Reported t job) := by
  have hinside : Spec (A := A) size t (Inside t) (submit job >>= await) fun out w =>
      t ∈ w.holders ∧ Recorded t job out w := by
    refine (spec_submit job).bind (fun i => ?_) fun e w _ h => ?_
    · refine (spec_await job i).weaken fun w _ h => ?_
      rcases h with ⟨i', heq, hsubmitted⟩ | ⟨detail, heq, -⟩
      · cases heq
        exact hsubmitted
      · cases heq
    · rcases h with ⟨i', heq, -⟩ | ⟨detail, heq, hmem, hfresh⟩
      · cases heq
      · exact ⟨hmem, Or.inl ⟨hfresh, detail, congrArg Except.error (Except.error.inj heq)⟩⟩
  have hbody : Spec (A := A) size t (Outside t) (do
      acquire
      let result ← (submit job >>= await).attempt
      release
      Program.ofExcept result) fun out w => t ∉ w.holders ∧ Recorded t job out w := by
    refine spec_acquire.bind (fun _ => ?_) fun e w _ h => by cases h.1
    refine (hinside.weaken fun w _ h => h.2).attempt_bind fun out => ?_
    refine (spec_release job out).bind (fun _ => ?_) fun e w _ h => by cases h.1
    exact triple_ofExcept fun w _ h => h.2
  refine hbody.tryCatch (fun a w _ h => ⟨h.1, .ok a, rfl, h.2⟩) fun e => ?_
  split
  · exact triple_raise fun w _ h => ⟨h.1, _, rfl, h.2⟩
  · rename_i hnot
    refine triple_raise fun w _ h => ⟨h.1, _, ?_, h.2⟩
    cases e with
    | brokenExecutor detail => exact absurd rfl (hnot detail)
    | solverCrash detail => rfl
    | other detail => rfl

/-- What is known when a role has come to its end. -/
def Ends (role : Role J A) (t : ℕ) (out : Except Exc Unit) (w : World J A) : Prop :=
  t ∉ w.holders ∧ ∀ job, role = .solve job → ∃ out', out = (report out').map (fun _ => ()) ∧
    Recorded t job out' w

/-- An event of the processes is one call. -/
theorem spec_event {o : Op J A} {next : Resp o → Task J A Unit} (hnext : ∀ r, next r = .ret ())
    (hpre : ∀ w, pre t o w)
    (hkeeps : ∀ w choice r w', Inv size w → exec t o choice w = some (r, w') →
      (discipline J A size).Keeps t w w' ∧ w'.holders = w.holders) :
    Spec size t (fun w => t ∉ w.holders) (.call o next) fun _ w => t ∉ w.holders := by
  refine triple_call (Q := fun _ w => t ∉ w.holders)
    ⟨stable_left, fun w _ _ => hpre w, fun w choice r w' hinv h hexec => ?_⟩ fun r => ?_
  · obtain ⟨hkept, hholders⟩ := hkeeps w choice r w' hinv hexec
    exact ⟨hkept, hholders ▸ h⟩
  · rw [hnext r]
    exact triple_ret fun _ _ h => h

/-- A pool may finish jobs, break and fail them whenever it is entitled to. -/
theorem keeps_event {o : Op J A} {choice : Option String} {r : Resp o} {w w' : World J A}
    (ho : (∃ i answer, o = .finish i answer) ∨ (∃ p, o = .breakPool p) ∨
      ∃ i detail, o = .fail i detail) (hinv : Inv size w)
    (hexec : exec t o choice w = some (r, w')) :
    (discipline J A size).Keeps t w w' ∧ w'.holders = w.holders := by
  rcases ho with ⟨i, answer, rfl⟩ | ⟨p, rfl⟩ | ⟨i, detail, rfl⟩
  · simp only [exec] at hexec
    split at hexec
    · rename_i hpending
      cases hexec
      obtain ⟨f, hf, hnone, hpool⟩ := hpending
      refine ⟨keeps_resolve hinv ⟨f, hf, hnone, fun hbroken => absurd hbroken hpool⟩
        fun g hg => ?_, rfl⟩
      cases answer <;> trivial
    · cases hexec
  · simp only [exec] at hexec
    split at hexec
    · cases hexec
      exact ⟨keeps_break hinv ‹_›, rfl⟩
    · cases hexec
  · simp only [exec] at hexec
    split at hexec
    · rename_i hpending
      cases hexec
      obtain ⟨f, hf, hnone, hpool⟩ := hpending
      refine ⟨keeps_resolve hinv ⟨f, hf, hnone, fun _ => ⟨detail, rfl⟩⟩ fun g hg => ?_, rfl⟩
      rw [hf] at hg
      cases hg
      exact hpool
    · cases hexec

/-- Every role does what it is to end with. -/
theorem spec_program (role : Role J A) : Spec (A := A) size t (Outside t) (program role)
    (Ends role t) := by
  have hevent : ∀ {o : Op J A}, ((∃ i answer, o = .finish i answer) ∨ (∃ p, o = .breakPool p) ∨
      ∃ i detail, o = .fail i detail) → (∀ job, role ≠ .solve job) →
      ∀ {next : Resp o → Task J A Unit}, (∀ r, next r = .ret ()) →
        Spec size t (Outside t) (.call o next) (Ends role t) := by
    intro o ho hrole next hnext
    refine (spec_event hnext (fun w => ?_) fun w choice r w' => keeps_event ho).mono
      (fun w _ h => h.1) fun out w _ h => ⟨h, fun job heq => absurd heq (hrole job)⟩
    rcases ho with ⟨i, answer, rfl⟩ | ⟨p, rfl⟩ | ⟨i, detail, rfl⟩ <;> trivial
  cases role with
  | solve job =>
    refine (spec_runAlgorithm job).bind (fun a => ?_) fun e w _ h => ?_
    · refine triple_ret fun w _ h => ⟨h.1, fun job' heq => ?_⟩
      cases heq
      obtain ⟨-, out, hout, hrecorded⟩ := h
      exact ⟨out, by rw [← hout]; rfl, hrecorded⟩
    · refine ⟨h.1, fun job' heq => ?_⟩
      cases heq
      obtain ⟨-, out, hout, hrecorded⟩ := h
      exact ⟨out, by rw [← hout]; rfl, hrecorded⟩
  | finish i answer => exact hevent (Or.inl ⟨i, answer, rfl⟩) (fun _ h => by cases h) fun _ => rfl
  | breakPool p => exact hevent (Or.inr (Or.inl ⟨p, rfl⟩)) (fun _ h => by cases h) fun _ => rfl
  | fail i detail =>
    exact hevent (Or.inr (Or.inr ⟨i, detail, rfl⟩)) (fun _ h => by cases h) fun _ => rfl

/-- The machine obeys the discipline of the semaphore. -/
theorem worker_obeys : ObeysTo (worker J A) (discipline J A size) Ends where
  launch t role w w' hinv hlaunch := by
    simp only [worker] at hlaunch
    split at hlaunch
    · cases hlaunch
    · rename_i hnew
      cases hlaunch
      have hkeeps : (discipline J A size).Keeps t w { w with tasks := t :: w.tasks } :=
        ⟨⟨hinv.conserved, hinv.nodup, hinv.replaced, hinv.made, hinv.pool, hinv.allowed, hinv.held,
          hinv.once, fun t' ht' => List.mem_cons_of_mem t (hinv.created.1 t' ht'),
          fun f hf => List.mem_cons_of_mem t (hinv.created.2 f hf)⟩,
          fun _ _ => rely_same (Finset.Subset.refl _) rfl Iff.rfl (List.mem_cons_of_mem t)⟩
      refine ⟨hkeeps, spec_program role _ hkeeps.1 ⟨fun hmem => hnew (hinv.created.1 t hmem),
        List.mem_cons_self .., fun f hf heq => hnew (heq ▸ hinv.created.2 f hf)⟩⟩
  abort t w hinv := keeps_cancel hinv

/-! ### Runs -/

variable (J A) in
abbrev State : Type := Config (Role J A) (Op J A) Resp Exc (World J A)

variable (J A) in
/-- The runs of a worker that starts with `size` processes. -/
abbrev Reaches (size : ℕ) (c : State J A) : Prop :=
  (worker J A).Run (fun _ _ => True) (Machine.start (World.ready size)) c

/-- In every state of every run the invariant holds. -/
theorem good_of_reaches {c : State J A} (h : Reaches J A size c) :
    GoodTo (worker J A) (discipline J A size) Ends c := by
  have hstart : Inv size (World.ready size : World J A) :=
    ⟨rfl, List.nodup_nil, fun p hp => absurd hp (Nat.not_lt_zero p),
      fun p hp => absurd hp (Finset.notMem_empty p), fun f hf => absurd hf List.not_mem_nil,
      fun f hf => absurd hf List.not_mem_nil, fun f hf => absurd hf List.not_mem_nil,
      List.nodup_nil, fun t ht => absurd ht List.not_mem_nil,
      fun f hf => absurd hf List.not_mem_nil⟩
  exact good_of_run worker_obeys (good_start hstart) h

/-- The tasks inside the semaphore are running, and the cancelled ones are not. -/
def Linked (c : State J A) : Prop :=
  (∀ t ∈ c.state.holders, ∃ role rest, c.threads t = .running role rest) ∧
    ∀ t ∈ c.state.cancelled, c.threads t = .killed

/-- A call gives a permit to its own thread only, and cancels nothing. -/
theorem exec_holders {o : Op J A} {choice : Option String} {r : Resp o} {w w' : World J A}
    (h : exec t o choice w = some (r, w')) :
    (∀ t' ∈ w'.holders, t' = t ∨ t' ∈ w.holders) ∧ w'.cancelled = w.cancelled := by
  cases o with
  | acquire =>
    simp only [exec] at h
    split at h
    · cases h
      exact ⟨fun _ => List.mem_cons.mp, rfl⟩
    · cases h
  | submit job =>
    have hworld : (w.submit t job choice).2 = w' := congrArg Prod.snd (Option.some.inj h)
    -- submitting leaves the permits, to the first pool or to a new one
    have hsubmit : ∀ u : World J A, (u.poolSubmit t job choice).2.holders = u.holders ∧
        (u.poolSubmit t job choice).2.cancelled = u.cancelled := by
      intro u
      simp only [World.poolSubmit]
      split
      · exact ⟨rfl, rfl⟩
      · split <;> exact ⟨rfl, rfl⟩
    obtain ⟨hholders, hcancelled⟩ : w'.holders = w.holders ∧ w'.cancelled = w.cancelled := by
      rw [← hworld, World.submit]
      split
      · rename_i u hfirst
        have hu : u = (w.poolSubmit t job choice).2 := by rw [hfirst]
        subst hu
        obtain ⟨hholders, hcancelled⟩ := hsubmit (World.newPool (w.poolSubmit t job choice).2)
        exact ⟨hholders.trans (hsubmit w).1, hcancelled.trans (hsubmit w).2⟩
      · exact hsubmit w
    exact ⟨fun t' ht' => Or.inr (hholders ▸ ht'), hcancelled⟩
  | await i =>
    obtain ⟨result, -, heq⟩ := Option.map_eq_some_iff.mp h
    cases heq
    exact ⟨fun _ => Or.inr, rfl⟩
  | release => cases h; exact ⟨fun _ ht' => Or.inr (List.mem_of_mem_erase ht'), rfl⟩
  | finish i answer =>
    simp only [exec] at h
    split at h <;> cases h
    exact ⟨fun _ => Or.inr, rfl⟩
  | breakPool p =>
    simp only [exec] at h
    split at h <;> cases h
    exact ⟨fun _ => Or.inr, rfl⟩
  | fail i detail =>
    simp only [exec] at h
    split at h <;> cases h
    exact ⟨fun _ => Or.inr, rfl⟩

/-- A cancelled task holds no permit. -/
theorem cancel_holders (w : World J A) (t : ℕ) (hnodup : w.holders.Nodup) :
    (∀ t' ∈ (w.cancel t).holders, t' ≠ t ∧ t' ∈ w.holders) ∧
      (w.cancel t).cancelled = t :: w.cancelled := by
  by_cases ht : t ∈ w.holders
  · rw [World.cancel, if_pos ht]
    exact ⟨fun t' ht' => (hnodup.mem_erase_iff).mp ht', rfl⟩
  · rw [World.cancel, if_neg ht]
    exact ⟨fun t' ht' => ⟨fun heq => ht (heq ▸ ht'), ht'⟩, rfl⟩

/-- A step keeps threads and tasks linked. -/
theorem linked_step {c c' : State J A} {label : Label (Role J A) (Option String)}
    (hinv : Inv size c.state) (h : Linked c) (hstep : (worker J A).step c label = some c') :
    Linked c' := by
  have hupdate : ∀ (w : World J A) (t : ℕ) (new : Thread (Role J A) (Op J A) Resp Exc),
      (∀ t' ∈ w.holders, t' ≠ t → t' ∈ c.state.holders) →
      (t ∈ w.holders → ∃ role rest, new = .running role rest) →
      (∀ t' ∈ w.cancelled, t' ≠ t → t' ∈ c.state.cancelled) →
      (t ∈ w.cancelled → new = .killed) →
      Linked ⟨w, Function.update c.threads t new⟩ := by
    intro w t new hholders hrunning hcancelled hkilled
    refine ⟨fun t' ht' => ?_, fun t' ht' => ?_⟩
    · show ∃ role rest, Function.update c.threads t new t' = .running role rest
      by_cases heq : t' = t
      · subst heq
        rw [Function.update_self]
        exact hrunning ht'
      · rw [Function.update_of_ne heq]
        exact h.1 t' (hholders t' ht' heq)
    · show Function.update c.threads t new t' = .killed
      by_cases heq : t' = t
      · subst heq
        rw [Function.update_self]
        exact hkilled ht'
      · rw [Function.update_of_ne heq]
        exact h.2 t' (hcancelled t' ht' heq)
  rcases Machine.step_cases hstep with ⟨t, role, w, -, hidle, hlaunch, rfl⟩ |
    ⟨t, choice, role, o, next, r, w, -, hrunning, hexec, rfl⟩ | ⟨t, role, rest, -, -, rfl⟩
  · simp only [worker] at hlaunch
    split at hlaunch <;> cases hlaunch
    refine hupdate _ t _ (fun _ h _ => h) (fun _ => ⟨_, _, rfl⟩) (fun _ h _ => h) fun hmem => ?_
    have hkilled := h.2 t hmem
    rw [hidle] at hkilled
    cases hkilled
  · obtain ⟨hholders, hcancelled⟩ := exec_holders hexec
    refine hupdate w t _ (fun t' ht' hne => (hholders t' ht').resolve_left hne)
      (fun _ => ⟨_, _, rfl⟩) (fun t' ht' _ => hcancelled ▸ ht') fun hmem => ?_
    have hkilled := h.2 t (hcancelled ▸ hmem)
    rw [hrunning] at hkilled
    cases hkilled
  · obtain ⟨hholders, hcancelled⟩ := cancel_holders c.state t hinv.nodup
    refine hupdate _ t _ (fun t' ht' _ => (hholders t' ht').2)
      (fun hmem => absurd rfl (hholders t hmem).1) (fun t' ht' hne => ?_) fun _ => rfl
    have hmem : t' ∈ (c.state.cancel t).cancelled := ht'
    rw [hcancelled] at hmem
    exact (List.mem_cons.mp hmem).resolve_left hne

/-- In every state of every run threads and tasks are linked. -/
theorem linked_of_reaches {c : State J A} (h : Reaches J A size c) : Linked c := by
  induction h with
  | refl => exact ⟨fun t ht => absurd ht List.not_mem_nil, fun t ht => absurd ht List.not_mem_nil⟩
  | tail hrun hstep ih =>
    obtain ⟨label, -, hstep⟩ := hstep
    exact linked_step (good_of_reaches hrun).inv ih hstep

def isRunning : Thread (Role J A) (Op J A) Resp Exc → Bool
  | .running _ _ => true
  | _ => false

/-- The solves that a task awaits: handed to a pool, without a result, the task not cancelled. -/
def awaited (c : State J A) : List (Future J A) :=
  c.state.futures.filter fun f => f.result.isNone && isRunning (c.threads f.thread)

/-- **The permits are those of the pool**: in every state of every run a permit is free or held, no
more solves are awaited than there are processes, and every permit is free again when no task is
on its way, however the tasks have ended. -/
theorem permits_of_run {c : State J A} (h : Reaches J A size c) :
    c.state.permits + c.state.holders.length = size ∧ (awaited c).length ≤ size ∧
      ((∀ t role o next, c.threads t ≠ .running role (.call o next)) →
        c.state.permits = size) := by
  have hgood := good_of_reaches h
  have hinv : Inv size c.state := hgood.inv
  have hlinked := linked_of_reaches h
  have hconserved := hinv.conserved
  refine ⟨hconserved, ?_, fun hended => ?_⟩
  · have hsubset : (awaited c).map Future.thread ⊆ c.state.holders := by
      intro t ht
      obtain ⟨f, hf, rfl⟩ := List.mem_map.mp ht
      obtain ⟨hmem, hawaited⟩ := List.mem_filter.mp hf
      rw [Bool.and_eq_true, Option.isNone_iff_eq_none] at hawaited
      refine (hinv.held f hmem hawaited.1).resolve_right fun hcancelled => ?_
      rw [hlinked.2 _ hcancelled] at hawaited
      cases hawaited.2
    have hnodup : ((awaited c).map Future.thread).Nodup :=
      hinv.once.sublist ((List.filter_sublist).map _)
    have hle := (hnodup.subperm hsubset).length_le
    rw [List.length_map] at hle
    omega
  · have hnone : c.state.holders = [] := by
      refine List.eq_nil_iff_forall_not_mem.mpr fun t ht => ?_
      obtain ⟨role, rest, hrunning⟩ := hlinked.1 t ht
      obtain ⟨w, hrely, hsafe⟩ := hgood.safe t role rest hrunning
      cases rest with
      | ret a => exact hsafe.1 ((hrely.holders).mp ht)
      | raise e => exact hsafe.1 ((hrely.holders).mp ht)
      | call o next => exact hended t role o next hrunning
    rw [hnone, List.length_nil] at hconserved
    omega

/-- One process; a second task waits until the first is cancelled in its solve. -/
theorem permits_of_run_cancelled :
    ∃ c : State ℕ ℕ, c.state.futures.length = 2 ∧
      c.state.permits + c.state.holders.length = 1 ∧ (awaited c).length ≤ 1 ∧
        ((∀ t role o next, c.threads t ≠ .running role (.call o next)) → c.state.permits = 1) := by
  have hplay : ((worker ℕ ℕ).play (fun _ _ => True)
      [.launch 0 (.solve 10), .act 0 none, .act 0 none, .launch 1 (.solve 20), .kill 0,
        .act 1 none, .act 1 none] (Machine.start (World.ready 1))).any (fun c =>
          c.state.futures.length == 2) = true := by decide +kernel
  obtain ⟨c, hrun, hc⟩ := Machine.exists_of_play hplay
  exact ⟨c, by simpa using hc, permits_of_run hrun⟩

/-! ### Breaks -/

/-- Along a run the world only gets later. -/
theorem later_of_run {c c' : State J A} (h : Reaches J A size c)
    (hrun : (worker J A).Run (fun _ _ => True) c c') : Later c.state c'.state := by
  induction hrun with
  | refl => exact Later.refl _
  | tail hrun hstep ih =>
    obtain ⟨label, -, hstep⟩ := hstep
    obtain ⟨t, -, hrely⟩ := keeps_step worker_obeys (good_of_reaches (h.trans hrun)) hstep
    exact ih.trans (hrely (t + 1) (Nat.succ_ne_self t)).later

/-- A task that has ended reports how its solve has ended. -/
theorem recorded_of_ended {c : State J A} (h : Reaches J A size c) {job : J}
    {out : Except Exc Unit} (hended : c.threads t = .running (.solve job) (Program.ofExcept out)) :
    ∃ out', out = (report out').map (fun _ => ()) ∧ Recorded t job out' c.state := by
  have hgood := good_of_reaches h
  obtain ⟨w, hrely, hsafe⟩ := hgood.safe t _ _ hended
  have hends : Ends (.solve job) t out w := by
    cases out with
    | ok a => exact hsafe
    | error e => exact hsafe
  obtain ⟨out', hout, hrecorded⟩ := hends.2 job rfl
  exact ⟨out', hout, stable_recorded job out' _ _ hrely hgood.inv hrecorded⟩

/-- **A solve crashes exactly when its pool breaks under it**, and the pool is replaced only after
a break: in every run, a task that reports a crash had its solve in a pool that broke; a solve that
is running in a pool when the pool breaks is reported as a crash, unless its task is cancelled; a
solve of a pool that is not broken is in the pool in use; and every pool before that one, which it
has replaced, is broken. -/
theorem breaks_of_run {c c' : State J A} (h : Reaches J A size c)
    (hrun : (worker J A).Run (fun _ _ => True) c c') :
    (∀ t job detail, c.threads t = .running (.solve job) (.raise (.solverCrash detail)) →
      ∃ f ∈ c.state.futures, f.thread = t ∧ f.job = job ∧ f.pool ∈ c.state.broken) ∧
    (∀ f ∈ c.state.futures, f.result = none → f.pool ∈ c.state.broken → ∀ job out,
      c'.threads f.thread = .running (.solve job) (Program.ofExcept out) →
        ∃ detail, out = .error (.solverCrash detail)) ∧
    (∀ f ∈ c.state.futures, f.pool ∉ c.state.broken → f.pool = c.state.current) ∧
    ∀ p < c.state.current, p ∈ c.state.broken := by
  have hinv : Inv size c.state := (good_of_reaches h).inv
  refine ⟨fun t job detail hended => ?_, fun f hmem hnone hbroken job out hended => ?_,
    fun f hf hpool => ?_, hinv.replaced⟩
  · have hraised : c.threads t =
        .running (.solve job) (Program.ofExcept (.error (.solverCrash detail))) := hended
    obtain ⟨out', hout, ⟨-, text, rfl⟩ | ⟨i, f, hf, hthread, hjob, hresult⟩⟩ :=
      recorded_of_ended h hraised
    · cases hout
    · have hmem := List.mem_of_getElem? hf
      have hallowed := hinv.allowed f hmem
      rw [hresult] at hallowed
      refine ⟨f, hmem, hthread, hjob, ?_⟩
      rcases out' with (_ | _ | _) | _
      · exact hallowed
      · exact hallowed.elim
      · cases hout
      · cases hout
  · -- the pool stays broken, and nobody but the crash records a result of it
    have hreaches := h.trans hrun
    have hinv' : Inv size c'.state := (good_of_reaches hreaches).inv
    obtain ⟨i, hf⟩ := List.mem_iff_getElem?.mp hmem
    obtain ⟨f', hf', hthread', -, -, hresult'⟩ := (later_of_run h hrun).futures i f hf
    obtain ⟨out', hout, ⟨hfresh, -⟩ | ⟨j, g, hg, hthread, -, hresult⟩⟩ :=
      recorded_of_ended hreaches hended
    · exact absurd hthread' (hfresh f' (List.mem_of_getElem? hf'))
    · -- the task has one future
      have hsame : f' = g := List.inj_on_of_nodup_map hinv'.once (List.mem_of_getElem? hf')
        (List.mem_of_getElem? hg) (hthread'.trans hthread.symm)
      subst hsame
      rcases hresult' with rfl | ⟨-, hbreak⟩
      · rw [hresult] at hnone
        cases hnone
      · obtain ⟨detail, hdetail⟩ := hbreak hbroken
        rw [hresult] at hdetail
        cases hdetail
        exact ⟨detail, hout⟩
  · -- a pool that was replaced is broken
    rcases Nat.lt_or_ge f.pool c.state.current with hlt | hge
    · exact absurd (hinv.replaced _ hlt) hpool
    · exact Nat.le_antisymm (hinv.pool f hf) hge

def isCrashed : Thread (Role J A) (Op J A) Resp Exc → Bool
  | .running (.solve _) (.raise (.solverCrash _)) => true
  | _ => false

theorem isCrashed_iff {thread : Thread (Role J A) (Op J A) Resp Exc} :
    isCrashed thread = true ↔
      ∃ job detail, thread = .running (.solve job) (.raise (.solverCrash detail)) := by
  constructor
  · intro h
    unfold isCrashed at h
    split at h
    · exact ⟨_, _, rfl⟩
    · cases h
  · rintro ⟨job, detail, rfl⟩
    rfl

/-- A process dies in the solve of the one task, which reports a crash; the next task gets a new
pool. -/
theorem breaks_of_run_died :
    ∃ (c c' : State ℕ ℕ) (f : Future ℕ ℕ) (job : ℕ) (detail : String),
      f ∈ c.state.futures ∧ f.result = none ∧ f.pool ∈ c.state.broken ∧
      c'.threads f.thread = .running (.solve job) (.raise (.solverCrash detail)) ∧
      (∃ g ∈ c'.state.futures, g.thread = f.thread ∧ g.job = job ∧ g.pool ∈ c'.state.broken) ∧
      (∃ g ∈ c'.state.futures, g.pool ∉ c'.state.broken ∧ g.pool = c'.state.current) ∧
      c'.state.current = 1 ∧ ∀ p < 1, p ∈ c'.state.broken := by
  have hplay : ((worker ℕ ℕ).play (fun _ _ => True)
      [.launch 0 (.solve 10), .act 0 none, .act 0 none, .launch 1 (.breakPool 0), .act 1 none]
      (Machine.start (World.ready 1))).any (fun c =>
        c.state.futures.any (fun f =>
          f.result.isNone && decide (f.pool ∈ c.state.broken) && f.thread == 0) &&
          ((worker ℕ ℕ).play (fun _ _ => True)
            [.launch 2 (.fail 0 "terminated abruptly"), .act 2 none, .act 0 none, .act 0 none,
              .launch 3 (.solve 20), .act 3 none, .act 3 none]
            c).any fun c' => isCrashed (c'.threads 0) && c'.state.current == 1 &&
              c'.state.futures.any fun f => !decide (f.pool ∈ c'.state.broken)) = true := by
    decide +kernel
  obtain ⟨c, hrun, hc⟩ := Machine.exists_of_play hplay
  rw [Bool.and_eq_true, List.any_eq_true] at hc
  obtain ⟨⟨f, hf, hpending⟩, hlater⟩ := hc
  simp only [Bool.and_eq_true, Option.isNone_iff_eq_none, decide_eq_true_iff, beq_iff_eq]
    at hpending
  obtain ⟨⟨hnone, hbroken⟩, hthread⟩ := hpending
  obtain ⟨c', hrun', hc'⟩ := Machine.exists_of_play hlater
  simp only [Bool.and_eq_true, beq_iff_eq, List.any_eq_true, Bool.not_eq_true',
    decide_eq_false_iff_not, isCrashed_iff] at hc'
  obtain ⟨⟨⟨job, detail, hcrashed⟩, hcurrent⟩, g, hg, hintact⟩ := hc'
  rw [← hthread] at hcrashed
  obtain ⟨text, htext⟩ := (breaks_of_run hrun hrun').2.1 f hf hnone hbroken job
    (.error (.solverCrash detail)) hcrashed
  obtain ⟨hreports, -, hinUse, hreplaced⟩ := breaks_of_run (hrun.trans hrun') .refl
  rw [hcurrent] at hreplaced
  cases htext
  exact ⟨c, c', f, job, detail, hf, hnone, hbroken, hcrashed, hreports _ _ _ hcrashed,
    ⟨g, hg, hintact, hinUse g hg hintact⟩, hcurrent, hreplaced⟩

end AllocationKeys.Worker.SolverPool
