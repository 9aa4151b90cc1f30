import AllocationKeys.Lib.Program
import Mathlib.MeasureTheory.Measure.Lebesgue.Basic

/-!
# Programs whose answers are drawn

When the answers of a program are drawn at random, a quantity that depends on how the program ends
has an average. `expect` computes it from the averages over the answers of each operation.

* `expect_bind`: the average over a sequence is the average of the averages over its second part;
* `expect_of_yields`: a quantity with one value in every way the program can end averages to it;
* `attempt_bind_ofExcept`: catching how a program ends and failing so again changes nothing.
-/

namespace AllocationKeys

open scoped ENNReal

namespace Program

variable {Op : Type} {Resp : Op → Type} {ε α β : Type}

/-- The average, over the answers to each operation, of a quantity that depends on the answer. -/
abbrev Averages (Op : Type) (Resp : Op → Type) : Type := ∀ o : Op, (Resp o → ℝ≥0∞) → ℝ≥0∞

/-- The average of a quantity over the ways the program ends. -/
noncomputable def expect (average : Averages Op Resp) :
    Program Op Resp ε α → (Except ε α → ℝ≥0∞) → ℝ≥0∞
  | ret a, f => f (.ok a)
  | raise e, f => f (.error e)
  | call o next, f => average o fun r => (next r).expect average f

open Classical in
/-- The probability that the program ends in a given way. -/
noncomputable def prob (average : Averages Op Resp) (p : Program Op Resp ε α)
    (event : Except ε α → Prop) : ℝ≥0∞ :=
  p.expect average fun out => if event out then 1 else 0

variable {average : Averages Op Resp}

@[simp] theorem expect_ret {a : α} {f : Except ε α → ℝ≥0∞} :
    (ret a : Program Op Resp ε α).expect average f = f (.ok a) := rfl

@[simp] theorem expect_raise {e : ε} {f : Except ε α → ℝ≥0∞} :
    (raise e : Program Op Resp ε α).expect average f = f (.error e) := rfl

@[simp] theorem expect_call {o : Op} {next : Resp o → Program Op Resp ε α}
    {f : Except ε α → ℝ≥0∞} :
    (call o next).expect average f = average o fun r => (next r).expect average f := rfl

/-- The average over a sequence, from the averages over its second part. -/
theorem expect_bind (p : Program Op Resp ε α) (g : α → Program Op Resp ε β)
    (f : Except ε β → ℝ≥0∞) :
    (p >>= g).expect average f = p.expect average fun
      | .ok a => (g a).expect average f
      | .error e => f (.error e) := by
  induction p with
  | ret a => rfl
  | raise e => rfl
  | call o next ih =>
    rw [call_bind, expect_call, expect_call]
    exact congrArg (average o) (funext ih)

/-- A quantity that has one value in every way the program can end. -/
theorem expect_of_yields {ok : ∀ o, Resp o → Prop} {may : Op → Prop} {c : ℝ≥0∞}
    (haverage : ∀ o, may o → ∀ f : Resp o → ℝ≥0∞, (∀ r, ok o r → f r = c) → average o f = c)
    {p : Program Op Resp ε α} (hcalls : p.Calls may) {f : Except ε α → ℝ≥0∞}
    (hf : ∀ out, p.Yields ok out → f out = c) : p.expect average f = c := by
  induction p with
  | ret a => exact hf _ rfl
  | raise e => exact hf _ rfl
  | call o next ih =>
    refine haverage o hcalls.1 _ fun r hr => ?_
    exact ih r (hcalls.2 r) fun out hout => hf out ⟨r, hr, hout⟩

/-- Attempting a program and then failing as it failed is running it. -/
theorem attempt_bind_ofExcept (p : Program Op Resp ε α) :
    (p.attempt >>= fun out => (ofExcept out : Program Op Resp ε α)) = p := by
  induction p with
  | ret a => rfl
  | raise e => rfl
  | call o next ih => exact congrArg (call o) (funext ih)

end Program

end AllocationKeys
