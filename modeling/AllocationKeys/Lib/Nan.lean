import Mathlib.Algebra.BigOperators.Group.Finset.Basic
import Mathlib.Algebra.Order.Field.Basic

/-!
# Numbers with a not-a-number value

Arithmetic, minima and maxima propagate not-a-number, and no comparison with it holds. `number` is
the embedding of the numbers, with which everything else commutes.

* `sum_number`: a sum of numbers;
* `sum_eq_nan`: a sum with a term that is not a number.
-/

namespace AllocationKeys

/-- A number or not-a-number (`none`). -/
def Nan (K : Type*) : Type _ := Option K

namespace Nan

variable {K : Type*}

def number (x : K) : Nan K := some x

def nan : Nan K := none

def IsNumber (a : Nan K) : Prop := ∃ x, a = number x

theorem number_injective : Function.Injective (number : K → Nan K) := Option.some_injective K

@[simp] theorem number_inj {x y : K} : number x = number y ↔ x = y := number_injective.eq_iff

@[simp] theorem isNumber_number (x : K) : IsNumber (number x) := ⟨x, rfl⟩

@[simp] theorem not_isNumber_nan : ¬ IsNumber (nan : Nan K) := fun ⟨_, h⟩ => nomatch h

/-- There is nothing else. -/
theorem isNumber_or_nan (a : Nan K) : IsNumber a ∨ a = nan := by
  cases a with
  | none => exact .inr rfl
  | some x => exact .inl ⟨x, rfl⟩

/-! ### Arithmetic -/

/-- An operation that propagates not-a-number. -/
def lift₂ (f : K → K → K) (a b : Nan K) : Nan K := Option.map₂ f a b

@[simp] theorem lift₂_nan_left (f : K → K → K) (b : Nan K) : lift₂ f nan b = nan := rfl

@[simp] theorem lift₂_nan_right (f : K → K → K) (a : Nan K) : lift₂ f a nan = nan :=
  Option.map₂_none_right f a

instance [DecidableEq K] : DecidableEq (Nan K) := inferInstanceAs (DecidableEq (Option K))

instance [Zero K] : Zero (Nan K) := ⟨number 0⟩

instance [One K] : One (Nan K) := ⟨number 1⟩

instance [NatCast K] : NatCast (Nan K) := ⟨fun n => number n⟩

instance [Neg K] : Neg (Nan K) := ⟨Option.map Neg.neg⟩

instance [Add K] : Add (Nan K) := ⟨lift₂ (· + ·)⟩

instance [Sub K] : Sub (Nan K) := ⟨lift₂ (· - ·)⟩

instance [Mul K] : Mul (Nan K) := ⟨lift₂ (· * ·)⟩

instance [Div K] : Div (Nan K) := ⟨lift₂ (· / ·)⟩

instance [Max K] : Max (Nan K) := ⟨lift₂ max⟩

instance [Min K] : Min (Nan K) := ⟨lift₂ min⟩

instance [AddCommMonoid K] : AddCommMonoid (Nan K) where
  add_assoc _ _ _ := Option.map₂_assoc add_assoc
  zero_add a :=
    match a with
    | none => rfl
    | some x => congrArg number (zero_add x)
  add_zero a :=
    match a with
    | none => rfl
    | some x => congrArg number (add_zero x)
  add_comm _ _ := Option.map₂_comm add_comm
  nsmul := nsmulRec

/-! ### Comparisons -/

/-- A comparison that does not hold of not-a-number. -/
def compare₂ (r : K → K → Prop) (a b : Nan K) : Prop :=
  ∃ x y, a = number x ∧ b = number y ∧ r x y

/-- Numbers are compared as numbers. -/
@[simp] theorem compare₂_number (r : K → K → Prop) (x y : K) :
    compare₂ r (number x) (number y) ↔ r x y := by
  constructor
  · rintro ⟨x', y', hx, hy, h⟩
    rw [number_inj] at hx hy
    subst hx hy
    exact h
  · exact fun h => ⟨x, y, rfl, rfl, h⟩

instance [LT K] : LT (Nan K) := ⟨compare₂ (· < ·)⟩

instance [LE K] : LE (Nan K) := ⟨compare₂ (· ≤ ·)⟩

instance (r : K → K → Prop) [DecidableRel r] : DecidableRel (compare₂ r) := fun a b =>
  match a, b with
  | none, _ => isFalse fun ⟨_, _, h, _⟩ => nomatch h
  | some _, none => isFalse fun ⟨_, _, _, h, _⟩ => nomatch h
  | some x, some y => decidable_of_iff (r x y) (compare₂_number r x y).symm

instance [LT K] [DecidableLT K] : DecidableLT (Nan K) :=
  inferInstanceAs (DecidableRel (compare₂ (· < ·)))

instance [LE K] [DecidableLE K] : DecidableLE (Nan K) :=
  inferInstanceAs (DecidableRel (compare₂ (· ≤ ·)))

@[simp] theorem number_lt [LT K] (x y : K) : number x < number y ↔ x < y := compare₂_number _ x y

@[simp] theorem number_le [LE K] (x y : K) : number x ≤ number y ↔ x ≤ y := compare₂_number _ x y

/-! ### The embedding of the numbers -/

section Embedding

theorem zero_eq [Zero K] : (0 : Nan K) = number 0 := rfl

theorem one_eq [One K] : (1 : Nan K) = number 1 := rfl

@[simp] theorem neg_number [Neg K] (x : K) : -number x = number (-x) := rfl

@[simp] theorem add_number [Add K] (x y : K) : number x + number y = number (x + y) := rfl

@[simp] theorem sub_number [Sub K] (x y : K) : number x - number y = number (x - y) := rfl

@[simp] theorem mul_number [Mul K] (x y : K) : number x * number y = number (x * y) := rfl

@[simp] theorem div_number [Div K] (x y : K) : number x / number y = number (x / y) := rfl

@[simp] theorem max_number [Max K] (x y : K) : max (number x) (number y) = number (max x y) := rfl

@[simp] theorem min_number [Min K] (x y : K) : min (number x) (number y) = number (min x y) := rfl

variable [AddCommMonoid K]

def numberHom : K →+ Nan K where
  toFun := number
  map_zero' := rfl
  map_add' _ _ := rfl

/-- A sum of numbers is their sum. -/
@[simp] theorem sum_number {ι : Type*} (s : Finset ι) (f : ι → K) :
    ∑ i ∈ s, number (f i) = number (∑ i ∈ s, f i) :=
  (map_sum (numberHom (K := K)) f s).symm

end Embedding

/-! ### Propagation -/

@[simp] theorem sub_nan [Sub K] (a : Nan K) : a - nan = nan := lift₂_nan_right _ a

@[simp] theorem nan_sub [Sub K] (a : Nan K) : nan - a = nan := rfl

@[simp] theorem nan_mul [Mul K] (a : Nan K) : nan * a = nan := rfl

@[simp] theorem neg_nan [Neg K] : -(nan : Nan K) = nan := rfl

@[simp] theorem max_nan [Max K] (a : Nan K) : max a nan = nan := lift₂_nan_right _ a

/-- One term that is not a number is enough. -/
theorem sum_eq_nan [AddCommMonoid K] {ι : Type*} {s : Finset ι} {f : ι → Nan K} {i : ι} (hi : i ∈ s)
    (h : f i = nan) : ∑ j ∈ s, f j = nan := by
  classical
  rw [← Finset.add_sum_erase s f hi, h]
  rfl

end Nan

end AllocationKeys
