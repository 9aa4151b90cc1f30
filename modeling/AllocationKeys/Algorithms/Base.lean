import AllocationKeys.Lib.Frame
import Mathlib.Algebra.Order.Ring.Nat
import Mathlib.Data.Rat.Defs

/-!
# The data every algorithm takes and returns

`algorithms/base.py`: the raw data the worker loads once (`AlgorithmRawData`) and the pure
result schemas. The numbers are elements of a field `K`, evaluated at `ℚ`; the two matrices
have their common shape in their type, with at least one consumer.

`shared/data_loading.py` makes the matrices of a table: it has one column for each consumer and one
for the injection, which every consumer shares. A cell may be missing, which is a not-a-number
value. How the bytes of a file are parsed is left open.
-/

namespace AllocationKeys

/-! ### Numerals

A numeral of a semiring carries the proof that it is at least two, and the first index of a list
without end the proof that a successor is not zero. They are named here, so that the definitions of
all modules carry the same ones. -/

instance (priority := 2000) succ_neZero (n : ℕ) : NeZero (n + 1) := ⟨Nat.succ_ne_zero n⟩

instance (priority := 2000) two_atLeastTwo : Nat.AtLeastTwo 2 := ⟨by decide⟩

instance (priority := 2000) ten_atLeastTwo : Nat.AtLeastTwo 10 := ⟨by decide⟩

instance (priority := 2000) hundred_atLeastTwo : Nat.AtLeastTwo 100 := ⟨by decide⟩

namespace Algorithms

/-! ### Matrices and results -/

/-- `C` and `VA` have shape `(n + 1, T)`; every row of `VA` is the production profile. -/
structure AlgorithmRawData (n T : ℕ) (K : Type*) where
  C : Fin (n + 1) → Fin T → K
  VA : Fin (n + 1) → Fin T → K
  consumerNames : List String

structure ConsumerResult (K : Type*) where
  name : String
  energyAllocatedPercentage : K
  deriving DecidableEq, Repr

structure IterationResult (K : Type*) where
  number : ℕ
  energyAllocatedPercentage : K
  surplusTotal : K
  consumers : List (ConsumerResult K)
  deriving DecidableEq, Repr

structure AllocationKeyResult (K : Type*) where
  name : String
  description : String
  iterations : List (IterationResult K)
  deriving DecidableEq, Repr

structure AlgorithmResult (K : Type*) where
  keys : List (AllocationKeyResult K)
  deriving DecidableEq, Repr

/-- The name a key shows for participant `j`: its own, or `Consumer j` when the list of names
is too short or has an empty one there. -/
def consumerName (consumerNames : List String) (j : ℕ) : String :=
  if j < consumerNames.length ∧ consumerNames.getD j "" ≠ "" then consumerNames.getD j ""
  else s!"Consumer {j}"

end Algorithms

/-! ### From a table to the matrices -/

namespace Upload

variable {α : Type}

/-- `AlgorithmRawData` as the worker holds it: the rows of `C` and of `VA`. -/
structure RawMatrices (α : Type) where
  C : List (List (Option α))
  VA : List (List (Option α))
  consumerNames : List String
  deriving DecidableEq

/-- `C.shape`. -/
def RawMatrices.shape (m : RawMatrices α) : ℕ × ℕ :=
  (m.C.length, (m.C.head?.map List.length).getD 0)

inductive LoadingError where
  /-- `InvalidInjectionColumnError`. -/
  | invalidInjectionColumn (injectionName : String)
  /-- `UnsupportedFileFormatError`, or what the parser raises. -/
  | unreadable (detail : String)
  deriving DecidableEq

def LoadingError.str : LoadingError → String
  | .invalidInjectionColumn injectionName =>
      s!"Injection column '{injectionName}' not found in file"
  | .unreadable detail => detail

def toAlgorithmRawData (dataframe : Frame ℕ String α) (injectionName : String) :
    Except LoadingError (RawMatrices α) :=
  if dataframe.hasColumn injectionName then
    let consumerColumns := (dataframe.columns.map Prod.fst).filter (· ≠ injectionName)
    let consumption := consumerColumns.map dataframe.cells
    let productionSeries := dataframe.cells injectionName
    .ok
      { C := consumption
        VA := List.replicate consumption.length productionSeries
        consumerNames := consumerColumns }
  else .error (.invalidInjectionColumn injectionName)

/-- `load`, for a parser of files. -/
def load {β : Type} (parseFile : β → String → Except LoadingError (Frame ℕ String α)) (content : β)
    (fileName injectionName : String) : Except LoadingError (RawMatrices α) := do
  let dataframe ← parseFile content fileName
  toAlgorithmRawData dataframe injectionName

end Upload

end AllocationKeys
