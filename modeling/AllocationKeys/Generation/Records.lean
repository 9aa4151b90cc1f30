import AllocationKeys.Algorithms.Base

/-!
# The records of a generation

The rows, messages, audit entries and events of `shared/models/local_models.py`,
`core/audit_log`, `core/queue/helper.py` and `core/realtime`, for one generation, with the pure
functions the pipeline applies to them.

`Services` are the parts of the pipeline that only compute: parsing a file, checking inputs,
classifying CRM data, decoding a message. No result about the pipeline depends on what they
compute, so they are arbitrary functions here. The time stamps of the rows are left out.
-/

namespace AllocationKeys.Generation

open Algorithms

/-! ### Rows -/

inductive GenerationStatus where
  | pending
  | success
  | failed
  deriving DecidableEq, Repr

/-- How metrics and events call a final status. -/
def GenerationStatus.text : GenerationStatus → String
  | .pending => "pending"
  | .success => "success"
  | .failed => "failed"

inductive DataSource where
  | file
  | crm
  deriving DecidableEq, Repr

/-- An exception, with the text `str` gives it. -/
inductive Exc where
  /-- `_TransientError`. -/
  | transient (detail : String)
  /-- `_SolverCrashError`. -/
  | solverCrash (detail : String)
  | brokenExecutor (detail : String)
  | objectNotFound (key : String)
  | transientStorageError (detail : String)
  | errorException (error : String) (statusCode : ℕ)
  | other (detail : String)
  deriving DecidableEq, Repr

def Exc.str : Exc → String
  | .transient detail => detail
  | .solverCrash detail => detail
  | .brokenExecutor detail => detail
  | .objectNotFound key => key
  | .transientStorageError detail => detail
  | .errorException error _ => error
  | .other detail => detail

/-- Why `data_loading.load` or the CRM pivot fails: an error the callers classify, or any
other. -/
inductive LoadError where
  | classified (detail : String)
  | unexpected (detail : String)

/-- A reason not to run on a period, with the key of its error. -/
structure Blocker where
  error : String
  detail : String

/-- An event on the queue; `generationId` is what `data` has under `generation_id`, when `data`
is a dictionary with an integer there. -/
structure Event where
  type : String
  version : ℤ
  generationId : Option ℤ

/-- What the pipeline computes without a database. -/
structure Services where
  Content : Type
  Date : Type
  Inputs : Type
  AlgoInput : Type
  RawData : Type
  Summary : Type
  Rows : Type
  Warnings : Type
  Data : Type
  /-- `Event.encode` and `Event.decode`; `none` when decoding raises. -/
  encode : Event → Data
  decode : Data → Option Event
  /-- `data_loading.load`, for a content, a file name and an injection name. -/
  load : Content → String → String → Except LoadError RawData
  /-- `raw_data.C.shape`. -/
  shape : RawData → ℕ × ℕ
  /-- `_read_within_cap` does not raise. -/
  withinCap : Content → Bool
  isEmpty : Content → Bool
  /-- `upload_shape.measure`. -/
  measure : Content → String → Option (ℕ × ℕ)
  /-- `crm_preflight.evaluate`. -/
  blockers : Summary → List Blocker
  warnings : Summary → Option Warnings
  /-- `build_dataframe` on the consumers of the summary, then `to_algorithm_raw_data`. -/
  pivot : Rows → Summary → Except LoadError RawData
  /-- `period_start > period_end`. -/
  after : Date → Date → Bool
  isoformat : Date → String
  /-- `registry.implementation` has the algorithm. -/
  implemented : String → Bool

variable (S : Services) (K : Type)

/-- `AlgorithmMetadata`; `validate` is `input_schema.model_validate`, with the text of its
errors, and `dump` is `model_dump`. -/
structure AlgorithmMetadata where
  name : String
  version : String
  queue : String
  validate : S.Inputs → Except String S.AlgoInput
  dump : S.AlgoInput → S.Inputs

/-- A row of `generation`. -/
structure GenerationModel where
  name : String
  idCommunity : ℤ
  source : DataSource
  fileStorageKey : Option String
  fileName : Option String
  injectionName : Option String
  idSharingOperation : Option ℤ
  periodStart : Option S.Date
  periodEnd : Option S.Date
  algorithmName : String
  algorithmVersion : String
  inputs : S.Inputs
  status : GenerationStatus
  errorMessage : Option String
  dataWarnings : Option S.Warnings

structure ConsumerGeneratedModel where
  name : String
  energyAllocatedPercentage : K
  idCommunity : ℤ

structure IterationGeneratedModel where
  number : ℕ
  energyAllocatedPercentage : K
  surplusTotal : K
  idCommunity : ℤ
  consumers : List (ConsumerGeneratedModel K)

/-- A row of `allocation_key_generated` with its subtree. -/
structure AllocationKeyGeneratedModel where
  name : String
  description : String
  surplusTotal : K
  idGeneration : ℤ
  idCommunity : ℤ
  iterations : List (IterationGeneratedModel K)

variable {S K}

/-- The same generation: only the execution state may differ. -/
def GenerationModel.Same (r r' : GenerationModel S) : Prop :=
  r' = { r with status := r'.status, errorMessage := r'.errorMessage }

theorem GenerationModel.Same.refl (r : GenerationModel S) : r.Same r := rfl

theorem GenerationModel.Same.trans {r₁ r₂ r₃ : GenerationModel S} (h : r₁.Same r₂)
    (h' : r₂.Same r₃) : r₁.Same r₃ := by
  rw [GenerationModel.Same, h', h]

/-- The rows `save_success` builds from a result. -/
def resultRows [Zero K] [Add K] (generationId communityId : ℤ) (result : AlgorithmResult K) :
    List (AllocationKeyGeneratedModel K) :=
  result.keys.map fun key =>
    { name := key.name
      description := key.description
      surplusTotal := (key.iterations.map IterationResult.surplusTotal).sum
      idGeneration := generationId
      idCommunity := communityId
      iterations := key.iterations.map fun iteration =>
        { number := iteration.number
          energyAllocatedPercentage := iteration.energyAllocatedPercentage
          surplusTotal := iteration.surplusTotal
          idCommunity := communityId
          consumers := iteration.consumers.map fun consumer =>
            { name := consumer.name
              energyAllocatedPercentage := consumer.energyAllocatedPercentage
              idCommunity := communityId } } }

/-! ### The size limit -/

/-- `MAX_PROBLEM_CELLS`. -/
def maxProblemCells : ℕ := 400000

/-- The detail to report when the input exceeds the limit. -/
def tooLarge (participants timesteps : ℕ) : Option String :=
  let cells := participants * timesteps
  if cells ≤ maxProblemCells then none
  else some <| s!"{participants} participants x {timesteps} timesteps = {cells} values exceed "
    ++ s!"the {maxProblemCells} limit; shorten the period or reduce the participants"

/-! ### What is published about a generation -/

inductive AuditAction where
  | generationCreated
  | generationQueueFailed
  | generationSucceeded
  | generationFailed
  | generationDeleted
  | allocationKeySaved
  | allocationKeyGeneratedDeleted
  deriving DecidableEq, Repr

/-- The code an action is stored as. -/
def AuditAction.code : AuditAction → String
  | .generationCreated => "allocation_key_generation.generation.created"
  | .generationQueueFailed => "allocation_key_generation.generation.queue_failed"
  | .generationSucceeded => "allocation_key_generation.generation.succeeded"
  | .generationFailed => "allocation_key_generation.generation.failed"
  | .generationDeleted => "allocation_key_generation.generation.deleted"
  | .allocationKeySaved => "allocation_key_generation.allocation_key.saved"
  | .allocationKeyGeneratedDeleted =>
      "allocation_key_generation.allocation_key_generated.deleted"

inductive PayloadValue where
  | text (value : String)
  | number (value : ℤ)
  | missing
  deriving DecidableEq, Repr

def PayloadValue.ofOption : Option String → PayloadValue
  | none => .missing
  | some value => .text value

structure AuditLogInput where
  action : AuditAction
  entityType : String
  entityId : String
  payload : List (String × PayloadValue)
  deriving DecidableEq, Repr

/-- An audit entry tells of a final status: the end of a generation. -/
def AuditLogInput.Tells (entry : AuditLogInput) : GenerationStatus → Prop
  | .success => entry.action = .generationSucceeded
  | .failed => entry.action = .generationFailed ∨ entry.action = .generationQueueFailed
  | .pending => False

/-- `generation.finished`, addressed to the managers of a community. -/
structure RealtimeEvent where
  topic : String
  communityId : ℤ
  resource : String × ℤ
  hint : String
  deriving DecidableEq, Repr

/-- The counters the pipeline adds to. -/
inductive Metric where
  | generationsCreated (algorithm : String)
  | generationsCompleted (algorithm status : String)
  | generationDuration (algorithm status : String)
  | workerMessages (algorithm outcome : String)
  deriving DecidableEq, Repr

end AllocationKeys.Generation
