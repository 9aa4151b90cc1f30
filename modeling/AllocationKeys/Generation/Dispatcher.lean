import AllocationKeys.Generation.Persistence

/-!
# Handling a message

`worker/dispatcher.py`: one delivery of a message, from the decoding of its event to the ack or
the nak. `process` is the pipeline; it returns when the message is done with (`Terminal`), and
raises `Exc.transient` when it must be delivered again.

The in-progress acks sent meanwhile only delay another delivery, and another delivery is possible
at any time here, so they are left out; so are the limits on concurrency.
-/

namespace AllocationKeys.Generation

open Algorithms Program

variable {S : Services} {K : Type}

/-! ### Calls -/

def download (key : String) : Pipeline S K S.Content := .call (.download key) Program.ofExcept

def fetchRows (communityId sharingOperationId : ℤ) (periodStart periodEnd : S.Date) :
    Pipeline S K S.Rows :=
  .call (.fetchRows communityId sharingOperationId periodStart periodEnd) Program.ofExcept

def solve (algorithm : String) (inputs : S.AlgoInput) (rawData : S.RawData) :
    Pipeline S K (AlgorithmResult K) :=
  .call (.solve algorithm inputs rawData) Program.ofExcept

def ack : Pipeline S K Unit := .call .ack Program.ofExcept

def nak (delay : ℕ) : Pipeline S K Unit := .call (.nak delay) Program.ofExcept

/-! ### One delivery -/

/-- `_NAK_RETRY_DELAY_SECONDS`. -/
def nakRetryDelaySeconds : ℕ := 30

/-- `_MAX_SOLVER_CRASH_DELIVERIES`. -/
def maxSolverCrashDeliveries : ℕ := 3

/-- `_MAX_DELIVERIES`. -/
def maxDeliveries : ℕ := 10

/-- A delivery: the data of the message and, when it can be read, the delivery count. -/
structure Msg (S : Services) where
  data : S.Data
  numDelivered : Option ℕ

/-- The row as `process` keeps it. -/
structure GenerationSnapshot (S : Services) where
  id : ℤ
  source : DataSource
  fileStorageKey : Option String
  fileName : Option String
  injectionName : Option String
  idSharingOperation : Option ℤ
  periodStart : Option S.Date
  periodEnd : Option S.Date
  inputs : S.Inputs
  idCommunity : ℤ
  status : GenerationStatus

def GenerationSnapshot.ofRow (id : ℤ) (row : GenerationModel S) : GenerationSnapshot S where
  id := id
  source := row.source
  fileStorageKey := row.fileStorageKey
  fileName := row.fileName
  injectionName := row.injectionName
  idSharingOperation := row.idSharingOperation
  periodStart := row.periodStart
  periodEnd := row.periodEnd
  inputs := row.inputs
  idCommunity := row.idCommunity
  status := row.status

/-- A terminal outcome, with the object to delete. -/
structure Terminal where
  storageKey : Option String

def snapshotGeneration (generationId : ℤ) : Pipeline S K (Option (GenerationSnapshot S)) :=
  withLocalSession do
    let row ← get generationId
    pure (row.map (GenerationSnapshot.ofRow generationId))

/-- The exits that mark the row as failed. -/
def failWith (generationId : ℤ) (errorMessage : String) (storageKey : Option String) :
    Pipeline S K Terminal := do
  saveFailure generationId errorMessage
  pure ⟨storageKey⟩

/-- Download the uploaded object and parse it. -/
def loadFromFile (snapshot : GenerationSnapshot S) :
    Pipeline S K (Except Terminal S.RawData) :=
  match snapshot.fileStorageKey, snapshot.fileName with
  | some storageKey, some fileName => do
      let content ← (download storageKey).attempt
      match content with
      | .error (.objectNotFound _) =>
          Except.error <$> failWith snapshot.id "storage_object_missing" none
      | .error (.transientStorageError detail) => throw (.transient s!"storage download: {detail}")
      | .error e => throw e
      | .ok content =>
          match S.load content fileName (snapshot.injectionName.getD "") with
          | .ok rawData => pure (.ok rawData)
          | .error (.classified detail) =>
              Except.error <$> failWith snapshot.id s!"parse_failed: {detail}" storageKey
          | .error (.unexpected detail) =>
              Except.error <$> failWith snapshot.id s!"parse_failed_unexpected: {detail}" storageKey
  | _, _ => Except.error <$> failWith snapshot.id "file_source_incomplete" none

/-- Read the meters of the sharing operation over the period. -/
def loadFromCrm (snapshot : GenerationSnapshot S) :
    Pipeline S K (Except Terminal S.RawData) :=
  match snapshot.idSharingOperation, snapshot.periodStart, snapshot.periodEnd with
  | some idSharingOperation, some periodStart, some periodEnd => do
      let read ← attempt do
        let summary ← summarize snapshot.idCommunity idSharingOperation periodStart periodEnd
        let rows ←
          (if (S.blockers summary).isEmpty then
            some <$> fetchRows snapshot.idCommunity idSharingOperation periodStart periodEnd
          else pure none)
        pure (summary, rows)
      match read with
      | .error e => throw (.transient s!"crm read: {e.str}")
      | .ok (summary, none) =>
          let detail := "; ".intercalate ((S.blockers summary).map Blocker.detail)
          Except.error <$> failWith snapshot.id s!"crm_data_rejected: {detail}" none
      | .ok (summary, some rows) =>
          match S.pivot rows summary with
          | .ok rawData => pure (.ok rawData)
          | .error (.classified detail) =>
              Except.error <$> failWith snapshot.id s!"crm_pivot_failed: {detail}" none
          | .error (.unexpected detail) =>
              Except.error <$> failWith snapshot.id s!"crm_pivot_failed_unexpected: {detail}" none
  | _, _, _ => Except.error <$> failWith snapshot.id "crm_source_incomplete" none

/-- Steps 2 and 3 of `process`: two sources, one output. -/
def loadRawData (snapshot : GenerationSnapshot S) : Pipeline S K (Except Terminal S.RawData) :=
  match snapshot.source with
  | .crm => loadFromCrm snapshot
  | .file => loadFromFile snapshot

/-- One run of the algorithm; a dead process of the pool is a solver crash. -/
def runAlgorithm (algorithm : String) (inputs : S.AlgoInput) (rawData : S.RawData) :
    Pipeline S K (AlgorithmResult K) :=
  tryCatch (solve algorithm inputs rawData) fun e => match e with
    | .brokenExecutor detail => throw (.solverCrash detail)
    | e => throw e

/-- Retry a solver crash on a later delivery, up to a point. -/
def afterSolverCrash (generationId : ℤ) (numDelivered : Option ℕ) (detail : String)
    (storageKey : Option String) : Pipeline S K Terminal :=
  match numDelivered with
  | none =>
      failWith generationId
        s!"solver_crashed (likely out of memory) on delivery unknown: {detail}" storageKey
  | some delivered =>
      if delivered < maxSolverCrashDeliveries then
        throw (.transient
          s!"solver crashed on delivery {delivered} of {maxSolverCrashDeliveries}: {detail}")
      else
        failWith generationId
          s!"solver_crashed (likely out of memory) on delivery {delivered}: {detail}" storageKey

section Process

variable [Zero K] [Add K]

/-- Steps 5 and 6 of `process`: run the algorithm and persist its result. -/
def solveAndSave (algorithm : String) (generationId : ℤ) (numDelivered : Option ℕ)
    (storageKey : Option String) (inputs : S.AlgoInput) (rawData : S.RawData) :
    Pipeline S K Terminal := do
  let result ← (runAlgorithm algorithm inputs rawData).attempt
  match result with
  | .error (.solverCrash detail) => do
      addMetric (.generationDuration algorithm "failed")
      afterSolverCrash generationId numDelivered detail storageKey
  | .error e => do
      addMetric (.generationDuration algorithm "failed")
      failWith generationId s!"algorithm_failed: {e.str}" storageKey
  | .ok result => do
      addMetric (.generationDuration algorithm "success")
      let saved ← (saveSuccess generationId result).attempt
      match saved with
      | .error e => throw (.transient s!"persist failed: {e.str}")
      | .ok () => pure ⟨storageKey⟩

/-- The pipeline for a single generation message. -/
def process (metadata : AlgorithmMetadata S) (generationId : ℤ) (numDelivered : Option ℕ) :
    Pipeline S K Terminal := do
  let snapshot ← snapshotGeneration generationId
  match snapshot with
  | none => pure ⟨none⟩
  | some snapshot =>
      let storageKey := snapshot.fileStorageKey
      if snapshot.status ≠ .pending then pure ⟨storageKey⟩
      else
        match numDelivered.filter (maxDeliveries ≤ ·) with
        | some delivered =>
            let detail := s!"delivery_limit_reached: delivery {delivered}, the earlier ones ended "
              ++ "without a result (transient failures, or the worker stopped mid-run)"
            failWith generationId detail storageKey
        | none => do
            let loaded ← loadRawData snapshot
            match loaded with
            | .error terminal => pure terminal
            | .ok rawData =>
                let (numParticipants, numTimesteps) := S.shape rawData
                match tooLarge numParticipants numTimesteps with
                | some oversize =>
                    failWith generationId s!"problem_too_large: {oversize}" storageKey
                | none =>
                    match metadata.validate snapshot.inputs with
                    | .error detail =>
                        failWith generationId s!"invalid_inputs: {detail}" storageKey
                    | .ok algoInput =>
                        if S.implemented metadata.name then
                          solveAndSave metadata.name generationId numDelivered storageKey
                            algoInput rawData
                        else
                          failWith generationId s!"implementation_missing: {metadata.name}"
                            storageKey

/-- Best-effort delete. -/
def deleteSafely (key : String) : Pipeline S K Unit := delete key

/-- Decode one message, run the pipeline, and ack or nak. -/
def handleMessage (metadata : AlgorithmMetadata S) (msg : Msg S) : Pipeline S K Unit :=
  match S.decode msg.data with
  | none => do
      ack
      addMetric (.workerMessages metadata.name "drop_decode")
  | some event =>
      match event.generationId with
      | none => do
          ack
          addMetric (.workerMessages metadata.name "drop_invalid_id")
      | some generationId => do
          let outcome ← (process metadata generationId msg.numDelivered).attempt
          match outcome with
          | .error (.transient _) => do
              nak nakRetryDelaySeconds
              addMetric (.workerMessages metadata.name "nak")
          | .error _ => do
              saveFailure generationId "unhandled_worker_error"
              ack
              addMetric (.workerMessages metadata.name "ack_unhandled")
          | .ok terminal => do
              ack
              match terminal.storageKey with
              | some storageKey => deleteSafely storageKey
              | none => pure ()

end Process

end AllocationKeys.Generation
