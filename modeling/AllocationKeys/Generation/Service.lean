import AllocationKeys.Generation.Persistence

/-!
# The requests about a generation

`api/generation/service.py`: the two requests that create a generation and queue its message, and
the user's deletions. Each runs in a session of its request; `_mark_failed_to_queue` opens a fresh
one, loads the row, changes it and saves it.

The audit entries of the requests are staged on the CRM session of the request.
-/

namespace AllocationKeys.Generation

open Algorithms Program

variable {S : Services} {K : Type}

/-! ### Calls -/

def flushInsert (row : GenerationModel S) : Pipeline S K ℤ :=
  .call (.flushInsert row) Program.ofExcept

def flushDelete (generationId : ℤ) : Pipeline S K Unit :=
  .call (.flushDelete generationId) Program.ofExcept

def flushDeleteKey (id : ℕ) : Pipeline S K Unit :=
  .call (.flushDeleteKey id) Program.ofExcept

def select (generationId : ℤ) (scope : Option ℤ) : Pipeline S K (Option (GenerationModel S)) :=
  .call (.select generationId scope) Program.ofExcept

def selectKey (id : ℕ) (scope : Option ℤ) :
    Pipeline S K (Option (AllocationKeyGeneratedModel K)) :=
  .call (.selectKey id scope) Program.ofExcept

def sharingOperationExists (communityId sharingOperationId : ℤ) : Pipeline S K Bool :=
  .call (.sharingOperationExists communityId sharingOperationId) Program.ofExcept

def upload (key : String) (content : S.Content) : Pipeline S K Unit :=
  .call (.upload key content) Program.ofExcept

def publish (subject : String) (data : S.Data) : Pipeline S K Unit :=
  .call (.publish subject data) Program.ofExcept

/-! ### Creating a generation -/

structure GenerateRequest (S : Services) where
  name : String
  algorithmName : String
  injectionName : Option String
  inputs : S.Inputs

/-- An upload, with the `uuid4` drawn for its key. -/
structure UploadFile (S : Services) where
  filename : Option String
  content : S.Content
  uuid : String

structure GenerateFromCrmRequest (S : Services) where
  name : String
  algorithmName : String
  idSharingOperation : ℤ
  periodStart : S.Date
  periodEnd : S.Date
  inputs : S.Inputs

/-- Delete the object on the rollback paths. -/
def bestEffortDelete (storageKey : String) : Pipeline S K Unit := delete storageKey

/-- The session of `_mark_failed_to_queue`: load the row, change it, save it, and count. -/
def saveFailedToQueue (generationId : ℤ) (reason : String) :
    Pipeline S K (Option (GenerationModel S)) :=
  withLocalSession do
    let row ← get generationId
    match row with
    | none => pure none
    | some row => do
        flushUpdate generationId
        commit (.save .failed (some (truncate 2000 s!"failed_to_queue: {reason}")))
        addMetric (.generationsCompleted row.algorithmName "failed")
        pure (some row)

/-- Mark a generation as failed after a publish failure. -/
def markFailedToQueue (generationId : ℤ) (reason : String) : Pipeline S K Unit := do
  let marked ← saveFailedToQueue generationId reason
  match marked with
  | none => pure ()
  | some row =>
      logAudit
        { action := .generationQueueFailed
          entityType := "generation"
          entityId := toString generationId
          payload :=
            [("reason", .text (truncate 500 reason)),
              ("algorithm_name", .text row.algorithmName)] }

/-- Insert the row and commit. -/
def createGeneration (row : GenerationModel S) : Pipeline S K ℤ := do
  let generationId ← flushInsert row
  commit (.insert row)
  pure generationId

/-- Publish the event, and mark the row as failed when that raises. -/
def queueGeneration (metadata : AlgorithmMetadata S) (generationId : ℤ)
    (cleanup : Pipeline S K Unit) : Pipeline S K ℤ := do
  let event : Event :=
    { type := "generation.requested", version := 1, generationId := some generationId }
  let published ← (publish metadata.queue (S.encode event)).attempt
  match published with
  | .error e => do
      markFailedToQueue generationId e.str
      cleanup
      throw (.errorException "ERRORS.GENERATION.START_GENERATION" 500)
  | .ok () => pure generationId

/-- The calls that queue a generation, or mark it as failed. -/
def Op.OfQueueing (generationId : ℤ) : Op S K → Prop
  | .get id | .flushUpdate id => id = generationId
  | .commitCrm staged => ∀ entry ∈ staged, entry.action = .generationQueueFailed
  | .commit (.save ..) | .close | .addMetric _ | .stageAudit _ | .publish .. => True
  | _ => False

theorem calls_markFailedToQueue (generationId : ℤ) (reason : String) :
    (markFailedToQueue generationId reason : Pipeline S K Unit).Calls
      (Op.OfQueueing generationId) := by
  refine Calls.bind (calls_withLocalSession trivial ?_) fun marked => ?_
  · refine Calls.bind (calls_call rfl) fun row => ?_
    cases row with
    | none => trivial
    | some row =>
      refine Calls.bind (calls_call rfl) fun _ => Calls.bind (calls_call trivial) fun _ => ?_
      exact Calls.bind (calls_ask trivial) fun _ => trivial
  · cases marked with
    | none => trivial
    | some row =>
      refine Calls.bind (calls_ask trivial) fun staged => calls_call fun entry hentry => ?_
      cases staged with
      | false => cases hentry
      | true =>
        rw [List.mem_singleton.mp hentry]

theorem calls_queueGeneration {may : Op S K → Prop} {generationId : ℤ}
    (hmay : ∀ o, Op.OfQueueing generationId o → may o) (metadata : AlgorithmMetadata S)
    {cleanup : Pipeline S K Unit} (hcleanup : cleanup.Calls may) :
    (queueGeneration metadata generationId cleanup).Calls may := by
  refine Calls.bind (Calls.attempt (calls_call (hmay _ (by trivial)))) fun published => ?_
  split
  · refine ((calls_markFailedToQueue generationId _).mono hmay).bind fun _ => ?_
    exact hcleanup.bind fun _ => trivial
  · trivial

/-- The upload, the row and the message of a request that has passed its checks. -/
def uploadAndQueue (metadata : AlgorithmMetadata S) (req : GenerateRequest S)
    (file : UploadFile S) (communityId : ℤ) (validatedInputs : S.AlgoInput) (fileName : String) :
    Pipeline S K ℤ := do
  let storageKey := s!"allocations/{communityId}/{file.uuid}/{fileName}"
  let uploaded ← (upload storageKey file.content).attempt
  match uploaded with
  | .error _ => throw (.errorException "ERRORS.GENERATION.STORAGE_UPLOAD_FAILED" 502)
  | .ok () => do
      let row : GenerationModel S :=
        { name := req.name
          idCommunity := communityId
          source := .file
          fileStorageKey := storageKey
          fileName := fileName
          injectionName := req.injectionName
          idSharingOperation := none
          periodStart := none
          periodEnd := none
          algorithmName := metadata.name
          algorithmVersion := metadata.version
          inputs := metadata.dump validatedInputs
          status := .pending
          errorMessage := none
          dataWarnings := none }
      let created ← (createGeneration row).attempt
      match created with
      | .error e => do
          bestEffortDelete storageKey
          throw e
      | .ok generationId => do
          addMetric (.generationsCreated metadata.name)
          let _ ← stageAudit
            { action := .generationCreated
              entityType := "generation"
              entityId := toString generationId
              payload :=
                [("name", .text req.name),
                  ("algorithm_name", .text metadata.name),
                  ("algorithm_version", .text metadata.version),
                  ("file_name", .text fileName),
                  ("injection_name", .ofOption req.injectionName)] }
          queueGeneration metadata generationId (bestEffortDelete storageKey)

/-- The file is too large for the solver, as far as it can be counted before it is parsed: one
column is the injection, every other one a participant. -/
def oversized (content : S.Content) (fileName : String) : Bool :=
  match S.measure content fileName with
  | some (columns, dataRows) => (tooLarge (columns - 1) dataRows).isSome
  | none => false

variable (registry : String → Option (AlgorithmMetadata S))

/-- Upload the source file, persist the row, publish the event. -/
def startGeneration (req : GenerateRequest S) (file : UploadFile S) (communityId : ℤ) :
    Pipeline S K ℤ :=
  match registry req.algorithmName with
  | none => throw (.errorException "ERRORS.GENERATION.ALGORITHM.NOT_FOUND" 404)
  | some metadata =>
      match metadata.validate req.inputs with
      | .error _ => throw (.errorException "ERRORS.GENERATION.INVALID_ALGORITHM_INPUTS" 422)
      | .ok validatedInputs =>
          let fileName := (file.filename.filter (· ≠ "")).getD "uploaded-file"
          if !S.withinCap file.content then
            throw (.errorException "ERRORS.GENERATION.FILE_TOO_LARGE" 413)
          else if S.isEmpty file.content then
            throw (.errorException "ERRORS.GENERATION.INVALID_FILE" 422)
          else if oversized file.content fileName then
            throw (.errorException "ERRORS.GENERATION.PROBLEM_TOO_LARGE" 422)
          else uploadAndQueue metadata req file communityId validatedInputs fileName

/-- `preview_crm_data`: the summary of a period, which `crm_preflight.evaluate` classifies. -/
def previewCrmData (idSharingOperation : ℤ) (periodStart periodEnd : S.Date) (communityId : ℤ) :
    Pipeline S K S.Summary :=
  if S.after periodStart periodEnd then
    throw (.errorException "ERRORS.GENERATION.INVALID_PERIOD" 422)
  else do
    let known ← sharingOperationExists communityId idSharingOperation
    if known then summarize communityId idSharingOperation periodStart periodEnd
    else throw (.errorException "ERRORS.GENERATION.SHARING_OPERATION_NOT_FOUND" 404)

/-- Queue a generation that reads its input from the CRM. -/
def startGenerationFromCrm (req : GenerateFromCrmRequest S) (communityId : ℤ) :
    Pipeline S K ℤ :=
  match registry req.algorithmName with
  | none => throw (.errorException "ERRORS.GENERATION.ALGORITHM.NOT_FOUND" 404)
  | some metadata =>
      match metadata.validate req.inputs with
      | .error _ => throw (.errorException "ERRORS.GENERATION.INVALID_ALGORITHM_INPUTS" 422)
      | .ok validatedInputs => do
          let summary ← previewCrmData req.idSharingOperation req.periodStart req.periodEnd
            communityId
          match S.blockers summary with
          | first :: _ => throw (.errorException first.error 422)
          | [] => do
              let row : GenerationModel S :=
                { name := req.name
                  idCommunity := communityId
                  source := .crm
                  fileStorageKey := none
                  fileName := none
                  injectionName := none
                  idSharingOperation := req.idSharingOperation
                  periodStart := req.periodStart
                  periodEnd := req.periodEnd
                  algorithmName := metadata.name
                  algorithmVersion := metadata.version
                  inputs := metadata.dump validatedInputs
                  status := .pending
                  errorMessage := none
                  dataWarnings := S.warnings summary }
              let generationId ← createGeneration row
              addMetric (.generationsCreated metadata.name)
              let _ ← stageAudit
                { action := .generationCreated
                  entityType := "generation"
                  entityId := toString generationId
                  payload :=
                    [("name", .text req.name),
                      ("algorithm_name", .text metadata.name),
                      ("algorithm_version", .text metadata.version),
                      ("source", .text "CRM"),
                      ("id_sharing_operation", .number req.idSharingOperation),
                      ("period_start", .text (S.isoformat req.periodStart)),
                      ("period_end", .text (S.isoformat req.periodEnd))] }
              queueGeneration metadata generationId (pure ())

/-! ### Deleting -/

/-- How the audit entry names a status. -/
def GenerationStatus.name : GenerationStatus → String
  | .pending => "PENDING"
  | .success => "SUCCESS"
  | .failed => "FAILED"

/-- `delete_generation`, for a request in the scope of a community. -/
def deleteGeneration (idGeneration : ℤ) (scope : Option ℤ) : Pipeline S K Unit := do
  let generation ← select idGeneration scope
  match generation with
  | none => throw (.errorException "ERRORS.GENERATION.GENERATION_NOT_FOUND" 400)
  | some generation => do
      flushDelete idGeneration
      commit .delete
      let _ ← stageAudit
        { action := .generationDeleted
          entityType := "generation"
          entityId := toString idGeneration
          payload :=
            [("algorithm_name", .text generation.algorithmName),
              ("status", .text generation.status.name)] }

/-- `delete_key`, for a request in the scope of a community. -/
def deleteKey (idKey : ℕ) (scope : Option ℤ) : Pipeline S K Unit := do
  let key ← selectKey idKey scope
  match key with
  | none => throw (.errorException "ERRORS.GENERATION.ALLOCATION_KEY_NOT_FOUND" 400)
  | some key => do
      flushDeleteKey idKey
      commit (.deleteKey idKey)
      let _ ← stageAudit
        { action := .allocationKeyGeneratedDeleted
          entityType := "allocation_key_generated"
          entityId := toString idKey
          payload := [("name", .text key.name), ("id_generation", .number key.idGeneration)] }

/-- The calls of the deletions. -/
def Op.OfDeletion : Op S K → Prop
  | .select .. | .selectKey .. | .flushDelete _ | .flushDeleteKey _ | .commit .delete
  | .commit (.deleteKey _) | .stageAudit _ => True
  | _ => False

theorem calls_deleteGeneration (idGeneration : ℤ) (scope : Option ℤ) :
    (deleteGeneration idGeneration scope : Pipeline S K Unit).Calls Op.OfDeletion := by
  refine Calls.bind (calls_call trivial) fun generation => ?_
  cases generation with
  | none => trivial
  | some generation =>
    refine Calls.bind (calls_call trivial) fun _ => Calls.bind (calls_call trivial) fun _ => ?_
    exact Calls.bind (calls_ask trivial) fun _ => trivial

theorem calls_deleteKey (idKey : ℕ) (scope : Option ℤ) :
    (deleteKey idKey scope : Pipeline S K Unit).Calls Op.OfDeletion := by
  refine Calls.bind (calls_call trivial) fun key => ?_
  cases key with
  | none => trivial
  | some key =>
    refine Calls.bind (calls_call trivial) fun _ => Calls.bind (calls_call trivial) fun _ => ?_
    exact Calls.bind (calls_ask trivial) fun _ => trivial

end AllocationKeys.Generation
