import AllocationKeys.Generation.Store

/-!
# Saving the end of a generation

The sessions of `core/database`, and `worker/persistence.py`: `save_success` and `save_failure`
claim the row with a conditional `UPDATE`, commit, and only then count, audit and announce the
end. Either returns silently when the row is gone or no longer pending.
-/

namespace AllocationKeys.Generation

open Algorithms Program

variable {S : Services} {K α : Type}

/-! ### Calls -/

abbrev Pipeline (S : Services) (K : Type) : Type → Type := Program (Op S K) (Resp S K) Exc

def get (generationId : ℤ) : Pipeline S K (Option (GenerationModel S)) :=
  .call (.get generationId) Program.ofExcept

/-- The row count of the conditional `UPDATE`. -/
def updateWherePending (generationId : ℤ) (status : GenerationStatus)
    (errorMessage : Option String) : Pipeline S K ℕ :=
  .call (.updateWherePending generationId status errorMessage) Program.ofExcept

def flushUpdate (generationId : ℤ) : Pipeline S K Unit :=
  .call (.flushUpdate generationId) Program.ofExcept

def commit (write : Write S K) : Pipeline S K Unit := .call (.commit write) Program.ofExcept

def stageAudit (entry : AuditLogInput) : Pipeline S K Bool := ask (Op.stageAudit entry)

def commitCrm (staged : List AuditLogInput) : Pipeline S K Unit :=
  .call (.commitCrm staged) Program.ofExcept

def addMetric (metric : Metric) : Pipeline S K Unit := ask (Op.addMetric metric)

def emit (event : RealtimeEvent) : Pipeline S K Unit := ask (Op.emit event)

/-- `CrmMeterRepository.summarize`. -/
def summarize (communityId sharingOperationId : ℤ) (periodStart periodEnd : S.Date) :
    Pipeline S K S.Summary :=
  .call (.summarize communityId sharingOperationId periodStart periodEnd) Program.ofExcept

/-- `storage.delete`, which swallows its errors. -/
def delete (key : String) : Pipeline S K Unit := ask (Op.delete key)

/-- `async with AsyncSessionLocalFactory() as session`: the session is closed however the body
ends. -/
def withLocalSession (body : Pipeline S K α) : Pipeline S K α := do
  let out ← body.attempt
  ask Op.close
  Program.ofExcept out

theorem calls_withLocalSession {may : Op S K → Prop} {body : Pipeline S K α} (hclose : may .close)
    (h : body.Calls may) : (withLocalSession body).Calls may :=
  h.attempt.bind fun out => Calls.bind (calls_ask hclose) fun _ => calls_ofExcept out

/-- An audit entry in a CRM session of its own. `log` swallows its errors: what could not be
staged is missing from the commit. -/
def logAudit (entry : AuditLogInput) : Pipeline S K Unit := do
  let staged ← stageAudit entry
  commitCrm (if staged then [entry] else [])

/-- `s[:length]`. -/
def truncate (length : ℕ) (s : String) : String := String.ofList (s.toList.take length)

/-- `_ERROR_MESSAGE_MAX_LEN`. -/
def errorMessageMaxLen : ℕ := 2000

/-- The event both helpers end with. -/
def finished (generationId communityId : ℤ) (status : GenerationStatus) : RealtimeEvent where
  topic := "generation.finished"
  communityId := communityId
  resource := ("generation", generationId)
  hint := status.text

/-! ### The two helpers -/

/-- The session of both helpers: claim the row, add the result rows, commit, and count. It
returns the generation when this call was the one that claimed it. -/
def claimOutcome (generationId : ℤ) (status : GenerationStatus) (errorMessage : Option String)
    (keyRows : GenerationModel S → List (AllocationKeyGeneratedModel K)) :
    Pipeline S K (Option (GenerationModel S)) :=
  withLocalSession do
    let generation ← get generationId
    match generation with
    | none => pure none
    | some generation => do
        let rowcount ← updateWherePending generationId status errorMessage
        if rowcount = 0 then pure none
        else do
          commit (.outcome status errorMessage (keyRows generation))
          addMetric (.generationsCompleted generation.algorithmName status.text)
          pure (some generation)

/-- What both helpers do, with the status, the message, the rows and the audit entry of each. -/
def saveOutcome (generationId : ℤ) (status : GenerationStatus) (errorMessage : Option String)
    (keyRows : GenerationModel S → List (AllocationKeyGeneratedModel K))
    (audit : GenerationModel S → AuditLogInput) : Pipeline S K Unit := do
  let claimed ← claimOutcome generationId status errorMessage keyRows
  match claimed with
  | none => pure ()
  | some generation => do
      logAudit (audit generation)
      emit (finished generationId generation.idCommunity status)

/-- The calls of the helpers. -/
def Op.OfSave : Op S K → Prop
  | .get _ | .updateWherePending .. | .commit (.outcome ..) | .close | .addMetric _ | .stageAudit _
  | .commitCrm _ | .emit _ => True
  | _ => False

theorem calls_saveOutcome (generationId : ℤ) (status : GenerationStatus)
    (errorMessage : Option String)
    (keyRows : GenerationModel S → List (AllocationKeyGeneratedModel K))
    (audit : GenerationModel S → AuditLogInput) :
    (saveOutcome generationId status errorMessage keyRows audit).Calls Op.OfSave := by
  have hclaim : (claimOutcome generationId status errorMessage keyRows).Calls Op.OfSave := by
    refine calls_withLocalSession trivial (Calls.bind (calls_call trivial) fun generation => ?_)
    split
    · trivial
    · refine Calls.bind (calls_call trivial) fun rowcount => ?_
      split
      · trivial
      · exact Calls.bind (calls_call trivial) fun _ =>
          Calls.bind (calls_ask trivial) fun _ => trivial
  refine hclaim.bind fun claimed => ?_
  split
  · trivial
  · have hlog : ∀ entry, (logAudit entry : Pipeline S K Unit).Calls Op.OfSave := fun entry =>
      Calls.bind (calls_ask trivial) fun _ => calls_call trivial
    exact (hlog _).bind fun _ => calls_ask trivial

/-- Persist a successful run: build the result tree and flip the status. -/
def saveSuccess [Zero K] [Add K] (generationId : ℤ) (result : AlgorithmResult K) :
    Pipeline S K Unit :=
  saveOutcome generationId .success none
    (fun generation => resultRows generationId generation.idCommunity result)
    (fun generation =>
      { action := .generationSucceeded
        entityType := "generation"
        entityId := toString generationId
        payload :=
          [("algorithm_name", .text generation.algorithmName),
            ("key_count", .number result.keys.length)] })

/-- Mark a generation as failed with the given message. -/
def saveFailure (generationId : ℤ) (errorMessage : String) : Pipeline S K Unit :=
  let message := truncate errorMessageMaxLen errorMessage
  saveOutcome generationId .failed (some message) (fun _ => [])
    (fun generation =>
      { action := .generationFailed
        entityType := "generation"
        entityId := toString generationId
        payload :=
          [("algorithm_name", .text generation.algorithmName),
            ("error_message", .text message)] })

end AllocationKeys.Generation
