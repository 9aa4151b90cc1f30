import AllocationKeys.Generation.Cleanup
import AllocationKeys.Lib.Given

/-!
# Where the results of a generation come from

A worker knows of a generation what it is told: the row it reads from the database, the object it
downloads, the figures of the CRM. What it runs the algorithm on is made of these answers, and the
answers are what the request of the user has left: the row it inserted and the file it uploaded.

* `Asks`: what each role may call, given true answers; a delivery solves only what was `Handed`;
* `grounded_documented`: these calls keep the row and the object those of the request, and a log of
  what the algorithm was run on;
* `results_of_request`: every result row of a generation, in every state of every run, belongs to a
  result that the algorithm has returned for the file, the names and the inputs of the request.
-/

namespace AllocationKeys.Generation

open Algorithms Concurrent Program

variable {S : Services} {K α : Type} {gid : ℤ} {t : ℕ}
  {registry : String → Option (AlgorithmMetadata S)} {request : Role S}

/-! ### What a request leaves -/

/-- The row of an upload. -/
def uploadRow (metadata : AlgorithmMetadata S) (req : GenerateRequest S) (file : UploadFile S)
    (communityId : ℤ) (validatedInputs : S.AlgoInput) : GenerationModel S where
  name := req.name
  idCommunity := communityId
  source := .file
  fileStorageKey := storageKey file communityId
  fileName := (file.filename.filter (· ≠ "")).getD "uploaded-file"
  injectionName := req.injectionName
  idSharingOperation := none
  periodStart := none
  periodEnd := none
  algorithmName := metadata.name
  algorithmVersion := metadata.version
  inputs := metadata.dump validatedInputs
  status := .pending
  errorMessage := none
  dataWarnings := none

/-- The row of a CRM period. -/
def crmRow (metadata : AlgorithmMetadata S) (req : GenerateFromCrmRequest S) (communityId : ℤ)
    (validatedInputs : S.AlgoInput) (summary : S.Summary) : GenerationModel S where
  name := req.name
  idCommunity := communityId
  source := .crm
  fileStorageKey := none
  fileName := none
  injectionName := none
  idSharingOperation := req.idSharingOperation
  periodStart := req.periodStart
  periodEnd := req.periodEnd
  algorithmName := metadata.name
  algorithmVersion := metadata.version
  inputs := metadata.dump validatedInputs
  status := .pending
  errorMessage := none
  dataWarnings := S.warnings summary

/-- The rows a request may insert. -/
def Requested (registry : String → Option (AlgorithmMetadata S)) :
    Role S → GenerationModel S → Prop
  | .startGeneration req file communityId, row => ∃ metadata validatedInputs,
      registry req.algorithmName = some metadata ∧
        metadata.validate req.inputs = .ok validatedInputs ∧
        row = uploadRow metadata req file communityId validatedInputs
  | .startGenerationFromCrm req communityId, row => ∃ metadata validatedInputs summary,
      registry req.algorithmName = some metadata ∧
        metadata.validate req.inputs = .ok validatedInputs ∧ S.blockers summary = [] ∧
        row = crmRow metadata req communityId validatedInputs summary
  | _, _ => False

theorem Requested.community {model model' : GenerationModel S}
    (h : Requested registry request model) (h' : Requested registry request model') :
    model.idCommunity = model'.idCommunity := by
  cases request with
  | startGeneration req file communityId =>
    obtain ⟨_, _, -, -, rfl⟩ := h
    obtain ⟨_, _, -, -, rfl⟩ := h'
    rfl
  | startGenerationFromCrm req communityId =>
    obtain ⟨_, _, _, -, -, -, rfl⟩ := h
    obtain ⟨_, _, _, -, -, -, rfl⟩ := h'
    rfl
  | _ => exact h.elim

/-- The object a request uploads. -/
def Uploads : Role S → String × S.Content → Prop
  | .startGeneration _ file communityId, object =>
      object = (storageKey file communityId, file.content)
  | _, _ => False

/-! ### What the algorithm is run on -/

/-- The matrices of a row: parsed from the uploaded file, or pivoted from readings of the CRM that
nothing speaks against. -/
def Read (request : Role S) (model : GenerationModel S) (rawData : S.RawData) : Prop :=
  match model.source with
  | .file => ∃ key content fileName, model.fileStorageKey = some key ∧
      model.fileName = some fileName ∧ Uploads request (key, content) ∧
      S.load content fileName (model.injectionName.getD "") = .ok rawData
  | .crm => ∃ rows summary, S.blockers summary = [] ∧ S.pivot rows summary = .ok rawData

/-- What the algorithm is run on: the data and the validated inputs of the request. -/
structure Handed (registry : String → Option (AlgorithmMetadata S)) (request : Role S)
    (metadata : AlgorithmMetadata S) (inputs : S.AlgoInput) (rawData : S.RawData)
    (model : GenerationModel S) : Prop where
  requested : Requested registry request model
  valid : metadata.validate model.inputs = .ok inputs
  read : Read request model rawData
  fits : tooLarge (S.shape rawData).1 (S.shape rawData).2 = none
  implemented : S.implemented metadata.name = true

/-- The row and the object are those of the request. -/
structure Sourced (registry : String → Option (AlgorithmMetadata S)) (request : Role S)
    (w : World S K) : Prop where
  row : ∀ row ∈ w.row, ∃ model, Requested registry request model ∧ model.Same row
  object : ∀ object ∈ w.object, Uploads request object

/-- The answers a delivery works with. -/
def Truthful (gid : ℤ) (registry : String → Option (AlgorithmMetadata S)) (request : Role S) :
    (o : Op S K) → Resp S K o → Prop
  | .get id, r => ∀ row, r = .ok (some row) →
      id = gid ∧ ∃ model, Requested registry request model ∧ model.Same row
  | .download key, r => ∀ content, r = .ok content → Uploads request (key, content)
  | _, _ => True

/-- The role creates the generation. -/
def Role.creates : Role S → Bool
  | .startGeneration .. | .startGenerationFromCrm .. => true
  | _ => false

/-- The event says of the generation how it has ended, to the community of the request. -/
def Notified (gid : ℤ) (registry : String → Option (AlgorithmMetadata S)) (request : Role S)
    (event : RealtimeEvent) : Prop :=
  ∃ model status, Requested registry request model ∧
    event = finished gid model.idCommunity status

/-- What a role may call. -/
def Asks (gid : ℤ) (registry : String → Option (AlgorithmMetadata S)) (request role : Role S) :
    Op S K → Prop
  | .solve algorithm inputs rawData => ∃ metadata msg model, role = .deliver metadata msg ∧
      algorithm = metadata.name ∧ Handed registry request metadata inputs rawData model
  | .commit (.insert row) => Requested registry request row
  | .upload key content => Uploads request (key, content)
  | .publish .. => role.creates = true
  | .emit event => Notified gid registry request event
  | _ => True

/-! ### Requests -/

section Requests

variable {role : Role S}

theorem asks_of_ofQueueing {id : ℤ} {o : Op S K} (hrole : role.creates = true)
    (h : o.OfQueueing id) : Asks gid registry request role o := by
  cases o with
  | commit write => cases write <;> first | exact h.elim | trivial
  | solve => exact h.elim
  | upload => exact h.elim
  | publish => exact hrole
  | _ => trivial

theorem asks_of_ofDeletion {o : Op S K} (h : o.OfDeletion) : Asks gid registry request role o := by
  cases o with
  | commit write => cases write <;> first | exact h.elim | trivial
  | solve => exact h.elim
  | upload => exact h.elim
  | publish => exact h.elim
  | _ => trivial

theorem asks_createGeneration {row : GenerationModel S} (h : Requested registry request row) :
    (createGeneration row : Pipeline S K ℤ).Calls (Asks gid registry request role) :=
  Calls.bind (calls_call trivial) fun _ => Calls.bind (calls_call h) fun _ => trivial

theorem asks_startGeneration (req : GenerateRequest S) (file : UploadFile S) (communityId : ℤ) :
    (startGeneration registry req file communityId : Pipeline S K ℤ).Calls
      (Asks gid registry (.startGeneration req file communityId)
        (.startGeneration req file communityId)) := by
  unfold startGeneration
  split
  · trivial
  rename_i metadata hmetadata
  split
  · trivial
  rename_i validatedInputs hinputs
  dsimp only
  split
  · trivial
  split
  · trivial
  split
  · trivial
  refine Calls.bind (Calls.attempt (calls_call rfl)) fun uploaded => ?_
  cases uploaded with
  | error e => trivial
  | ok u =>
    refine Calls.bind (Calls.attempt (asks_createGeneration
      ⟨metadata, validatedInputs, hmetadata, hinputs, rfl⟩)) fun created => ?_
    cases created with
    | error e => exact Calls.bind (calls_ask trivial) fun _ => trivial
    | ok id =>
      refine Calls.bind (calls_ask trivial) fun _ => Calls.bind (calls_ask trivial) fun _ => ?_
      exact calls_queueGeneration (fun _ => asks_of_ofQueueing rfl) _ (calls_ask trivial)

theorem asks_startGenerationFromCrm (req : GenerateFromCrmRequest S) (communityId : ℤ) :
    (startGenerationFromCrm registry req communityId : Pipeline S K ℤ).Calls
      (Asks gid registry (.startGenerationFromCrm req communityId)
        (.startGenerationFromCrm req communityId)) := by
  unfold startGenerationFromCrm
  split
  · trivial
  rename_i metadata hmetadata
  split
  · trivial
  rename_i validatedInputs hinputs
  have hpreview : (previewCrmData req.idSharingOperation req.periodStart req.periodEnd communityId :
      Pipeline S K S.Summary).Calls
        (Asks gid registry (.startGenerationFromCrm req communityId)
          (.startGenerationFromCrm req communityId)) := by
    unfold previewCrmData
    split
    · trivial
    · refine Calls.bind (calls_call trivial) fun known => ?_
      split
      · exact calls_call trivial
      · trivial
  refine hpreview.bind fun summary => ?_
  split
  · trivial
  · rename_i hblockers
    refine Calls.bind (asks_createGeneration
      ⟨metadata, validatedInputs, summary, hmetadata, hinputs, hblockers, rfl⟩) fun id => ?_
    refine Calls.bind (calls_ask trivial) fun _ => Calls.bind (calls_ask trivial) fun _ => ?_
    exact calls_queueGeneration (fun _ => asks_of_ofQueueing rfl) _ trivial

end Requests

/-! ### Deliveries -/

section Deliveries

variable {ok : ∀ o : Op S K, Resp S K o → Prop}

theorem yields_withLocalSession {body : Pipeline S K α} {a : α}
    (h : (withLocalSession body).Yields ok (.ok a)) : body.Yields ok (.ok a) := by
  obtain ⟨out, hout, hrest⟩ := yields_bind_ok.mp h
  obtain ⟨x, hx, hbody⟩ := yields_attempt.mp hout
  cases hx
  obtain ⟨_, -, hends⟩ := yields_bind_ok.mp hrest
  rw [yields_ofExcept] at hends
  rw [hends]
  exact hbody

/-- The snapshot of a delivery is that of the request's row. -/
theorem yields_snapshot {id : ℤ} {snapshot : GenerationSnapshot S}
    (h : (snapshotGeneration id : Pipeline S K _).Yields (Truthful gid registry request)
      (.ok (some snapshot))) :
    ∃ row model, Requested registry request model ∧ model.Same row ∧
      snapshot = GenerationSnapshot.ofRow id row := by
  obtain ⟨found, ⟨r, hr, hfound⟩, hends⟩ := yields_bind_ok.mp (yields_withLocalSession h)
  obtain ⟨row, rfl, rfl⟩ := Option.map_eq_some_iff.mp (Except.ok.inj hends).symm
  rw [yields_ofExcept] at hfound
  obtain ⟨-, model, hrequested, hsame⟩ := hr row hfound.symm
  exact ⟨row, model, hrequested, hsame, rfl⟩

/-- The row that a helper has claimed is that of the request. -/
theorem yields_claimOutcome {id : ℤ} {status : GenerationStatus} {errorMessage : Option String}
    {keyRows : GenerationModel S → List (AllocationKeyGeneratedModel K)}
    {generation : GenerationModel S}
    (h : (claimOutcome id status errorMessage keyRows).Yields (Truthful gid registry request)
      (.ok (some generation))) :
    id = gid ∧ ∃ model, Requested registry request model ∧ model.Same generation := by
  obtain ⟨found, ⟨r, hr, hfound⟩, hends⟩ := yields_bind_ok.mp (yields_withLocalSession h)
  rw [yields_ofExcept] at hfound
  cases found with
  | none => cases hends
  | some row =>
    obtain ⟨rowcount, -, hends⟩ := yields_bind_ok.mp hends
    split at hends
    · cases hends
    · obtain ⟨_, -, hends⟩ := yields_bind_ok.mp hends
      obtain ⟨_, -, hends⟩ := yields_bind_ok.mp hends
      cases hends
      exact hr generation hfound.symm

theorem yields_download {key : String} {content : S.Content}
    (h : (download key : Pipeline S K _).Yields (Truthful gid registry request) (.ok content)) :
    Uploads request (key, content) := by
  obtain ⟨r, hr, hends⟩ := h
  rw [yields_ofExcept] at hends
  exact hr content hends.symm

/-- What a load returns without data is never data. -/
theorem not_yields_failed {p : Pipeline S K Terminal} {rawData : S.RawData} :
    ¬ (Except.error <$> p).Yields ok (.ok (.ok rawData)) := by
  rw [yields_map]
  rintro ⟨terminal, -, heq⟩
  cases heq

theorem read_of_loadFromFile {id : ℤ} {row model : GenerationModel S} {rawData : S.RawData}
    (hsame : model.Same row) (hsource : row.source = .file)
    (h : (loadFromFile (GenerationSnapshot.ofRow id row) : Pipeline S K _).Yields
      (Truthful gid registry request) (.ok (.ok rawData))) : Read request model rawData := by
  rw [hsame] at h hsource
  unfold loadFromFile at h
  split at h
  · rename_i key fileName hkey hname
    obtain ⟨content, hcontent, h⟩ := yields_bind_ok.mp h
    obtain ⟨x, hx, hdownload⟩ := yields_attempt.mp hcontent
    cases hx
    split at h
    · exact absurd h not_yields_failed
    · cases h
    · cases h
    · rename_i content
      split at h
      · rename_i hload
        cases h
        rw [Read, show model.source = .file from hsource]
        exact ⟨key, content, fileName, hkey, hname, yields_download hdownload, hload⟩
      · exact absurd h not_yields_failed
      · exact absurd h not_yields_failed
  · exact absurd h not_yields_failed

theorem read_of_loadFromCrm {id : ℤ} {row model : GenerationModel S} {rawData : S.RawData}
    (hsame : model.Same row) (hsource : row.source = .crm)
    (h : (loadFromCrm (GenerationSnapshot.ofRow id row) : Pipeline S K _).Yields ok
      (.ok (.ok rawData))) : Read request model rawData := by
  rw [hsame] at h hsource
  unfold loadFromCrm at h
  split at h
  · obtain ⟨read, hread, h⟩ := yields_bind_ok.mp h
    obtain ⟨x, hx, hread⟩ := yields_attempt.mp hread
    cases hx
    split at h
    · cases h
    · exact absurd h not_yields_failed
    · rename_i summary rows _
      split at h
      · rename_i hpivot
        cases h
        obtain ⟨summary', -, hread⟩ := yields_bind_ok.mp hread
        obtain ⟨rows', hrows, hends⟩ := yields_bind_ok.mp hread
        cases hends
        rw [Read, show model.source = .crm from hsource]
        refine ⟨rows, summary, ?_, hpivot⟩
        by_contra hblockers
        rw [if_neg (by simpa using hblockers)] at hrows
        cases hrows
      · exact absurd h not_yields_failed
      · exact absurd h not_yields_failed
  · exact absurd h not_yields_failed

variable [Zero K] [Add K] {metadata : AlgorithmMetadata S} {msg : Msg S}

section Outcomes

variable {role : Role S}

omit [Zero K] [Add K] in
theorem asks_saveOutcome (id : ℤ) (status : GenerationStatus) (errorMessage : Option String)
    (keyRows : GenerationModel S → List (AllocationKeyGeneratedModel K))
    (audit : GenerationModel S → AuditLogInput) :
    (saveOutcome id status errorMessage keyRows audit).CallsGiven (Truthful gid registry request)
      (Asks gid registry request role) := by
  have hclaim : (claimOutcome id status errorMessage keyRows).Calls
      (Asks gid registry request role) := by
    refine calls_withLocalSession trivial (Calls.bind (calls_call trivial) fun generation => ?_)
    split
    · trivial
    · refine Calls.bind (calls_call trivial) fun rowcount => ?_
      split
      · trivial
      · exact Calls.bind (calls_call trivial) fun _ =>
          Calls.bind (calls_ask trivial) fun _ => trivial
  refine hclaim.given.bind fun claimed hclaimed => ?_
  split
  · trivial
  · rename_i generation
    obtain ⟨rfl, model, hrequested, hsame⟩ := yields_claimOutcome hclaimed
    have hcommunity : generation.idCommunity = model.idCommunity := by rw [hsame]
    have hlog : (logAudit (audit generation) : Pipeline S K Unit).Calls
        (Asks id registry request role) :=
      Calls.bind (calls_ask trivial) fun _ => calls_call trivial
    exact Calls.given (hlog.bind fun _ =>
      calls_ask ⟨model, status, hrequested, by rw [hcommunity]⟩)

omit [Zero K] [Add K] in
theorem asks_failWith (id : ℤ) (errorMessage : String) (key : Option String) :
    (failWith id errorMessage key : Pipeline S K Terminal).CallsGiven
      (Truthful gid registry request) (Asks gid registry request role) :=
  (asks_saveOutcome ..).bind fun _ _ => trivial

omit [Zero K] [Add K] in
/-- What is called while nothing is solved. -/
theorem asks_loadRawData (snapshot : GenerationSnapshot S) :
    (loadRawData snapshot : Pipeline S K _).CallsGiven (Truthful gid registry request)
      (Asks gid registry request role) := by
  have hfail : ∀ id errorMessage key,
      ((Except.error <$> failWith id errorMessage key : Pipeline S K (Except Terminal S.RawData))
        ).CallsGiven (Truthful gid registry request) (Asks gid registry request role) :=
    fun id errorMessage key => (asks_failWith id errorMessage key).map _
  unfold loadRawData
  split
  · unfold loadFromCrm
    split
    · refine CallsGiven.bind (Calls.given (Calls.attempt (Calls.bind (calls_call trivial)
        fun summary => ?_))) fun read _ => ?_
      · refine Calls.bind ?_ fun rows => trivial
        split
        · exact (calls_call trivial).map _
        · trivial
      · split
        · trivial
        · exact hfail ..
        · split
          · trivial
          · exact hfail ..
          · exact hfail ..
    · exact hfail ..
  · unfold loadFromFile
    split
    · refine CallsGiven.bind (Calls.given (Calls.attempt (calls_call trivial))) fun content _ => ?_
      split
      · exact hfail ..
      · trivial
      · trivial
      · split
        · trivial
        · exact hfail ..
        · exact hfail ..
    · exact hfail ..

end Outcomes

theorem asks_solveAndSave {model : GenerationModel S} {inputs : S.AlgoInput} {rawData : S.RawData}
    (h : Handed registry request metadata inputs rawData model) (id : ℤ) (numDelivered : Option ℕ)
    (key : Option String) :
    (solveAndSave metadata.name id numDelivered key inputs rawData :
      Pipeline S K Terminal).CallsGiven (Truthful gid registry request)
        (Asks gid registry request (.deliver metadata msg)) := by
  have hrun : (runAlgorithm metadata.name inputs rawData : Pipeline S K _).CallsGiven
      (Truthful gid registry request)
      (Asks gid registry request (.deliver metadata msg)) :=
    CallsGiven.tryCatch (Calls.given (calls_call ⟨metadata, msg, model, rfl, rfl, h⟩))
      fun e => by split <;> trivial
  refine hrun.attempt.bind fun result _ => ?_
  split
  · refine CallsGiven.bind (Calls.given (calls_ask trivial)) fun _ _ => ?_
    unfold afterSolverCrash
    split
    · exact asks_failWith ..
    · split
      · trivial
      · exact asks_failWith ..
  · exact CallsGiven.bind (Calls.given (calls_ask trivial)) fun _ _ => asks_failWith ..
  · refine CallsGiven.bind (Calls.given (calls_ask trivial)) fun _ _ => ?_
    refine CallsGiven.bind (asks_saveOutcome ..).attempt fun saved _ => ?_
    split <;> trivial

theorem asks_process (id : ℤ) (numDelivered : Option ℕ) :
    (process metadata id numDelivered : Pipeline S K Terminal).CallsGiven
      (Truthful gid registry request) (Asks gid registry request (.deliver metadata msg)) := by
  have hsnapshot : (snapshotGeneration id : Pipeline S K _).Calls
      (Asks gid registry request (.deliver metadata msg)) :=
    calls_withLocalSession trivial (Calls.bind (calls_call trivial) fun _ => trivial)
  refine hsnapshot.given.bind fun snapshot hyields => ?_
  split
  · trivial
  obtain ⟨row, model, hrequested, hsame, rfl⟩ := yields_snapshot hyields
  dsimp only
  split
  · trivial
  split
  · exact asks_failWith ..
  refine (asks_loadRawData _).bind fun loaded hloaded => ?_
  split
  · trivial
  rename_i rawData
  have hread : Read request model rawData := by
    unfold loadRawData at hloaded
    split at hloaded
    · exact read_of_loadFromCrm hsame ‹_› hloaded
    · exact read_of_loadFromFile hsame ‹_› hloaded
  split
  · exact asks_failWith ..
  rename_i hfits
  split
  · exact asks_failWith ..
  rename_i inputs hvalid
  split
  · rename_i himplemented
    rw [hsame] at hvalid
    have hhanded : Handed registry request metadata inputs rawData model :=
      ⟨hrequested, hvalid, hread, hfits, himplemented⟩
    exact asks_solveAndSave hhanded ..
  · exact asks_failWith ..

theorem asks_handleMessage :
    (handleMessage metadata msg : Pipeline S K Unit).CallsGiven (Truthful gid registry request)
      (Asks gid registry request (.deliver metadata msg)) := by
  have hdone : ∀ outcome : String, (do ack; addMetric (.workerMessages metadata.name outcome) :
      Pipeline S K Unit).CallsGiven (Truthful gid registry request)
        (Asks gid registry request (.deliver metadata msg)) := fun outcome =>
    Calls.given (Calls.bind (calls_call trivial) fun _ => calls_ask trivial)
  unfold handleMessage
  split
  · exact hdone _
  split
  · exact hdone _
  refine (asks_process _ _).attempt.bind fun outcome _ => ?_
  split
  · exact Calls.given (Calls.bind (calls_call trivial) fun _ => calls_ask trivial)
  · exact CallsGiven.bind (asks_saveOutcome ..) fun _ _ => hdone _
  · refine CallsGiven.bind (Calls.given (calls_call trivial)) fun _ _ => ?_
    split
    · exact Calls.given (calls_ask trivial)
    · trivial

end Deliveries

/-! ### What the calls do to the record -/

/-- A commit is about the rows. -/
theorem apply_others (w : World S K) (write : Write S K) :
    (w.apply t write).object = w.object ∧ (w.apply t write).solved = w.solved ∧
      (w.apply t write).creator = w.creator := by
  cases write with
  | insert row => exact ⟨rfl, rfl, rfl⟩
  | outcome status errorMessage keys =>
    rw [World.apply, World.settle]
    split <;> exact ⟨rfl, rfl, rfl⟩
  | save status errorMessage =>
    rw [World.apply, World.settle]
    split <;> exact ⟨rfl, rfl, rfl⟩
  | delete =>
    rw [World.apply, World.remove]
    split <;> exact ⟨rfl, rfl, rfl⟩
  | deleteKey id =>
    rw [World.apply, World.removeKey]
    split <;> exact ⟨rfl, rfl, rfl⟩

/-- Of all calls only an upload and a deletion change the object, and only a run of the algorithm
adds a result. -/
theorem exec_object {o : Op S K} {choice : Choice S K} {r : Resp S K o} {w w' : World S K}
    (h : exec gid t o choice w = some (r, w')) :
    (∀ object ∈ w'.object, object ∈ w.object ∨ o = .upload object.1 object.2) ∧
      ∀ x ∈ w'.solved, x ∈ w.solved ∨ ∃ algorithm inputs rawData,
        (Entry.called t o r : LogEntry S K) =
          .called x.1 (.solve algorithm inputs rawData) (.ok x.2) := by
  have hsame : w'.object = w.object → w'.solved = w.solved →
      (∀ object ∈ w'.object, object ∈ w.object ∨ o = .upload object.1 object.2) ∧
        ∀ x ∈ w'.solved, x ∈ w.solved ∨ ∃ algorithm inputs rawData,
          (Entry.called t o r : LogEntry S K) =
            .called x.1 (.solve algorithm inputs rawData) (.ok x.2) := by
    intro hobject hsolved
    rw [hobject, hsolved]
    exact ⟨fun _ h => Or.inl h, fun _ h => Or.inl h⟩
  rcases exec_stores h with hstores | ⟨write, -, -, rfl⟩ | ⟨key, content, rfl, rfl⟩ |
    ⟨key, rfl, rfl⟩ | ⟨algorithm, inputs, rawData, answer, heq, rfl⟩
  · exact hsame hstores.object hstores.solved
  · obtain ⟨hobject, hsolved, -⟩ := apply_others (t := t) w write
    exact hsame hobject hsolved
  · -- what is stored is what the call was handed
    refine ⟨fun object hobject => Or.inr ?_, fun x hx => Or.inl hx⟩
    cases hobject
    rfl
  · exact ⟨fun object hobject => Or.inl (Option.mem_filter_iff.mp hobject).1,
      fun x hx => Or.inl hx⟩
  · -- one result more, and the call is in the log with it
    cases heq
    refine ⟨fun object hobject => Or.inl hobject, fun x hx => ?_⟩
    rcases List.mem_cons.mp hx with rfl | hold
    · exact Or.inr ⟨algorithm, inputs, rawData, rfl⟩
    · exact Or.inl hold

/-- The row stays that of the request. -/
theorem same_apply {w : World S K} {write : Write S K}
    (h : ∀ row ∈ w.row, ∃ model, Requested registry request model ∧ model.Same row)
    (hinsert : ∀ row, write = .insert row → Requested registry request row) :
    ∀ row ∈ (w.apply t write).row, ∃ model, Requested registry request model ∧ model.Same row := by
  have hsettle : ∀ status errorMessage keys, ∀ row ∈ (w.settle t status errorMessage keys).row,
      ∃ model, Requested registry request model ∧ model.Same row := by
    intro status errorMessage keys row hrow
    cases hold : w.row with
    | none =>
      rw [World.settle, hold] at hrow
      exact h row hrow
    | some old =>
      rw [settle_eq hold] at hrow
      cases hrow
      obtain ⟨model, hrequested, hsame⟩ := h old hold
      exact ⟨model, hrequested, hsame.update status errorMessage⟩
  intro row hrow
  cases write with
  | insert inserted =>
    cases hrow
    exact ⟨row, hinsert _ rfl, GenerationModel.Same.refl row⟩
  | outcome status errorMessage keys => exact hsettle _ _ _ row hrow
  | save status errorMessage => exact hsettle _ _ _ row hrow
  | delete =>
    simp only [World.apply, World.remove] at hrow
    split at hrow
    · exact h row hrow
    · cases hrow
  | deleteKey id =>
    simp only [World.apply, World.removeKey] at hrow
    split at hrow <;> exact h row hrow

theorem sourced_exec {o : Op S K} {choice : Choice S K} {r : Resp S K o} {w w' : World S K}
    {role : Role S} (hsourced : Sourced registry request w)
    (hasks : Asks gid registry request role o)
    (h : exec gid t o choice w = some (r, w')) :
    Sourced registry request w' ∧ Truthful gid registry request o r := by
  refine ⟨⟨?_, fun object hobject => ?_⟩, ?_⟩
  · rcases exec_rows h with hsame | ⟨write, rfl, -, rfl⟩
    · rw [hsame.row]
      exact hsourced.row
    · exact same_apply hsourced.row fun row heq => by cases heq; exact hasks
  · rcases (exec_object h).1 object hobject with hold | rfl
    · exact hsourced.object object hold
    · exact hasks
  · cases o with
    | get id =>
      intro row hrow
      rcases orFail_cases h with hok | ⟨-, e, rfl⟩
      · split at hok
        · rename_i hid
          cases hok
          exact ⟨hid, hsourced.row row (Except.ok.inj hrow)⟩
        · cases hok
      · cases hrow
    | download key =>
      intro content hcontent
      subst hcontent
      simp only [exec] at h
      split at h
      · split at h
        · rename_i stored content' hobject
          split at h
          · rename_i hkey
            cases h
            subst hkey
            exact hsourced.object _ hobject
          · cases h
        · cases h
      all_goals cases h
    | _ => trivial

/-! ### Runs -/

/-- The log says that a request was sent that creates the generation. -/
def isCreation : LogEntry S K → Bool
  | .launched _ role => role.creates
  | _ => false

/-- The world is made from the request, and the log documents the results. -/
structure Documented (registry : String → Option (AlgorithmMetadata S)) (request : Role S)
    (s : LoggedWorld S K) : Prop where
  sourced : Sourced registry request s.1
  solved : ∀ x ∈ s.1.solved, ∃ algorithm inputs rawData,
    .called x.1 (.solve algorithm inputs rawData) (.ok x.2) ∈ s.2

section Runs

variable [Zero K] [Add K]

theorem asks_program {role : Role S} (h : role.creates = true → role = request) :
    ((system (K := K) registry gid).program role).CallsGiven (Truthful gid registry request)
      (Asks gid registry request role) := by
  cases role with
  | deliver metadata msg => exact asks_handleMessage
  | startGeneration req file communityId =>
    rw [← h rfl]
    exact Calls.given (calls_withLocalSession trivial
      ((asks_startGeneration req file communityId).bind fun _ => trivial))
  | startGenerationFromCrm req communityId =>
    rw [← h rfl]
    exact Calls.given (calls_withLocalSession trivial
      ((asks_startGenerationFromCrm req communityId).bind fun _ => trivial))
  | deleteGeneration scope =>
    exact Calls.given (calls_withLocalSession trivial
      ((calls_deleteGeneration gid scope).mono fun _ => asks_of_ofDeletion))
  | deleteKey idKey scope =>
    exact Calls.given (calls_withLocalSession trivial
      ((calls_deleteKey idKey scope).mono fun _ => asks_of_ofDeletion))

omit [Zero K] [Add K] in
theorem launch_world {role : Role S} {w w' : World S K} (h : launch gid t role w = some w') :
    w'.row = w.row ∧ w'.object = w.object ∧ w'.solved = w.solved := by
  cases role <;> simp only [launch] at h
  case deliver => split at h <;> cases h; exact ⟨rfl, rfl, rfl⟩
  case startGeneration => split at h <;> cases h; exact ⟨rfl, rfl, rfl⟩
  case startGenerationFromCrm => split at h <;> cases h; exact ⟨rfl, rfl, rfl⟩
  case deleteGeneration => cases h; exact ⟨rfl, rfl, rfl⟩
  case deleteKey => cases h; exact ⟨rfl, rfl, rfl⟩

/-- What the calls of the threads are made of keeps the world that of the request. -/
theorem grounded_documented :
    Machine.Grounded (system (K := K) registry gid).traced (Asks gid registry request)
      (Truthful gid registry request) (Documented registry request) where
  launch t role s s' hs hlaunch := by
    obtain ⟨w, hw, rfl⟩ := Option.map_eq_some_iff.mp hlaunch
    obtain ⟨hrow, hobject, hsolved⟩ := launch_world hw
    refine ⟨⟨fun row h => hs.sourced.row row (hrow ▸ h), fun object h =>
      hs.sourced.object object (hobject ▸ h)⟩, fun x hx => ?_⟩
    obtain ⟨algorithm, inputs, rawData, h⟩ := hs.solved x (hsolved ▸ hx)
    exact ⟨algorithm, inputs, rawData, List.mem_cons_of_mem _ h⟩
  exec t role o choice r s s' hs hasks hexec := by
    obtain ⟨hexec, hlog⟩ := Machine.exec_traced hexec
    obtain ⟨hsourced, htruthful⟩ := sourced_exec hs.sourced hasks hexec
    refine ⟨⟨hsourced, fun x hx => ?_⟩, htruthful⟩
    rw [hlog]
    rcases (exec_object hexec).2 x hx with hold | ⟨algorithm, inputs, rawData, heq⟩
    · obtain ⟨algorithm, inputs, rawData, h⟩ := hs.solved x hold
      exact ⟨algorithm, inputs, rawData, List.mem_cons_of_mem _ h⟩
    · exact ⟨algorithm, inputs, rawData, heq ▸ List.mem_cons_self ..⟩
  abort t s hs := ⟨⟨hs.sourced.row, hs.sourced.object⟩, hs.solved⟩

omit [Zero K] [Add K] in
theorem documented_start :
    Documented registry request ((World.empty, []) : LoggedWorld S K) :=
  ⟨⟨fun _ h => (by cases h), fun _ h => (by cases h)⟩, fun _ h => (by cases h)⟩

/-- One request creates the generation, and none before there is a creator. -/
def OneCreation (s : LoggedWorld S K) : Prop :=
  (s.2.filter isCreation).length ≤ 1 ∧ (s.1.creator = none → s.2.filter isCreation = [])

theorem grounded_oneCreation :
    Machine.Grounded (system (K := K) registry gid).traced (fun _ _ => True) (fun _ _ => True)
      OneCreation where
  launch t role s s' hs hlaunch := by
    obtain ⟨w, hw, rfl⟩ := Option.map_eq_some_iff.mp hlaunch
    have hw : launch gid t role s.1 = some w := hw
    -- only a request that creates counts, and it starts when none has
    have hquiet : role.creates = false → w.creator = s.1.creator →
        OneCreation (w, .launched t role :: s.2) := by
      intro hrole hcreator
      rw [OneCreation, List.filter_cons_of_neg (by simp [isCreation, hrole]), hcreator]
      exact hs
    have hcreates : role.creates = true → s.1.creator = none → w.creator = some t →
        OneCreation (w, .launched t role :: s.2) := by
      intro hrole hnone hcreator
      rw [OneCreation, List.filter_cons_of_pos (by simp [isCreation, hrole]), hs.2 hnone]
      exact ⟨Nat.le_refl 1, fun h => by rw [hcreator] at h; cases h⟩
    cases role <;> simp only [launch] at hw
    case deliver => split at hw <;> cases hw; exact hquiet rfl rfl
    case startGeneration =>
      split at hw
      · rename_i hnone
        cases hw
        exact hcreates rfl hnone.2 rfl
      · cases hw
    case startGenerationFromCrm =>
      split at hw
      · rename_i hnone
        cases hw
        exact hcreates rfl hnone.2 rfl
      · cases hw
    case deleteGeneration => cases hw; exact hquiet rfl rfl
    case deleteKey => cases hw; exact hquiet rfl rfl
  exec t role o choice r s s' hs _ hexec := by
    obtain ⟨hexec, hlog⟩ := Machine.exec_traced hexec
    refine ⟨?_, trivial⟩
    rw [OneCreation, hlog, List.filter_cons_of_neg (by simp [isCreation])]
    have hcreator : s'.1.creator = s.1.creator := by
      rcases exec_rows hexec with hsame | ⟨write, -, -, hw⟩
      · exact hsame.creator
      · rw [hw]
        exact (apply_others s.1 write).2.2
    rw [hcreator]
    exact hs
  abort t s hs := hs

section Request

variable {c : LoggedState S K}
  (hrun : (system registry gid).traced.Run (fun _ _ => True) (Machine.start (World.empty, [])) c)
  (hrequest : ∀ t role, .launched t role ∈ c.state.2 → role.creates = true → role = request)
include hrun hrequest

theorem documented_of_run : Documented registry request c.state :=
  (Machine.callsGiven_of_run grounded_documented
    (fun _ t role hallowed => asks_program fun hcreates =>
      hrequest t role (hallowed.2 t role rfl) hcreates)
    documented_start (Machine.run_logged hrun (List.Subset.refl _))).1

/-- Every call on the log is one that the role of its thread may make. -/
theorem asks_of_run {o : Op S K} {r : Resp S K o} (hcalled : .called t o r ∈ c.state.2) :
    ∃ role, .launched t role ∈ c.state.2 ∧ Asks gid registry request role o :=
  Machine.called_of_run grounded_documented
    (fun _ t role hallowed => asks_program fun hcreates =>
      hrequest t role (hallowed.2 t role rfl) hcreates)
    documented_start (Machine.run_logged hrun (List.Subset.refl _)) hcalled

end Request

theorem oneCreation_of_run {c : LoggedState S K}
    (hrun : (system registry gid).traced.Run (fun _ _ => True)
      (Machine.start (World.empty, [])) c) :
    OneCreation c.state := by
  have hstart : OneCreation ((World.empty, []) : LoggedWorld S K) := ⟨Nat.zero_le 1, fun _ => rfl⟩
  exact (Machine.callsGiven_of_run grounded_oneCreation
    (fun _ _ _ _ => Calls.given (calls_true _)) hstart hrun).1

/-- Result rows are those of a result that a thread got. -/
theorem owned_by_result {w : World S K} (hinv : Inv gid w) {key : ℕ × AllocationKeyGeneratedModel K}
    (hkey : key ∈ w.results) :
    ∃ row t result, w.row = some row ∧ (t, result) ∈ w.solved ∧
      key.2 ∈ resultRows gid row.idCommunity result := by
  cases hrow : w.row with
  | none =>
    rw [hinv.empty hrow] at hkey
    cases hkey
  | some row =>
    obtain ⟨o, ho, hmem⟩ := hinv.owned key hkey
    have hends := hinv.ends o ho
    have hsuccess : o.status = .success := by
      cases hstatus : o.status with
      | pending => exact absurd hstatus hends.final
      | success => rfl
      | failed =>
        rw [hends.failed hstatus] at hmem
        cases hmem
    obtain ⟨-, result, hsolved, hkeys⟩ := hends.success hsuccess
    exact ⟨row, o.thread, result, rfl, hsolved, hkeys row hrow ▸ hmem⟩

/-- The creating request of a log, if there is one. -/
theorem request_of_run {c : LoggedState S K}
    (hrun : (system registry gid).traced.Run (fun _ _ => True)
      (Machine.start (World.empty, [])) c) :
    (∀ t role, .launched t role ∈ c.state.2 → role.creates = false) ∨
      ∃ t₀ request, .launched t₀ request ∈ c.state.2 ∧
        ∀ e ∈ c.state.2, isCreation e = true → e = .launched t₀ request := by
  obtain ⟨hone, -⟩ := oneCreation_of_run hrun
  rcases hcreations : c.state.2.filter isCreation with _ | ⟨e, _ | ⟨e', rest⟩⟩
  · refine Or.inl fun t role hmem => ?_
    by_contra hcreates
    have hfound : .launched t role ∈ c.state.2.filter isCreation :=
      List.mem_filter.mpr ⟨hmem, Bool.not_eq_false _ ▸ hcreates⟩
    rw [hcreations] at hfound
    cases hfound
  · obtain ⟨he, hcreation⟩ := List.mem_filter.mp (hcreations ▸ List.mem_singleton.mpr rfl :
      e ∈ c.state.2.filter isCreation)
    cases e with
    | called => cases hcreation
    | launched t₀ request =>
      refine Or.inr ⟨t₀, request, he, fun e he hcreation => ?_⟩
      have hmem := List.mem_filter.mpr ⟨he, hcreation⟩
      rw [hcreations] at hmem
      exact List.mem_singleton.mp hmem
  · rw [hcreations] at hone
    simp at hone

/-- **Every result row of a generation comes from its request**: in every state of every run, the
row belongs to a result that the algorithm has returned to a delivery, run on the data and the
inputs that the one request for the generation has left. -/
theorem results_of_request {c : LoggedState S K}
    (hrun : (system registry gid).traced.Run (fun _ _ => True) (Machine.start (World.empty, [])) c)
    {key : ℕ × AllocationKeyGeneratedModel K} (hkey : key ∈ c.state.1.results) :
    ∃ t₀ request, .launched t₀ request ∈ c.state.2 ∧
      (∀ e ∈ c.state.2, isCreation e = true → e = .launched t₀ request) ∧
      ∃ t metadata inputs rawData result model,
        .called t (.solve metadata.name inputs rawData) (.ok result) ∈ c.state.2 ∧
        Handed registry request metadata inputs rawData model ∧
        key.2 ∈ resultRows gid model.idCommunity result := by
  have hinv : Inv gid c.state.1 :=
    (good_of_run system_obeys reached_empty (Machine.run_erase hrun)).inv
  obtain ⟨row, t, result, hrow, hsolved, hmem⟩ := owned_by_result hinv hkey
  rcases request_of_run hrun with hnone | ⟨t₀, request, hlaunched, honly⟩
  · -- no request, no row
    have hdocumented : Documented registry (.deleteGeneration none) c.state :=
      documented_of_run hrun fun t₀ role hmem hcreates => by
        rw [hnone t₀ role hmem] at hcreates
        cases hcreates
    obtain ⟨model, hrequested, -⟩ := hdocumented.sourced.row row hrow
    exact hrequested.elim
  · have hrequest : ∀ t role, .launched t role ∈ c.state.2 → role.creates = true →
        role = request := by
      intro t₁ role hmem hcreates
      cases honly _ hmem hcreates
      rfl
    have hdocumented := documented_of_run hrun hrequest
    obtain ⟨algorithm, inputs, rawData, hcalled⟩ := hdocumented.solved _ hsolved
    obtain ⟨_, -, metadata, -, model, -, rfl, hhanded⟩ := asks_of_run hrun hrequest hcalled
    obtain ⟨model', hrequested, hsame⟩ := hdocumented.sourced.row row hrow
    refine ⟨t₀, request, hlaunched, honly, t, metadata, inputs, rawData, result, model, hcalled,
      hhanded, ?_⟩
    have hcommunity : row.idCommunity = model'.idCommunity := by rw [hsame]
    rw [hhanded.requested.community hrequested, ← hcommunity]
    exact hmem

end Runs

/-- A delivery saves a success while the request still waits for the acknowledgement of its
publish. -/
theorem results_of_request_saved :
    ∃ c : LoggedState plainServices ℕ, ∃ key ∈ c.state.1.results, ∃ t₀ request,
      .launched t₀ request ∈ c.state.2 ∧
      (∀ e ∈ c.state.2, isCreation e = true → e = .launched t₀ request) ∧
      ∃ t metadata inputs rawData result model,
        .called t (.solve metadata.name inputs rawData) (.ok result) ∈ c.state.2 ∧
        Handed plainRegistry request metadata inputs rawData model ∧
        key.2 ∈ resultRows 1 model.idCommunity result := by
  have hplay : ((system (K := ℕ) plainRegistry 1).traced.play (fun _ _ => True)
      (lostPublish ++ successfulDelivery) (Machine.start (World.empty, []))).any (fun c =>
        !c.state.1.results.isEmpty) = true := by decide +kernel
  obtain ⟨c, hrun, hc⟩ := Machine.exists_of_play hplay
  rcases hresults : c.state.1.results with _ | ⟨key, rest⟩
  · rw [hresults] at hc
    cases hc
  · have hkey : key ∈ c.state.1.results := hresults ▸ List.mem_cons_self ..
    exact ⟨c, key, hkey, results_of_request hrun hkey⟩

end AllocationKeys.Generation
