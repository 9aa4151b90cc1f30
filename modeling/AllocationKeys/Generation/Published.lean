import AllocationKeys.Generation.Provenance

/-!
# What is published of a generation

Only the request that creates a generation publishes, on the queue of the algorithm it names, an
event with the id of the row that it has inserted.

* `Sends`: what a request may publish, told the id of its row;
* `grounded_sends`: the database tells a request that id;
* `published_by_creator`: whatever is published was published by the thread of the one request, and
  is addressed so.
-/

namespace AllocationKeys.Generation

open Concurrent Program

variable {S : Services} {K : Type} {gid : ℤ} {t : ℕ}
  {registry : String → Option (AlgorithmMetadata S)} {request role : Role S}

/-- The algorithm a request names. -/
def requestedAlgorithm : Role S → Option String
  | .startGeneration req _ _ => some req.algorithmName
  | .startGenerationFromCrm req _ => some req.algorithmName
  | _ => none

/-- The message is for the algorithm that the request names, and its event has the id of the
generation. -/
def Addressed (registry : String → Option (AlgorithmMetadata S)) (gid : ℤ) (request : Role S)
    (subject : String) (data : S.Data) : Prop :=
  ∃ name metadata event, requestedAlgorithm request = some name ∧ registry name = some metadata ∧
    subject = metadata.queue ∧ data = S.encode event ∧ event.generationId = some gid

/-- What a request may call. -/
def Sends (registry : String → Option (AlgorithmMetadata S)) (gid : ℤ) (request : Role S) :
    Op S K → Prop
  | .publish subject data => Addressed registry gid request subject data
  | _ => True

/-- A new row has the id of the generation. -/
def Inserted (gid : ℤ) : (o : Op S K) → Resp S K o → Prop
  | .flushInsert _, r => ∀ id, r = .ok id → id = gid
  | _, _ => True

theorem silent_markFailedToQueue (generationId : ℤ) (reason : String) :
    (markFailedToQueue generationId reason : Pipeline S K Unit).Calls
      (Sends registry gid request) := by
  refine Calls.bind (calls_withLocalSession trivial ?_) fun marked => ?_
  · refine Calls.bind (calls_call trivial) fun row => ?_
    cases row with
    | none => trivial
    | some row =>
      refine Calls.bind (calls_call trivial) fun _ => Calls.bind (calls_call trivial) fun _ => ?_
      exact Calls.bind (calls_ask trivial) fun _ => trivial
  · cases marked with
    | none => trivial
    | some row => exact Calls.bind (calls_ask trivial) fun staged => calls_call trivial

theorem sends_queueGeneration {name : String} {metadata : AlgorithmMetadata S}
    (hname : requestedAlgorithm request = some name) (hmetadata : registry name = some metadata)
    {cleanup : Pipeline S K Unit} (hcleanup : cleanup.Calls (Sends registry gid request)) :
    (queueGeneration metadata gid cleanup).Calls (Sends registry gid request) := by
  refine Calls.bind (Calls.attempt (calls_call
    ⟨name, metadata, _, hname, hmetadata, rfl, rfl, rfl⟩)) fun published => ?_
  split
  · exact (silent_markFailedToQueue gid _).bind fun _ => hcleanup.bind fun _ => trivial
  · trivial

theorem yields_createGeneration {row : GenerationModel S} {id : ℤ}
    (h : (createGeneration row : Pipeline S K ℤ).Yields (Inserted gid) (.ok id)) : id = gid := by
  obtain ⟨id', ⟨r, hr, hid⟩, hrest⟩ := yields_bind_ok.mp h
  obtain ⟨_, -, hends⟩ := yields_bind_ok.mp hrest
  rw [yields_ofExcept] at hid
  cases hends
  exact hr id hid.symm

theorem silent_createGeneration (row : GenerationModel S) :
    (createGeneration row : Pipeline S K ℤ).Calls (Sends registry gid request) :=
  Calls.bind (calls_call trivial) fun _ => Calls.bind (calls_call trivial) fun _ => trivial

theorem sends_startGeneration (req : GenerateRequest S) (file : UploadFile S) (communityId : ℤ) :
    (startGeneration registry req file communityId : Pipeline S K ℤ).CallsGiven (Inserted gid)
      (Sends registry gid (.startGeneration req file communityId)) := by
  unfold startGeneration
  split
  · trivial
  rename_i metadata hmetadata
  split
  · trivial
  dsimp only
  split
  · trivial
  split
  · trivial
  split
  · trivial
  refine CallsGiven.bind (Calls.given (Calls.attempt (calls_call trivial))) fun uploaded _ => ?_
  cases uploaded with
  | error e => trivial
  | ok u =>
    refine CallsGiven.bind (Calls.given (silent_createGeneration _).attempt)
      fun created hcreated => ?_
    cases created with
    | error e => exact Calls.given (Calls.bind (calls_ask trivial) fun _ => trivial)
    | ok id =>
      obtain ⟨x, hx, hyields⟩ := yields_attempt.mp hcreated
      cases hx
      rw [yields_createGeneration hyields]
      exact Calls.given (Calls.bind (calls_ask trivial) fun _ => Calls.bind (calls_ask trivial)
        fun _ => sends_queueGeneration rfl hmetadata (calls_ask trivial))

theorem sends_startGenerationFromCrm (req : GenerateFromCrmRequest S) (communityId : ℤ) :
    (startGenerationFromCrm registry req communityId : Pipeline S K ℤ).CallsGiven (Inserted gid)
      (Sends registry gid (.startGenerationFromCrm req communityId)) := by
  unfold startGenerationFromCrm
  split
  · trivial
  rename_i metadata hmetadata
  split
  · trivial
  have hpreview : (previewCrmData req.idSharingOperation req.periodStart req.periodEnd communityId :
      Pipeline S K S.Summary).Calls
        (Sends registry gid (.startGenerationFromCrm req communityId)) := by
    unfold previewCrmData
    split
    · trivial
    · refine Calls.bind (calls_call trivial) fun known => ?_
      split
      · exact calls_call trivial
      · trivial
  refine CallsGiven.bind hpreview.given fun summary _ => ?_
  split
  · trivial
  · refine CallsGiven.bind (Calls.given (silent_createGeneration _)) fun id hcreated => ?_
    rw [yields_createGeneration hcreated]
    exact Calls.given (Calls.bind (calls_ask trivial) fun _ => Calls.bind (calls_ask trivial)
      fun _ => sends_queueGeneration rfl hmetadata trivial)

theorem callsGiven_withLocalSession {ok : ∀ o : Op S K, Resp S K o → Prop} {may : Op S K → Prop}
    {α : Type} {body : Pipeline S K α} (hclose : may .close) (h : body.CallsGiven ok may) :
    (withLocalSession body).CallsGiven ok may :=
  h.attempt.bind fun out _ =>
    Calls.given (Calls.bind (calls_ask hclose) fun _ => calls_ofExcept out)

variable [Zero K] [Add K]

theorem sends_program (h : role.creates = true → role = request) :
    ((system (K := K) registry gid).program role).CallsGiven
      (fun o r => Truthful gid registry request o r ∧ Inserted gid o r)
      (fun o => Asks gid registry request role o ∧ Sends registry gid request o) := by
  have hasks : ((system (K := K) registry gid).program role).CallsGiven
      (fun o r => Truthful gid registry request o r ∧ Inserted gid o r)
      (Asks gid registry request role) :=
    (asks_program h).narrow fun _ _ h => h.1
  refine hasks.and ?_
  -- who creates nothing publishes nothing
  have hsilent : role.creates = false → ((system (K := K) registry gid).program role).CallsGiven
      (fun o r => Truthful gid registry request o r ∧ Inserted gid o r)
      (Sends registry gid request) := by
    intro hcreates
    refine hasks.mono fun o ho => ?_
    cases o with
    | publish subject data => exact absurd (hcreates.symm.trans ho) Bool.false_ne_true
    | _ => trivial
  cases role with
  | startGeneration req file communityId =>
    rw [← h rfl]
    refine CallsGiven.narrow (callsGiven_withLocalSession trivial ?_) fun _ _ h => h.2
    exact (sends_startGeneration req file communityId).bind fun _ _ => trivial
  | startGenerationFromCrm req communityId =>
    rw [← h rfl]
    refine CallsGiven.narrow (callsGiven_withLocalSession trivial ?_) fun _ _ h => h.2
    exact (sends_startGenerationFromCrm req communityId).bind fun _ _ => trivial
  | _ => exact hsilent rfl

theorem grounded_sends :
    Machine.Grounded (system (K := K) registry gid).traced
      (fun role o => Asks gid registry request role o ∧ Sends registry gid request o)
      (fun o r => Truthful gid registry request o r ∧ Inserted gid o r)
      (Documented registry request) where
  launch := grounded_documented.launch
  exec t role o choice r s s' hs hmay hexec := by
    obtain ⟨hdocumented, htruthful⟩ :=
      grounded_documented.exec t role o choice r s s' hs hmay.1 hexec
    refine ⟨hdocumented, htruthful, ?_⟩
    cases o with
    | flushInsert row =>
      intro id hid
      rcases orFail_cases (Machine.exec_traced hexec).1 with hok | ⟨-, e, rfl⟩
      · have hr : Except.ok gid = r := congrArg Prod.fst (Option.some.inj hok)
        rw [← hr] at hid
        exact (Except.ok.inj hid).symm
      · cases hid
    | _ => trivial
  abort := grounded_documented.abort

/-- **Only the request publishes**: in every run, with every failure, a message is published by the
thread of the one request that creates the generation, on the queue of the algorithm that it names,
with an event for the row that it has inserted. -/
theorem published_by_creator {c : LoggedState S K}
    (hrun : (system registry gid).traced.Run (fun _ _ => True) (Machine.start (World.empty, [])) c)
    {subject : String} {data : S.Data} {r : Except Exc Unit}
    (hpublished : .called t (.publish subject data) r ∈ c.state.2) :
    ∃ request, .launched t request ∈ c.state.2 ∧ request.creates = true ∧
      (∀ e ∈ c.state.2, isCreation e = true → e = .launched t request) ∧
      Addressed registry gid request subject data := by
  -- whichever request the run has, the publishing thread is one that creates
  have hcalled : ∀ request : Role S, (∀ t role, .launched t role ∈ c.state.2 →
      role.creates = true → role = request) → ∃ role, .launched t role ∈ c.state.2 ∧
        role.creates = true ∧ Addressed registry gid request subject data := by
    intro request hrequest
    obtain ⟨role, hlaunched, hasks, hsends⟩ := Machine.called_of_run grounded_sends
      (fun _ t' role hallowed => sends_program fun hcreates =>
        hrequest t' role (hallowed.2 t' role rfl) hcreates)
      documented_start (Machine.run_logged hrun (List.Subset.refl _)) hpublished
    exact ⟨role, hlaunched, hasks, hsends⟩
  rcases request_of_run hrun with hnone | ⟨t₀, request, -, honly⟩
  · obtain ⟨role, hlaunched, hcreates, -⟩ := hcalled (.deleteGeneration none)
      fun t role hmem hcreates => by
        rw [hnone t role hmem] at hcreates
        cases hcreates
    rw [hnone t role hlaunched] at hcreates
    cases hcreates
  · obtain ⟨role, hlaunched, hcreates, haddressed⟩ := hcalled request
      fun t role hmem hcreates => by
        cases honly _ hmem hcreates
        rfl
    cases honly _ hlaunched hcreates
    exact ⟨request, hlaunched, hcreates, honly, haddressed⟩

end AllocationKeys.Generation
