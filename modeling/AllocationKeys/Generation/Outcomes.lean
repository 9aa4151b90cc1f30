import AllocationKeys.Generation.Dispatcher
import AllocationKeys.Lib.Given

/-!
# What a delivery commits

A delivery commits nothing but outcomes: a failure, with its message and no rows, or the rows of
what the solver answered. So a bound on these two is a bound on all its calls
(`writes_handleMessage`).
-/

namespace AllocationKeys.Generation

open Algorithms Program

variable {S : Services} {K : Type} {allowed : Write S K → Prop}
  {ok : ∀ o : Op S K, Resp S K o → Prop}

/-- The commits of the call are allowed. -/
def Op.Writes (allowed : Write S K → Prop) : Op S K → Prop
  | .commit write => allowed write
  | _ => True

theorem writes_saveOutcome (id : ℤ) {status : GenerationStatus} {errorMessage : Option String}
    {keyRows : GenerationModel S → List (AllocationKeyGeneratedModel K)}
    (h : ∀ row, allowed (.outcome status errorMessage (keyRows row)))
    (audit : GenerationModel S → AuditLogInput) :
    (saveOutcome id status errorMessage keyRows audit).Calls (Op.Writes allowed) := by
  refine Calls.bind (calls_withLocalSession trivial (Calls.bind (calls_call trivial)
    fun generation => ?_)) fun claimed => ?_
  · cases generation with
    | none => trivial
    | some generation =>
      refine Calls.bind (calls_call trivial) fun rowcount => ?_
      split
      · trivial
      · refine Calls.bind (calls_call (h generation)) fun _ => ?_
        exact Calls.bind (calls_ask trivial) fun _ => trivial
  · cases claimed with
    | none => trivial
    | some generation =>
      have hlog : (logAudit (audit generation) : Pipeline S K Unit).Calls (Op.Writes allowed) :=
        Calls.bind (calls_ask trivial) fun _ => calls_call trivial
      exact hlog.bind fun _ => calls_ask trivial

section Failures

variable (hfailed : ∀ message : String,
  allowed (.outcome .failed (some (truncate errorMessageMaxLen message)) []))
include hfailed

theorem writes_failWith (id : ℤ) (errorMessage : String) (storageKey : Option String) :
    (failWith id errorMessage storageKey : Pipeline S K Terminal).Calls (Op.Writes allowed) :=
  (writes_saveOutcome id (fun _ => hfailed errorMessage) _).bind fun _ => trivial

theorem writes_loadRawData (snapshot : GenerationSnapshot S) :
    (loadRawData snapshot : Pipeline S K _).Calls (Op.Writes allowed) := by
  have hfail : ∀ errorMessage storageKey,
      (Except.error <$> failWith snapshot.id errorMessage storageKey :
        Pipeline S K (Except Terminal S.RawData)).Calls (Op.Writes allowed) :=
    fun errorMessage storageKey => (writes_failWith hfailed _ errorMessage storageKey).map _
  unfold loadRawData
  split
  · unfold loadFromCrm
    split
    · refine Calls.bind (Calls.attempt ?_) fun read => ?_
      · refine Calls.bind (calls_call trivial) fun summary => Calls.bind ?_ fun _ => trivial
        split
        · exact Calls.map (calls_call trivial) _
        · trivial
      · split
        · trivial
        · exact hfail _ _
        · split
          · trivial
          · exact hfail _ _
          · exact hfail _ _
    · exact hfail _ _
  · unfold loadFromFile
    split
    · refine Calls.bind (Calls.attempt (calls_call trivial)) fun content => ?_
      split
      · exact hfail _ _
      · trivial
      · trivial
      · split
        · trivial
        · exact hfail _ _
        · exact hfail _ _
    · exact hfail _ _

end Failures

/-- A run of the algorithm returns what the solver answered. -/
theorem yields_runAlgorithm {algorithm : String} {inputs : S.AlgoInput} {rawData : S.RawData}
    {result : AlgorithmResult K}
    (h : (runAlgorithm algorithm inputs rawData : Pipeline S K _).attempt.Yields ok
      (.ok (.ok result))) : ok (.solve algorithm inputs rawData) (.ok result) := by
  obtain ⟨answer, hok, hyields⟩ := h
  cases answer with
  | ok answered =>
    cases hyields
    exact hok
  | error e => cases e <;> cases hyields

section Deliveries

variable [Zero K] [Add K]
  (hfailed : ∀ message : String,
    allowed (.outcome .failed (some (truncate errorMessageMaxLen message)) []))
  (hsolved : ∀ algorithm inputs rawData result,
    ok (.solve algorithm inputs rawData) (.ok result) →
      ∀ id community, allowed (.outcome .success none (resultRows id community result)))
include hfailed hsolved

theorem writes_solveAndSave (algorithm : String) (id : ℤ) (numDelivered : Option ℕ)
    (storageKey : Option String) (inputs : S.AlgoInput) (rawData : S.RawData) :
    (solveAndSave algorithm id numDelivered storageKey inputs rawData :
      Pipeline S K Terminal).CallsGiven ok (Op.Writes allowed) := by
  have hrun : (runAlgorithm algorithm inputs rawData : Pipeline S K _).Calls
      (Op.Writes allowed) :=
    Calls.tryCatch (calls_call trivial) fun e => by split <;> trivial
  refine hrun.attempt.given.bind fun result hyields => ?_
  split
  · refine CallsGiven.bind (Calls.given (calls_ask trivial)) fun _ _ => ?_
    unfold afterSolverCrash
    split
    · exact (writes_failWith hfailed _ _ _).given
    · split
      · trivial
      · exact (writes_failWith hfailed _ _ _).given
  · exact CallsGiven.bind (Calls.given (calls_ask trivial)) fun _ _ =>
      (writes_failWith hfailed _ _ _).given
  · rename_i result
    refine CallsGiven.bind (Calls.given (calls_ask trivial)) fun _ _ => ?_
    have hsave : (saveSuccess id result : Pipeline S K Unit).Calls (Op.Writes allowed) :=
      writes_saveOutcome id
        (fun row => hsolved _ _ _ _ (yields_runAlgorithm hyields) id row.idCommunity) _
    refine CallsGiven.bind hsave.attempt.given fun saved _ => ?_
    split <;> trivial

theorem writes_process (metadata : AlgorithmMetadata S) (id : ℤ) (numDelivered : Option ℕ) :
    (process metadata id numDelivered : Pipeline S K Terminal).CallsGiven ok
      (Op.Writes allowed) := by
  have hfail : ∀ errorMessage storageKey, (failWith id errorMessage storageKey :
      Pipeline S K Terminal).CallsGiven ok (Op.Writes allowed) := fun errorMessage storageKey =>
    (writes_failWith hfailed _ errorMessage storageKey).given
  have hsnapshot : (snapshotGeneration id : Pipeline S K _).Calls (Op.Writes allowed) :=
    calls_withLocalSession trivial (Calls.bind (calls_call trivial) fun _ => trivial)
  refine hsnapshot.given.bind fun snapshot _ => ?_
  split
  · trivial
  dsimp only
  split
  · trivial
  split
  · exact hfail _ _
  refine (writes_loadRawData hfailed _).given.bind fun loaded _ => ?_
  split
  · trivial
  split
  · exact hfail _ _
  split
  · exact hfail _ _
  split
  · exact writes_solveAndSave hfailed hsolved ..
  · exact hfail _ _

/-- **A delivery commits only failures and what the solver answered.** -/
theorem writes_handleMessage (metadata : AlgorithmMetadata S) (msg : Msg S) :
    (handleMessage metadata msg : Pipeline S K Unit).CallsGiven ok (Op.Writes allowed) := by
  have hdone : ∀ outcome : String, (do ack; addMetric (.workerMessages metadata.name outcome) :
      Pipeline S K Unit).CallsGiven ok (Op.Writes allowed) := fun outcome =>
    Calls.given (Calls.bind (calls_call trivial) fun _ => calls_ask trivial)
  unfold handleMessage
  split
  · exact hdone _
  split
  · exact hdone _
  refine (writes_process hfailed hsolved _ _ _).attempt.bind fun outcome _ => ?_
  split
  · exact Calls.given (Calls.bind (calls_call trivial) fun _ => calls_ask trivial)
  · exact CallsGiven.bind
      (writes_saveOutcome _ (fun _ => hfailed "unhandled_worker_error") _).given fun _ _ => hdone _
  · refine CallsGiven.bind (Calls.given (calls_call trivial)) fun _ _ => ?_
    split
    · exact Calls.given (calls_ask trivial)
    · trivial

end Deliveries

end AllocationKeys.Generation
