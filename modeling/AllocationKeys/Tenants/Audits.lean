import AllocationKeys.Tenants.Reachable

/-!
# The audit rows of requests

`AuditLogService.log` stages its insert on the CRM session of the request, for the row to commit
with the write it tells of. The requests call it after that write was committed, and do not commit
the session again: closing it rolls the row back. What a request adds to `audit_log` is only what
`_mark_failed_to_queue` commits, on a session of its own (`recorded_serve`).
-/

namespace AllocationKeys.Tenants

open Algorithms Generation Program

variable {S : Services} {K α : Type} {db db' before : Databases S K}

/-! ### Events -/

/-- The commit went through, whether or not its answer arrived. -/
def Done : Choice S K → Prop
  | .ok | .lost _ => True
  | _ => False

/-- The commit of the business write of a request. -/
def Commits : RequestOp S K × Choice S K → Prop
  | (.pipeline (.commit (.insert _)), choice) => Done choice
  | (.pipeline (.commit .delete), choice) => Done choice
  | (.pipeline (.commit (.deleteKey _)), choice) => Done choice
  | (.commitCrmSession, choice) => Done choice
  | _ => False

/-- The action of the audit row of a request. -/
def Request.auditAction : Request S → Option AuditAction
  | .getGenerations .. | .getAllocationKeys .. | .getAllocationKey _ => none
  | .startGeneration .. | .startGenerationFromCrm _ => some .generationCreated
  | .saveKey _ => some .allocationKeySaved
  | .deleteGeneration _ => some .generationDeleted
  | .deleteKey _ => some .allocationKeyGeneratedDeleted

/-- The insert of the audit row of a request raised, inside `log`. -/
def Request.LogRaises (request : Request S) (event : RequestOp S K × Choice S K) : Prop :=
  ∃ entry detail, event = (.pipeline (.stageAudit entry), .fail detail) ∧
    request.auditAction = some entry.action

/-- What a request has added to `audit_log`, given the events of its run. -/
def Recorded (events : List (RequestOp S K × Choice S K)) (before after : Databases S K) : Prop :=
  ∃ rows, after.audits = before.audits ++ rows ∧
    (∀ entry ∈ rows, entry.action = .generationQueueFailed) ∧
    (rows ≠ [] → ∃ event ∈ events, Commits event)

/-- Nothing recorded, nothing to account for. -/
theorem recorded_of_eq {events : List (RequestOp S K × Choice S K)}
    (h : db'.audits = db.audits) : Recorded events db db' :=
  ⟨[], by rw [h, List.append_nil], by simp, fun hne => absurd rfl hne⟩

/-- What follows and records nothing keeps the account. -/
theorem Recorded.trans_eq {events : List (RequestOp S K × Choice S K)}
    (h : Recorded events before db) (heq : db'.audits = db.audits)
    (events' : List (RequestOp S K × Choice S K)) :
    Recorded (events ++ events') before db' := by
  obtain ⟨rows, hrows, hqueue, hcommits⟩ := h
  refine ⟨rows, heq.trans hrows, hqueue, fun hne => ?_⟩
  obtain ⟨event, hevent, hcommit⟩ := hcommits hne
  exact ⟨event, List.mem_append_left _ hevent, hcommit⟩

/-! ### Programs that add no row -/

/-- The accesses that add nothing to `audit_log`. -/
def Silent : Op S K → Prop
  | .commitCrm _ => False
  | _ => True

/-- A local commit writes no audit entry. -/
theorem audits_commit (db : Databases S K) (write : Write S K) :
    (db.commit write).audits = db.audits := by
  rcases commit_cases db write with heq | ⟨id, -, heq⟩ <;> rw [heq]
  cases write <;> rfl

/-- A silent call writes no audit entry. -/
theorem audits_execPipeline {o : Op S K} (ho : Silent o) {choice : Choice S K} {r : Resp S K o}
    (h : execPipeline o choice db = some (r, db')) : db'.audits = db.audits := by
  cases o with
  | commitCrm staged => exact ho.elim
  | commit write =>
    rcases orLost_cases h with rfl | ⟨rfl, -⟩
    · exact audits_commit db write
    · rfl
  | get | flushInsert | flushDelete | flushDeleteKey | select | ack | nak =>
    rcases orFail_cases h with hok | ⟨rfl, -⟩
    · cases hok
      rfl
    · rfl
  | selectKey => rw [(orArranged_cases h).1]
  | updateWherePending | flushUpdate =>
    rcases orFail_cases h with hok | ⟨rfl, -⟩
    · repeat' split at hok
      all_goals cases hok
      all_goals rfl
    · rfl
  | close | addMetric => cases h; rfl
  | upload | publish => rcases orLost_cases h with rfl | ⟨rfl, -⟩ <;> rfl
  | stageAudit | sharingOperationExists | summarize | fetchRows | delete | emit | solve =>
    cases choice <;> cases h <;> rfl
  | download key =>
    simp only [execPipeline] at h
    repeat' split at h
    all_goals cases h
    all_goals rfl

/-- Nor does a program of silent calls. -/
theorem ends_silent {p : Pipeline S K α} (h : p.Calls Silent) :
    p.Ends execPipeline db fun _ _ db' => db'.audits = db.audits :=
  h.keeps (I := fun db' => db'.audits = db.audits)
    (fun _ ho _ _ _ _ hexec heq => (audits_execPipeline ho hexec).trans heq) db rfl

/-- The rows of a queueing that failed. -/
theorem ends_afterCreation {id : ℤ} {p : Pipeline S K α} (h : p.Calls (AfterCreation id)) :
    p.Ends execPipeline db fun _ _ db' => ∃ rows, db'.audits = db.audits ++ rows ∧
      ∀ entry ∈ rows, entry.action = .generationQueueFailed := by
  refine h.keeps (I := fun db' => ∃ rows, db'.audits = db.audits ++ rows ∧
    ∀ entry ∈ rows, entry.action = .generationQueueFailed) (fun o ho choice s r s' hexec hI => ?_)
    db ⟨[], by simp, by simp⟩
  obtain ⟨rows, hrows, hqueue⟩ := hI
  have hsilent : Silent o → s'.audits = db.audits ++ rows := fun hsilent =>
    (audits_execPipeline hsilent hexec).trans hrows
  cases o with
  | commitCrm staged =>
    rcases orLost_cases hexec with rfl | ⟨rfl, -⟩
    · refine ⟨rows ++ staged, ?_, fun entry hentry => ?_⟩
      · show s.audits ++ staged = _
        rw [hrows, List.append_assoc]
      · exact (List.mem_append.mp hentry).elim (hqueue entry) (ho entry)
    · exact ⟨rows, hrows, hqueue⟩
  | _ => exact ⟨rows, hsilent trivial, hqueue⟩

/-! ### Creating a generation -/

/-- The events of a program of the pipeline, as events of a request. -/
abbrev asRequest (events : List (Op S K × Choice S K)) :
    List (RequestOp S K × Choice S K) :=
  events.map (Prod.map .pipeline id)

/-- A created row was committed before its id is returned. -/
theorem ends_committed (row : GenerationModel S) :
    (createGeneration row : Pipeline S K ℤ).Ends execPipeline db fun events out db' =>
      db'.audits = db.audits ∧ ∀ id, out = .ok id → ∃ event ∈ asRequest events, Commits event := by
  refine Ends.bind (ends_silent (calls_call trivial)) (fun flushing generationId db₁ h₁ => ?_)
    fun events e db₁ h₁ => ⟨h₁, by simp⟩
  have hcommit : (commit (.insert row) : Pipeline S K Unit).Ends execPipeline db₁
      fun events out db' => db'.audits = db₁.audits ∧
        ∀ u, out = .ok u → events = [(.commit (.insert row), .ok)] := by
    refine ends_callExcept fun choice r db' hexec => ?_
    refine ⟨audits_execPipeline (o := .commit (.insert row)) trivial hexec, fun u hu => ?_⟩
    cases choice <;> cases hexec
    · rfl
    · cases hu
    · cases hu
  refine hcommit.bind (fun committing u db₂ h₂ => ends_ret ⟨h₂.1.trans h₁, fun id _ => ?_⟩)
    fun events e db₂ h₂ => ⟨h₂.1.trans h₁, by simp⟩
  rw [h₂.2 u rfl]
  exact ⟨(.pipeline (.commit (.insert row)), .ok), by simp [asRequest], trivial⟩

/-- What follows the creation may add rows. -/
theorem recorded_afterCreation {creating : List (Op S K × Choice S K)} {id : ℤ}
    {p : Pipeline S K α} (hcommits : ∃ event ∈ asRequest creating, Commits event)
    (hcreated : db.audits = before.audits) (h : p.Calls (AfterCreation id)) :
    p.Ends execPipeline db fun events _ db' =>
      Recorded (asRequest (creating ++ events)) before db' := by
  refine (ends_afterCreation h).mono fun events out db' hrows => ?_
  obtain ⟨rows, heq, hqueue⟩ := hrows
  refine ⟨rows, by rw [heq, hcreated], hqueue, fun _ => ?_⟩
  obtain ⟨event, hevent, hcommit⟩ := hcommits
  rw [asRequest, List.map_append]
  exact ⟨event, List.mem_append_left _ hevent, hcommit⟩

/-- What a part of a request adds to `audit_log`. -/
abbrev Records (before db : Databases S K) (p : Pipeline S K α) : Prop :=
  p.Ends execPipeline db fun events _ db' => Recorded (asRequest events) before db'

/-- A silent beginning. -/
theorem records_bind {p : Pipeline S K α} {β : Type} {f : α → Pipeline S K β} (hp : p.Calls Silent)
    (hdb : db.audits = before.audits)
    (hf : ∀ a db₁, db₁.audits = before.audits → Records before db₁ (f a)) :
    Records before db (p >>= f) := by
  refine (ends_silent hp).bind (fun events a db₁ h₁ => ?_) fun events e db₁ h₁ =>
    recorded_of_eq (h₁.trans hdb)
  refine (hf a db₁ (h₁.trans hdb)).mono fun events' _ db' hrecorded => ?_
  obtain ⟨rows, hrows, hqueue, hcommits⟩ := hrecorded
  refine ⟨rows, hrows, hqueue, fun hne => ?_⟩
  obtain ⟨event, hevent, hcommit⟩ := hcommits hne
  rw [asRequest, List.map_append]
  exact ⟨event, List.mem_append_right _ hevent, hcommit⟩

/-- A creation records its entry after the commit, however it ends. -/
theorem records_create {row : GenerationModel S} {onError : Exc → Pipeline S K α}
    {rest : ℤ → Pipeline S K α} (honError : ∀ e, (onError e).Calls Silent)
    (hrest : ∀ id, (rest id).Calls (AfterCreation id)) (hdb : db.audits = before.audits) :
    Records before db ((createGeneration row).attempt >>= fun created =>
      match created with
      | .error e => onError e
      | .ok id => rest id) := by
  have hattempt : (createGeneration row).attempt.Ends execPipeline db fun events result db₁ =>
      ∃ out, result = .ok out ∧ db₁.audits = db.audits ∧
        ∀ id, out = .ok id → ∃ event ∈ asRequest events, Commits event :=
    Ends.attempt ((ends_committed row).mono fun events out db₁ h₁ => ⟨out, rfl, h₁⟩)
  refine hattempt.bind (fun creating result db₁ h₁ => ?_) fun events e db₁ h₁ =>
    recorded_of_eq (h₁.choose_spec.2.1.trans hdb)
  obtain ⟨_, heq, haudits, hcommits⟩ := h₁
  cases heq
  cases result with
  | error e =>
    exact (ends_silent (honError e)).mono fun _ _ _ h₂ => recorded_of_eq
      (h₂.trans (haudits.trans hdb))
  | ok id => exact recorded_afterCreation (hcommits id rfl) (haudits.trans hdb) (hrest id)

/-- The same without a handler. -/
theorem records_createThen {row : GenerationModel S} {rest : ℤ → Pipeline S K α}
    (hrest : ∀ id, (rest id).Calls (AfterCreation id)) (hdb : db.audits = before.audits) :
    Records before db (createGeneration row >>= rest) := by
  refine (ends_committed row).bind (fun creating id db₁ h₁ => ?_) fun events e db₁ h₁ =>
    recorded_of_eq (h₁.1.trans hdb)
  exact recorded_afterCreation (h₁.2 id rfl) (h₁.1.trans hdb) (hrest id)

/-- The entry of a request with a file comes after the commit of its row. -/
theorem records_startGeneration (registry : String → Option (AlgorithmMetadata S))
    (req : GenerateRequest S) (file : UploadFile S) (communityId : ℤ) :
    Records (K := K) db db (startGeneration registry req file communityId) := by
  have hraise : ∀ e, Records db db (raise e : Pipeline S K ℤ) := fun e =>
    ends_raise (recorded_of_eq rfl)
  unfold startGeneration
  split
  · exact hraise _
  split
  · exact hraise _
  dsimp only
  split
  · exact hraise _
  split
  · exact hraise _
  split
  · exact hraise _
  refine records_bind (Calls.attempt (calls_call (by trivial))) rfl fun uploaded db₁ h₁ => ?_
  cases uploaded with
  | error e => exact ends_raise (recorded_of_eq h₁)
  | ok u =>
    refine records_create (fun e => ?_) (fun id => ?_) h₁
    · exact Calls.bind (calls_ask trivial) fun _ => trivial
    · exact Calls.bind (calls_ask trivial) fun _ => Calls.bind (calls_ask trivial) fun _ =>
        calls_queueGeneration (fun _ => afterCreation_of_ofQueueing) _ (calls_ask trivial)

/-- The entry of a request over CRM data comes after the commit of its row. -/
theorem records_startGenerationFromCrm (registry : String → Option (AlgorithmMetadata S))
    (req : GenerateFromCrmRequest S) (communityId : ℤ) :
    Records (K := K) db db (startGenerationFromCrm registry req communityId) := by
  have hraise : ∀ e db₁, db₁.audits = db.audits → Records db db₁ (raise e : Pipeline S K ℤ) :=
    fun e db₁ h₁ => ends_raise (recorded_of_eq h₁)
  unfold startGenerationFromCrm
  split
  · exact hraise _ _ rfl
  split
  · exact hraise _ _ rfl
  refine records_bind (calls_previewCrmData (fun _ _ => trivial) (fun _ _ _ _ => trivial) _ _ _ _)
    rfl fun summary db₁ h₁ => ?_
  split
  · exact hraise _ _ h₁
  refine records_createThen (fun id => ?_) h₁
  exact Calls.bind (calls_ask trivial) fun _ => Calls.bind (calls_ask trivial) fun _ =>
    calls_queueGeneration (fun _ => afterCreation_of_ofQueueing) _ trivial

/-! ### The audit row of a request -/

/-- A request that was served, with its events and the databases before and after. -/
structure Served (S : Services) (K : Type) where
  request : Request S
  events : List (RequestOp S K × Choice S K)
  before : Databases S K
  after : Databases S K

/-- The business write was committed. -/
def Served.Writes (served : Served S K) : Prop := ∃ event ∈ served.events, Commits event

/-- The insert of the audit row raised. -/
def Served.LogRaised (served : Served S K) : Prop :=
  ∃ event ∈ served.events, served.request.LogRaises event

/-- A committed write leaves its audit row unless the insert raised, and no other request leaves
one. -/
structure Served.Audited (served : Served S K) : Prop where
  row : served.Writes → ¬ served.LogRaised → ∃ rows, served.after.audits =
    served.before.audits ++ rows ∧
      ∃ entry ∈ rows, served.request.auditAction = some entry.action
  unwritten : ¬ served.Writes → served.after.audits = served.before.audits

/-- The row of a request that committed its write is not there. -/
theorem audited_iff {served : Served S K}
    (h : Recorded served.events served.before served.after) :
    served.Audited ↔ (served.Writes → served.LogRaised) := by
  obtain ⟨rows, hrows, hqueue, hcommits⟩ := h
  constructor
  · intro haudited hwrites
    by_contra hraised
    obtain ⟨rows', hrows', entry, hentry, haction⟩ := haudited.row hwrites hraised
    rw [hrows, List.append_cancel_left_eq] at hrows'
    rw [hqueue entry (hrows' ▸ hentry)] at haction
    cases hrequest : served.request <;> rw [hrequest] at haction <;> cases haction
  · intro hraised
    refine ⟨fun hwrites hnot => absurd (hraised hwrites) hnot, fun hnot => ?_⟩
    have hnil : rows = [] := by
      by_contra hne
      exact hnot (hcommits hne)
    rw [hrows, hnil, List.append_nil]

/-! ### Requests -/

section Requests

variable {text : TextRules}

/-- What a request adds to `audit_log`. -/
abbrev RequestRecords (text : TextRules) (db : Databases S K) (p : RequestProgram S K α) : Prop :=
  p.Ends (exec text) db fun events _ db' => Recorded events db db'

/-- A program that adds no row. -/
abbrev RequestSilent (text : TextRules) (p : RequestProgram S K α) : Prop :=
  ∀ db : Databases S K, p.Ends (exec text) db fun _ _ db' => db'.audits = db.audits

theorem records_ofPipeline {p : Pipeline S K α} (h : Records db db p) :
    RequestRecords text db (ofPipeline p) := by
  intro events out db' hrun
  obtain ⟨events', rfl, hrun'⟩ := performs_ofPipeline.mp hrun
  exact h events' out db' hrun'

theorem RequestSilent.records {p : RequestProgram S K α} (h : RequestSilent text p) :
    RequestRecords text db p :=
  (h db).mono fun _ _ _ heq => recorded_of_eq heq

/-- A silent rest adds nothing. -/
theorem records_then {p : RequestProgram S K α} {β : Type} {f : α → RequestProgram S K β}
    (hp : RequestRecords text db p) (hf : ∀ a, RequestSilent text (f a)) :
    RequestRecords text db (p >>= f) :=
  hp.bind (fun _ a db₁ h₁ => (hf a db₁).mono fun events' _ _ heq => h₁.trans_eq heq events')
    fun _ _ _ h₁ => h₁

theorem silent_ret {a : α} : RequestSilent (S := S) (K := K) text (ret a) :=
  fun _ => ends_ret rfl

theorem silent_raise {e : Exc} : RequestSilent (S := S) (K := K) (α := α) text (raise e) :=
  fun _ => ends_raise rfl

theorem silent_ofExcept {x : Except Exc α} :
    RequestSilent (S := S) (K := K) text (Program.ofExcept x) :=
  fun _ => ends_ofExcept rfl

theorem silent_bind {p : RequestProgram S K α} {β : Type} {f : α → RequestProgram S K β}
    (hp : RequestSilent text p) (hf : ∀ a, RequestSilent text (f a)) :
    RequestSilent text (p >>= f) := fun db =>
  (hp db).bind (fun _ a db₁ h₁ => (hf a db₁).mono fun _ _ _ h₂ => h₂.trans h₁) fun _ _ _ h₁ => h₁

theorem silent_query {o : RequestOp S K} (ho : Query o) {next : RequestResp S K o → Except Exc α} :
    RequestSilent text (.call o fun r => Program.ofExcept (next r)) :=
  fun db => ends_callExcept fun choice r db' hexec => by rw [exec_query ho hexec]

theorem silent_ofPipeline {p : Pipeline S K α} (h : p.Calls Silent) :
    RequestSilent text (ofPipeline p) := by
  intro db events out db' hrun
  obtain ⟨events', rfl, hrun'⟩ := performs_ofPipeline.mp hrun
  exact ends_silent h events' out db' hrun'

/-- The commit of the CRM session comes before the entry is staged. -/
theorem records_saveKey (idKey : ℕ) (scope : Option ℤ) (hstaged : db.stagedAudits = []) :
    RequestRecords text db (saveKey idKey scope) := by
  have hkept : (saveKey idKey scope : RequestProgram S K Unit).Ends (exec text) db
      fun _ _ db' => db'.audits = db.audits := by
    have hselect : (selectTree idKey scope : RequestProgram S K _).Ends (exec text) db
        fun _ _ db' => db' = db :=
      ends_callExcept fun choice r db' hexec =>
        exec_query (o := .selectTree idKey scope) trivial hexec
    refine hselect.bind (fun _ found db₁ heq => ?_) fun _ _ _ heq => by rw [heq]
    subst heq
    cases found with
    | none => exact ends_raise rfl
    | some key =>
      have hflush : (saveAllocationKey (toAllocationKeyCrm key) : RequestProgram S K ℕ).Ends
          (exec text) db₁ fun _ _ db' => db'.audits = db₁.audits ∧ db'.stagedAudits = [] :=
        ends_callExcept fun choice r db' hexec => by
          rcases orFail_cases hexec with hok | ⟨rfl, -⟩
          · cases hok
            exact ⟨rfl, hstaged⟩
          · exact ⟨rfl, hstaged⟩
      refine hflush.bind (fun _ id db₂ h₂ => ?_) fun _ _ _ h₂ => h₂.1
      have hcommit : (commitCrmSession : RequestProgram S K Unit).Ends (exec text) db₂
          fun _ _ db' => db'.audits = db₁.audits :=
        ends_callExcept fun choice r db' hexec => by
          rcases orLost_cases hexec with rfl | ⟨rfl, -⟩
          · rw [Databases.commitCrm, h₂.2, List.append_nil]
            exact h₂.1
          · exact h₂.1
      refine hcommit.bind (fun _ _ db₃ h₃ => ?_) fun _ _ _ h₃ => h₃
      refine (silent_bind (silent_ofPipeline (calls_ask (o := Op.stageAudit _) trivial))
        (fun _ => silent_ret) db₃).mono fun _ _ _ h₄ => h₄.trans h₃
  exact hkept.mono fun _ _ _ heq => recorded_of_eq heq

theorem silent_of_ofDeletion {o : Op S K} (h : o.OfDeletion) : Silent o := by
  cases o <;> first | exact h.elim | trivial

variable [Zero K] [Add K] {registry : String → Option (AlgorithmMetadata S)}

/-- Every request records what it has committed, and nothing else. -/
theorem records_handle (scope : Option ℤ) (request : Request S) (hstaged : db.stagedAudits = []) :
    RequestRecords text db (request.handle (K := K) text registry scope) := by
  cases request with
  | getGenerations page pageSize query =>
    refine RequestSilent.records (silent_bind (silent_bind silent_ofExcept fun status => ?_)
      fun rows => silent_bind silent_ofExcept fun _ => silent_ret)
    exact silent_bind (silent_query (by trivial)) fun total =>
      silent_bind (silent_query (by trivial)) fun rows => silent_ret
  | getAllocationKeys id page pageSize query =>
    refine RequestSilent.records (silent_bind ?_
      fun rows => silent_bind silent_ofExcept fun _ => silent_ret)
    exact silent_bind (silent_query (by trivial)) fun total =>
      silent_bind (silent_query (by trivial)) fun rows => silent_ret
  | getAllocationKey idKey =>
    refine RequestSilent.records (silent_bind (silent_query (by trivial)) fun key => ?_)
    cases key with
    | none => exact silent_raise
    | some key => exact silent_ret
  | startGeneration req file =>
    cases scope with
    | none => exact silent_raise.records
    | some communityId =>
      exact records_then
        (records_ofPipeline (records_startGeneration registry req file communityId))
        fun _ => silent_ret
  | startGenerationFromCrm req =>
    cases scope with
    | none => exact silent_raise.records
    | some communityId =>
      exact records_then
        (records_ofPipeline (records_startGenerationFromCrm registry req communityId))
        fun _ => silent_ret
  | saveKey idKey =>
    exact records_then (records_saveKey idKey scope hstaged) fun _ => silent_ret
  | deleteGeneration id =>
    exact records_then (silent_ofPipeline
      ((calls_deleteGeneration id scope).mono fun _ => silent_of_ofDeletion)).records
      fun _ => silent_ret
  | deleteKey idKey =>
    exact records_then (silent_ofPipeline
      ((calls_deleteKey idKey scope).mono fun _ => silent_of_ofDeletion)).records
      fun _ => silent_ret

/-- **A request adds to `audit_log` at most the entry of a queueing that failed.** -/
theorem recorded_serve (scope : Option ℤ) (request : Request S) (hstaged : db.stagedAudits = []) :
    RequestRecords text db (request.serve (K := K) text registry scope) := by
  have hdefault : RequestRecords text db (withDefaultError request.defaultError
      (request.handle (K := K) text registry scope)) := by
    refine Ends.tryCatch ((records_handle scope request hstaged).mono fun events out db₁ h₁ => ?_)
    cases out with
    | ok a => exact h₁
    | error e =>
      -- The handler raises again, whatever it was given.
      cases e <;> exact (silent_raise db₁).mono fun events' _ _ heq => h₁.trans_eq heq events'
  refine records_then (Ends.attempt hdefault) fun out => ?_
  refine silent_bind (silent_ofPipeline (calls_ask (o := Op.close) trivial)) fun _ => ?_
  refine silent_bind (fun db => ends_ask fun choice r db' hexec => ?_) fun _ => silent_ofExcept
  cases hexec
  rfl

/-! ### Sequences of requests -/

variable (text registry)

/-- Requests one after the other, each in new sessions. -/
inductive Sequence : Databases S K → List (Served S K) → Prop where
  | nil (db : Databases S K) : Sequence db []
  | cons {db : Databases S K} {served : Served S K} {rest : List (Served S K)} (scope : Option ℤ)
      {out : Except Exc (Response K)} (hbefore : served.before = db)
      (hrun : (served.request.serve text registry scope).Performs (exec text) db.opened
        served.events out served.after)
      (hrest : Sequence served.after rest) : Sequence db (served :: rest)

variable {text registry}

/-- **The requests of a sequence leave their audit rows exactly when every one of them that commits
its write has the insert of its audit row raise**: an inserted row is rolled back. -/
theorem sequence_audited_iff {run : List (Served S K)} (h : Sequence text registry db run) :
    (∀ served ∈ run, served.Audited) ↔ ∀ served ∈ run, served.Writes → served.LogRaised := by
  induction h with
  | nil db => simp
  | @cons db served rest scope out hbefore hrun hrest ih =>
    have hrecorded : Recorded served.events served.before served.after := by
      rw [hbefore]
      have hrecords :
          RequestRecords text db.opened (served.request.serve (K := K) text registry scope) :=
        recorded_serve scope served.request rfl
      exact hrecords _ _ _ hrun
    rw [List.forall_mem_cons, List.forall_mem_cons, ih, audited_iff hrecorded]

end Requests

/-! ### A write whose row is rolled back -/

/-- The commit of a new row went through and was answered. -/
def inserts : RequestOp S K × Choice S K → Bool
  | (.pipeline (.commit (.insert _)), .ok) => true
  | _ => false

/-- The insertion of a row is a commit. -/
theorem commits_of_inserts {event : RequestOp S K × Choice S K} (h : inserts event = true) :
    Commits event := by
  unfold inserts at h
  split at h
  · trivial
  · cases h

/-- The insert of an audit row raised. -/
def raisesLog : RequestOp S K × Choice S K → Bool
  | (.pipeline (.stageAudit _), .fail _) => true
  | _ => false

/-- All that a request to create a generation does goes through, and no row is left. -/
theorem exists_unaudited : ∃ served : Served plainServices ℕ,
    Sequence plainText plainRegistry emptyDatabases [served] ∧ served.Writes ∧
      ¬ served.LogRaised ∧ served.after.audits = [] := by
  have hplay : (perform (exec plainText) [.ok, .ok, .ok, .ok, .ok, .ok, .ok, .ok] startOfOther
      emptyDatabases.opened).any (fun run => run.2.2.audits.isEmpty &&
        run.1.any inserts && run.1.all fun event => !raisesLog event) = true := by
    decide +kernel
  obtain ⟨events, out, db', hrun, htest⟩ := exists_of_perform hplay
  simp only [Bool.and_eq_true, List.isEmpty_iff, List.any_eq_true, List.all_eq_true] at htest
  obtain ⟨⟨hempty, event, hmem, hinserts⟩, hstaged⟩ := htest
  refine ⟨⟨.startGeneration ⟨"generation", "brute_force", none, ()⟩ ⟨none, (), "uuid"⟩, events,
    emptyDatabases, db'⟩, .cons (some 2) rfl hrun (.nil db'),
    ⟨event, hmem, commits_of_inserts hinserts⟩, ?_, hempty⟩
  rintro ⟨raised, hraised, entry, detail, rfl, -⟩
  exact absurd (hstaged _ hraised) (by simp [raisesLog])

/-- A sequence of one request, whose row is rolled back. -/
theorem sequence_audited_iff_created : ∃ run : List (Served plainServices ℕ), run ≠ [] ∧
    ((∀ served ∈ run, served.Audited) ↔ ∀ served ∈ run, served.Writes → served.LogRaised) := by
  obtain ⟨served, hsequence, -⟩ := exists_unaudited
  exact ⟨[served], by simp, sequence_audited_iff hsequence⟩

/-- A generation is created and the table of the audits stays empty. -/
theorem created_not_audited : ¬ ∀ (db : Databases plainServices ℕ) (run : List (Served _ _)),
    Sequence plainText plainRegistry db run → ∀ served ∈ run, served.Audited := by
  obtain ⟨served, hsequence, hwrites, hraised, hempty⟩ := exists_unaudited
  intro haudited
  have hserved := haudited _ _ hsequence served (List.mem_singleton_self served)
  obtain ⟨rows, hrows, entry, hentry, -⟩ := hserved.row hwrites hraised
  rw [hempty, eq_comm, List.append_eq_nil_iff] at hrows
  rw [hrows.2] at hentry
  cases hentry

end AllocationKeys.Tenants
