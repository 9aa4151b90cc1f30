import AllocationKeys.Generation.Records
import AllocationKeys.Lib.Concurrent
import AllocationKeys.Lib.Forest

/-!
# The world of a generation

Everything the API, the workers and the user share about one generation: its row and result
rows, the lock on the row, the uploaded object, and whether the broker has its message. Next to
them the world keeps a record of what was committed and announced (`history`, `completions`,
`audits`, `events`), which no program reads.

An `Op` is one access to it. `exec` is what the access does; the `Choice` is the environment's: a
call may go through, fail, or take effect and fail (`lost`: a commit or a publish whose
acknowledgement never comes).

PostgreSQL runs at READ COMMITTED. A thread reads committed rows. Its `UPDATE` or `DELETE` of the
row waits while another transaction holds the lock, then sees what that one committed, and holds
the lock until it commits, rolls back or dies. What a session has staged reaches the world with
its commit (`Write`).
-/

namespace AllocationKeys.Generation

open Algorithms

variable (S : Services) (K : Type)

/-- A committed change of the status: who made it, the status before, what the row then said, and
the result rows added with it. -/
structure Outcome where
  thread : ℕ
  before : GenerationStatus
  status : GenerationStatus
  errorMessage : Option String
  keys : List (AllocationKeyGeneratedModel K)

structure World where
  row : Option (GenerationModel S)
  /-- The committed result rows, with their ids. -/
  results : List (ℕ × AllocationKeyGeneratedModel K)
  nextKeyId : ℕ
  /-- The thread whose transaction has locked the row. -/
  lock : Option ℕ
  /-- The uploaded file. -/
  object : Option (String × S.Content)
  /-- The broker has stored the message. -/
  queued : Bool
  /-- The thread of the request that creates the generation. -/
  creator : Option ℕ
  created : Bool
  deletedByUser : Bool
  keyDeleted : Bool
  /-- The status changes, the latest first. -/
  history : List (Outcome K)
  /-- The results of the algorithm, each with the thread that got it. -/
  solved : List (ℕ × AlgorithmResult K)
  /-- The completion metrics: algorithm and status. -/
  completions : List (ℕ × String × String)
  audits : List (ℕ × AuditLogInput)
  events : List (ℕ × RealtimeEvent)

/-- What a session commits. -/
inductive Write where
  | insert (row : GenerationModel S)
  /-- The conditional `UPDATE` of a worker, with the result rows added after it. -/
  | outcome (status : GenerationStatus) (errorMessage : Option String)
      (keys : List (AllocationKeyGeneratedModel K))
  /-- The `UPDATE` of a changed row object. -/
  | save (status : GenerationStatus) (errorMessage : Option String)
  | delete
  | deleteKey (id : ℕ)

inductive Op where
  /-- `session.get(GenerationModel, generation_id)`. -/
  | get (generationId : ℤ)
  /-- `UPDATE generation SET … WHERE id = … AND status = PENDING`, answered by its row count. -/
  | updateWherePending (generationId : ℤ) (status : GenerationStatus)
      (errorMessage : Option String)
  | flushInsert (row : GenerationModel S)
  /-- The flush of a changed row object: `UPDATE … WHERE id = …`, which must match. -/
  | flushUpdate (generationId : ℤ)
  | flushDelete (generationId : ℤ)
  | flushDeleteKey (id : ℕ)
  /-- `SELECT … WHERE id = …` in the scope of a community. -/
  | select (generationId : ℤ) (scope : Option ℤ)
  | selectKey (id : ℕ) (scope : Option ℤ)
  | commit (write : Write S K)
  /-- The end of a session: what is not committed is rolled back. -/
  | close
  /-- The insert an audit entry stages, answered by whether it did. -/
  | stageAudit (entry : AuditLogInput)
  | commitCrm (staged : List AuditLogInput)
  | sharingOperationExists (communityId sharingOperationId : ℤ)
  | summarize (communityId sharingOperationId : ℤ) (periodStart periodEnd : S.Date)
  | fetchRows (communityId sharingOperationId : ℤ) (periodStart periodEnd : S.Date)
  | upload (key : String) (content : S.Content)
  | download (key : String)
  | delete (key : String)
  | publish (subject : String) (data : S.Data)
  | ack
  | nak (delay : ℕ)
  | addMetric (metric : Metric)
  | emit (event : RealtimeEvent)
  /-- One run of the algorithm, in a process of the pool. -/
  | solve (algorithm : String) (inputs : S.AlgoInput) (rawData : S.RawData)

/-- The answer to a call. -/
@[reducible] def Resp : Op S K → Type
  | .get _ => Except Exc (Option (GenerationModel S))
  | .updateWherePending .. => Except Exc ℕ
  | .flushInsert _ => Except Exc ℤ
  | .select .. => Except Exc (Option (GenerationModel S))
  | .selectKey .. => Except Exc (Option (AllocationKeyGeneratedModel K))
  | .stageAudit _ => Bool
  | .sharingOperationExists .. => Except Exc Bool
  | .summarize .. => Except Exc S.Summary
  | .fetchRows .. => Except Exc S.Rows
  | .download _ => Except Exc S.Content
  | .solve .. => Except Exc (AlgorithmResult K)
  | .close | .delete _ | .addMetric _ | .emit _ => Unit
  | .flushUpdate _ | .flushDelete _ | .flushDeleteKey _ | .commit _ | .commitCrm _ | .upload ..
  | .publish .. | .ack | .nak _ => Except Exc Unit

/-- What the environment makes of a call. -/
inductive Choice where
  | ok
  | fail (detail : String)
  | lost (detail : String)
  | notFound
  | unavailable (detail : String)
  | crash (detail : String)
  | known (answer : Bool)
  | summary (answer : S.Summary)
  | rows (answer : S.Rows)
  /-- A query goes through, with what belongs to the rows it finds in this order. -/
  | arranged (arrangement : Arrangement)
  | result (answer : AlgorithmResult K)

variable {S K}

/-! ### What a commit does -/

namespace World

/-- The end of a transaction of `t`. -/
def release (t : ℕ) (w : World S K) : World S K :=
  { w with lock := if w.lock = some t then none else w.lock }

/-- The row changes its status, and the result rows are added. -/
def settle (t : ℕ) (status : GenerationStatus) (errorMessage : Option String)
    (keys : List (AllocationKeyGeneratedModel K)) (w : World S K) : World S K :=
  match w.row with
  | none => w
  | some row =>
      { w with
        row := some { row with status := status, errorMessage := errorMessage }
        results := w.results ++ keys.mapIdx fun i key => (w.nextKeyId + i, key)
        nextKeyId := w.nextKeyId + keys.length
        history := ⟨t, row.status, status, errorMessage, keys⟩ :: w.history }

/-- The row goes, and its result rows with it (`ON DELETE CASCADE`). -/
def remove (w : World S K) : World S K :=
  match w.row with
  | none => w
  | some _ => { w with row := none, results := [], deletedByUser := true }

def removeKey (id : ℕ) (w : World S K) : World S K :=
  if w.results.any (fun key => key.1 == id) then
    { w with results := w.results.filter fun key => key.1 != id, keyDeleted := true }
  else w

def apply (t : ℕ) (w : World S K) : Write S K → World S K
  | .insert row => { w with row := some row, created := true }
  | .outcome status errorMessage keys => w.settle t status errorMessage keys
  | .save status errorMessage => w.settle t status errorMessage []
  | .delete => w.remove
  | .deleteKey id => w.removeKey id

/-- The row is not locked by another thread. -/
def Free (t : ℕ) (w : World S K) : Prop := w.lock = none ∨ w.lock = some t

instance (t : ℕ) (w : World S K) : Decidable (w.Free t) :=
  inferInstanceAs (Decidable (_ ∨ _))

end World

/-! ### What a call does -/

/-- A call that goes through as `done` says, or fails and leaves the state as it is. -/
def orFail {α σ : Type} (choice : Choice S K) (w : σ) (done : Option (Except Exc α × σ)) :
    Option (Except Exc α × σ) :=
  match choice with
  | .ok => done
  | .fail detail => some (.error (.other detail), w)
  | _ => none

/-- A call that takes effect or fails, and may fail although it took effect. -/
def orLost {σ : Type} (choice : Choice S K) (failed done : σ) : Option (Except Exc Unit × σ) :=
  match choice with
  | .ok => some (.ok (), done)
  | .fail detail => some (.error (.other detail), failed)
  | .lost detail => some (.error (.other detail), done)
  | _ => none

theorem orFail_cases {α σ : Type} {choice : Choice S K} {w w' : σ} {r : Except Exc α}
    {done : Option (Except Exc α × σ)} (h : orFail choice w done = some (r, w')) :
    done = some (r, w') ∨ w' = w ∧ ∃ e, r = .error e := by
  cases choice with
  | ok => exact Or.inl h
  | fail detail => cases h; exact Or.inr ⟨rfl, _, rfl⟩
  | _ => cases h

theorem orLost_cases {σ : Type} {choice : Choice S K} {failed done w' : σ} {r : Except Exc Unit}
    (h : orLost choice failed done = some (r, w')) :
    w' = done ∨ w' = failed ∧ ∃ e, r = .error e := by
  cases choice with
  | ok => cases h; exact Or.inl rfl
  | fail detail => cases h; exact Or.inr ⟨rfl, _, rfl⟩
  | lost detail => cases h; exact Or.inl rfl
  | _ => cases h

/-- What a call of thread `t` does, for the generation with the id `gid`. Calls that need the row
wait while another thread has locked it; calls about other ids are not part of this world. -/
def exec (gid : ℤ) (t : ℕ) :
    (o : Op S K) → Choice S K → World S K → Option (Resp S K o × World S K)
  | .get id, choice, w => orFail choice w (if id = gid then some (.ok w.row, w) else none)
  | .updateWherePending id _ _, choice, w =>
      orFail choice w <|
        if id = gid ∧ w.Free t then
          match w.row with
          | some row =>
              if row.status = .pending then some (.ok 1, { w with lock := some t })
              else some (.ok 0, w)
          | none => some (.ok 0, w)
        else none
  | .flushInsert _, choice, w => orFail choice w (some (.ok gid, w))
  | .flushUpdate id, choice, w =>
      orFail choice w <|
        if id = gid ∧ w.Free t then
          match w.row with
          | some _ => some (.ok (), { w with lock := some t })
          | none => some (.error (.other "StaleDataError"), w)
        else none
  | .flushDelete id, choice, w =>
      orFail choice w <|
        if id = gid ∧ w.Free t then
          match w.row with
          | some _ => some (.ok (), { w with lock := some t })
          | none => some (.ok (), w)
        else none
  | .flushDeleteKey _, choice, w => orFail choice w (some (.ok (), w))
  | .select id scope, choice, w =>
      orFail choice w <|
        if id = gid then some (.ok (w.row.filter fun row => scope = some row.idCommunity), w)
        else none
  | .selectKey id scope, choice, w =>
      orFail choice w <| some (.ok ((w.results.find? fun key =>
        key.1 == id && scope = some key.2.idCommunity).map Prod.snd), w)
  | .commit write, choice, w => orLost choice (w.release t) ((w.apply t write).release t)
  | .close, _, w => some ((), w.release t)
  | .stageAudit _, choice, w =>
      match choice with
      | .ok => some (true, w)
      | .fail _ => some (false, w)
      | _ => none
  | .commitCrm staged, choice, w =>
      orLost choice w { w with audits := staged.map (fun entry => (t, entry)) ++ w.audits }
  | .sharingOperationExists .., choice, w =>
      match choice with
      | .known answer => some (.ok answer, w)
      | .fail detail => some (.error (.other detail), w)
      | _ => none
  | .summarize .., choice, w =>
      match choice with
      | .summary answer => some (.ok answer, w)
      | .fail detail => some (.error (.other detail), w)
      | _ => none
  | .fetchRows .., choice, w =>
      match choice with
      | .rows answer => some (.ok answer, w)
      | .fail detail => some (.error (.other detail), w)
      | _ => none
  | .upload key content, choice, w => orLost choice w { w with object := some (key, content) }
  | .download key, choice, w =>
      match choice with
      | .ok =>
          match w.object with
          | some (stored, content) =>
              if stored = key then some (.ok content, w)
              else some (.error (.objectNotFound key), w)
          | none => some (.error (.objectNotFound key), w)
      | .notFound => some (.error (.objectNotFound key), w)
      | .unavailable detail => some (.error (.transientStorageError detail), w)
      | .fail detail => some (.error (.other detail), w)
      | _ => none
  | .delete key, choice, w =>
      match choice with
      | .ok => some ((), { w with object := w.object.filter fun stored => stored.1 != key })
      | .fail _ => some ((), w)
      | _ => none
  | .publish .., choice, w => orLost choice w { w with queued := true }
  | .ack, choice, w => orFail choice w (some (.ok (), w))
  | .nak _, choice, w => orFail choice w (some (.ok (), w))
  | .addMetric metric, _, w =>
      match metric with
      | .generationsCompleted algorithm status =>
          some ((), { w with completions := (t, algorithm, status) :: w.completions })
      | _ => some ((), w)
  | .emit event, choice, w =>
      match choice with
      | .ok => some ((), { w with events := (t, event) :: w.events })
      | .fail _ => some ((), w)
      | _ => none
  | .solve .., choice, w =>
      match choice with
      | .result answer => some (.ok answer, { w with solved := (t, answer) :: w.solved })
      | .crash detail => some (.error (.brokenExecutor detail), w)
      | .fail detail => some (.error (.other detail), w)
      | _ => none

end AllocationKeys.Generation
