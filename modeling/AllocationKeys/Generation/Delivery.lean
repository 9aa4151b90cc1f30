import AllocationKeys.Generation.Terminal

/-!
# What a delivery may do

A worker acks a message, or deletes the uploaded object, only when the generation is settled, and
naks only while the object is in place or not needed any more (`delivery_of_run`). Of a finished
generation no step of a delivery changes the row or the result rows. `Op.OfWorker` are the calls
`handleMessage` is made of.
-/

namespace AllocationKeys.Generation

open Algorithms Concurrent Program

variable {S : Services} {K : Type} {gid : ℤ} {t : ℕ}
  {registry : String → Option (AlgorithmMetadata S)} {α : Type}

/-! ### The calls of a worker -/

/-- The only commits of a worker are ends. -/
def Op.OfWorker : Op S K → Prop
  | .commit (.outcome ..) => True
  | .commit _ => False
  | _ => True

theorem ofWorker_of_ofSave {o : Op S K} (h : o.OfSave) : o.OfWorker := by
  cases o with
  | commit write => cases write <;> trivial
  | _ => trivial

/-- The calls of a load, also of one that fails. -/
def Op.OfLoad : Op S K → Prop
  | .download _ | .summarize .. | .fetchRows .. => True
  | o => o.OfSave

theorem ofLoad_of_ofSave {o : Op S K} (h : o.OfSave) : o.OfLoad := by
  cases o <;> first | exact h | trivial

theorem ofWorker_of_ofLoad {o : Op S K} (h : o.OfLoad) : o.OfWorker := by
  cases o with
  | commit write => exact ofWorker_of_ofSave h
  | _ => trivial

/-- A recorded failure only saves. -/
theorem calls_failWith (generationId : ℤ) (errorMessage : String) (storageKey : Option String) :
    (failWith generationId errorMessage storageKey : Pipeline S K Terminal).Calls Op.OfSave :=
  (calls_saveOutcome ..).bind fun _ => trivial

theorem calls_failLoading (generationId : ℤ) (errorMessage : String) (storageKey : Option String) :
    (Except.error <$> failWith generationId errorMessage storageKey :
      Pipeline S K (Except Terminal S.RawData)).Calls Op.OfLoad :=
  ((calls_failWith ..).mono fun _ => ofLoad_of_ofSave).map _

/-- Loading only loads, or saves a failure. -/
theorem calls_loadRawData (snapshot : GenerationSnapshot S) :
    (loadRawData snapshot : Pipeline S K _).Calls Op.OfLoad := by
  unfold loadRawData
  split
  · unfold loadFromCrm
    split
    · refine Calls.bind (Calls.attempt ?_) fun read => ?_
      · refine Calls.bind (calls_call trivial) fun summary => Calls.bind ?_ fun _ => trivial
        split
        · exact Calls.map (calls_call trivial) _
        · trivial
      · split
        · trivial
        · exact calls_failLoading ..
        · split
          · trivial
          · exact calls_failLoading ..
          · exact calls_failLoading ..
    · exact calls_failLoading ..
  · unfold loadFromFile
    split
    · refine Calls.bind (Calls.attempt (calls_call trivial)) fun content => ?_
      split
      · exact calls_failLoading ..
      · trivial
      · trivial
      · split
        · trivial
        · exact calls_failLoading ..
        · exact calls_failLoading ..
    · exact calls_failLoading ..

variable [Zero K] [Add K]

/-- The rest of a delivery makes the calls of a worker. -/
theorem calls_solveAndSave (algorithm : String) (generationId : ℤ) (numDelivered : Option ℕ)
    (storageKey : Option String) (inputs : S.AlgoInput) (rawData : S.RawData) :
    (solveAndSave algorithm generationId numDelivered storageKey inputs rawData :
      Pipeline S K Terminal).Calls Op.OfWorker := by
  have hfail : ∀ errorMessage, (failWith generationId errorMessage storageKey :
      Pipeline S K Terminal).Calls Op.OfWorker := fun errorMessage =>
    (calls_failWith ..).mono fun _ => ofWorker_of_ofSave
  have hrun : (runAlgorithm algorithm inputs rawData : Pipeline S K _).Calls Op.OfWorker :=
    Calls.tryCatch (calls_call trivial) fun e => by split <;> trivial
  refine hrun.attempt.bind fun result => ?_
  split
  · refine Calls.bind (calls_ask trivial) fun _ => ?_
    unfold afterSolverCrash
    split
    · exact hfail _
    · split
      · trivial
      · exact hfail _
  · exact Calls.bind (calls_ask trivial) fun _ => hfail _
  · refine Calls.bind (calls_ask trivial) fun _ => ?_
    refine Calls.bind
      (Calls.attempt ((calls_saveOutcome ..).mono fun _ => ofWorker_of_ofSave)) fun saved => ?_
    split <;> trivial

/-- The processing makes the calls of a worker. -/
theorem calls_process (metadata : AlgorithmMetadata S) (generationId : ℤ)
    (numDelivered : Option ℕ) :
    (process metadata generationId numDelivered : Pipeline S K Terminal).Calls Op.OfWorker := by
  have hsnapshot : (snapshotGeneration generationId : Pipeline S K _).Calls Op.OfWorker :=
    calls_withLocalSession trivial (Calls.bind (calls_call trivial) fun _ => trivial)
  have hfail : ∀ errorMessage storageKey, (failWith generationId errorMessage storageKey :
      Pipeline S K Terminal).Calls Op.OfWorker := fun errorMessage storageKey =>
    (calls_failWith ..).mono fun _ => ofWorker_of_ofSave
  refine hsnapshot.bind fun snapshot => ?_
  split
  · trivial
  · dsimp only
    split
    · trivial
    · split
      · exact hfail _ _
      · refine ((calls_loadRawData _).mono fun _ => ofWorker_of_ofLoad).bind fun loaded => ?_
        split
        · trivial
        · split
          · exact hfail _ _
          · split
            · exact hfail _ _
            · split
              · exact calls_solveAndSave ..
              · exact hfail _ _

/-- A delivery makes the calls of a worker. -/
theorem calls_handleMessage (metadata : AlgorithmMetadata S) (msg : Msg S) :
    (handleMessage metadata msg : Pipeline S K Unit).Calls Op.OfWorker := by
  unfold handleMessage
  split
  · exact Calls.bind (calls_call trivial) fun _ => calls_ask trivial
  · split
    · exact Calls.bind (calls_call trivial) fun _ => calls_ask trivial
    · refine (calls_process ..).attempt.bind fun outcome => ?_
      split
      · exact Calls.bind (calls_call trivial) fun _ => calls_ask trivial
      · refine Calls.bind ((calls_saveOutcome ..).mono fun _ => ofWorker_of_ofSave) fun _ => ?_
        exact Calls.bind (calls_call trivial) fun _ => calls_ask trivial
      · refine Calls.bind (calls_call trivial) fun _ => ?_
        split
        · exact calls_ask trivial
        · trivial

/-! ### A message is queued before it is delivered -/

omit [Zero K] [Add K] in
/-- No local commit touches the queue. -/
theorem queued_apply (w : World S K) (write : Write S K) : (w.apply t write).queued = w.queued := by
  cases write with
  | insert row => rfl
  | outcome status errorMessage keys => simp only [World.apply, World.settle]; split <;> rfl
  | save status errorMessage => simp only [World.apply, World.settle]; split <;> rfl
  | delete => simp only [World.apply, World.remove]; split <;> rfl
  | deleteKey id => simp only [World.apply, World.removeKey]; split <;> rfl

omit [Zero K] [Add K] in
/-- Only a queued message is delivered. -/
theorem queued_launch {role : Role S} {w w' : World S K} (h : launch gid t role w = some w') :
    w'.queued = w.queued ∧ (∀ metadata msg, role = .deliver metadata msg → w.queued = true) := by
  cases role <;> simp only [launch] at h
  case deliver metadata msg =>
    split at h
    · rename_i hqueued
      cases h
      exact ⟨rfl, fun _ _ _ => hqueued.1⟩
    · cases h
  case startGeneration => split at h <;> cases h; exact ⟨rfl, fun _ _ heq => by cases heq⟩
  case startGenerationFromCrm => split at h <;> cases h; exact ⟨rfl, fun _ _ heq => by cases heq⟩
  case deleteGeneration => cases h; exact ⟨rfl, fun _ _ heq => by cases heq⟩
  case deleteKey => cases h; exact ⟨rfl, fun _ _ heq => by cases heq⟩

/-- The message of every delivery under way is queued. -/
def QueuedFirst (c : State S K) : Prop :=
  ∀ t metadata msg rest, c.threads t = .running (.deliver metadata msg) rest →
    c.state.queued = true

omit [Zero K] [Add K] in
/-- A thread of its own and a queue that only grows. -/
theorem QueuedFirst.update {c : State S K} (h : QueuedFirst c) {w : World S K}
    {new : Thread (Role S) (Op S K) (Resp S K) Exc}
    (hqueued : c.state.queued = true → w.queued = true)
    (hnew : ∀ metadata msg rest, new = .running (.deliver metadata msg) rest → w.queued = true) :
    QueuedFirst ⟨w, Function.update c.threads t new⟩ := by
  intro t' metadata msg rest hrunning
  by_cases ht : t' = t
  · subst ht
    exact hnew metadata msg rest ((Function.update_self t' new c.threads).symm.trans hrunning)
  · exact hqueued (h t' metadata msg rest
      ((Function.update_of_ne ht new c.threads).symm.trans hrunning))

/-- A step delivers only what is queued. -/
theorem queuedFirst_step {c c' : State S K} {label : Step S K} (h : QueuedFirst c)
    (hstep : (system registry gid).step c label = some c') : QueuedFirst c' := by
  rcases Machine.step_cases hstep with ⟨t, role, w, -, -, hlaunch, rfl⟩ |
    ⟨t, choice, role, o, next, r, w, rfl, hrunning, hexec, rfl⟩ | ⟨t, role, rest, -, -, rfl⟩
  · obtain ⟨hsame, hdeliver⟩ := queued_launch hlaunch
    refine h.update (fun hqueued => hsame.trans hqueued) fun metadata msg rest heq => ?_
    cases heq
    exact hsame.trans (hdeliver metadata msg rfl)
  · have hkeep : c.state.queued = true → w.queued = true := by
      intro hqueued
      rcases exec_rows hexec with hsame | ⟨write, -, -, rfl⟩
      · exact hsame.queued hqueued
      · exact (queued_apply c.state write).trans hqueued
    refine h.update hkeep fun metadata msg rest heq => ?_
    cases heq
    exact hkeep (h t metadata msg _ hrunning)
  · exact h.update id fun _ _ _ heq => by cases heq

/-- In every run a delivery comes after the message was queued. -/
theorem queuedFirst_of_run {w : World S K} {ok : State S K → Step S K → Prop} {c : State S K}
    (hrun : (system registry gid).Run ok (Machine.start w) c) : QueuedFirst c := by
  induction hrun with
  | refl => intro t metadata msg rest hrunning; cases hrunning
  | tail _ hstep ih =>
    obtain ⟨label, -, hstep⟩ := hstep
    exact queuedFirst_step ih hstep

/-! ### Deliveries in a run -/

/-- The calls of a role. -/
def Role.May : Role S → Op S K → Prop
  | .deliver .. => Op.OfWorker
  | _ => fun _ => True

/-- Every role makes the calls it may make. -/
theorem calls_program (role : Role S) :
    ((system (K := K) registry gid).program role).Calls role.May := by
  cases role with
  | deliver metadata msg => exact calls_handleMessage metadata msg
  | startGeneration req file communityId => exact calls_true _
  | startGenerationFromCrm req communityId => exact calls_true _
  | deleteGeneration scope => exact calls_true _
  | deleteKey idKey scope => exact calls_true _

/-- **The worker never gives up a pending generation**: in every run of the requests, deliveries
and deletions, whatever call a delivery is about to make. -/
theorem delivery_of_run {c : State S K}
    (hrun : (system registry gid).Run (fun _ _ => True) (Machine.start World.empty) c)
    {metadata : AlgorithmMetadata S} {msg : Msg S} {o : Op S K}
    {next : Resp S K o → Pipeline S K Unit}
    (hrunning : c.threads t = .running (.deliver metadata msg) (.call o next)) :
    (o = .ack → c.state.Settled) ∧ (∀ key, o = .delete key → c.state.Settled) ∧
      (∀ delay, o = .nak delay → c.state.Settled ∨ c.state.InPlace) ∧
      ∀ choice r w row, exec gid t o choice c.state = some (r, w) → c.state.row = some row →
        row.status ≠ .pending → w.row = some row ∧ w.results = c.state.results := by
  have hgood := good_of_run system_obeys reached_empty hrun
  have hqueued := queuedFirst_of_run hrun t metadata msg _ hrunning
  have hpre := hgood.pre hrunning
  refine ⟨fun hack => ?_, fun key hdelete => ?_, fun delay _ => hgood.inv.queued hqueued, ?_⟩
  · subst hack
    exact hpre
  · subst hdelete
    rcases hpre with hsettled | hfalse
    · exact hsettled
    · rw [hqueued] at hfalse
      cases hfalse
  · intro choice r w row hexec hrow hfinal
    have hworker : o.OfWorker :=
      (Machine.calls_of_run (fun _ _ role _ => calls_program role) hrun t _ _ hrunning).1
    rcases exec_rows hexec with hsame | ⟨write, rfl, -, -⟩
    · exact ⟨hsame.row.trans hrow, hsame.results⟩
    · -- a worker commits an end only for a pending row
      cases write with
      | outcome status errorMessage keys =>
        obtain ⟨-, row', hrow', hpending⟩ := hpre
        rw [hrow] at hrow'
        cases hrow'
        exact absurd hpending hfinal
      | insert row => exact absurd hworker id
      | save status errorMessage => exact absurd hworker id
      | delete => exact absurd hworker id
      | deleteKey id_ => exact absurd hworker id

/-- The next call of the thread acks its message. -/
def Acks : Thread (Role S) (Op S K) (Resp S K) Exc → Bool
  | .running (.deliver ..) (.call .ack _) => true
  | _ => false

omit [Zero K] [Add K] in
/-- A thread that acks next is a delivery. -/
theorem of_acks {thread : Thread (Role S) (Op S K) (Resp S K) Exc} (h : Acks thread = true) :
    ∃ metadata msg next, thread = .running (.deliver metadata msg) (.call .ack next) := by
  unfold Acks at h
  split at h
  · exact ⟨_, _, _, rfl⟩
  · cases h

/-- The publish is lost, a delivery saves a success and comes to its ack. -/
theorem delivery_of_run_acks :
    ∃ c : State plainServices ℕ, (∃ metadata msg next,
      c.threads 2 = .running (.deliver metadata msg) (.call .ack next)) ∧ c.state.Settled := by
  have hplay : ((system (K := ℕ) plainRegistry 1).play (fun _ _ => True)
      (lostPublish ++ successfulDelivery ++ acts 2 [.ok, .ok, .ok])
      (Machine.start World.empty)).any (fun c => Acks (c.threads 2)) = true := by decide +kernel
  obtain ⟨c, hrun, hc⟩ := Machine.exists_of_play hplay
  obtain ⟨metadata, msg, next, hrunning⟩ := of_acks hc
  exact ⟨c, ⟨metadata, msg, next, hrunning⟩, (delivery_of_run hrun hrunning).1 rfl⟩

end AllocationKeys.Generation
