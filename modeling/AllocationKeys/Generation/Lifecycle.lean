import AllocationKeys.Generation.Outcomes
import AllocationKeys.Generation.Provenance
import AllocationKeys.Generation.Terminal
import AllocationKeys.Lib.Once

/-!
# The life of a generation

What a client can read of one generation is its row and the result rows, and all it can do is read
them again. `Move` is the protocol these readings follow, as the three parties keep it: the request
that creates the generation, the workers that run it and the user that deletes it. The rows of the
system follow it along every run (`lifecycle_of_run`), with the workers, the transactions and the
failures of the environment between them; what it comes to for a client is `readings_of_run`.

* `Move`: what each party may do to a generation, and when;
* `Role.Makes`: what each role may commit; the request inserts its row at most once
  (`system_single`);
* `move_step`: a step of the system leaves the reading as it is or makes one move of the party whose
  thread has stepped.
-/

namespace AllocationKeys.Generation

open Algorithms Concurrent Program

variable {S : Services} {K α : Type} {gid : ℤ} {t : ℕ}
  {registry : String → Option (AlgorithmMetadata S)} {role : Role S}

/-! ### Readings -/

variable (S K) in
/-- What a client finds when it reads the generation. -/
inductive Reading where
  | absent
  | live (row : GenerationModel S) (keys : List (ℕ × AllocationKeyGeneratedModel K))
  | deleted

def World.reading (w : World S K) : Reading S K :=
  match w.row with
  | some row => .live row w.results
  | none => if w.created then .deleted else .absent

theorem reading_live {w : World S K} {row : GenerationModel S} (h : w.row = some row) :
    w.reading = .live row w.results := by
  rw [World.reading, h]

theorem reading_congr {w w' : World S K} (hrow : w'.row = w.row) (hresults : w'.results = w.results)
    (hcreated : w'.created = w.created) : w'.reading = w.reading := by
  rw [World.reading, World.reading, hrow, hresults, hcreated]

/-- The parties of a generation. -/
inductive Actor where
  | request
  | worker
  | user
  deriving DecidableEq

def Role.actor : Role S → Actor
  | .startGeneration .. | .startGenerationFromCrm .. => .request
  | .deliver .. => .worker
  | .deleteGeneration _ | .deleteKey .. => .user

/-- The message of a failure: there is one, and it fits the column. -/
def Explains (errorMessage : Option String) : Prop :=
  ∃ message, errorMessage = some message ∧ message.length ≤ errorMessageMaxLen

/-- Result rows as they are stored, with consecutive ids. -/
def numbered (first : ℕ) (keys : List (AllocationKeyGeneratedModel K)) :
    List (ℕ × AllocationKeyGeneratedModel K) :=
  keys.mapIdx fun i key => (first + i, key)

def GenerationModel.ended (row : GenerationModel S) (status : GenerationStatus)
    (errorMessage : Option String) : GenerationModel S :=
  { row with status := status, errorMessage := errorMessage }

/-- What the parties may do to a generation. Only a request gives up on a row whatever its status:
it does so when it could not queue the message, and then keeps whatever rows a worker has added. -/
inductive Move [Zero K] [Add K] (gid : ℤ) : Actor → Reading S K → Reading S K → Prop
  | create {row} (hstatus : row.status = .pending) (hmessage : row.errorMessage = none) :
      Move gid .request .absent (.live row [])
  | succeed {row} (hstatus : row.status = .pending) (result : AlgorithmResult K) (first : ℕ) :
      Move gid .worker (.live row [])
        (.live (row.ended .success none) (numbered first (resultRows gid row.idCommunity result)))
  | fail {row errorMessage} (hstatus : row.status = .pending) (h : Explains errorMessage) :
      Move gid .worker (.live row []) (.live (row.ended .failed errorMessage) [])
  | giveUp {row keys errorMessage} (h : Explains errorMessage) :
      Move gid .request (.live row keys) (.live (row.ended .failed errorMessage) keys)
  | dropKey {row keys} (id : ℕ) :
      Move gid .user (.live row keys) (.live row (keys.filter fun key => key.1 != id))
  | delete {row keys} : Move gid .user (.live row keys) .deleted

/-! ### What the roles commit -/

/-- What a role may write. -/
def Role.MayWrite : Role S → Write S K → Prop
  | .deliver .., .outcome status errorMessage _ => status = .failed → Explains errorMessage
  | .startGeneration .., .insert row | .startGenerationFromCrm .., .insert row =>
      row.status = .pending ∧ row.errorMessage = none
  | .startGeneration .., .save status errorMessage
  | .startGenerationFromCrm .., .save status errorMessage =>
      status = .failed ∧ Explains errorMessage
  | .deleteGeneration _, .delete => True
  | .deleteKey .., .deleteKey _ => True
  | _, _ => False

def Role.Makes (role : Role S) : Op S K → Prop
  | .commit write => role.MayWrite write
  | _ => True

def Op.Inserts : Op S K → Prop
  | .commit (.insert _) => True
  | _ => False

/-- The calls of a role, but for the one that inserts the row. -/
abbrev Role.Later (role : Role S) (o : Op S K) : Prop := role.Makes o ∧ ¬ o.Inserts

theorem explains_truncate (message : String) :
    Explains (some (truncate errorMessageMaxLen message)) := by
  refine ⟨_, rfl, ?_⟩
  rw [truncate, String.length_ofList, List.length_take]
  omega

theorem later_withLocalSession {body : Pipeline S K α} (h : body.Calls role.Later) :
    (withLocalSession body).Calls role.Later :=
  calls_withLocalSession ⟨trivial, not_false⟩ h

/-! ### Requests -/

section Requests

variable (hrole : role.creates = true)
include hrole

/-- A request saves its row only as failed, with the reason. -/
theorem later_markFailedToQueue (generationId : ℤ) (reason : String) :
    (markFailedToQueue generationId reason : Pipeline S K Unit).Calls role.Later := by
  have hsave : ∀ message : String,
      role.Makes (.commit (.save .failed (some (truncate 2000 message))) : Op S K) := by
    intro message
    cases role with
    | startGeneration req file communityId => exact ⟨rfl, explains_truncate message⟩
    | startGenerationFromCrm req communityId => exact ⟨rfl, explains_truncate message⟩
    | _ => cases hrole
  refine Calls.bind (later_withLocalSession ?_) fun marked => ?_
  · refine Calls.bind (calls_call ⟨trivial, not_false⟩) fun row => ?_
    cases row with
    | none => trivial
    | some row =>
      refine Calls.bind (calls_call ⟨trivial, not_false⟩) fun _ => ?_
      refine Calls.bind (calls_call ⟨hsave _, not_false⟩) fun _ => ?_
      exact Calls.bind (calls_ask ⟨trivial, not_false⟩) fun _ => trivial
  · cases marked with
    | none => trivial
    | some row =>
      exact Calls.bind (calls_ask ⟨trivial, not_false⟩) fun _ => calls_call ⟨trivial, not_false⟩

theorem later_queueGeneration (metadata : AlgorithmMetadata S) (generationId : ℤ)
    {cleanup : Pipeline S K Unit} (hcleanup : cleanup.Calls role.Later) :
    (queueGeneration metadata generationId cleanup).Calls role.Later := by
  refine Calls.bind (Calls.attempt (calls_call ⟨trivial, not_false⟩)) fun published => ?_
  cases published with
  | error e =>
    exact (later_markFailedToQueue hrole _ _).bind fun _ => hcleanup.bind fun _ => trivial
  | ok u => trivial

/-- A request inserts its row with the one commit of `createGeneration`. -/
theorem once_createGeneration {row : GenerationModel S} (hstatus : row.status = .pending)
    (hmessage : row.errorMessage = none) :
    (createGeneration row : Pipeline S K ℤ).CallsOnce role.Makes Op.Inserts := by
  have hinsert : role.Makes (.commit (.insert row) : Op S K) := by
    cases role with
    | startGeneration req file communityId => exact ⟨hstatus, hmessage⟩
    | startGenerationFromCrm req communityId => exact ⟨hstatus, hmessage⟩
    | _ => cases hrole
  refine Calls.bindOnce (calls_call ⟨trivial, not_false⟩) fun id => ?_
  refine CallsOnce.bind ?_ fun _ => trivial
  exact ⟨hinsert, fun _ r => calls_ofExcept r, fun hnot => absurd trivial hnot⟩

theorem once_startGeneration (req : GenerateRequest S) (file : UploadFile S) (communityId : ℤ) :
    (startGeneration registry req file communityId : Pipeline S K ℤ).CallsOnce role.Makes
      Op.Inserts := by
  unfold startGeneration
  split
  · trivial
  split
  · trivial
  dsimp only
  split
  · trivial
  split
  · trivial
  split
  · trivial
  refine Calls.bindOnce (Calls.attempt (calls_call ⟨trivial, not_false⟩)) fun uploaded => ?_
  cases uploaded with
  | error e => trivial
  | ok u =>
    refine CallsOnce.bind (once_createGeneration hrole rfl rfl).attempt fun created => ?_
    cases created with
    | error e => exact Calls.bind (calls_ask ⟨trivial, not_false⟩) fun _ => trivial
    | ok id =>
      refine Calls.bind (calls_ask ⟨trivial, not_false⟩) fun _ => ?_
      refine Calls.bind (calls_ask ⟨trivial, not_false⟩) fun _ => ?_
      exact later_queueGeneration hrole _ _ (calls_ask ⟨trivial, not_false⟩)

theorem once_startGenerationFromCrm (req : GenerateFromCrmRequest S) (communityId : ℤ) :
    (startGenerationFromCrm registry req communityId : Pipeline S K ℤ).CallsOnce role.Makes
      Op.Inserts := by
  unfold startGenerationFromCrm
  split
  · trivial
  split
  · trivial
  have hpreview : (previewCrmData req.idSharingOperation req.periodStart req.periodEnd communityId :
      Pipeline S K S.Summary).Calls role.Later := by
    unfold previewCrmData
    split
    · trivial
    · refine Calls.bind (calls_call ⟨trivial, not_false⟩) fun known => ?_
      split
      · exact calls_call ⟨trivial, not_false⟩
      · trivial
  refine hpreview.bindOnce fun summary => ?_
  split
  · trivial
  refine CallsOnce.bind (once_createGeneration hrole rfl rfl) fun id => ?_
  refine Calls.bind (calls_ask ⟨trivial, not_false⟩) fun _ => ?_
  refine Calls.bind (calls_ask ⟨trivial, not_false⟩) fun _ => ?_
  exact later_queueGeneration hrole _ _ trivial

end Requests

/-! ### Deliveries -/

/-- A delivery commits an end, and a failure with its message. -/
theorem later_handleMessage [Zero K] [Add K] {metadata : AlgorithmMetadata S} {msg : Msg S} :
    (handleMessage metadata msg : Pipeline S K Unit).Calls (Role.deliver metadata msg).Later := by
  have hwrites : (handleMessage metadata msg : Pipeline S K Unit).CallsGiven (fun _ _ => True)
      (Op.Writes fun write => (Role.deliver metadata msg).Later (.commit write)) :=
    writes_handleMessage (fun message => ⟨fun _ => explains_truncate message, not_false⟩)
      (fun _ _ _ _ _ _ _ => ⟨(by rintro ⟨⟩), not_false⟩) metadata msg
  refine hwrites.calls.mono fun o ho => ?_
  cases o with
  | commit write => exact ho
  | _ => exact ⟨trivial, not_false⟩

/-! ### The user -/

theorem later_deleteGeneration (id : ℤ) (scope scope' : Option ℤ) :
    (deleteGeneration id scope : Pipeline S K Unit).Calls
      (Role.deleteGeneration (S := S) scope').Later := by
  refine Calls.bind (calls_call ⟨trivial, not_false⟩) fun generation => ?_
  cases generation with
  | none => trivial
  | some generation =>
    refine Calls.bind (calls_call ⟨trivial, not_false⟩) fun _ => ?_
    refine Calls.bind (calls_call ⟨trivial, not_false⟩) fun _ => ?_
    exact Calls.bind (calls_ask ⟨trivial, not_false⟩) fun _ => trivial

theorem later_deleteKey (idKey : ℕ) (scope : Option ℤ) :
    (deleteKey idKey scope : Pipeline S K Unit).Calls
      (Role.deleteKey (S := S) idKey scope).Later := by
  refine Calls.bind (calls_call ⟨trivial, not_false⟩) fun key => ?_
  cases key with
  | none => trivial
  | some key =>
    refine Calls.bind (calls_call ⟨trivial, not_false⟩) fun _ => ?_
    refine Calls.bind (calls_call ⟨trivial, not_false⟩) fun _ => ?_
    exact Calls.bind (calls_ask ⟨trivial, not_false⟩) fun _ => trivial

/-! ### One insert -/

section System

variable [Zero K] [Add K]

/-- The request inserts the row at most once, and before that nothing is created. -/
theorem system_single : Machine.Single (system (K := K) registry gid) Role.creates World.creator
    World.created Role.Makes Op.Inserts where
  program role hrole := by
    cases role with
    | startGeneration req file communityId =>
      refine CallsOnce.bind (CallsOnce.attempt ?_) fun _ =>
        Calls.bind (calls_ask ⟨trivial, not_false⟩) fun _ => calls_ofExcept _
      exact (once_startGeneration hrole req file communityId).bind fun _ => trivial
    | startGenerationFromCrm req communityId =>
      refine CallsOnce.bind (CallsOnce.attempt ?_) fun _ =>
        Calls.bind (calls_ask ⟨trivial, not_false⟩) fun _ => calls_ofExcept _
      exact (once_startGenerationFromCrm hrole req communityId).bind fun _ => trivial
    | _ => cases hrole
  others role hrole := by
    cases role with
    | deliver metadata msg => exact later_handleMessage
    | deleteGeneration scope => exact later_withLocalSession (later_deleteGeneration gid scope _)
    | deleteKey idKey scope => exact later_withLocalSession (later_deleteKey idKey scope)
    | _ => cases hrole
  launch t role w w' h := by
    have h : launch gid t role w = some w' := h
    cases role <;> simp only [launch] at h
    case deliver =>
      split at h <;> cases h
      exact ⟨rfl, fun hrole => (by cases hrole), fun _ => rfl⟩
    case deleteGeneration => cases h; exact ⟨rfl, fun hrole => (by cases hrole), fun _ => rfl⟩
    case deleteKey => cases h; exact ⟨rfl, fun hrole => (by cases hrole), fun _ => rfl⟩
    all_goals
      split at h <;> cases h
      rename_i hnew
      exact ⟨rfl, fun _ => ⟨hnew.2, hnew.1, rfl⟩, fun hrole => by cases hrole⟩
  exec t o choice w r w' h := by
    rcases exec_rows h with hsame | ⟨write, rfl, -, rfl⟩
    · exact ⟨hsame.creator, Or.inl hsame.created⟩
    · refine ⟨(apply_others w write).2.2, ?_⟩
      cases write with
      | insert row => exact Or.inr trivial
      | outcome status errorMessage keys =>
        exact Or.inl (by simp only [World.release, World.apply, World.settle]; split <;> rfl)
      | save status errorMessage =>
        exact Or.inl (by simp only [World.release, World.apply, World.settle]; split <;> rfl)
      | delete =>
        exact Or.inl (by simp only [World.release, World.apply, World.remove]; split <;> rfl)
      | deleteKey id =>
        exact Or.inl (by simp only [World.release, World.apply, World.removeKey]; split <;> rfl)
  abort _ _ := ⟨rfl, rfl⟩

/-! ### Every step is a move -/

/-- A pending generation has no result rows. -/
theorem results_of_pending {w : World S K} (hinv : Inv gid w) {row : GenerationModel S}
    (hrow : w.row = some row) (hpending : row.status = .pending) : w.results = [] := by
  refine List.eq_nil_iff_forall_not_mem.mpr fun key hkey => ?_
  obtain ⟨o, ho, -⟩ := hinv.owned key hkey
  rw [history_of_pending hinv hrow hpending] at ho
  cases ho

/-- The commit of an end by a worker. -/
theorem move_outcome {w : World S K} {status : GenerationStatus} {errorMessage : Option String}
    {keys : List (AllocationKeyGeneratedModel K)} (hinv : Inv gid w)
    (hinv' : Inv gid ((w.apply t (.outcome status errorMessage keys)).release t))
    {row : GenerationModel S} (hrow : w.row = some row) (hpending : row.status = .pending)
    (hmessage : status = .failed → Explains errorMessage) :
    Move gid .worker w.reading (w.apply t (.outcome status errorMessage keys)).reading := by
  have hresults := results_of_pending hinv hrow hpending
  have happly : w.apply t (.outcome status errorMessage keys) = _ :=
    settle_eq hrow status errorMessage keys
  rw [happly] at hinv' ⊢
  rw [reading_live hrow, hresults]
  have hends := hinv'.ends _ (List.mem_cons_self ..)
  show Move gid .worker (.live row []) (.live _ ([] ++ numbered w.nextKeyId keys))
  rw [List.nil_append]
  cases status with
  | pending => exact absurd rfl hends.final
  | success =>
    obtain ⟨rfl, result, -, hkeys⟩ := hends.success rfl
    have hkeys := hkeys (row.ended .success none) rfl
    rw [show keys = resultRows gid row.idCommunity result from hkeys]
    exact .succeed hpending result _
  | failed =>
    rw [show keys = [] from hends.failed rfl]
    exact .fail hpending (hmessage rfl)

theorem move_commit {w : World S K} {write : Write S K} (hinv : Inv gid w)
    (hinv' : Inv gid ((w.apply t write).release t)) (hpre : pre t (.commit write) w)
    (hmay : role.MayWrite write) (hfresh : (Op.commit write).Inserts → w.created = false) :
    (w.apply t write).reading = w.reading ∨
      Move gid role.actor w.reading (w.apply t write).reading := by
  cases write with
  | insert row =>
    -- the two requests that create
    obtain ⟨hnone, -⟩ := hinv.uncreated (hfresh trivial)
    have hbefore : w.reading = .absent := by
      simp only [World.reading, hnone, hfresh trivial, Bool.false_eq_true, if_false]
    have hafter : (w.apply t (.insert row)).reading = .live row [] := by
      rw [← hinv.empty hnone]
      rfl
    rw [hbefore, hafter]
    refine Or.inr ?_
    cases role with
    | startGeneration req file communityId => exact .create hmay.1 hmay.2
    | startGenerationFromCrm req communityId => exact .create hmay.1 hmay.2
    | _ => exact hmay.elim
  | outcome status errorMessage keys =>
    -- a delivery, to the row it has claimed
    obtain ⟨-, row, hrow, hpending⟩ := hpre
    refine Or.inr ?_
    cases role with
    | deliver metadata msg => exact move_outcome hinv hinv' hrow hpending hmay
    | _ => exact hmay.elim
  | save status errorMessage =>
    -- a request that gives up: it still holds the row it has created
    obtain ⟨hlock, -⟩ : w.lock = some t ∧ w.creator = some t := hpre
    obtain ⟨row, hrow⟩ := Option.ne_none_iff_exists'.mp (hinv.lock t hlock)
    have hsaved : (w.apply t (.save status errorMessage)).reading =
        .live (row.ended status errorMessage) w.results := by
      rw [World.apply, settle_eq hrow]
      exact congrArg (Reading.live _) (List.append_nil _)
    rw [hsaved, reading_live hrow]
    refine Or.inr ?_
    cases role with
    | startGeneration req file communityId =>
      obtain ⟨rfl, hmessage⟩ := hmay
      exact .giveUp hmessage
    | startGenerationFromCrm req communityId =>
      obtain ⟨rfl, hmessage⟩ := hmay
      exact .giveUp hmessage
    | _ => exact hmay.elim
  | delete =>
    cases hrow : w.row with
    | none =>
      -- somebody deleted the row before
      refine Or.inl ?_
      rw [World.apply, World.remove, hrow]
    | some row =>
      have hcreated : w.created = true := by
        by_contra hfalse
        have hnone := (hinv.uncreated (Bool.not_eq_true _ ▸ hfalse)).1
        rw [hrow] at hnone
        cases hnone
      have hremoved : (w.apply t .delete).reading = .deleted := by
        simp only [World.apply, World.remove, hrow, World.reading, hcreated, if_true]
      rw [hremoved, reading_live hrow]
      refine Or.inr ?_
      cases role with
      | deleteGeneration scope => exact .delete
      | _ => exact hmay.elim
  | deleteKey id =>
    by_cases hfound : w.results.any (fun key => key.1 == id) = true
    · cases hrow : w.row with
      | none =>
        rw [hinv.empty hrow] at hfound
        cases hfound
      | some row =>
        have hdropped : (w.apply t (.deleteKey id)).reading =
            .live row (w.results.filter fun key => key.1 != id) := by
          rw [World.apply, World.removeKey, if_pos hfound]
          exact reading_live hrow
        rw [hdropped, reading_live hrow]
        refine Or.inr ?_
        cases role with
        | deleteKey idKey scope => exact .dropKey id
        | _ => exact hmay.elim
    · -- the key is not there any more
      refine Or.inl ?_
      rw [World.apply, World.removeKey, if_neg hfound]

/-- The party whose thread makes a step. -/
def stepActor (c : State S K) : Step S K → Option Actor
  | .act t _ =>
      match c.threads t with
      | .running role _ => some role.actor
      | _ => none
  | _ => none

variable (registry gid) in
/-- The states of the runs: the system keeps its discipline, and inserts the row once. -/
structure Alive (c : State S K) : Prop where
  good : Reached gid registry c
  once : Machine.OnceEach Role.creates World.creator World.created Role.Makes Op.Inserts c

/-- **Every step of the system is a move**, or leaves the reading as it is. -/
theorem move_step {c c' : State S K} {label : Step S K} (h : Alive gid registry c)
    (hstep : (system registry gid).step c label = some c') :
    c'.state.reading = c.state.reading ∨ ∃ actor,
      stepActor c label = some actor ∧ Move gid actor c.state.reading c'.state.reading := by
  have hgood' := good_step system_obeys h.good hstep
  rcases Machine.step_cases hstep with ⟨t, role, w, -, -, hlaunch, rfl⟩ |
    ⟨t, choice, role, o, next, r, w, rfl, hrunning, hexec, rfl⟩ | ⟨t, role, rest, -, -, rfl⟩
  · obtain ⟨hrow, hresults, -⟩ := launch_rows hlaunch
    have hsingle : Machine.Single (system (K := K) registry gid) Role.creates World.creator
        World.created Role.Makes Op.Inserts := system_single
    exact Or.inl (reading_congr hrow hresults (hsingle.launch t role _ w hlaunch).1)
  · rcases exec_rows hexec with hsame | ⟨write, rfl, -, rfl⟩
    · exact Or.inl (reading_congr hsame.row hsame.results hsame.created)
    · obtain ⟨hmay, hfresh⟩ := h.once.call hrunning
      rcases move_commit h.good.inv hgood'.inv (h.good.pre hrunning) hmay hfresh with hsame | hmove
      · exact Or.inl hsame
      · exact Or.inr ⟨role.actor, by rw [stepActor, hrunning], hmove⟩
  · exact Or.inl rfl

variable (S K gid) in
/-- Any number of moves. -/
abbrev Moves : Reading S K → Reading S K → Prop :=
  Relation.ReflTransGen fun s s' => ∃ actor, Move gid actor s s'

theorem alive_of_run {c : State S K}
    (hrun : (system registry gid).Run (fun _ _ => True) (Machine.start World.empty) c) :
    Alive gid registry c :=
  ⟨good_of_run system_obeys reached_empty hrun, Machine.single_of_run system_single hrun⟩

theorem moves_of_run {c c' : State S K}
    (hrun : (system registry gid).Run (fun _ _ => True) (Machine.start World.empty) c)
    (hrun' : (system registry gid).Run (fun _ _ => True) c c') :
    Moves S K gid c.state.reading c'.state.reading := by
  induction hrun' with
  | refl => exact Relation.ReflTransGen.refl
  | tail hprefix hstep ih =>
    obtain ⟨label, -, hstep⟩ := hstep
    rcases move_step (alive_of_run (hrun.trans hprefix)) hstep with hsame | ⟨actor, -, hmove⟩
    · rw [hsame]
      exact ih
    · exact ih.tail ⟨actor, hmove⟩

/-- **The rows of a generation follow the protocol**: in every state of every run they are where
moves of the request, the workers and the user lead, and the next step, whichever thread makes it,
leaves them as they are or is one move of the party of that thread. -/
theorem lifecycle_of_run {c c' : State S K} {label : Step S K}
    (hrun : (system registry gid).Run (fun _ _ => True) (Machine.start World.empty) c)
    (hstep : (system registry gid).step c label = some c') :
    Moves S K gid .absent c.state.reading ∧ (c'.state.reading = c.state.reading ∨ ∃ actor,
      stepActor c label = some actor ∧ Move gid actor c.state.reading c'.state.reading) := by
  exact ⟨moves_of_run .refl hrun, move_step (alive_of_run hrun) hstep⟩

def World.hasKeys (status : GenerationStatus) (w : World S K) : Bool :=
  w.row.any (fun row => row.status = status) && !w.results.isEmpty

/-- A delivery has saved a success when the request gives up on the row. -/
theorem lifecycle_of_run_overwritten :
    ∃ c c' : State plainServices ℕ, ∃ label,
      c.state.hasKeys .success = true ∧ c'.state.hasKeys .failed = true ∧
        Moves plainServices ℕ 1 .absent c.state.reading ∧
        (c'.state.reading = c.state.reading ∨ ∃ actor, stepActor c label = some actor ∧
          Move 1 actor c.state.reading c'.state.reading) := by
  have hplay : ((system (K := ℕ) plainRegistry 1).play (fun _ _ => True)
      (lostPublish ++ successfulDelivery ++ markedAsFailed.take 2)
      (Machine.start World.empty)).any (fun c => c.state.hasKeys .success &&
        ((system plainRegistry 1).step c (.act 1 .ok)).any fun c' =>
          c'.state.hasKeys .failed) = true := by
    decide +kernel
  obtain ⟨c, hrun, hc⟩ := Machine.exists_of_play hplay
  obtain ⟨hsuccess, hlater⟩ := Bool.and_eq_true_iff.mp hc
  obtain ⟨c', hstep, hfailed⟩ := (Option.any_eq_true _ _).mp hlater
  exact ⟨c, c', .act 1 .ok, hsuccess, hfailed, lifecycle_of_run hrun hstep⟩

end System

/-! ### What a client can count on -/

/-- What a client may find later. -/
inductive Reading.Before : Reading S K → Reading S K → Prop
  | absent (s : Reading S K) : Before .absent s
  | live {row row' keys keys'} (same : row.Same row')
      (later : row.status ≠ .pending → List.Sublist keys' keys ∧
        (row'.status = row.status ∧ row'.errorMessage = row.errorMessage ∨
          row'.status = .failed ∧ Explains row'.errorMessage)) :
      Before (.live row keys) (.live row' keys')
  | deleted (s : Reading S K) : Before s .deleted

theorem Reading.Before.refl (s : Reading S K) : s.Before s := by
  cases s with
  | absent => exact .absent _
  | live row keys => exact .live (.refl row) fun _ => ⟨.refl keys, Or.inl ⟨rfl, rfl⟩⟩
  | deleted => exact .deleted _

theorem Reading.Before.trans {s₁ s₂ s₃ : Reading S K} (h : s₁.Before s₂) (h' : s₂.Before s₃) :
    s₁.Before s₃ := by
  cases h with
  | absent => exact .absent _
  | deleted => cases h'; exact .deleted _
  | live same later =>
    cases h' with
    | deleted => exact .deleted _
    | live same' later' =>
      refine .live (same.trans same') fun hfinal => ?_
      obtain ⟨hkeys, hends⟩ := later hfinal
      obtain ⟨hkeys', hends'⟩ := later' <| by
        rcases hends with ⟨hstatus, -⟩ | ⟨hfailed, -⟩
        · rw [hstatus]
          exact hfinal
        · rw [hfailed]
          exact fun heq => by cases heq
      refine ⟨hkeys'.trans hkeys, ?_⟩
      rcases hends' with ⟨hstatus', hmessage'⟩ | hfailed'
      · rw [hstatus', hmessage']
        exact hends
      · exact Or.inr hfailed'

variable [Zero K] [Add K]

variable (gid) in
/-- What a client finds at any moment: a pending generation has no message and no keys, a failed
one says why, and the keys are some of one result. -/
def Reading.WellFormed : Reading S K → Prop
  | .live row keys =>
      (row.status = .pending → row.errorMessage = none ∧ keys = []) ∧
      (row.status = .success → row.errorMessage = none) ∧
      (row.status = .failed → Explains row.errorMessage) ∧
      ∃ result first, List.Sublist keys (numbered first (resultRows gid row.idCommunity result))
  | _ => True

theorem before_move {actor : Actor} {s s' : Reading S K} (h : Move gid actor s s') :
    s.Before s' := by
  cases h with
  | create => exact .absent _
  | succeed hstatus => exact .live rfl fun hfinal => absurd hstatus hfinal
  | fail hstatus => exact .live rfl fun hfinal => absurd hstatus hfinal
  | giveUp hmessage => exact .live rfl fun _ => ⟨.refl _, Or.inr ⟨rfl, hmessage⟩⟩
  | dropKey id => exact .live (.refl _) fun _ => ⟨List.filter_sublist, Or.inl ⟨rfl, rfl⟩⟩
  | delete => exact .deleted _

theorem wellFormed_move {actor : Actor} {s s' : Reading S K} (h : Move gid actor s s')
    (hs : s.WellFormed gid) : s'.WellFormed gid := by
  cases h with
  | create hstatus hmessage =>
    refine ⟨fun _ => ⟨hmessage, rfl⟩, fun _ => hmessage, fun hfailed => ?_, ⟨[]⟩, 0, .refl _⟩
    rw [hstatus] at hfailed
    cases hfailed
  | succeed hstatus result first =>
    exact ⟨fun h => (by cases h), fun _ => rfl, fun h => (by cases h), result, first, .refl _⟩
  | fail hstatus hmessage =>
    exact ⟨fun h => (by cases h), fun h => (by cases h), fun _ => hmessage, ⟨[]⟩, 0, .refl _⟩
  | giveUp hmessage =>
    exact ⟨fun h => (by cases h), fun h => (by cases h), fun _ => hmessage, hs.2.2.2⟩
  | dropKey id =>
    obtain ⟨hpending, hsuccess, hfailed, result, first, hkeys⟩ := hs
    refine ⟨fun h => ?_, hsuccess, hfailed, result, first, List.filter_sublist.trans hkeys⟩
    obtain ⟨hmessage, rfl⟩ := hpending h
    exact ⟨hmessage, rfl⟩
  | delete => trivial

theorem moves_before {s s' : Reading S K} (h : Moves S K gid s s') : s.Before s' := by
  induction h with
  | refl => exact .refl s
  | tail _ hmove ih =>
    obtain ⟨actor, hmove⟩ := hmove
    exact ih.trans (before_move hmove)

theorem wellFormed_moves {s s' : Reading S K} (h : Moves S K gid s s') (hs : s.WellFormed gid) :
    s'.WellFormed gid := by
  induction h with
  | refl => exact hs
  | tail _ hmove ih =>
    obtain ⟨actor, hmove⟩ := hmove
    exact wellFormed_move hmove ih

/-- **What a client reads of a generation** is well formed at any moment, and what it reads later
fits what it has read: the parameters never change, a deleted generation stays deleted, and once
ended a generation keeps its status and message, unless they become those of a failure, and gets no
new keys. -/
theorem readings_of_run {c c' : State S K}
    (hrun : (system registry gid).Run (fun _ _ => True) (Machine.start World.empty) c)
    (hrun' : (system registry gid).Run (fun _ _ => True) c c') :
    c.state.reading.WellFormed gid ∧ c'.state.reading.WellFormed gid ∧
      c.state.reading.Before c'.state.reading := by
  have hmoves := moves_of_run hrun hrun'
  have hwell : c.state.reading.WellFormed gid := wellFormed_moves (moves_of_run .refl hrun) trivial
  exact ⟨hwell, wellFormed_moves hmoves hwell, moves_before hmoves⟩

theorem readings_of_run_overwritten :
    ∃ c c' : State plainServices ℕ,
      c.state.hasKeys .success = true ∧ c'.state.hasKeys .failed = true ∧
        c.state.reading.WellFormed 1 ∧ c'.state.reading.WellFormed 1 ∧
        c.state.reading.Before c'.state.reading := by
  have hplay : ((system (K := ℕ) plainRegistry 1).play (fun _ _ => True)
      (lostPublish ++ successfulDelivery) (Machine.start World.empty)).any (fun c =>
        c.state.hasKeys .success && ((system plainRegistry 1).play (fun _ _ => True)
          markedAsFailed c).any fun c' => c'.state.hasKeys .failed) = true := by
    decide +kernel
  obtain ⟨c, hrun, hc⟩ := Machine.exists_of_play hplay
  obtain ⟨hsuccess, hlater⟩ := Bool.and_eq_true_iff.mp hc
  obtain ⟨c', hrun', hfailed⟩ := Machine.exists_of_play hlater
  exact ⟨c, c', hsuccess, hfailed, readings_of_run hrun hrun'⟩

end AllocationKeys.Generation
