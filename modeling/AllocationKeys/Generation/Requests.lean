import AllocationKeys.Generation.Worker

/-!
# The requests keep the discipline

The request that creates the generation uploads and deletes the object only while no message is
queued, or once the generation is settled; it queues the message only for a row it has committed.
`system_obeys` puts this together with the deliveries: the whole system keeps the discipline.
-/

namespace AllocationKeys.Generation

open Algorithms Concurrent Program

variable {S : Services} {K : Type} [Zero K] [Add K] {gid : ℤ} {t : ℕ}
  {registry : String → Option (AlgorithmMetadata S)} {α : Type}

/-! ### What the creating request knows -/

/-- The thread is that of the creating request, and has announced nothing. -/
structure Owner (t : ℕ) (w : World S K) : Prop where
  creator : w.creator = some t
  completions : t ∉ w.completions.map Prod.fst
  audits : t ∉ w.audits.map Prod.fst

theorem stable_owner : Stable (S := S) (K := K) gid t (Owner t) :=
  fun _ _ hrely _ h => ⟨(Rely.creating hrely h.creator).1, Rely.completions hrely h.completions,
    Rely.audits hrely h.audits⟩

theorem stable_creator : Stable (S := S) (K := K) gid t fun w => w.creator = some t :=
  fun _ _ hrely _ h => (Rely.creating hrely h).1

theorem stable_created : Stable (S := S) (K := K) gid t fun w => w.created = true :=
  fun _ _ hrely _ h => Rely.created hrely h

/-- The message is not queued. -/
def Unqueued (t : ℕ) (w : World S K) : Prop := Owner t w ∧ w.queued = false

theorem stable_unqueued : Stable (S := S) (K := K) gid t (Unqueued t) :=
  fun w w' hrely hinv h => ⟨stable_owner w w' hrely hinv h.1,
    ((Rely.creating hrely h.1.creator).2.1 h.2).1⟩

/-- The object the row will name is in the store. -/
def Placed (model : GenerationModel S) (w : World S K) : Prop :=
  ∀ key, model.fileStorageKey = some key → ∃ content, w.object = some (key, content)

/-- Knowledge of the creating request about what the message will need. -/
def Ready (t : ℕ) (model : GenerationModel S) (w : World S K) : Prop :=
  Unqueued t w ∧ Placed model w

theorem stable_ready (model : GenerationModel S) : Stable (K := K) gid t (Ready t model) := by
  intro w w' hrely hinv h
  obtain ⟨-, hobject⟩ := (Rely.creating hrely h.1.1.creator).2.1 h.1.2
  exact ⟨stable_unqueued w w' hrely hinv h.1, fun key hkey => by rw [hobject]; exact h.2 key hkey⟩

/-- The row does not exist yet. -/
def Uncreated (t : ℕ) (J : World S K → Prop) (w : World S K) : Prop :=
  w.creator = some t ∧ J w ∧ w.created = false

theorem stable_uncreated {J : World S K → Prop} (hJ : Stable gid t J) :
    Stable gid t (Uncreated t J) :=
  fun w w' hrely hinv h => ⟨(Rely.creating hrely h.1).1, hJ w w' hrely hinv h.2.1,
    (Rely.creating hrely h.1).2.2 h.2.2⟩

/-! ### A publish that raises -/

/-- What is left to do after the session of `_mark_failed_to_queue`. -/
def Marked (t : ℕ) : Except Exc (Option (GenerationModel S)) → World S K → Prop
  | .ok none, w => w.Settled
  | .ok (some _), w => w.Settled ∧ Flipped t .failed w ∧ t ∉ w.audits.map Prod.fst
  | .error _, _ => True

theorem stable_marked (out : Except Exc (Option (GenerationModel S))) :
    Stable (K := K) gid t (Marked t out) := by
  rcases out with e | _ | row
  · exact stable_true
  · exact stable_settled
  · exact stable_settled.and ((stable_flipped .failed).and fun _ _ hrely _ h => Rely.audits hrely h)

theorem spec_flushUpdate :
    Spec gid t registry (fun w => Owner (K := K) t w ∧ w.created = true) (flushUpdate gid)
      fun out w => (Owner t w ∧ w.created = true) ∧ ∀ a, out = .ok a → w.lock = some t := by
  refine triple_call (Q := fun r w =>
      (Owner t w ∧ w.created = true) ∧ ∀ a, r = .ok a → w.lock = some t)
    ⟨stable_owner.and stable_created, fun _ _ _ => trivial, fun w choice r w' hinv hJ hexec => ?_⟩
    fun r => triple_ofExcept fun _ _ h => h
  obtain ⟨howner, hcreated⟩ := hJ
  rcases orFail_cases hexec with hok | ⟨rfl, e, rfl⟩
  · split at hok
    · rename_i hfree
      split at hok
      · rename_i row hrow
        cases hok
        exact ⟨keeps_hold hinv hfree.2 (by rw [hrow]; simp),
          ⟨⟨howner.creator, howner.completions, howner.audits⟩, hcreated⟩, fun _ _ => rfl⟩
      · cases hok
        exact ⟨keeps_refl hinv, ⟨howner, hcreated⟩, fun _ h => by cases h⟩
    · cases hok
  · exact ⟨keeps_refl hinv, ⟨howner, hcreated⟩, fun _ h => by cases h⟩

/-- The commit of the changed row. -/
theorem spec_commitSave (errorMessage : Option String) :
    Spec gid t registry (fun w => (Owner (K := K) t w ∧ w.created = true) ∧ w.lock = some t)
      (commit (.save .failed errorMessage)) fun out w => (Owner t w ∧ w.created = true) ∧
        ∀ a, out = .ok a → w.Settled ∧ Flipped t .failed w := by
  have hlocked : Stable (S := S) (K := K) gid t fun w => w.lock = some t :=
    fun _ _ hrely _ h => (Rely.locked hrely h).1
  refine triple_call (Q := fun r w => (Owner t w ∧ w.created = true) ∧
      ∀ a, r = .ok a → w.Settled ∧ Flipped t .failed w)
    ⟨(stable_owner.and stable_created).and hlocked, fun _ _ h => ⟨h.2, h.1.1.creator⟩,
      fun w choice r w' hinv hJ hexec => ?_⟩ fun r => triple_ofExcept fun _ _ h => h
  obtain ⟨⟨howner, hcreated⟩, hlock⟩ := hJ
  obtain ⟨row, hrow⟩ := Option.ne_none_iff_exists'.mp (hinv.lock t hlock)
  rcases orLost_cases hexec with rfl | ⟨rfl, e, rfl⟩
  · have hend : Ends gid w.row w.solved ⟨t, row.status, .failed, errorMessage, []⟩ :=
      ⟨by simp, fun _ => rfl, fun h => by cases h⟩
    have hsettle := keeps_settle hinv hlock hrow hend
    refine ⟨keeps_trans hsettle (keeps_release t hsettle.1), ?_⟩
    rw [show w.apply t (.save .failed errorMessage) = _ from settle_eq hrow ..]
    exact ⟨⟨⟨howner.creator, howner.completions, howner.audits⟩, hcreated⟩, fun _ _ =>
      ⟨Or.inl ⟨_, rfl, by simp⟩, _, List.mem_cons_self .., rfl, rfl⟩⟩
  · exact ⟨keeps_release t hinv, ⟨⟨howner.creator, howner.completions, howner.audits⟩, hcreated⟩,
      fun _ h => by cases h⟩

/-- The metric of a failed start. -/
theorem spec_addFailure (algorithm : String) :
    Spec gid t registry (fun w => Owner (K := K) t w ∧ w.Settled ∧ Flipped t .failed w)
      (addMetric (.generationsCompleted algorithm "failed")) fun _ w =>
        w.creator = some t ∧ w.Settled ∧ Flipped t .failed w ∧ t ∉ w.audits.map Prod.fst := by
  refine triple_call (Q := fun _ w =>
      w.creator = some t ∧ w.Settled ∧ Flipped t .failed w ∧ t ∉ w.audits.map Prod.fst)
    ⟨stable_owner.and (stable_settled.and (stable_flipped .failed)), fun _ _ _ => trivial,
      fun w choice r w' hinv hJ hexec => ?_⟩ fun _ => triple_ret fun _ _ h => h
  obtain ⟨howner, hsettled, hflipped⟩ := hJ
  cases hexec
  exact ⟨keeps_complete hinv hflipped howner.completions algorithm, howner.creator, hsettled,
    hflipped, howner.audits⟩

/-- When marking the row returns, the generation is settled. -/
theorem spec_markFailedToQueue (reason : String) :
    Spec gid t registry (fun w => Owner (K := K) t w ∧ w.created = true)
      (markFailedToQueue gid reason) fun out w =>
        w.creator = some t ∧ ∀ a, out = .ok a → w.Settled := by
  have hsession : Spec gid t registry (fun w => Owner (K := K) t w ∧ w.created = true)
      (saveFailedToQueue gid reason) fun out w => w.creator = some t ∧ Marked t out w := by
    refine spec_withLocalSession ?_ (fun out => stable_creator.and (stable_marked out))
      fun out w h => ?_
    · refine (spec_get (stable_owner.and stable_created) fun _ _ h => h.2).bind (fun row => ?_)
        fun _ _ _ h => ⟨h.1.1.creator, trivial⟩
      rcases row with _ | row
      · exact triple_ret fun _ _ h => ⟨h.1.1.creator, h.2⟩
      · refine (spec_flushUpdate.weaken fun _ _ h => h.1).bind (fun _ => ?_)
          fun _ _ _ h => ⟨h.1.1.creator, trivial⟩
        refine ((spec_commitSave _).weaken fun _ _ h => ⟨h.1, h.2 _ rfl⟩).bind (fun _ => ?_)
          fun _ _ _ h => ⟨h.1.1.creator, trivial⟩
        refine ((spec_addFailure _).weaken fun _ _ h => ⟨h.1.1, h.2 _ rfl⟩).bind (fun _ => ?_)
          fun _ _ _ h => ⟨h.1, trivial⟩
        exact triple_ret fun _ _ h => h
    · rcases out with e | _ | row
      · exact ⟨h.1, trivial⟩
      · exact h
      · exact h
  refine hsession.bind (fun marked => ?_) fun _ _ _ h => ⟨h.1, fun _ heq => by cases heq⟩
  rcases marked with _ | row
  · exact triple_ret fun _ _ h => ⟨h.1, fun _ _ => h.2⟩
  · have hknown : Stable (S := S) (K := K) gid t fun w => w.creator = some t ∧ w.Settled :=
      stable_creator.and stable_settled
    have hentry : ∀ entityId payload, AuditLogInput.Tells
        ⟨.generationQueueFailed, "generation", entityId, payload⟩ .failed :=
      fun _ _ => Or.inr rfl
    exact (spec_logAudit hknown (fun _ _ h => h) (hentry _ _)).mono
      (fun _ _ h => ⟨⟨h.1, h.2.1⟩, h.2.2⟩) fun _ _ _ h => ⟨h.1, fun _ _ => h.2⟩

/-! ### Creating and queueing -/

theorem spec_flushInsert {J : World S K → Prop} (hstable : Stable gid t J)
    (row : GenerationModel S) :
    Spec gid t registry J (flushInsert row) fun out w => J w ∧ ∀ id, out = .ok id → id = gid := by
  refine triple_call (Q := fun r w => J w ∧ ∀ id, r = .ok id → id = gid)
    ⟨hstable, fun _ _ _ => trivial, fun w choice r w' hinv hJ hexec => ?_⟩
    fun r => triple_ofExcept fun _ _ h => h
  rcases orFail_cases hexec with hok | ⟨rfl, e, rfl⟩
  · cases hok
    exact ⟨keeps_refl hinv, hJ, fun id heq => by cases heq; rfl⟩
  · exact ⟨keeps_refl hinv, hJ, fun id heq => by cases heq⟩

/-- The commit of the new row. -/
theorem spec_commitInsert {row : GenerationModel S} (hpending : row.status = .pending)
    (hmessage : row.errorMessage = none) :
    Spec gid t registry (Uncreated (K := K) t (Ready t row)) (commit (.insert row)) fun out w =>
      Unqueued t w ∧ ∀ a, out = .ok a → Ready t row w ∧ w.Known row := by
  refine triple_call (Q := fun r w =>
      Unqueued t w ∧ ∀ a, r = .ok a → Ready t row w ∧ w.Known row)
    ⟨stable_uncreated (stable_ready row), fun _ _ _ => trivial,
      fun w choice r w' hinv hJ hexec => ?_⟩ fun r => triple_ofExcept fun _ _ h => h
  obtain ⟨hcreator, ⟨⟨howner, hqueued⟩, hplaced⟩, hcreated⟩ := hJ
  have hunqueued : ∀ row' created lock, Unqueued t
      { w with row := row', created := created, lock := lock } := fun _ _ _ =>
    ⟨⟨howner.creator, howner.completions, howner.audits⟩, hqueued⟩
  rcases orLost_cases hexec with rfl | ⟨rfl, e, rfl⟩
  · have hinsert := keeps_insert hinv hcreated hcreator hpending hmessage
    refine ⟨keeps_trans hinsert (keeps_release t hinsert.1), hunqueued _ _ _, fun _ _ =>
      ⟨⟨hunqueued _ _ _, hplaced⟩, rfl, fun row' hrow' => ?_⟩⟩
    cases hrow'
    exact GenerationModel.Same.refl row
  · exact ⟨keeps_release t hinv, hunqueued _ _ _, fun _ heq => by cases heq⟩

/-- The insert of a pending row, which fails with no row or with one that is not queued. -/
theorem spec_createGeneration {row : GenerationModel S} (hpending : row.status = .pending)
    (hmessage : row.errorMessage = none) :
    Spec gid t registry (Uncreated (K := K) t (Ready t row)) (createGeneration row) fun out w =>
      Unqueued t w ∧ ∀ id, out = .ok id → id = gid ∧ Ready t row w ∧ w.Known row := by
  refine (spec_flushInsert (stable_uncreated (stable_ready row)) row).bind (fun id => ?_)
    fun _ _ _ h => ⟨h.1.2.1.1, fun _ heq => by cases heq⟩
  intro w hinv h
  have hid : id = gid := h.2 id rfl
  refine (spec_commitInsert hpending hmessage).bind (fun _ => triple_ret fun _ _ h' => ?_)
    (fun _ _ _ h' => ⟨h'.1, fun _ heq => by cases heq⟩) w hinv h.1
  refine ⟨h'.1, fun id' heq => ?_⟩
  cases heq
  exact ⟨hid, h'.2 _ rfl⟩

/-- The message may be queued once its row is committed. -/
theorem spec_publish (row : GenerationModel S) (subject : String) (data : S.Data) :
    Spec gid t registry (fun w => Ready (K := K) t row w ∧ w.Known row) (publish subject data)
      fun _ w => Owner t w ∧ w.created = true := by
  refine triple_call (Q := fun _ w => Owner t w ∧ w.created = true)
    ⟨(stable_ready row).and (stable_known row), fun _ _ _ => trivial,
      fun w choice r w' hinv hJ hexec => ?_⟩ fun r => triple_ofExcept fun _ _ h => h
  obtain ⟨⟨⟨howner, hqueued⟩, hplaced⟩, hcreated, hsame⟩ := hJ
  rcases orLost_cases hexec with rfl | ⟨rfl, -⟩
  · refine ⟨keeps_enqueue hinv hcreated ?_ howner.creator,
      ⟨howner.creator, howner.completions, howner.audits⟩, hcreated⟩
    rcases hrow : w.row with _ | row'
    · exact Or.inl (Or.inr ⟨hrow, hinv.gone ⟨hcreated, hrow⟩⟩)
    · refine Or.inr ⟨row', hrow, fun key hkey => hplaced key ?_⟩
      rw [hsame row' hrow] at hkey
      exact hkey
  · exact ⟨keeps_refl hinv, howner, hcreated⟩

/-- A publish that raises leaves a settled generation behind, before anything is cleaned up. -/
theorem spec_queueGeneration {row : GenerationModel S} (metadata : AlgorithmMetadata S)
    {cleanup : Pipeline S K Unit}
    (hcleanup : Spec gid t registry (fun w => w.creator = some t ∧ w.Settled) cleanup
      fun _ _ => True) :
    Spec gid t registry (fun w => Ready t row w ∧ w.Known row)
      (queueGeneration metadata gid cleanup) fun _ _ => True := by
  refine (spec_publish row metadata.queue _).attempt_bind fun published => ?_
  split
  · refine (spec_markFailedToQueue _).bind (fun _ => ?_) fun _ _ _ _ => trivial
    refine (hcleanup.weaken fun _ _ h => ⟨h.1, h.2 _ rfl⟩).bind (fun _ => ?_)
      fun _ _ _ _ => trivial
    exact triple_raise fun _ _ _ => trivial
  · exact triple_ret fun _ _ _ => trivial

/-! ### The object -/

theorem spec_upload (key : String) (content : S.Content) :
    Spec gid t registry (Uncreated (K := K) t (Unqueued t)) (upload key content) fun out w =>
      ∀ a, out = .ok a →
        Uncreated t (fun w => Unqueued t w ∧ w.object = some (key, content)) w := by
  refine triple_call (Q := fun r w => ∀ a, r = .ok a →
      Uncreated t (fun w => Unqueued t w ∧ w.object = some (key, content)) w)
    ⟨stable_uncreated stable_unqueued, fun _ _ _ => trivial,
      fun w choice r w' hinv hJ hexec => ?_⟩ fun r => triple_ofExcept fun _ _ h => h
  obtain ⟨hcreator, ⟨howner, hqueued⟩, hcreated⟩ := hJ
  rcases orLost_cases hexec with rfl | ⟨rfl, e, rfl⟩
  · exact ⟨keeps_upload hinv hqueued hcreator _, fun _ _ => ⟨hcreator,
      ⟨⟨⟨howner.creator, howner.completions, howner.audits⟩, hqueued⟩, rfl⟩, hcreated⟩⟩
  · exact ⟨keeps_refl hinv, fun _ heq => by cases heq⟩

/-- The rollback paths delete the object when nobody can come to need it. -/
theorem spec_bestEffortDelete (key : String) :
    Spec gid t registry (fun w : World S K => w.creator = some t ∧ (w.Settled ∨ w.queued = false))
      (bestEffortDelete key) fun _ _ => True := by
  refine triple_call (Q := fun _ _ => True) ⟨fun w w' hrely hinv h => ?_, fun _ _ h => h.2,
    fun w choice r w' hinv hJ hexec => ?_⟩ fun _ => triple_ret fun _ _ _ => trivial
  · obtain ⟨hcreator, hqueued, -⟩ := Rely.creating hrely h.1
    refine ⟨hcreator, ?_⟩
    rcases h.2 with hsettled | hfalse
    · exact Or.inl (Rely.settled hrely hsettled)
    · exact Or.inr (hqueued hfalse).1
  · obtain ⟨hcreator, hsettled | hqueued⟩ := hJ
    all_goals cases choice <;> cases hexec
    · exact ⟨keeps_delete hinv hsettled (Or.inr hcreator) _, trivial⟩
    · exact ⟨keeps_refl hinv, trivial⟩
    · exact ⟨keeps_upload hinv hqueued hcreator _, trivial⟩
    · exact ⟨keeps_refl hinv, trivial⟩

/-! ### The requests -/

/-- What follows a created row: the metric, the audit entry and the message. -/
theorem spec_afterCreate {row : GenerationModel S} (metadata : AlgorithmMetadata S)
    (entry : AuditLogInput) {cleanup : Pipeline S K Unit}
    (hcleanup : Spec gid t registry (fun w => w.creator = some t ∧ w.Settled) cleanup
      fun _ _ => True) :
    Spec gid t registry (fun w => Ready t row w ∧ w.Known row) (do
      addMetric (.generationsCreated metadata.name)
      let _ ← stageAudit entry
      queueGeneration metadata gid cleanup) fun _ _ => True := by
  have hstable : Stable (K := K) gid t fun w => Ready t row w ∧ w.Known row :=
    (stable_ready row).and (stable_known row)
  have hmetric : Spec gid t registry (fun w : World S K => Ready t row w ∧ w.Known row)
      (addMetric (.generationsCreated metadata.name)) _ :=
    spec_quiet_ask rfl hstable fun _ _ _ => trivial
  have hentry : Spec gid t registry (fun w : World S K => Ready t row w ∧ w.Known row)
      (stageAudit entry) _ := spec_quiet_ask rfl hstable fun _ _ _ => trivial
  refine hmetric.bind (fun _ => ?_) fun _ _ _ _ => trivial
  refine hentry.bind (fun _ => ?_) fun _ _ _ _ => trivial
  exact spec_queueGeneration metadata hcleanup

theorem spec_uploadAndQueue (metadata : AlgorithmMetadata S) (req : GenerateRequest S)
    (file : UploadFile S) (communityId : ℤ) (validatedInputs : S.AlgoInput) (fileName : String) :
    Spec gid t registry (Uncreated (K := K) t (Unqueued t))
      (uploadAndQueue metadata req file communityId validatedInputs fileName)
      fun _ _ => True := by
  refine (spec_upload _ _).attempt_bind fun uploaded => ?_
  split
  · exact triple_raise fun _ _ _ => trivial
  · -- the row names the object that has just been uploaded
    refine Triple.attempt_bind ((spec_createGeneration rfl rfl).weaken fun w _ h => ?_)
      fun created => ?_
    · obtain ⟨hcreator, ⟨hunqueued, hobject⟩, hcreated⟩ := h _ rfl
      refine ⟨hcreator, ⟨hunqueued, fun key hkey => ?_⟩, hcreated⟩
      cases hkey
      exact ⟨_, hobject⟩
    · split
      · refine Triple.bind ((spec_bestEffortDelete _).weaken fun _ _ h =>
          ⟨h.1.1.creator, Or.inr h.1.2⟩) (fun _ => ?_) fun _ _ _ _ => trivial
        exact triple_raise fun _ _ _ => trivial
      · intro w hinv h
        obtain ⟨rfl, hready⟩ := h.2 _ rfl
        refine spec_afterCreate metadata _ ?_ w hinv hready
        exact (spec_bestEffortDelete _).weaken fun _ _ h => ⟨h.1, Or.inl h.2⟩

theorem spec_startGeneration (req : GenerateRequest S) (file : UploadFile S) (communityId : ℤ) :
    Spec gid t registry (Uncreated (K := K) t (Unqueued t))
      (startGeneration registry req file communityId) fun _ _ => True := by
  have hraise : ∀ e : Exc, Spec gid t registry (Uncreated (K := K) t (Unqueued t))
      (throw e : Pipeline S K ℤ) fun _ _ => True := fun _ => triple_raise fun _ _ _ => trivial
  unfold startGeneration
  split
  · exact hraise _
  · split
    · exact hraise _
    · dsimp only
      split
      · exact hraise _
      · split
        · exact hraise _
        · split
          · exact hraise _
          · exact spec_uploadAndQueue _ _ _ _ _ _

theorem spec_previewCrmData {J : World S K → Prop} (hstable : Stable gid t J)
    (idSharingOperation : ℤ) (periodStart periodEnd : S.Date) (communityId : ℤ) :
    Spec gid t registry J (previewCrmData idSharingOperation periodStart periodEnd communityId)
      fun _ => J := by
  unfold previewCrmData
  split
  · exact triple_raise fun _ _ h => h
  · have hexists : Spec gid t registry J (sharingOperationExists communityId idSharingOperation)
        fun _ => J := spec_quiet_ofExcept rfl hstable fun _ _ _ => trivial
    refine hexists.bind (fun known => ?_) fun _ _ _ h => h
    split
    · exact spec_quiet_ofExcept rfl hstable fun _ _ _ => trivial
    · exact triple_raise fun _ _ h => h

theorem spec_startGenerationFromCrm (req : GenerateFromCrmRequest S) (communityId : ℤ) :
    Spec gid t registry (Uncreated (K := K) t (Unqueued t))
      (startGenerationFromCrm registry req communityId) fun _ _ => True := by
  have hraise : ∀ e : Exc, Spec gid t registry (Uncreated (K := K) t (Unqueued t))
      (throw e : Pipeline S K ℤ) fun _ _ => True := fun _ => triple_raise fun _ _ _ => trivial
  unfold startGenerationFromCrm
  split
  · exact hraise _
  · split
    · exact hraise _
    · refine (spec_previewCrmData (stable_uncreated stable_unqueued) _ _ _ _).bind
        (fun summary => ?_) fun _ _ _ _ => trivial
      split
      · exact hraise _
      · -- a row without a file names no object
        refine Triple.bind ((spec_createGeneration rfl rfl).weaken fun w _ h => ?_)
          (fun created => ?_) fun _ _ _ _ => trivial
        · exact ⟨h.1, ⟨h.2.1, fun key hkey => by cases hkey⟩, h.2.2⟩
        · intro w hinv h
          obtain ⟨rfl, hready⟩ := h.2 _ rfl
          exact spec_afterCreate _ _ (triple_ret fun _ _ _ => trivial) w hinv hready

/-! ### The deletions -/

theorem spec_select (scope : Option ℤ) :
    Spec gid t registry (fun _ : World S K => True) (select gid scope) fun out w =>
      ∀ row, out = .ok (some row) → w.created = true := by
  refine triple_call (Q := fun r w => ∀ row, r = .ok (some row) → w.created = true)
    ⟨stable_true, fun _ _ _ => trivial, fun w choice r w' hinv hJ hexec => ?_⟩
    fun r => triple_ofExcept fun _ _ h => h
  rcases orFail_cases hexec with hok | ⟨rfl, e, rfl⟩
  · rw [if_pos rfl] at hok
    cases hok
    refine ⟨keeps_refl hinv, fun row hrow => ?_⟩
    by_contra hfalse
    rw [(hinv.uncreated (Bool.not_eq_true _ ▸ hfalse)).1] at hrow
    cases hrow
  · exact ⟨keeps_refl hinv, fun row hrow => by cases hrow⟩

/-- The thread has locked the row, if there still is one. -/
def Deletable (t : ℕ) (w : World S K) : Prop := w.lock = some t ∨ w.Gone

theorem stable_deletable : Stable (S := S) (K := K) gid t (Deletable t) := by
  intro w w' hrely _ h
  rcases h with hlock | hgone
  · exact Or.inl (Rely.locked hrely hlock).1
  · exact Or.inr (Rely.gone hrely hgone)

theorem spec_flushDelete :
    Spec gid t registry (fun w : World S K => w.created = true) (flushDelete gid) fun out w =>
      ∀ a, out = .ok a → Deletable t w := by
  refine triple_call (Q := fun r w => ∀ a, r = .ok a → Deletable t w)
    ⟨stable_created, fun _ _ _ => trivial, fun w choice r w' hinv hJ hexec => ?_⟩
    fun r => triple_ofExcept fun _ _ h => h
  rcases orFail_cases hexec with hok | ⟨rfl, e, rfl⟩
  · split at hok
    · rename_i hfree
      split at hok
      · rename_i row hrow
        cases hok
        exact ⟨keeps_hold hinv hfree.2 (by rw [hrow]; simp), fun _ _ => Or.inl rfl⟩
      · rename_i hrow
        cases hok
        exact ⟨keeps_refl hinv, fun _ _ => Or.inr ⟨hJ, hrow⟩⟩
    · cases hok
  · exact ⟨keeps_refl hinv, fun _ heq => by cases heq⟩

theorem spec_commitDelete :
    Spec gid t registry (Deletable (S := S) (K := K) t) (commit .delete) fun _ _ => True := by
  refine triple_call (Q := fun _ _ => True) ⟨stable_deletable, fun _ _ _ => trivial,
    fun w choice r w' hinv hJ hexec => ?_⟩ fun r => triple_ofExcept fun _ _ _ => trivial
  rcases orLost_cases hexec with rfl | ⟨rfl, -⟩
  · exact ⟨keeps_remove hinv (hJ.imp_right And.right), trivial⟩
  · exact ⟨keeps_release t hinv, trivial⟩

theorem spec_stageDeletion (entry : AuditLogInput) :
    Spec gid t registry (fun _ : World S K => True) (do
      let _ ← stageAudit entry) fun _ _ => True := by
  have hstage : Spec gid t registry (fun _ : World S K => True) (stageAudit entry)
      fun _ _ => True := spec_quiet_ask rfl stable_true fun _ _ _ => trivial
  exact hstage.bind (fun _ => triple_ret fun _ _ _ => trivial) fun _ _ _ _ => trivial

theorem spec_deleteGeneration (scope : Option ℤ) :
    Spec gid t registry (fun _ : World S K => True) (deleteGeneration gid scope)
      fun _ _ => True := by
  refine (spec_select scope).bind (fun generation => ?_) fun _ _ _ _ => trivial
  split
  · exact triple_raise fun _ _ _ => trivial
  · refine (spec_flushDelete.weaken fun _ _ h => h _ rfl).bind (fun _ => ?_) fun _ _ _ _ => trivial
    refine (spec_commitDelete.weaken fun _ _ h => h _ rfl).bind (fun _ => ?_)
      fun _ _ _ _ => trivial
    exact spec_stageDeletion _

theorem spec_commitDeleteKey (idKey : ℕ) :
    Spec gid t registry (fun _ : World S K => True) (commit (.deleteKey idKey))
      fun _ _ => True := by
  refine triple_call (Q := fun _ _ => True) ⟨stable_true, fun _ _ _ => trivial,
    fun w choice r w' hinv hJ hexec => ?_⟩ fun r => triple_ofExcept fun _ _ _ => trivial
  rcases orLost_cases hexec with rfl | ⟨rfl, -⟩
  · have hremove := keeps_removeKey (t := t) hinv idKey
    exact ⟨keeps_trans hremove (keeps_release t hremove.1), trivial⟩
  · exact ⟨keeps_release t hinv, trivial⟩

theorem spec_deleteKey (idKey : ℕ) (scope : Option ℤ) :
    Spec gid t registry (fun _ : World S K => True) (deleteKey idKey scope) fun _ _ => True := by
  have hselect : Spec gid t registry (fun _ : World S K => True) (selectKey idKey scope)
      fun _ _ => True := spec_quiet_ofExcept rfl stable_true fun _ _ _ => trivial
  have hflush : Spec gid t registry (fun _ : World S K => True) (flushDeleteKey idKey)
      fun _ _ => True := spec_quiet_ofExcept rfl stable_true fun _ _ _ => trivial
  refine hselect.bind (fun key => ?_) fun _ _ _ _ => trivial
  split
  · exact triple_raise fun _ _ _ => trivial
  · refine hflush.bind (fun _ => ?_) fun _ _ _ _ => trivial
    refine (spec_commitDeleteKey idKey).bind (fun _ => ?_) fun _ _ _ _ => trivial
    exact spec_stageDeletion _

/-! ### The system -/

/-- The session of a request. -/
theorem spec_request {J : World S K → Prop} {body : Pipeline S K Unit}
    (hbody : Spec gid t registry J body fun _ _ => True) :
    Spec gid t registry J (withLocalSession body) fun _ _ => True :=
  spec_withLocalSession hbody (fun _ => stable_true) fun _ _ _ => trivial

/-- A request that begins the generation knows that nothing has happened. -/
theorem uncreated_of_launch {w : World S K} (hinv : Inv gid w) (hcreated : w.created = false) :
    Uncreated t (Unqueued t) { w with creator := some t } := by
  obtain ⟨-, hqueued, -, hhistory⟩ := hinv.uncreated hcreated
  have hcompletions := hinv.completions
  have haudits := hinv.audits
  rw [hhistory] at hcompletions haudits
  exact ⟨rfl, ⟨⟨rfl, hcompletions.fresh t, haudits.fresh t⟩, hqueued⟩, hcreated⟩

/-- **The system keeps its discipline.** -/
theorem system_obeys : Obeys (system registry gid) (discipline S K gid) where
  launch t role w w' hinv hlaunch := by
    have hcreates : ∀ {body : Pipeline S K ℤ},
        Spec gid t registry (Uncreated (K := K) t (Unqueued t)) body (fun _ _ => True) →
        (if w.created = false ∧ w.creator = none then some { w with creator := some t }
          else none) = some w' →
        (discipline S K gid).Keeps t w w' ∧ Safe (system registry gid) (discipline S K gid) t
          (fun _ _ => True) (withLocalSession (do let _ ← body)) w' := by
      intro body hbody hsome
      split at hsome
      · rename_i hnew
        cases hsome
        have hkeeps := keeps_claimCreation hinv hnew.2 (t := t)
        refine ⟨hkeeps, spec_request (hbody.bind (fun _ => triple_ret fun _ _ _ => trivial)
          fun _ _ _ _ => trivial) _ hkeeps.1 (uncreated_of_launch hinv hnew.1)⟩
      · cases hsome
    cases role with
    | deliver metadata msg =>
      have hsome : (if w.queued ∧ msg.About gid then some w else none) = some w' := hlaunch
      split at hsome
      · rename_i hqueued
        cases hsome
        exact ⟨keeps_refl hinv, spec_handleMessage metadata hqueued.2 w hinv
          ⟨hqueued.1, fun _ hnil => by cases hnil⟩⟩
      · cases hsome
    | startGeneration req file communityId =>
      exact hcreates (spec_startGeneration req file communityId) hlaunch
    | startGenerationFromCrm req communityId =>
      exact hcreates (spec_startGenerationFromCrm req communityId) hlaunch
    | deleteGeneration scope =>
      cases hlaunch
      exact ⟨keeps_refl hinv, spec_request (spec_deleteGeneration scope) w hinv trivial⟩
    | deleteKey idKey scope =>
      cases hlaunch
      exact ⟨keeps_refl hinv, spec_request (spec_deleteKey idKey scope) w hinv trivial⟩
  abort t _ hinv := keeps_release t hinv

end AllocationKeys.Generation
