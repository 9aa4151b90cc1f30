import AllocationKeys.Generation.Calls

/-!
# A delivery keeps the discipline

From the helpers of `persistence.py` up to `handleMessage`: whatever other threads do between its
calls, a delivery commits an end only for a pending row, announces it once, returns from `process`
only when the generation is settled, and so acks and deletes only then (`spec_handleMessage`).
-/

namespace AllocationKeys.Generation

open Algorithms Concurrent Program

variable {S : Services} {K : Type} [Zero K] [Add K] {gid : ℤ} {t : ℕ}
  {registry : String → Option (AlgorithmMetadata S)} {α : Type}

/-- A delivery that returns knows the generation to be settled. -/
def Finished (t : ℕ) (got : List (AlgorithmResult K)) (out : Except Exc α) (w : World S K) : Prop :=
  Delivering t got w ∧ ∀ a, out = .ok a → w.Settled

omit [Zero K] [Add K] in
/-- A delivery that raises has left the results as they were. -/
theorem finished_error {got : List (AlgorithmResult K)} {w : World S K} (h : Delivering t got w)
    (e : Exc) : Finished t got (.error e : Except Exc α) w :=
  ⟨h, fun _ heq => by cases heq⟩

/-! ### Saving an end -/

/-- What is left to do after the session of a helper. -/
def Saved (t : ℕ) (status : GenerationStatus) :
    Except Exc (Option (GenerationModel S)) → World S K → Prop
  | .ok none, w => w.Settled
  | .ok (some _), w => Untold t status w
  | .error _, _ => True

theorem stable_saved (status : GenerationStatus) (out : Except Exc (Option (GenerationModel S))) :
    Stable (K := K) gid t (Saved t status out) := by
  rcases out with e | _ | row
  · exact stable_true
  · exact stable_settled
  · exact stable_untold status

/-- The row, the rows to add and the message make an end. -/
def MakesEnd (gid : ℤ) (t : ℕ) (got : List (AlgorithmResult K)) (status : GenerationStatus)
    (errorMessage : Option String)
    (keyRows : GenerationModel S → List (AllocationKeyGeneratedModel K)) : Prop :=
  ∀ (model : GenerationModel S) (w : World S K) row, Delivering t got w → w.row = some row →
    model.Same row →
      Ends gid w.row w.solved ⟨t, row.status, status, errorMessage, keyRows model⟩

variable {got : List (AlgorithmResult K)} {status : GenerationStatus}
  {errorMessage : Option String}
  {keyRows : GenerationModel S → List (AllocationKeyGeneratedModel K)}

/-- Claiming the outcome ends the generation, or finds it ended. -/
theorem spec_claimOutcome (hends : MakesEnd gid t got status errorMessage keyRows) :
    Spec gid t registry (Delivering t got) (claimOutcome gid status errorMessage keyRows)
      fun out w => Delivering t got w ∧ Saved t status out w := by
  refine spec_withLocalSession ?_
    (fun out => (stable_delivering got).and (stable_saved status out)) fun out w h => ?_
  · refine (spec_get (stable_delivering got) fun w hinv hJ => created_of_queued hinv hJ.1).bind
      (fun generation => ?_) fun _ _ _ h => ⟨h.1, trivial⟩
    rcases generation with _ | model
    · exact triple_ret fun _ _ h => h
    · have hclaim : Spec gid t registry _ (updateWherePending gid status errorMessage) _ :=
        spec_updateWherePending (stable_delivering got) (fun _ h => h) model status errorMessage
      refine (hclaim.weaken fun w _ h => ⟨h.1, h.2.1⟩).bind (fun rowcount => ?_)
        fun _ _ _ h => ⟨h.1, trivial⟩
      rcases rowcount with _ | n
      · exact triple_ret fun _ _ h => h
      · refine (spec_commitOutcome (hends model)).bind (fun _ => ?_) fun _ _ _ h => ⟨h.1, trivial⟩
        refine Triple.bind ((spec_addCompletion status _).weaken fun w _ h => ⟨h.1, h.2 _ rfl⟩)
          (fun _ => triple_ret fun _ _ h => h) fun _ _ _ h => ⟨h.1, trivial⟩
  · refine ⟨h.1, ?_⟩
    rcases out with e | _ | row
    · trivial
    · exact h.2
    · exact ⟨h.2.settled, h.2.flipped, h.2.audits, h.2.events⟩

/-- A saved outcome is the end of the delivery, with its metric, audit entry and event. -/
theorem spec_saveOutcome {audit : GenerationModel S → AuditLogInput}
    (hends : MakesEnd gid t got status errorMessage keyRows)
    (haudit : ∀ model, (audit model).Tells status) :
    Spec gid t registry (Delivering t got)
      (saveOutcome gid status errorMessage keyRows audit) (Finished t got) := by
  refine (spec_claimOutcome hends).bind (fun claimed => ?_) fun _ _ _ h => finished_error h.1 _
  rcases claimed with _ | model
  · exact triple_ret fun _ _ h => ⟨h.1, fun _ _ => h.2⟩
  · -- first the audit entry, then the event
    have hsettled : Stable (S := S) gid t fun w => Delivering t got w ∧ w.Settled :=
      (stable_delivering got).and stable_settled
    have hunsent : Stable (S := S) (K := K) gid t fun w =>
        Flipped t status w ∧ t ∉ w.events.map Prod.fst :=
      (stable_flipped status).and fun _ _ hrely _ h => Rely.events hrely h
    have hlog : Spec gid t registry _ (logAudit (audit model)) _ :=
      spec_logAudit (hsettled.and hunsent) (fun _ _ h => h) (haudit model)
    refine (hlog.weaken fun w _ h => ?_).bind (fun _ => ?_) fun _ _ _ h => finished_error h.1.1 _
    · exact ⟨⟨⟨h.1, h.2.settled⟩, h.2.flipped, h.2.events⟩, h.2.flipped, h.2.audits⟩
    · have hemit : Spec gid t registry _ (emit (finished gid model.idCommunity status)) _ :=
        spec_emit hsettled (fun _ _ h => h) rfl
      exact hemit.imp fun _ _ _ h => ⟨h.1, fun _ _ => h.2⟩

/-- **`save_success` saves one result.** -/
theorem spec_saveSuccess {result : AlgorithmResult K} (hgot : result ∈ got) :
    Spec gid t registry (Delivering t got) (saveSuccess gid result) (Finished t got) := by
  refine spec_saveOutcome (fun model w row hdelivering hrow hsame => ?_) fun _ => rfl
  constructor
  · simp
  · intro h
    cases h
  · refine fun _ => ⟨rfl, result, hdelivering.2 result hgot, fun r hr => ?_⟩
    rw [hrow] at hr
    cases hr
    show resultRows gid model.idCommunity result = _
    rw [hsame]

/-- A saved failure is the end of the delivery. -/
theorem spec_saveFailure (errorMessage : String) :
    Spec gid t registry (Delivering t got) (saveFailure gid errorMessage) (Finished t got) := by
  refine spec_saveOutcome (fun _ _ _ _ _ _ => ?_) fun _ => Or.inl rfl
  constructor
  · simp
  · intro _
    rfl
  · intro h
    cases h

/-! ### The pipeline -/

/-- A quiet call changes nothing that a delivery relies on. -/
theorem spec_quiet_call {o : Op S K} {next : Resp S K o → Except Exc α} (hquiet : o.Quiet = true)
    (hpre : ∀ w, Delivering t got w → pre t o w) :
    Spec gid t registry (Delivering t got) (.call o fun r => Program.ofExcept (next r))
      fun _ => Delivering t got :=
  spec_quiet_ofExcept hquiet (stable_delivering got) fun w _ h => hpre w h

theorem spec_quiet_metric {metric : Metric} (hquiet : (Op.addMetric metric : Op S K).Quiet = true) :
    Spec gid t registry (Delivering t got) (addMetric metric) fun _ => Delivering t got :=
  spec_quiet_ask hquiet (stable_delivering got) fun _ _ _ => trivial

/-- What the snapshot tells. -/
def Snapped (gid : ℤ) : Except Exc (Option (GenerationSnapshot S)) → World S K → Prop
  | .ok none, w => w.Settled
  | .ok (some snapshot), w => snapshot.id = gid ∧ (snapshot.status ≠ .pending → w.Settled)
  | .error _, _ => True

theorem stable_snapped (out : Except Exc (Option (GenerationSnapshot S))) :
    Stable (K := K) gid t (Snapped gid out) := by
  rcases out with e | _ | snapshot
  · exact stable_true
  · exact stable_settled
  · intro w w' hrely hinv h
    exact ⟨h.1, stable_imp stable_settled w w' hrely hinv h.2⟩

/-- The snapshot is of this generation. -/
theorem spec_snapshotGeneration :
    Spec gid t registry (Delivering t got) (snapshotGeneration gid) fun out w =>
      Delivering t got w ∧ Snapped gid out w := by
  refine spec_withLocalSession ?_ (fun out => (stable_delivering got).and (stable_snapped out))
    fun out w h => ?_
  · refine (spec_get (stable_delivering got) fun w hinv hJ => created_of_queued hinv hJ.1).bind
      (fun row => triple_ret fun w _ h => ?_) fun _ _ _ h => ⟨h.1, trivial⟩
    rcases row with _ | row
    · exact h
    · exact ⟨h.1, rfl, h.2.2⟩
  · rcases out with e | _ | snapshot
    · exact ⟨h.1, trivial⟩
    · exact h
    · exact h

/-- A recorded failure is the end of the delivery. -/
theorem spec_failWith (errorMessage : String) (storageKey : Option String) :
    Spec gid t registry (Delivering t got) (failWith gid errorMessage storageKey)
      (Finished t got) :=
  (spec_saveFailure errorMessage).bind
    (fun _ => triple_ret fun _ _ h => ⟨h.1, fun _ _ => h.2 _ rfl⟩)
    fun _ _ _ h => finished_error h.1 _

/-- A load that ends the delivery knows the generation to be settled. -/
def Loaded (t : ℕ) (got : List (AlgorithmResult K)) (out : Except Exc (Except Terminal S.RawData))
    (w : World S K) : Prop :=
  Delivering t got w ∧ ∀ terminal, out = .ok (.error terminal) → w.Settled

/-- So is a failure while loading. -/
theorem spec_failLoading (errorMessage : String) (storageKey : Option String) :
    Spec gid t registry (Delivering t got)
      (Except.error <$> failWith gid errorMessage storageKey) (Loaded t got) :=
  (spec_failWith errorMessage storageKey).map (fun _ _ _ h => ⟨h.1, fun _ _ => h.2 _ rfl⟩)
    fun _ _ _ h => ⟨h.1, fun _ heq => by cases heq⟩

theorem spec_loaded (rawData : S.RawData) :
    Spec gid t registry (Delivering t got) (pure (.ok rawData)) (Loaded t got) :=
  triple_ret fun _ _ h => ⟨h, fun _ heq => by cases heq⟩

theorem spec_throwLoading (e : Exc) :
    Spec gid t registry (Delivering t got)
      (throw e : Pipeline S K (Except Terminal S.RawData)) (Loaded t got) :=
  triple_raise fun _ _ h => ⟨h, fun _ heq => by cases heq⟩

/-- A file gives the data or ends the delivery. -/
theorem spec_loadFromFile {snapshot : GenerationSnapshot S} (hid : snapshot.id = gid) :
    Spec gid t registry (Delivering t got) (loadFromFile snapshot) (Loaded t got) := by
  subst hid
  unfold loadFromFile
  split
  · have hdownload : ∀ key, Spec snapshot.id t registry (Delivering t got) (download key)
        fun _ => Delivering t got := fun key => spec_quiet_call rfl fun _ _ => trivial
    refine (hdownload _).attempt_bind fun content => ?_
    split
    · exact spec_failLoading _ _
    · exact spec_throwLoading _
    · exact spec_throwLoading _
    · split
      · exact spec_loaded _
      · exact spec_failLoading _ _
      · exact spec_failLoading _ _
  · exact spec_failLoading _ _

/-- The CRM gives the data or ends the delivery. -/
theorem spec_loadFromCrm {snapshot : GenerationSnapshot S} (hid : snapshot.id = gid) :
    Spec gid t registry (Delivering t got) (loadFromCrm snapshot) (Loaded t got) := by
  subst hid
  unfold loadFromCrm
  split
  · rename_i operation start stop _ _ _
    have hread : Spec snapshot.id t registry (Delivering t got) (do
        let summary ← summarize snapshot.idCommunity operation start stop
        let rows ←
          (if (S.blockers summary).isEmpty then
            some <$> fetchRows snapshot.idCommunity operation start stop
          else pure none)
        pure (summary, rows)) fun _ => Delivering t got := by
      have hsummarize : Spec snapshot.id t registry (Delivering t got)
          (summarize snapshot.idCommunity operation start stop) fun _ => Delivering t got :=
        spec_quiet_call rfl fun _ _ => trivial
      have hfetch : Spec snapshot.id t registry (Delivering t got)
          (fetchRows snapshot.idCommunity operation start stop) fun _ => Delivering t got :=
        spec_quiet_call rfl fun _ _ => trivial
      refine hsummarize.bind (fun summary => ?_) fun _ _ _ h => h
      refine Triple.bind (m := fun _ => Delivering t got) ?_ (fun rows => triple_ret fun _ _ h => h)
        fun _ _ _ h => h
      split
      · exact hfetch.map (fun _ _ _ h => h) fun _ _ _ h => h
      · exact triple_ret fun _ _ h => h
    refine hread.attempt_bind fun read => ?_
    split
    · exact spec_throwLoading _
    · exact spec_failLoading _ _
    · split
      · exact spec_loaded _
      · exact spec_failLoading _ _
      · exact spec_failLoading _ _
  · exact spec_failLoading _ _

/-- The data, or the end of the delivery. -/
theorem spec_loadRawData {snapshot : GenerationSnapshot S} (hid : snapshot.id = gid) :
    Spec gid t registry (Delivering t got) (loadRawData snapshot) (Loaded t got) := by
  unfold loadRawData
  split
  · exact spec_loadFromCrm hid
  · exact spec_loadFromFile hid

/-- A run of the algorithm leaves its result on record. -/
theorem spec_solve (algorithm : String) (inputs : S.AlgoInput) (rawData : S.RawData) :
    Spec gid t registry (Delivering t got) (solve algorithm inputs rawData) fun out w =>
      Delivering t got w ∧ ∀ result, out = .ok result → Delivering t [result] w := by
  refine triple_call (Q := fun r w =>
      Delivering t got w ∧ ∀ result, r = .ok result → Delivering t [result] w)
    ⟨stable_delivering got, fun _ _ _ => trivial, fun w choice r w' hinv hJ hexec => ?_⟩
    fun r => triple_ofExcept fun _ _ h => h
  cases choice <;> cases hexec
  · exact ⟨keeps_refl hinv, hJ, fun _ heq => by cases heq⟩
  · exact ⟨keeps_refl hinv, hJ, fun _ heq => by cases heq⟩
  · refine ⟨keeps_solved hinv _, ⟨hJ.1, fun result hresult => ?_⟩, fun result heq => ⟨hJ.1, ?_⟩⟩
    · exact List.mem_cons_of_mem _ (hJ.2 result hresult)
    · cases heq
      intro result' hresult
      rw [List.mem_singleton.mp hresult]
      exact List.mem_cons_self ..

/-- A result of the algorithm is the one that the delivery has got. -/
theorem spec_runAlgorithm (algorithm : String) (inputs : S.AlgoInput) (rawData : S.RawData) :
    Spec gid t registry (Delivering t got) (runAlgorithm algorithm inputs rawData) fun out w =>
      Delivering t got w ∧ ∀ result, out = .ok result → Delivering t [result] w := by
  refine (spec_solve algorithm inputs rawData).tryCatch (fun _ _ _ h => h) fun e => ?_
  split <;> exact triple_raise fun _ _ h => ⟨h.1, fun _ heq => by cases heq⟩

/-- After a crash the delivery ends, or the message is retried. -/
theorem spec_afterSolverCrash (numDelivered : Option ℕ) (detail : String)
    (storageKey : Option String) :
    Spec gid t registry (Delivering t got)
      (afterSolverCrash gid numDelivered detail storageKey) (Finished t got) := by
  unfold afterSolverCrash
  split
  · exact spec_failWith _ _
  · split
    · exact triple_raise fun _ _ h => finished_error h _
    · exact spec_failWith _ _

/-- From the data to the end of the delivery. -/
theorem spec_solveAndSave (algorithm : String) (numDelivered : Option ℕ)
    (storageKey : Option String) (inputs : S.AlgoInput) (rawData : S.RawData) :
    Spec (K := K) gid t registry (Delivering t [])
      (solveAndSave algorithm gid numDelivered storageKey inputs rawData) (Finished t []) := by
  have hrun : Spec (K := K) gid t registry (Delivering t []) _ _ :=
    spec_runAlgorithm algorithm inputs rawData
  refine hrun.attempt_bind fun result => ?_
  split
  · exact ((spec_quiet_metric rfl).bind (fun _ => spec_afterSolverCrash _ _ _)
      fun _ _ _ h => finished_error h _).weaken fun _ _ h => h.1
  · exact ((spec_quiet_metric rfl).bind (fun _ => spec_failWith _ _)
      fun _ _ _ h => finished_error h _).weaken fun _ _ h => h.1
  · rename_i result
    have hmetric : Spec gid t registry (Delivering t [result])
        (addMetric (.generationDuration algorithm "success")) fun _ => Delivering t [result] :=
      spec_quiet_metric rfl
    have hforget : ∀ w : World S K, Delivering t [result] w → Delivering t [] w :=
      fun w h => ⟨h.1, fun _ hnil => by cases hnil⟩
    refine ((hmetric.weaken fun _ _ h => h.2 result rfl).bind (fun _ => ?_)
      fun _ _ _ h => finished_error (hforget _ h) _)
    have hsave : Spec gid t registry (Delivering t [result]) (saveSuccess gid result)
        (Finished t [result]) := spec_saveSuccess (List.mem_singleton.mpr rfl)
    refine hsave.attempt_bind fun saved => ?_
    split
    · exact triple_raise fun w _ h => finished_error (hforget w h.1) _
    · exact triple_ret fun w _ h => ⟨hforget w h.1, fun _ _ => h.2 _ rfl⟩

/-- **The pipeline returns only of a settled generation.** -/
theorem spec_process (metadata : AlgorithmMetadata S) (numDelivered : Option ℕ) :
    Spec (K := K) gid t registry (Delivering t []) (process metadata gid numDelivered)
      (Finished t []) := by
  refine spec_snapshotGeneration.bind (fun snapshot => ?_) fun _ _ _ h => finished_error h.1 _
  rcases snapshot with _ | snapshot
  · exact triple_ret fun _ _ h => ⟨h.1, fun _ _ => h.2⟩
  · dsimp only
    split
    · rename_i hnot
      exact triple_ret fun _ _ h => ⟨h.1, fun _ _ => h.2.2 hnot⟩
    · split
      · exact (spec_failWith _ _).weaken fun _ _ h => h.1
      · intro w hinv h
        have hid : snapshot.id = gid := h.2.1
        refine (spec_loadRawData hid).bind (fun loaded => ?_)
          (fun _ _ _ h => finished_error h.1 _) w hinv h.1
        · rcases loaded with terminal | rawData
          · exact triple_ret fun _ _ h => ⟨h.1, fun _ _ => h.2 _ rfl⟩
          · refine Triple.weaken (K := Delivering t []) ?_ fun _ _ h => h.1
            dsimp only
            split
            · exact spec_failWith _ _
            · split
              · exact spec_failWith _ _
              · split
                · exact spec_solveAndSave _ _ _ _ _
                · exact spec_failWith _ _

/-! ### One delivery -/

/-- An ack comes when the row has settled. -/
theorem spec_ack :
    Spec gid t registry (fun w => Delivering t got w ∧ w.Settled) ack
      fun _ w => Delivering t got w ∧ w.Settled :=
  spec_quiet_ofExcept rfl ((stable_delivering got).and stable_settled) fun _ _ h => h.2

theorem spec_nak (delay : ℕ) :
    Spec gid t registry (Delivering t got) (nak delay) fun _ => Delivering t got :=
  spec_quiet_call rfl fun _ h => h.1

/-- The object is deleted after the ack only. -/
theorem spec_deleteSafely (key : String) :
    Spec gid t registry (fun w => Delivering t got w ∧ w.Settled) (deleteSafely key)
      fun _ _ => True := by
  refine triple_call (Q := fun _ _ => True) ⟨(stable_delivering got).and stable_settled,
    fun _ _ h => Or.inl h.2, fun w choice r w' hinv hJ hexec => ?_⟩
    fun _ => triple_ret fun _ _ _ => trivial
  cases choice <;> cases hexec
  · exact ⟨keeps_delete hinv hJ.2 (Or.inl hJ.1.1) _, trivial⟩
  · exact ⟨keeps_refl hinv, trivial⟩

/-- **A delivery is safe.** -/
theorem spec_handleMessage (metadata : AlgorithmMetadata S) {msg : Msg S} (habout : msg.About gid) :
    Spec (K := K) gid t registry (Delivering t []) (handleMessage metadata msg)
      fun _ _ => True := by
  obtain ⟨event, hdecode, hid⟩ := Option.bind_eq_some_iff.mp habout
  unfold handleMessage
  rw [hdecode]
  dsimp only
  rw [hid]
  dsimp only
  have hend : ∀ metric : Metric, (Op.addMetric metric : Op S K).Quiet = true →
      Spec gid t registry (Delivering t []) (addMetric metric) fun _ _ => True :=
    fun metric hquiet => (spec_quiet_metric hquiet).imp fun _ _ _ _ => trivial
  refine (spec_process metadata msg.numDelivered).attempt_bind fun outcome => ?_
  split
  · refine Triple.weaken (K := Delivering t []) ?_ fun _ _ h => h.1
    exact (spec_nak _).bind (fun _ => hend _ rfl) fun _ _ _ _ => trivial
  · refine Triple.weaken (K := Delivering t []) ?_ fun _ _ h => h.1
    refine (spec_saveFailure _).bind (fun _ => ?_) fun _ _ _ _ => trivial
    refine Triple.bind (spec_ack.weaken fun _ _ h => ⟨h.1, h.2 _ rfl⟩) (fun _ => ?_)
      fun _ _ _ _ => trivial
    exact (hend _ rfl).weaken fun _ _ h => h.1
  · refine Triple.bind (spec_ack.weaken fun _ _ h => ⟨h.1, h.2 _ rfl⟩) (fun _ => ?_)
      fun _ _ _ _ => trivial
    split
    · exact spec_deleteSafely _
    · exact triple_ret fun _ _ _ => trivial

end AllocationKeys.Generation
