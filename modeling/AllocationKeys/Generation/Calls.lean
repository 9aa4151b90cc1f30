import AllocationKeys.Generation.Steps

/-!
# The calls of the pipeline

What each call does under the discipline. A quiet call leaves the world as it is; the rest have a
rule of their own: the claim of the row, the commits, the announcements. `spec_saveOutcome` and
`spec_markFailedToQueue` are built of them.
-/

namespace AllocationKeys.Generation

open Algorithms Concurrent Program

variable {S : Services} {K : Type} {gid : ℤ} {t : ℕ}
  {registry : String → Option (AlgorithmMetadata S)} {α : Type}

/-! ### Quiet calls -/

/-- The calls that leave the world as it is. -/
def Op.Quiet : Op S K → Bool
  | .get _ | .flushInsert _ | .flushDeleteKey _ | .select .. | .selectKey .. | .stageAudit _
  | .sharingOperationExists .. | .summarize .. | .fetchRows .. | .download _ | .ack | .nak _ => true
  | .addMetric (.generationsCompleted ..) => false
  | .addMetric _ => true
  | _ => false

theorem orFail_quiet {choice : Choice S K} {w w' : World S K} {r : Except Exc α}
    {done : Option (Except Exc α × World S K)} (h : orFail choice w done = some (r, w'))
    (hdone : ∀ r w', done = some (r, w') → w' = w) : w' = w := by
  rcases orFail_cases h with hok | ⟨rfl, -⟩
  · exact hdone r w' hok
  · rfl

theorem exec_quiet {o : Op S K} (hquiet : o.Quiet = true) {choice : Choice S K} {w w' : World S K}
    {r : Resp S K o} (h : exec gid t o choice w = some (r, w')) : w' = w := by
  cases o with
  | get id =>
    refine orFail_quiet h fun r w' hok => ?_
    split at hok <;> cases hok
    rfl
  | select id scope =>
    refine orFail_quiet h fun r w' hok => ?_
    split at hok <;> cases hok
    rfl
  | selectKey id scope => exact orFail_quiet h fun r w' hok => by cases hok; rfl
  | flushInsert row => exact orFail_quiet h fun r w' hok => by cases hok; rfl
  | flushDeleteKey id => exact orFail_quiet h fun r w' hok => by cases hok; rfl
  | ack => exact orFail_quiet h fun r w' hok => by cases hok; rfl
  | nak delay => exact orFail_quiet h fun r w' hok => by cases hok; rfl
  | stageAudit entry => cases choice <;> cases h <;> rfl
  | sharingOperationExists communityId id => cases choice <;> cases h <;> rfl
  | summarize communityId id start stop => cases choice <;> cases h <;> rfl
  | fetchRows communityId id start stop => cases choice <;> cases h <;> rfl
  | download key =>
    simp only [exec] at h
    repeat' split at h
    all_goals cases h
    all_goals rfl
  | addMetric metric => cases metric <;> cases h <;> first | rfl | cases hquiet
  | _ => cases hquiet

variable [Zero K] [Add K] {J : World S K → Prop}

/-- Knowledge that is stable for thread `t`. -/
abbrev Stable (gid : ℤ) (t : ℕ) (J : World S K → Prop) : Prop :=
  (discipline S K gid).Stable t J

variable (registry gid t) in
/-- What a program of the system does under its discipline. -/
abbrev Spec (J : World S K → Prop) (p : Pipeline S K α) (post : Except Exc α → World S K → Prop) :
    Prop :=
  Triple (system registry gid) (discipline S K gid) t J p post

/-- A quiet call loses nothing that is known. -/
theorem spec_quiet {o : Op S K} {next : Resp S K o → Pipeline S K α}
    {post : Except Exc α → World S K → Prop} (hquiet : o.Quiet = true) (hstable : Stable gid t J)
    (hpre : ∀ w, Inv gid w → J w → pre t o w) (hnext : ∀ r, Spec gid t registry J (next r) post) :
    Spec gid t registry J (.call o next) post := by
  refine triple_call ⟨hstable, hpre, fun w choice r w' hinv hJ hexec => ?_⟩ hnext
  have hsame : w' = w := exec_quiet hquiet hexec
  subst hsame
  exact ⟨keeps_refl hinv, hJ⟩

/-- A quiet call whose error is raised. -/
theorem spec_quiet_ofExcept {o : Op S K} {next : Resp S K o → Except Exc α}
    (hquiet : o.Quiet = true) (hstable : Stable gid t J)
    (hpre : ∀ w, Inv gid w → J w → pre t o w) :
    Spec gid t registry J (.call o fun r => Program.ofExcept (next r)) fun _ => J :=
  spec_quiet hquiet hstable hpre fun _ => triple_ofExcept fun _ _ hJ => hJ

/-- A quiet call that does not raise. -/
theorem spec_quiet_ask {o : Op S K} (hquiet : o.Quiet = true) (hstable : Stable gid t J)
    (hpre : ∀ w, Inv gid w → J w → pre t o w) :
    Spec gid t registry J (ask o) fun _ => J :=
  spec_quiet hquiet hstable hpre fun _ => triple_ret fun _ _ hJ => hJ

/-! ### Stable knowledge -/

theorem stable_true : Stable (S := S) (K := K) gid t fun _ => True := fun _ _ _ _ _ => trivial

theorem Stable.and {J' : World S K → Prop} (h : Stable gid t J) (h' : Stable gid t J') :
    Stable gid t fun w => J w ∧ J' w :=
  fun w w' hrely hinv hJ => ⟨h w w' hrely hinv hJ.1, h' w w' hrely hinv hJ.2⟩

theorem stable_imp {p : Prop} (h : Stable gid t J) : Stable gid t fun w => p → J w :=
  fun w w' hrely hinv hJ hp => h w w' hrely hinv (hJ hp)

theorem stable_settled : Stable (S := S) (K := K) gid t World.Settled :=
  fun _ _ hrely _ h => Rely.settled hrely h

theorem stable_known (model : GenerationModel S) :
    Stable (K := K) gid t (World.Known model) :=
  fun _ _ hrely _ h => Rely.known hrely model h

theorem stable_flipped (status : GenerationStatus) :
    Stable (S := S) (K := K) gid t (Flipped t status) := by
  intro w w' hrely _ ⟨o, ho, h⟩
  exact ⟨o, (Rely.history hrely).subset ho, h⟩

/-- The thread has the lock on a row that is still pending. -/
def Held (t : ℕ) (model : GenerationModel S) (w : World S K) : Prop :=
  w.lock = some t ∧ ∃ row, w.row = some row ∧ row.status = .pending ∧ model.Same row

theorem stable_held (model : GenerationModel S) : Stable (K := K) gid t (Held t model) := by
  intro w w' hrely _ ⟨hlock, hrow⟩
  obtain ⟨hlock', hsame⟩ := Rely.locked hrely hlock
  exact ⟨hlock', by rw [hsame]; exact hrow⟩

/-- The thread has committed an end and has not audited or announced it yet. -/
structure Untold (t : ℕ) (status : GenerationStatus) (w : World S K) : Prop where
  settled : w.Settled
  flipped : Flipped t status w
  audits : t ∉ w.audits.map Prod.fst
  events : t ∉ w.events.map Prod.fst

theorem stable_untold (status : GenerationStatus) :
    Stable (S := S) (K := K) gid t (Untold t status) :=
  fun w w' hrely hinv h =>
    ⟨Rely.settled hrely h.settled, stable_flipped status w w' hrely hinv h.flipped,
      Rely.audits hrely h.audits, Rely.events hrely h.events⟩

/-! ### Sessions -/

/-- A session ends as its body does. -/
theorem spec_withLocalSession {body : Pipeline S K α} {post : Except Exc α → World S K → Prop}
    (hbody : Spec gid t registry J body post) (hstable : ∀ out, Stable gid t (post out))
    (hrelease : ∀ out w, post out w → post out (w.release t)) :
    Spec gid t registry J (withLocalSession body) post := by
  refine hbody.attempt_bind fun out => triple_call (Q := fun _ => post out)
    ⟨hstable out, fun _ _ _ => trivial, fun w choice r w' hinv hpost hexec => ?_⟩
    fun _ => triple_ofExcept fun _ _ hpost => hpost
  cases hexec
  exact ⟨keeps_release t hinv, hrelease out w hpost⟩

/-! ### Claiming the row -/

/-- What the row count of the conditional `UPDATE` tells. -/
def Claimed (t : ℕ) (model : GenerationModel S) : Except Exc ℕ → World S K → Prop
  | .ok 0, w => w.Settled
  | .ok (_ + 1), w => Held t model w
  | .error _, _ => True

theorem spec_updateWherePending (hstable : Stable gid t J)
    (hhold : ∀ w, J w → J { w with lock := some t }) (model : GenerationModel S)
    (status : GenerationStatus) (errorMessage : Option String) :
    Spec gid t registry (fun w => J w ∧ World.Known model w)
      (updateWherePending gid status errorMessage) fun out w => J w ∧ Claimed t model out w := by
  refine triple_call (Q := fun r w => J w ∧ Claimed t model r w)
    ⟨hstable.and (stable_known model), fun _ _ _ => trivial,
      fun w choice r w' hinv hJ hexec => ?_⟩ fun r => triple_ofExcept fun _ _ h => h
  rcases orFail_cases hexec with hok | ⟨rfl, e, rfl⟩
  · split at hok
    · rename_i hfree
      split at hok
      · rename_i row hrow
        split at hok
        · rename_i hpending
          cases hok
          exact ⟨keeps_hold hinv hfree.2 (by rw [hrow]; simp), hhold w hJ.1, rfl, row, hrow,
            hpending, hJ.2.2 row hrow⟩
        · rename_i hnot
          cases hok
          exact ⟨keeps_refl hinv, hJ.1, Or.inl ⟨row, hrow, hnot⟩⟩
      · rename_i hrow
        cases hok
        exact ⟨keeps_refl hinv, hJ.1, Or.inr ⟨hrow, hinv.gone ⟨hJ.2.1, hrow⟩⟩⟩
    · cases hok
  · exact ⟨keeps_refl hinv, hJ.1, trivial⟩

/-- What reading the row tells. -/
def ReadRow : Except Exc (Option (GenerationModel S)) → World S K → Prop
  | .ok none, w => w.Settled
  | .ok (some row), w => w.Known row ∧ (row.status ≠ .pending → w.Settled)
  | .error _, _ => True

theorem spec_get (hstable : Stable gid t J) (hcreated : ∀ w, Inv gid w → J w → w.created = true) :
    Spec gid t registry J (get gid) fun out w => J w ∧ ReadRow out w := by
  refine triple_call (Q := fun r w => J w ∧ ReadRow r w) ⟨hstable, fun _ _ _ => trivial,
    fun w choice r w' hinv hJ hexec => ?_⟩ fun r => triple_ofExcept fun _ _ h => h
  rcases orFail_cases hexec with hok | ⟨rfl, e, rfl⟩
  · rw [if_pos rfl] at hok
    cases hok
    refine ⟨keeps_refl hinv, hJ, ?_⟩
    rcases hrow : w.row with _ | row
    · exact Or.inr ⟨hrow, hinv.gone ⟨hcreated w hinv hJ, hrow⟩⟩
    · refine ⟨⟨hcreated w hinv hJ, fun row' hrow' => ?_⟩, fun hnot => Or.inl ⟨row, hrow, hnot⟩⟩
      rw [hrow] at hrow'
      cases hrow'
      exact GenerationModel.Same.refl row
  · exact ⟨keeps_refl hinv, hJ, trivial⟩

/-! ### Committing an end -/

/-- What a delivery knows: its message is queued, and it got these results. -/
def Delivering (t : ℕ) (got : List (AlgorithmResult K)) (w : World S K) : Prop :=
  w.queued = true ∧ ∀ result ∈ got, (t, result) ∈ w.solved

theorem stable_delivering (got : List (AlgorithmResult K)) :
    Stable (S := S) gid t (Delivering t got) :=
  fun _ _ hrely _ h => ⟨Rely.queued hrely h.1, fun result hresult =>
    Rely.solved hrely (h.2 result hresult)⟩

theorem created_of_queued {w : World S K} (hinv : Inv gid w) (hqueued : w.queued = true) :
    w.created = true := by
  by_contra hfalse
  have hnot := (hinv.uncreated (Bool.not_eq_true _ ▸ hfalse)).2.1
  rw [hqueued] at hnot
  cases hnot

/-- A pending row has seen no end. -/
theorem history_of_pending {w : World S K} (hinv : Inv gid w) {row : GenerationModel S}
    (hrow : w.row = some row) (hpending : row.status = .pending) : w.history = [] := by
  have hcurrent := hinv.current row hrow
  rcases hhistory : w.history with _ | ⟨o, earlier⟩
  · rfl
  · rw [hhistory] at hcurrent
    have hfinal := (hinv.ends o (by rw [hhistory]; exact List.mem_cons_self ..)).final
    rw [← hcurrent.1] at hfinal
    exact absurd hpending hfinal

/-- The commit of an end, with nothing announced yet. -/
theorem spec_commitOutcome {got : List (AlgorithmResult K)} {model : GenerationModel S}
    {status : GenerationStatus} {errorMessage : Option String}
    {keys : List (AllocationKeyGeneratedModel K)}
    (hends : ∀ w row, Delivering t got w → w.row = some row → model.Same row →
      Ends gid w.row w.solved ⟨t, row.status, status, errorMessage, keys⟩) :
    Spec gid t registry (fun w => Delivering t got w ∧ Held t model w)
      (commit (.outcome status errorMessage keys)) fun out w => Delivering t got w ∧
        ∀ a, out = .ok a → Untold t status w ∧ t ∉ w.completions.map Prod.fst := by
  refine triple_call (Q := fun r w => Delivering t got w ∧
    ∀ a, r = .ok a → Untold t status w ∧ t ∉ w.completions.map Prod.fst)
    ⟨(stable_delivering got).and (stable_held model), ?_, fun w choice r w' hinv hJ hexec => ?_⟩
    fun r => triple_ofExcept fun _ _ h => h
  · rintro w - ⟨-, hlock, row, hrow, hpending, -⟩
    exact ⟨hlock, row, hrow, hpending⟩
  · obtain ⟨hdelivering, hlock, row, hrow, hpending, hsame⟩ := hJ
    have hend := hends w row hdelivering hrow hsame
    have hnone := history_of_pending hinv hrow hpending
    have hfresh := hinv.completions
    have hfreshAudits := hinv.audits
    have hfreshEvents := hinv.events
    rw [hnone] at hfresh hfreshAudits hfreshEvents
    rcases orLost_cases hexec with rfl | ⟨rfl, e, rfl⟩
    · have hsettle := keeps_settle hinv hlock hrow hend
      refine ⟨keeps_trans hsettle (keeps_release t hsettle.1), ?_⟩
      rw [show w.apply t (.outcome status errorMessage keys) = _ from settle_eq hrow ..]
      exact ⟨hdelivering, fun _ _ => ⟨⟨Or.inl ⟨_, rfl, hend.final⟩,
        ⟨_, List.mem_cons_self .., rfl, rfl⟩, hfreshAudits.fresh t, hfreshEvents.fresh t⟩,
        hfresh.fresh t⟩⟩
    · exact ⟨keeps_release t hinv, hdelivering, fun _ h => by cases h⟩

/-! ### Announcing an end -/

theorem spec_addCompletion {got : List (AlgorithmResult K)} (status : GenerationStatus)
    (algorithm : String) :
    Spec gid t registry (fun w => Delivering t got w ∧ Untold t status w ∧
        t ∉ w.completions.map Prod.fst)
      (addMetric (.generationsCompleted algorithm status.text)) fun _ w =>
        Delivering t got w ∧ Untold t status w := by
  have hnew : Stable (S := S) (K := K) gid t fun w => t ∉ w.completions.map Prod.fst :=
    fun _ _ hrely _ h => Rely.completions hrely h
  refine triple_call (Q := fun _ w => Delivering t got w ∧ Untold t status w)
    ⟨(stable_delivering got).and ((stable_untold status).and hnew), fun _ _ _ => trivial,
      fun w choice r w' hinv hJ hexec => ?_⟩ fun _ => triple_ret fun _ _ h => h
  obtain ⟨hdelivering, huntold, hfresh⟩ := hJ
  cases hexec
  exact ⟨keeps_complete hinv huntold.flipped hfresh algorithm, hdelivering,
    huntold.settled, huntold.flipped, huntold.audits, huntold.events⟩

theorem spec_logAudit (hstable : Stable gid t J)
    (haudits : ∀ w audits, J w → J { w with audits := audits })
    {status : GenerationStatus} {entry : AuditLogInput} (hentry : entry.Tells status) :
    Spec gid t registry (fun w => J w ∧ Flipped t status w ∧ t ∉ w.audits.map Prod.fst)
      (logAudit entry) fun _ => J := by
  have hnew : Stable (S := S) (K := K) gid t fun w => t ∉ w.audits.map Prod.fst :=
    fun _ _ hrely _ h => Rely.audits hrely h
  have hflipped : Stable (S := S) (K := K) gid t (Flipped t status) := stable_flipped status
  have hall := hstable.and (hflipped.and hnew)
  refine (spec_quiet_ask (o := .stageAudit entry) rfl hall fun _ _ _ => trivial).bind
    (fun staged => ?_) fun _ _ _ h => h.1
  refine triple_call (Q := fun _ => J) ⟨hall, fun _ _ _ => trivial,
    fun w choice r w' hinv hJ hexec => ?_⟩ fun r => triple_ofExcept fun _ _ h => h
  obtain ⟨hJ, hflipped, hfresh⟩ := hJ
  rcases orLost_cases hexec with rfl | ⟨rfl, -⟩
  · cases staged with
    | true => exact ⟨keeps_audit hinv hflipped hfresh hentry, haudits w _ hJ⟩
    | false => exact ⟨keeps_refl hinv, hJ⟩
  · exact ⟨keeps_refl hinv, hJ⟩

theorem spec_emit (hstable : Stable gid t J)
    (hevents : ∀ w events, J w → J { w with events := events })
    {status : GenerationStatus} {event : RealtimeEvent} (hevent : event.hint = status.text) :
    Spec gid t registry (fun w => J w ∧ Flipped t status w ∧ t ∉ w.events.map Prod.fst)
      (emit event) fun _ => J := by
  have hnew : Stable (S := S) (K := K) gid t fun w => t ∉ w.events.map Prod.fst :=
    fun _ _ hrely _ h => Rely.events hrely h
  refine triple_call (Q := fun _ => J) ⟨hstable.and ((stable_flipped status).and hnew), ?_,
    fun w choice r w' hinv hJ hexec => ?_⟩ fun _ => triple_ret fun _ _ h => h
  · rintro w - ⟨-, ⟨o, ho, hthread, rfl⟩, -⟩
    exact ⟨o, ho, hthread, hevent⟩
  obtain ⟨hJ, hflipped, hfresh⟩ := hJ
  cases choice <;> cases hexec
  · exact ⟨keeps_emit hinv hflipped hfresh hevent, hevents w _ hJ⟩
  · exact ⟨keeps_refl hinv, hJ⟩

end AllocationKeys.Generation
