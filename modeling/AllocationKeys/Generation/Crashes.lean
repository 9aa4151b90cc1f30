import AllocationKeys.Generation.Cleanup

/-!
# Deliveries after a solver crash

When a process of the pool dies, `_after_solver_crash` raises a transient error below
`maxSolverCrashDeliveries` and otherwise marks the row as failed. Here a delivery is followed with
its log: after a crash it comes to a nak only if its count is below the limit
(`endures_handleMessage`). For that the helpers that mark the row must not raise a transient error
of their own, whatever the database answers (`raises_failWith`).
-/

namespace AllocationKeys.Generation

open Algorithms Concurrent Program

variable {S : Services} {K α : Type} {gid : ℤ} {t : ℕ} {n : Option ℕ}

/-! ### Knowledge about the log -/

/-- The solver has died under the thread. -/
def isCrash : LogEntry S K → Bool
  | .called _ (.solve ..) (.error (.brokenExecutor _)) => true
  | _ => false

/-- The delivery may retry a solver crash. -/
def MayRetry (n : Option ℕ) : Prop := ∃ delivered, n = some delivered ∧
  delivered < maxSolverCrashDeliveries

variable (S K) in
/-- No delivery naks after a solver crash unless it may retry. -/
def crashes : Discipline (Op S K) (LoggedWorld S K) where
  inv _ := True
  rely t s s' := ∀ e, e.thread = t → (e ∈ s'.2 ↔ e ∈ s.2)
  pre t o s := ∀ delay, o = .nak delay → Has isCrash t s →
    ∀ metadata msg, .launched t (.deliver metadata msg) ∈ s.2 → MayRetry msg.numDelivered
  rely_refl _ _ _ _ := Iff.rfl
  rely_trans := by
    intro t s₁ s₂ s₃ h h' e he
    exact (h' e he).trans (h e he)

variable [Zero K] [Add K] {registry : String → Option (AlgorithmMetadata S)}

variable (registry gid) in
/-- The system with deliveries only, each in a fresh thread. -/
noncomputable abbrev deliveriesOnly :
    Machine (Role S) (Op S K) (Resp S K) (Choice S K) Exc (LoggedWorld S K) :=
  (system registry gid).traced.restrict
    (fun t role s => (∃ metadata msg, role = .deliver metadata msg) ∧ ∀ e ∈ s.2, e.thread ≠ t)
    fun _ _ _ _ => True

/-- The delivery of the thread has this count. -/
def HasCount (n : Option ℕ) (t : ℕ) (s : LoggedWorld S K) : Prop :=
  ∀ metadata msg, .launched t (.deliver metadata msg) ∈ s.2 → msg.numDelivered = n

/-- The delivery has this count, and the solver has not died under it. -/
def Unharmed (n : Option ℕ) (t : ℕ) (s : LoggedWorld S K) : Prop :=
  HasCount n t s ∧ ¬ Has isCrash t s

omit [Zero K] [Add K] in
/-- The others add no entries of this thread. -/
theorem has_iff {kind : LogEntry S K → Bool} {s s' : LoggedWorld S K}
    (h : (crashes S K).rely t s s') : Has kind t s' ↔ Has kind t s := by
  simp only [Has, List.any_eq_true, Bool.and_eq_true, beq_iff_eq]
  constructor
  · rintro ⟨e, he, ht, hkind⟩
    exact ⟨e, (h e ht).mp he, ht, hkind⟩
  · rintro ⟨e, he, ht, hkind⟩
    exact ⟨e, (h e ht).mpr he, ht, hkind⟩

omit [Zero K] [Add K] in
theorem stable_hasCount : (crashes S K).Stable t (HasCount n t) :=
  fun _ _ hrely _ h metadata msg hmem => h metadata msg ((hrely _ rfl).mp hmem)

omit [Zero K] [Add K] in
theorem stable_unharmed : (crashes S K).Stable t (Unharmed n t) := by
  intro s s' hrely hinv h
  refine ⟨stable_hasCount s s' hrely hinv h.1, ?_⟩
  rw [has_iff hrely]
  exact h.2

omit [Zero K] [Add K] in
/-- An entry of its own is all a thread adds to the log. -/
theorem keeps_cons {e : LogEntry S K} {s s' : LoggedWorld S K} (h : s'.2 = e :: s.2)
    (ht : e.thread = t) : (crashes S K).Keeps t s s' := by
  refine ⟨trivial, fun t' hne e' he' => ?_⟩
  rw [h, List.mem_cons]
  refine or_iff_right fun heq => hne ?_
  rw [← he', heq, ht]

omit [Zero K] [Add K] in
/-- A call does not change the count of the message. -/
theorem HasCount.called {o : Op S K} {r : Resp S K o} {s s' : LoggedWorld S K}
    (h : HasCount n t s) (hlog : s'.2 = .called t o r :: s.2) : HasCount n t s' := by
  intro metadata msg hmem
  rw [hlog] at hmem
  exact h metadata msg ((List.mem_cons.mp hmem).resolve_left fun heq => by cases heq)

variable (registry gid t) in
/-- What a program does in the system with deliveries only. -/
abbrev Endures (J : LoggedWorld S K → Prop) (p : Pipeline S K α)
    (post : Except Exc α → LoggedWorld S K → Prop) : Prop :=
  Triple (deliveriesOnly gid registry) (crashes S K) t J p post

def Op.isNak : Op S K → Bool
  | .nak _ => true
  | _ => false

def Op.isSolve : Op S K → Bool
  | .solve .. => true
  | _ => false

omit [Zero K] [Add K] in
/-- Only a nak has something to guarantee. -/
theorem pre_of_not_nak {o : Op S K} (ho : o.isNak = false) (s : LoggedWorld S K) :
    (crashes S K).pre t o s := by
  rintro delay rfl
  cases ho

/-- Calls other than a nak keep the count. -/
theorem callSpec_hasCount {o : Op S K} (ho : o.isNak = false) :
    CallSpec (deliveriesOnly gid registry) (crashes S K) t (HasCount n t) o
      fun _ => HasCount n t where
  stable := stable_hasCount
  pre s _ _ := pre_of_not_nak ho s
  exec s choice r s' _ h hexec := by
    obtain ⟨-, hlog⟩ := Machine.exec_traced (Machine.exec_restrict hexec).2
    exact ⟨keeps_cons hlog rfl, h.called hlog⟩

/-- Calls that neither solve nor nak leave the delivery unharmed. -/
theorem callSpec_unharmed {o : Op S K} (ho : o.isNak = false) (hsolve : o.isSolve = false) :
    CallSpec (deliveriesOnly gid registry) (crashes S K) t (Unharmed n t) o
      fun _ => Unharmed n t where
  stable := stable_unharmed
  pre s _ _ := pre_of_not_nak ho s
  exec s choice r s' _ h hexec := by
    obtain ⟨-, hlog⟩ := Machine.exec_traced (Machine.exec_restrict hexec).2
    refine ⟨keeps_cons hlog rfl, h.1.called hlog, ?_⟩
    have hcall : isCrash (.called t o r : LogEntry S K) = false := by
      cases o <;> first | rfl | cases hsolve
    rw [has_called hlog, hcall]
    simpa using h.2

/-- A program that does not nak does not change the count. -/
theorem endures_hasCount {p : Pipeline S K α} (h : p.Calls fun o => o.isNak = false) :
    Endures gid t registry (HasCount n t) p fun _ => HasCount n t :=
  triple_of_calls h fun _ => callSpec_hasCount

/-- So does a program of such calls. -/
theorem endures_unharmed {p : Pipeline S K α}
    (h : p.Calls fun o => o.isNak = false ∧ o.isSolve = false) :
    Endures gid t registry (Unharmed n t) p fun _ => Unharmed n t :=
  triple_of_calls h fun _ ho => callSpec_unharmed ho.1 ho.2

/-! ### The helpers raise no transient error -/

/-- An answer the world gives. -/
def Given (gid : ℤ) (o : Op S K) (r : Resp S K o) : Prop :=
  ∃ t choice w w', exec gid t o choice w = some (r, w')

/-- The handler naks on these errors only. -/
def NotTransient (e : Exc) : Prop := ∀ detail, e ≠ .transient detail

omit [Zero K] [Add K] in
/-- An error of the environment is not one to retry. -/
theorem notTransient_of_orFail {β : Type} {choice : Choice S K} {w w' : World S K} {e : Exc}
    {done : Option (Except Exc β × World S K)} (h : orFail choice w done = some (.error e, w'))
    (hdone : done ≠ some (.error e, w')) : NotTransient e := by
  cases choice with
  | ok => exact absurd h hdone
  | fail detail => cases h; exact fun _ heq => by cases heq
  | _ => cases h

omit [Zero K] [Add K] in
theorem notTransient_of_orLost {β : Type} {choice : Choice S K} {failed done w' : β} {e : Exc}
    (h : orLost choice failed done = some (.error e, w')) : NotTransient e := by
  cases choice with
  | fail detail | lost detail => cases h; exact fun _ heq => by cases heq
  | _ => cases h

omit [Zero K] [Add K] in
theorem raises_get (id : ℤ) : (get id : Pipeline S K _).Raises (Given gid) NotTransient := by
  rintro e ⟨r, ⟨t, choice, w, w', hexec⟩, hr⟩
  rw [yields_ofExcept] at hr
  subst hr
  refine notTransient_of_orFail hexec ?_
  split <;> simp

omit [Zero K] [Add K] in
/-- The update raises nothing that is retried. -/
theorem raises_updateWherePending (id : ℤ) (status : GenerationStatus)
    (errorMessage : Option String) :
    (updateWherePending id status errorMessage : Pipeline S K _).Raises (Given gid)
      NotTransient := by
  rintro e ⟨r, ⟨t, choice, w, w', hexec⟩, hr⟩
  rw [yields_ofExcept] at hr
  subst hr
  refine notTransient_of_orFail hexec ?_
  repeat' split
  all_goals simp

omit [Zero K] [Add K] in
theorem raises_commit (write : Write S K) :
    (commit write : Pipeline S K _).Raises (Given gid) NotTransient := by
  rintro e ⟨r, ⟨t, choice, w, w', hexec⟩, hr⟩
  rw [yields_ofExcept] at hr
  subst hr
  exact notTransient_of_orLost hexec

omit [Zero K] [Add K] in
theorem raises_logAudit (entry : AuditLogInput) :
    (logAudit entry : Pipeline S K Unit).Raises (Given gid) NotTransient := by
  refine Raises.bind (raises_call fun _ _ => raises_ret) fun staged _ => ?_
  rintro e ⟨r, ⟨t, choice, w, w', hexec⟩, hr⟩
  rw [yields_ofExcept] at hr
  subst hr
  exact notTransient_of_orLost hexec

omit [Zero K] [Add K] in
theorem raises_withLocalSession {body : Pipeline S K α} {bad : Exc → Prop}
    (h : body.Raises (Given gid) bad) : (withLocalSession body).Raises (Given gid) bad := by
  refine Raises.bind (fun e he => ?_) fun out hout => ?_
  · obtain ⟨x, heq, -⟩ := yields_attempt.mp he
    cases heq
  · obtain ⟨x, heq, hbody⟩ := yields_attempt.mp hout
    cases heq
    refine Raises.bind (raises_call fun _ _ => raises_ret) fun _ _ e he => ?_
    rw [yields_ofExcept] at he
    subst he
    exact h e hbody

omit [Zero K] [Add K] in
/-- Saving an outcome raises nothing that is retried. -/
theorem raises_saveOutcome (generationId : ℤ) (status : GenerationStatus)
    (errorMessage : Option String)
    (keyRows : GenerationModel S → List (AllocationKeyGeneratedModel K))
    (audit : GenerationModel S → AuditLogInput) :
    (saveOutcome generationId status errorMessage keyRows audit).Raises (Given gid)
      NotTransient := by
  have hclaim : (claimOutcome generationId status errorMessage keyRows).Raises (Given gid)
      NotTransient := by
    refine raises_withLocalSession ((raises_get _).bind fun generation _ => ?_)
    split
    · exact raises_ret
    · refine (raises_updateWherePending _ _ _).bind fun rowcount _ => ?_
      split
      · exact raises_ret
      · refine (raises_commit _).bind fun _ _ => ?_
        exact Raises.bind (raises_call fun _ _ => raises_ret) fun _ _ => raises_ret
  refine hclaim.bind fun claimed _ => ?_
  split
  · exact raises_ret
  · exact (raises_logAudit _).bind fun _ _ => raises_call fun _ _ => raises_ret

omit [Zero K] [Add K] in
/-- Recording a failure raises nothing that is retried. -/
theorem raises_failWith (generationId : ℤ) (errorMessage : String)
    (storageKey : Option String) :
    (failWith generationId errorMessage storageKey : Pipeline S K Terminal).Raises (Given gid)
      NotTransient :=
  (raises_saveOutcome _ _ _ _ _).bind fun _ _ => raises_ret

/-! ### A delivery after a solver crash -/

/-- A transient error after a crash comes from a delivery that may retry. -/
def Transits (n : Option ℕ) (t : ℕ) (out : Except Exc α) (s : LoggedWorld S K) : Prop :=
  HasCount n t s ∧ ∀ detail, out = .error (.transient detail) → Has isCrash t s → MayRetry n

omit [Zero K] [Add K] in
theorem Unharmed.transits {s : LoggedWorld S K} (h : Unharmed n t s) (out : Except Exc α) :
    Transits n t out s :=
  ⟨h.1, fun _ _ hcrash => absurd hcrash h.2⟩

/-- A call that neither naks nor solves. -/
def Op.Mild (o : Op S K) : Prop := o.isNak = false ∧ o.isSolve = false

omit [Zero K] [Add K] in
theorem mild_of_ofLoad {o : Op S K} (h : o.OfLoad) : o.Mild := by
  cases o <;> first | exact ⟨rfl, rfl⟩ | exact absurd h id

omit [Zero K] [Add K] in
theorem mild_of_ofSave {o : Op S K} (h : o.OfSave) : o.Mild := mild_of_ofLoad (ofLoad_of_ofSave h)

/-- A failure is marked, crash or not. -/
theorem endures_failWith (generationId : ℤ) (errorMessage : String)
    (storageKey : Option String) :
    Endures (K := K) gid t registry (HasCount n t)
      (failWith generationId errorMessage storageKey) (Transits n t) := by
  have hfail : Endures (K := K) gid t registry (HasCount n t)
      (failWith generationId errorMessage storageKey) fun _ => HasCount n t :=
    endures_hasCount ((calls_failWith ..).mono fun _ h => (mild_of_ofSave h).1)
  have hyields : Endures (K := K) gid t registry (HasCount n t)
      (failWith generationId errorMessage storageKey)
      fun out s => HasCount n t s ∧ (failWith generationId errorMessage storageKey).Yields
        (Given gid) out :=
    hfail.yields fun o choice s r s' hexec =>
      ⟨t, choice, s.1, s'.1, (Machine.exec_traced (Machine.exec_restrict hexec).2).1⟩
  refine hyields.imp fun out s _ h => ⟨h.1, fun detail heq => ?_⟩
  rw [heq] at h
  exact absurd rfl (raises_failWith _ _ _ _ h.2 detail)

/-- After a crash the count decides whether the message is retried. -/
theorem endures_afterSolverCrash (generationId : ℤ) (detail : String)
    (storageKey : Option String) :
    Endures (K := K) gid t registry (HasCount n t)
      (afterSolverCrash generationId n detail storageKey) (Transits n t) := by
  unfold afterSolverCrash
  split
  · exact endures_failWith _ _ _
  · rename_i delivered
    split
    · rename_i hlow
      exact triple_raise fun s _ h => ⟨h, fun _ _ _ => ⟨delivered, rfl, hlow⟩⟩
    · exact endures_failWith _ _ _

/-- After the run of the algorithm, a crash is an error of its own. -/
def Tried (n : Option ℕ) (t : ℕ) (out : Except Exc α) (s : LoggedWorld S K) : Prop :=
  HasCount n t s ∧ (Has isCrash t s → ∃ detail, out = .error (.solverCrash detail))

/-- A run of the algorithm ends unharmed or with the crash. -/
theorem endures_runAlgorithm (algorithm : String) (inputs : S.AlgoInput) (rawData : S.RawData) :
    Endures (K := K) gid t registry (Unharmed n t) (runAlgorithm algorithm inputs rawData)
      (Tried n t) := by
  have hsolve : Endures (K := K) gid t registry (Unharmed n t) (solve algorithm inputs rawData)
      fun out s => HasCount n t s ∧
        (Has isCrash t s → ∃ detail, out = .error (.brokenExecutor detail)) := by
    refine triple_call (Q := fun r s => HasCount n t s ∧
      (Has isCrash t s → ∃ detail, r = .error (.brokenExecutor detail)))
      ⟨stable_unharmed, fun s _ _ => pre_of_not_nak rfl s, fun s choice r s' _ h hexec => ?_⟩
      fun r => triple_ofExcept fun _ _ h => h
    obtain ⟨-, hlog⟩ := Machine.exec_traced (Machine.exec_restrict hexec).2
    refine ⟨keeps_cons hlog rfl, h.1.called hlog, fun hcrash => ?_⟩
    have hlast := ((has_called hlog).mp hcrash).resolve_right h.2
    rcases r with e | result
    · cases e with
      | brokenExecutor detail => exact ⟨detail, rfl⟩
      | _ => cases hlast
    · cases hlast
  refine hsolve.tryCatch (fun result s _ h => ⟨h.1, fun hcrash => ?_⟩) fun e => ?_
  · obtain ⟨detail, heq⟩ := h.2 hcrash
    cases heq
  · split
    · exact triple_raise fun s _ h => ⟨h.1, fun _ => ⟨_, rfl⟩⟩
    · rename_i hother
      refine triple_raise fun s _ h => ⟨h.1, fun hcrash => ?_⟩
      obtain ⟨detail, heq⟩ := h.2 hcrash
      cases heq
      exact absurd rfl (hother detail)

/-- A part of a delivery in which the solver has not died. -/
theorem endures_mild {p : Pipeline S K α} (h : p.Calls Op.Mild) :
    Endures gid t registry (Unharmed n t) p (Transits n t) :=
  (endures_unharmed h).imp fun out _ _ h => h.transits out

omit [Zero K] [Add K] in
theorem calls_failWith_mild (generationId : ℤ) (errorMessage : String)
    (storageKey : Option String) :
    (failWith generationId errorMessage storageKey : Pipeline S K Terminal).Calls Op.Mild :=
  (calls_failWith ..).mono fun _ => mild_of_ofSave

/-- From the data on, only a crash before the last delivery is retried. -/
theorem endures_solveAndSave (algorithm : String) (generationId : ℤ)
    (storageKey : Option String) (inputs : S.AlgoInput) (rawData : S.RawData) :
    Endures (K := K) gid t registry (Unharmed n t)
      (solveAndSave algorithm generationId n storageKey inputs rawData) (Transits n t) := by
  have hmetric : ∀ metric, (addMetric metric : Pipeline S K Unit).Calls Op.Mild :=
    fun _ => calls_ask ⟨rfl, rfl⟩
  refine (endures_runAlgorithm algorithm inputs rawData).attempt_bind fun result => ?_
  split
  · refine Triple.weaken (K := HasCount n t) ?_ fun _ _ h => h.1
    exact triple_call (callSpec_hasCount rfl) fun _ => endures_afterSolverCrash _ _ _
  · -- any other error is no crash
    rename_i e hother
    refine (endures_mild (Calls.bind (hmetric _) fun _ => calls_failWith_mild ..)).weaken
      fun s _ h => ⟨h.1, fun hcrash => ?_⟩
    obtain ⟨detail, heq⟩ := h.2 hcrash
    cases heq
    exact absurd rfl (hother detail)
  · rename_i result
    refine (endures_mild (Calls.bind (hmetric _) fun _ => ?_)).weaken
      fun s _ h => ⟨h.1, fun hcrash => ?_⟩
    · refine Calls.bind (Calls.attempt ((calls_saveOutcome ..).mono fun _ => mild_of_ofSave))
        fun saved => ?_
      split <;> trivial
    · obtain ⟨detail, heq⟩ := h.2 hcrash
      cases heq

/-- The same of the whole processing. -/
theorem endures_process (metadata : AlgorithmMetadata S) (generationId : ℤ) :
    Endures (K := K) gid t registry (Unharmed n t) (process metadata generationId n)
      (Transits n t) := by
  have hfail : ∀ errorMessage storageKey, Endures (K := K) gid t registry (Unharmed n t)
      (failWith generationId errorMessage storageKey) (Transits n t) :=
    fun _ _ => endures_mild (calls_failWith_mild ..)
  have hreturn : ∀ terminal, Endures (K := K) gid t registry (Unharmed n t)
      (pure terminal : Pipeline S K Terminal) (Transits n t) := fun _ => endures_mild trivial
  have hsnapshot : Endures (K := K) gid t registry (Unharmed n t)
      (snapshotGeneration generationId) fun _ => Unharmed n t :=
    endures_unharmed (calls_withLocalSession ⟨rfl, rfl⟩
      (Calls.bind (calls_call ⟨rfl, rfl⟩) fun _ => trivial))
  refine hsnapshot.bind (fun snapshot => ?_) fun _ _ _ h => h.transits _
  split
  · exact hreturn _
  · dsimp only
    split
    · exact hreturn _
    · split
      · exact hfail _ _
      · have hload : ∀ snapshot : GenerationSnapshot S, Endures (K := K) gid t registry
            (Unharmed n t) (loadRawData snapshot) fun _ => Unharmed n t := fun snapshot =>
          endures_unharmed ((calls_loadRawData snapshot).mono fun _ => mild_of_ofLoad)
        refine (hload _).bind (fun loaded => ?_) fun _ _ _ h => h.transits _
        split
        · exact hreturn _
        · split
          · exact hfail _ _
          · split
            · exact hfail _ _
            · split
              · exact endures_solveAndSave _ _ _ _ _
              · exact hfail _ _

/-- **A delivery naks after a solver crash only if it may retry.** -/
theorem endures_handleMessage (metadata : AlgorithmMetadata S) (msg : Msg S) :
    Endures (K := K) gid t registry (Unharmed msg.numDelivered t) (handleMessage metadata msg)
      fun _ _ => True := by
  have hquiet : ∀ {p : Pipeline S K Unit}, (p.Calls fun o => o.isNak = false) →
      Endures gid t registry (HasCount msg.numDelivered t) p fun _ _ => True :=
    fun h => (endures_hasCount h).imp fun _ _ _ _ => trivial
  unfold handleMessage
  split
  · refine (hquiet ?_).weaken fun _ _ h => h.1
    exact Calls.bind (calls_call rfl) fun _ => calls_ask rfl
  · split
    · refine (hquiet ?_).weaken fun _ _ h => h.1
      exact Calls.bind (calls_call rfl) fun _ => calls_ask rfl
    · refine (endures_process metadata _).attempt_bind fun outcome => ?_
      split
      · rename_i detail
        refine triple_call (Q := fun _ => HasCount msg.numDelivered t)
          ⟨fun s s' hrely hinv h => ?_, fun s _ h delay _ hcrash metadata' msg' hmem => ?_,
            fun s choice r s' _ h hexec => ?_⟩ fun r => ?_
        · refine ⟨stable_hasCount s s' hrely hinv h.1, fun detail heq hcrash => ?_⟩
          exact h.2 detail heq ((has_iff hrely).mp hcrash)
        · rw [h.1 metadata' msg' hmem]
          exact h.2 detail rfl hcrash
        · obtain ⟨-, hlog⟩ := Machine.exec_traced (Machine.exec_restrict hexec).2
          exact ⟨keeps_cons hlog rfl, h.1.called hlog⟩
        · exact hquiet (Calls.bind (calls_ofExcept r) fun _ => calls_ask rfl)
      · refine (hquiet ?_).weaken fun _ _ h => h.1
        refine Calls.bind ((calls_saveOutcome ..).mono fun _ h => (mild_of_ofSave h).1) fun _ => ?_
        exact Calls.bind (calls_call rfl) fun _ => calls_ask rfl
      · refine (hquiet ?_).weaken fun _ _ h => h.1
        refine Calls.bind (calls_call rfl) fun _ => ?_
        split
        · exact calls_ask rfl
        · trivial

/-- The worker obeys the discipline of retries. -/
theorem deliveriesOnly_obeys : Obeys (deliveriesOnly (K := K) gid registry) (crashes S K) where
  launch t role s s' _ h := by
    obtain ⟨⟨⟨metadata, msg, rfl⟩, hfresh⟩, hlaunch⟩ := Machine.launch_restrict h
    obtain ⟨w', -, rfl⟩ := Option.map_eq_some_iff.mp hlaunch
    refine ⟨keeps_cons rfl rfl, endures_handleMessage metadata msg _ trivial ⟨?_, ?_⟩⟩
    · intro metadata' msg' hmem
      rcases List.mem_cons.mp hmem with heq | hmem
      · cases heq
        rfl
      · exact absurd rfl (hfresh _ hmem)
    · intro hcrash
      obtain ⟨e, he, hkind⟩ := List.any_eq_true.mp hcrash
      rw [Bool.and_eq_true, beq_iff_eq] at hkind
      rcases List.mem_cons.mp he with rfl | he
      · cases hkind.2
      · exact hfresh e he hkind.1
  abort t s _ := ⟨trivial, fun _ _ _ _ => Iff.rfl⟩

end AllocationKeys.Generation
