import AllocationKeys.Generation.Lifecycle
import AllocationKeys.Generation.OneResult
import AllocationKeys.Lib.Surely

/-!
# A delivery with everything up

The other files say what a delivery never does. This one says what it does: alone on the row, with
the databases, the object store and the broker up and no process of the pool dying, a delivery of a
pending generation is never left without an answer and settles its message exactly once
(`handleMessage_surely`).

* It acks, and the generation has ended: failed with a message, or successful with the rows of the
  result that the algorithm returned;
* or it naks, and the row is as before. It does so only because the algorithm returned a result
  with a text that is too long for its column, and then always, until the count of the message
  reaches `maxDeliveries`.

`Up` is what such an environment may answer. The database refuses the rows that do not fit.
-/

namespace AllocationKeys.Generation

open Algorithms Concurrent Program

variable {S : Services} {K α β : Type} {gid : ℤ} {t : ℕ}
  {solves : S.AlgoInput → S.RawData → Option (AlgorithmResult K) → Prop}

/-! ### An environment that is up -/

/-- The columns of `String(255)`. -/
def columnLength : ℕ := 255

/-- The texts of the rows fit their columns. -/
def FitsColumns (keys : List (AllocationKeyGeneratedModel K)) : Prop :=
  ∀ key ∈ keys, key.name.length ≤ columnLength ∧ key.description.length ≤ columnLength ∧
    ∀ iteration ∈ key.iterations, ∀ consumer ∈ iteration.consumers,
      consumer.name.length ≤ columnLength

/-- Something is down, or has died. -/
def Choice.Down : Choice S K → Bool
  | .fail _ | .lost _ | .notFound | .unavailable _ | .crash _ => true
  | _ => false

/-- What may be answered with everything up: the algorithm may still raise, rows that do not fit are
refused, and the calls whose errors are swallowed may go either way. -/
def Up : Op S K → Choice S K → Prop
  | .commit (.outcome _ _ keys), choice =>
      (FitsColumns keys → choice = .ok) ∧ (¬ FitsColumns keys → ∃ detail, choice = .fail detail)
  | .solve .., choice => ∀ detail, choice ≠ .crash detail
  | .stageAudit _, _ | .emit _, _ | .delete _, _ => True
  | _, choice => choice.Down = false

/-- The solver processes return what `solves` relates to the inputs and the data, and raise where it
relates nothing (`none`) to them. -/
def AnswersAs (solves : S.AlgoInput → S.RawData → Option (AlgorithmResult K) → Prop) :
    Op S K → Choice S K → Prop
  | .solve _ inputs rawData, .result result => solves inputs rawData (some result)
  | .solve _ inputs rawData, .fail _ => solves inputs rawData none
  | _, _ => True

/-- Everything is up, and the solver processes compute `solves`. -/
def UpSolving (solves : S.AlgoInput → S.RawData → Option (AlgorithmResult K) → Prop) (o : Op S K)
    (choice : Choice S K) : Prop := Up o choice ∧ AnswersAs solves o choice

/-- Without a restriction on the solver processes there is none on the answers. -/
theorem upSolving_true : UpSolving (S := S) (K := K) (fun _ _ _ => True) = Up := by
  funext o choice
  have hanswers : AnswersAs (fun _ _ _ => True) o choice := by
    cases o <;> cases choice <;> trivial
  exact propext (and_iff_left hanswers)

/-- The calls that settle a message. -/
def Op.isSettlement : Op S K → Bool
  | .ack | .nak _ => true
  | _ => false

def settlements (events : List (Op S K × Choice S K)) : List (Op S K) :=
  (events.map Prod.fst).filter Op.isSettlement

variable (gid t solves) in
/-- Alone from `w`, with everything up, the program surely ends as `post` says, which looks at the
settlements it makes. -/
def Settling (p : Pipeline S K α) (w : World S K)
    (post : List (Op S K) → Except Exc α → World S K → Prop) : Prop :=
  p.Surely (exec gid t) (UpSolving solves) w fun events out w' => post (settlements events) out w'

variable (gid t solves) in
/-- It settles nothing. -/
def Silent (p : Pipeline S K α) (w : World S K) (post : Except Exc α → World S K → Prop) : Prop :=
  Settling gid t solves p w fun settled out w' => settled = [] ∧ post out w'

section Rules

variable {w : World S K} {post : Except Exc α → World S K → Prop}

/-- A weaker postcondition holds as well. -/
theorem Silent.mono {post' : Except Exc α → World S K → Prop} {p : Pipeline S K α}
    (h : Silent gid t solves p w post) (himp : ∀ out w', post out w' → post' out w') :
    Silent gid t solves p w post' :=
  Surely.mono h fun _ out w' hout => ⟨hout.1, himp out w' hout.2⟩

theorem silent_ret {a : α} (h : post (.ok a) w) : Silent gid t solves (.ret a) w post := ⟨rfl, h⟩

theorem silent_raise {e : Exc} (h : post (.error e) w) : Silent gid t solves (.raise e) w post :=
  ⟨rfl, h⟩

theorem silent_ofExcept {x : Except Exc α} (h : post x w) :
    Silent gid t solves (Program.ofExcept x) w post := surely_ofExcept ⟨rfl, h⟩

/-- A call that can be answered and the rest after every answer, with the call counted if it
settles. -/
theorem settling_call {o : Op S K} {next : Resp S K o → Pipeline S K α}
    {post : List (Op S K) → Except Exc α → World S K → Prop}
    (hanswered : ∃ choice r w₁, Up o choice ∧ exec gid t o choice w = some (r, w₁))
    (h : ∀ choice r w₁, Up o choice → exec gid t o choice w = some (r, w₁) →
      Settling gid t solves (next r) w₁ fun settled out w' =>
        post (if o.isSettlement then o :: settled else settled) out w')
    (hsolve : ∀ choice, AnswersAs solves o choice := by exact fun _ => trivial) :
    Settling gid t solves (.call o next) w post := by
  obtain ⟨choice, r, w₁, hup, hexec⟩ := hanswered
  refine ⟨⟨choice, r, w₁, ⟨hup, hsolve choice⟩, hexec⟩, fun choice r w₁ hup hexec => ?_⟩
  refine Surely.mono (h choice r w₁ hup.1 hexec) fun events out w' hout => ?_
  have hsettled : settlements ((o, choice) :: events) =
      if o.isSettlement then o :: settlements events else settlements events :=
    List.filter_cons
  show post (settlements ((o, choice) :: events)) out w'
  rw [hsettled]
  exact hout

/-- A call that settles nothing and can be answered, and the rest after every answer. -/
theorem silent_call {o : Op S K} {next : Resp S K o → Pipeline S K α}
    (ho : o.isSettlement = false)
    (hanswered : ∃ choice r w₁, Up o choice ∧ exec gid t o choice w = some (r, w₁))
    (h : ∀ choice r w₁, Up o choice → exec gid t o choice w = some (r, w₁) →
      Silent gid t solves (next r) w₁ post)
    (hsolve : ∀ choice, AnswersAs solves o choice := by exact fun _ => trivial) :
    Silent gid t solves (.call o next) w post := by
  refine settling_call hanswered (fun choice r w₁ hup hexec => ?_) hsolve
  refine Surely.mono (h choice r w₁ hup hexec) fun events out w' hout => ?_
  rw [ho]
  exact hout

/-- Settlements of two parts of a delivery add up. -/
theorem settlements_append (events events' : List (Op S K × Choice S K)) :
    settlements (events ++ events') = settlements events ++ settlements events' := by
  rw [settlements, List.map_append, List.filter_append]
  rfl

/-- A silent first part leaves the settlements to the second. -/
theorem Silent.bindSettling {p : Pipeline S K α} {f : α → Pipeline S K β}
    {post' : List (Op S K) → Except Exc β → World S K → Prop} (hp : Silent gid t solves p w post)
    (hf : ∀ a w₁, post (.ok a) w₁ → Settling gid t solves (f a) w₁ post')
    (herror : ∀ e w₁, post (.error e) w₁ → post' [] (.error e) w₁) :
    Settling gid t solves (p >>= f) w post' := by
  refine Surely.bind hp (fun events a w₁ hmid => ?_) fun events e w₁ hmid => ?_
  · refine Surely.mono (hf a w₁ hmid.2) fun events' out w' hout => ?_
    rw [settlements_append, hmid.1, List.nil_append]
    exact hout
  · rw [hmid.1]
    exact herror e w₁ hmid.2

/-- Silent parts make a silent sequence. -/
theorem Silent.bind {p : Pipeline S K α} {f : α → Pipeline S K β}
    {post' : Except Exc β → World S K → Prop} (hp : Silent gid t solves p w post)
    (hf : ∀ a w₁, post (.ok a) w₁ → Silent gid t solves (f a) w₁ post')
    (herror : ∀ e w₁, post (.error e) w₁ → post' (.error e) w₁) :
    Silent gid t solves (p >>= f) w post' :=
  hp.bindSettling hf fun e w₁ h => ⟨rfl, herror e w₁ h⟩

/-- An attempt returns what the program ended with. -/
theorem Silent.attempt {p : Pipeline S K α} (hp : Silent gid t solves p w post) :
    Silent gid t solves p.attempt w fun out w' => ∃ x, out = .ok x ∧ post x w' :=
  Surely.attempt (Surely.mono hp fun _ out _ hout => ⟨hout.1, out, rfl, hout.2⟩)

/-- After an attempt the rest begins with either outcome. -/
theorem Silent.attemptSettling {p : Pipeline S K α} {f : Except Exc α → Pipeline S K β}
    {post' : List (Op S K) → Except Exc β → World S K → Prop} (hp : Silent gid t solves p w post)
    (hf : ∀ x w₁, post x w₁ → Settling gid t solves (f x) w₁ post') :
    Settling gid t solves (p.attempt >>= f) w post' := by
  refine hp.attempt.bindSettling (fun x w₁ hx => ?_) fun e w₁ hx => ?_
  · obtain ⟨x', heq, hpost⟩ := hx
    cases heq
    exact hf x w₁ hpost
  · obtain ⟨x', heq, -⟩ := hx
    cases heq

/-- The same when the rest is silent too. -/
theorem Silent.attemptBind {p : Pipeline S K α} {f : Except Exc α → Pipeline S K β}
    {post' : Except Exc β → World S K → Prop} (hp : Silent gid t solves p w post)
    (hf : ∀ x w₁, post x w₁ → Silent gid t solves (f x) w₁ post') :
    Silent gid t solves (p.attempt >>= f) w post' := hp.attemptSettling hf

/-- A session ends as its body does. -/
theorem Silent.withLocalSession {body : Pipeline S K α} (hbody : Silent gid t solves body w post) :
    Silent gid t solves (withLocalSession body) w fun out w' =>
      ∃ w₁, post out w₁ ∧ w' = w₁.release t := by
  refine hbody.attemptBind fun out w₁ hout => ?_
  refine silent_call rfl ⟨.ok, _, _, rfl, rfl⟩ fun choice r w₂ _ hexec => ?_
  cases hexec
  exact silent_ofExcept ⟨w₁, hout, rfl⟩

end Rules

/-! ### One call -/

/-- An answer without a choice of the environment. -/
theorem orFail_up {choice : Choice S K} {w w' : World S K} {r : Except Exc α}
    {done : Option (Except Exc α × World S K)} (hup : choice.Down = false)
    (h : orFail choice w done = some (r, w')) : done = some (r, w') := by
  cases choice with
  | ok => exact h
  | fail detail => cases hup
  | _ => cases h

/-- What nobody else may write is as it was. -/
structure World.Kept (w w' : World S K) : Prop where
  row : w'.row = w.row
  results : w'.results = w.results
  nextKeyId : w'.nextKeyId = w.nextKeyId
  lock : w'.lock = w.lock
  solved : w'.solved = w.solved

theorem World.Kept.refl (w : World S K) : w.Kept w := ⟨rfl, rfl, rfl, rfl, rfl⟩

theorem World.Kept.trans {w₁ w₂ w₃ : World S K} (h : w₁.Kept w₂) (h' : w₂.Kept w₃) :
    w₁.Kept w₃ :=
  ⟨h'.row.trans h.row, h'.results.trans h.results, h'.nextKeyId.trans h.nextKeyId,
    h'.lock.trans h.lock, h'.solved.trans h.solved⟩

section Calls

variable {w : World S K} {row : GenerationModel S}

/-- Without a lock there is nothing to release. -/
theorem release_of_lock {w : World S K} (h : w.lock = none) : w.release t = w := by
  rw [World.release, h, if_neg (by simp)]
  cases w
  cases h
  rfl

/-- The row is read as it is. -/
theorem silent_get :
    Silent gid t solves (get gid) w fun out w' => out = .ok w.row ∧ w' = w := by
  have hexec : exec gid t (.get gid : Op S K) .ok w = some (.ok w.row, w) := by
    simp only [exec, orFail, if_true]
  refine silent_call rfl ⟨.ok, _, _, rfl, hexec⟩ fun choice r w₁ hup hanswer => ?_
  have hanswer := orFail_up hup hanswer
  rw [if_pos rfl] at hanswer
  cases hanswer
  exact silent_ofExcept ⟨rfl, rfl⟩

/-- The snapshot is of the row as it is. -/
theorem silent_snapshotGeneration (hlock : w.lock = none) :
    Silent gid t solves (snapshotGeneration gid) w fun out w' =>
      out = .ok (w.row.map (GenerationSnapshot.ofRow gid)) ∧ w' = w := by
  refine (Silent.withLocalSession (silent_get.bind ?_ ?_ : Silent gid t solves _ w fun out w' =>
    out = .ok (w.row.map (GenerationSnapshot.ofRow gid)) ∧ w' = w)).mono ?_
  · rintro found w₁ ⟨heq, rfl⟩
    cases heq
    exact silent_ret ⟨rfl, rfl⟩
  · rintro e w₁ ⟨heq, -⟩
    cases heq
  · rintro out w' ⟨w₁, ⟨rfl, rfl⟩, rfl⟩
    exact ⟨rfl, release_of_lock hlock⟩

/-- Alone on a pending row, the update matches it and takes its lock. -/
theorem silent_updateWherePending (hrow : w.row = some row) (hpending : row.status = .pending)
    (hlock : w.lock = none) (status : GenerationStatus) (errorMessage : Option String) :
    Silent gid t solves (updateWherePending gid status errorMessage) w fun out w' =>
      out = .ok 1 ∧ w' = { w with lock := some t } := by
  have hfree : w.Free t := Or.inl hlock
  have hdone : exec gid t (.updateWherePending gid status errorMessage : Op S K) .ok w =
      some (.ok 1, { w with lock := some t }) := by
    simp only [exec, orFail, hfree, and_self, if_true, hrow, hpending]
  refine silent_call rfl ⟨.ok, _, _, rfl, hdone⟩ fun choice r w₁ hup hanswer => ?_
  have hok : choice = .ok := by
    cases choice with
    | ok => rfl
    | fail detail => cases hup
    | _ => cases hanswer
  subst hok
  rw [hdone] at hanswer
  cases hanswer
  exact silent_ofExcept ⟨rfl, rfl⟩

/-- The commit of an end goes through exactly when its rows fit. -/
theorem silent_commitOutcome (status : GenerationStatus) (errorMessage : Option String)
    (keys : List (AllocationKeyGeneratedModel K)) :
    Silent gid t solves (commit (.outcome status errorMessage keys)) w fun out w' =>
      (FitsColumns keys → out = .ok () ∧
        w' = (w.settle t status errorMessage keys).release t) ∧
      (¬ FitsColumns keys → ∃ e, out = .error e ∧ w' = w.release t) := by
  by_cases hfits : FitsColumns keys
  · refine silent_call rfl ⟨.ok, _, _, ⟨fun _ => rfl, fun hnot => absurd hfits hnot⟩, rfl⟩
      fun choice r w₁ hup hanswer => ?_
    obtain rfl := hup.1 hfits
    cases hanswer
    exact silent_ofExcept ⟨fun _ => ⟨rfl, rfl⟩, fun hnot => absurd hfits hnot⟩
  · refine silent_call rfl ⟨.fail "", _, _, ⟨fun h => absurd h hfits, fun _ => ⟨"", rfl⟩⟩, rfl⟩
      fun choice r w₁ hup hanswer => ?_
    obtain ⟨detail, rfl⟩ := hup.2 hfits
    cases hanswer
    exact silent_ofExcept ⟨fun h => absurd h hfits, fun _ => ⟨_, rfl, rfl⟩⟩

/-- A metric changes nothing else. -/
theorem silent_addMetric (metric : Metric) :
    Silent gid t solves (addMetric metric) w fun out w' => out = .ok () ∧ w.Kept w' := by
  have hkept : ∀ choice r w₁, exec gid t (.addMetric metric : Op S K) choice w = some (r, w₁) →
      w.Kept w₁ := by
    intro choice r w₁ h
    cases metric <;> cases h <;> exact ⟨rfl, rfl, rfl, rfl, rfl⟩
  refine silent_call rfl ?_ fun choice r w₁ _ hanswer =>
    silent_ret ⟨rfl, hkept choice r w₁ hanswer⟩
  cases metric <;> exact ⟨.ok, _, _, rfl, rfl⟩

/-- An audit entry changes nothing else, whether or not it is stored. -/
theorem silent_logAudit (entry : AuditLogInput) :
    Silent gid t solves (logAudit entry) w fun out w' => out = .ok () ∧ w.Kept w' := by
  refine silent_call rfl ⟨.ok, _, _, trivial, rfl⟩ fun choice staged w₁ _ hanswer => ?_
  have hsame : w₁ = w := by cases choice <;> cases hanswer <;> rfl
  subst hsame
  refine silent_call rfl ⟨.ok, _, _, rfl, rfl⟩ fun choice r w₂ hup hcommit => ?_
  cases choice with
  | ok => cases hcommit; exact silent_ofExcept ⟨rfl, rfl, rfl, rfl, rfl, rfl⟩
  | fail detail => cases hup
  | lost detail => cases hup
  | _ => cases hcommit

/-- An event changes nothing else, whether or not it is published. -/
theorem silent_emit (event : RealtimeEvent) :
    Silent gid t solves (emit event) w fun out w' => out = .ok () ∧ w.Kept w' := by
  refine silent_call rfl ⟨.ok, _, _, trivial, rfl⟩ fun choice r w₁ _ hanswer => ?_
  cases choice <;> cases hanswer <;> exact silent_ret ⟨rfl, rfl, rfl, rfl, rfl, rfl⟩

end Calls

/-! ### Saving an end -/

/-- The row has ended when its new rows fit their columns, and an error is raised otherwise. -/
structure SavesFitting (t : ℕ) (w : World S K) (status : GenerationStatus)
    (errorMessage : Option String) (keys : List (AllocationKeyGeneratedModel K)) (done : α)
    (out : Except Exc α) (w' : World S K) : Prop where
  fitting : FitsColumns keys → out = .ok done ∧ (w.settle t status errorMessage keys).Kept w'
  unfitting : ¬ FitsColumns keys → (∃ e, out = .error e) ∧ w.Kept w'

section Saving

variable {w : World S K} {row : GenerationModel S} (hrow : w.row = some row)
  (hpending : row.status = .pending) (hlock : w.lock = none)
include hrow hpending hlock

/-- The outcome is stored if its rows fit the columns. -/
theorem silent_claimOutcome (status : GenerationStatus) (errorMessage : Option String)
    (keyRows : GenerationModel S → List (AllocationKeyGeneratedModel K)) :
    Silent gid t solves (claimOutcome gid status errorMessage keyRows) w
      (SavesFitting t w status errorMessage (keyRows row) (some row)) := by
  have hsettle := settle_eq (t := t) hrow status errorMessage (keyRows row)
  refine (Silent.withLocalSession (silent_get.bind (fun found w₁ hfound => ?_)
    fun e w₁ h => ?_ : Silent gid t solves _ w (SavesFitting t w status errorMessage (keyRows row)
      (some row)))).mono fun out w' hout => ?_
  · obtain ⟨heq, rfl⟩ := hfound
    cases heq
    rw [hrow]
    refine (silent_updateWherePending hrow hpending hlock status errorMessage).bind
      (fun rowcount w₂ hclaimed => ?_) fun e w₂ h => ?_
    · obtain ⟨heq, rfl⟩ := hclaimed
      cases heq
      refine (silent_commitOutcome status errorMessage (keyRows row)).bind
        (fun _ w₃ hcommitted => ?_) fun e w₃ hcommitted => ?_
      · -- the commit is done only for keys that fit
        have hfits : FitsColumns (keyRows row) := by
          by_contra hnot
          obtain ⟨e, heq, -⟩ := hcommitted.2 hnot
          cases heq
        obtain ⟨-, rfl⟩ := hcommitted.1 hfits
        refine (silent_addMetric _).bind (fun _ w₄ hkept => ?_) fun e w₄ h => by cases h.1
        refine silent_ret ⟨fun _ => ⟨rfl, World.Kept.trans ?_ hkept.2⟩,
          fun hnot => absurd hfits hnot⟩
        rw [hsettle, settle_eq (w := { w₁ with lock := some t }) hrow]
        exact ⟨rfl, rfl, rfl, by simp [World.release, hlock], rfl⟩
      · -- and it fails for the others, with nothing changed
        have hnot : ¬ FitsColumns (keyRows row) := fun hfits => by cases (hcommitted.1 hfits).1
        obtain ⟨-, -, rfl⟩ := hcommitted.2 hnot
        exact ⟨fun hfits => absurd hfits hnot, fun _ => ⟨⟨e, rfl⟩, rfl, rfl, rfl,
          by simp [World.release, hlock], rfl⟩⟩
    · cases h.1
  · cases h.1
  · obtain ⟨w₁, hmid, rfl⟩ := hout
    -- the session gives the lock back in both cases
    have hunlocked : w₁.lock = none := by
      by_cases hfits : FitsColumns (keyRows row)
      · rw [(hmid.fitting hfits).2.lock, hsettle]
        exact hlock
      · rw [(hmid.unfitting hfits).2.lock]
        exact hlock
    rw [release_of_lock hunlocked]
    exact hmid

/-- Alone, both helpers end a pending row exactly when its new rows fit, and raise otherwise. -/
theorem silent_saveOutcome (status : GenerationStatus) (errorMessage : Option String)
    (keyRows : GenerationModel S → List (AllocationKeyGeneratedModel K))
    (audit : GenerationModel S → AuditLogInput) :
    Silent gid t solves (saveOutcome gid status errorMessage keyRows audit) w
      (SavesFitting t w status errorMessage (keyRows row) ()) := by
  refine (silent_claimOutcome hrow hpending hlock status errorMessage keyRows).bind
    (fun claimed w₁ h => ?_) fun e w₁ h => ?_
  · have hfits : FitsColumns (keyRows row) := by
      by_contra hnot
      obtain ⟨⟨e, heq⟩, -⟩ := h.unfitting hnot
      cases heq
    obtain ⟨heq, hkept⟩ := h.fitting hfits
    cases heq
    refine (silent_logAudit _).bind (fun _ w₂ hlogged => ?_) fun e w₂ h => by cases h.1
    refine (silent_emit _).mono fun out w₃ hemitted => ?_
    exact ⟨fun _ => ⟨hemitted.1, (hkept.trans hlogged.2).trans hemitted.2⟩,
      fun hnot => absurd hfits hnot⟩
  · have hnot : ¬ FitsColumns (keyRows row) := fun hfits => by cases (h.fitting hfits).1
    exact ⟨fun hfits => absurd hfits hnot, fun _ => ⟨⟨e, rfl⟩, (h.unfitting hnot).2⟩⟩

end Saving

/-! ### What a delivery comes to -/

variable [Zero K] [Add K]

/-- How the pipeline can end for the row, from `w`. -/
inductive ProcessEnds (gid : ℤ) (t : ℕ) (w : World S K) (row : GenerationModel S) :
    Except Exc Terminal → World S K → Prop
  /-- The algorithm has returned nothing, the row is failed with a message, and no rows are
  added. -/
  | failed {terminal w'} (errorMessage : Option String) (explains : Explains errorMessage)
      (solved : w'.solved = w.solved) (ended : w'.row = some (row.ended .failed errorMessage))
      (results : w'.results = w.results) (unlocked : w'.lock = none) :
      ProcessEnds gid t w row (.ok terminal) w'
  /-- The algorithm has returned a result that fits, and its rows are added. -/
  | saved {terminal w'} (result : AlgorithmResult K) (solved : w'.solved = (t, result) :: w.solved)
      (fits : FitsColumns (resultRows gid row.idCommunity result))
      (ended : w'.row = some (row.ended .success none))
      (results : w'.results =
        w.results ++ numbered w.nextKeyId (resultRows gid row.idCommunity result))
      (unlocked : w'.lock = none) : ProcessEnds gid t w row (.ok terminal) w'
  /-- The algorithm has returned a result that does not fit, and the row is as it was. -/
  | refused {detail w'} (result : AlgorithmResult K)
      (solved : w'.solved = (t, result) :: w.solved)
      (unfit : ¬ FitsColumns (resultRows gid row.idCommunity result))
      (same : w'.row = some row) (results : w'.results = w.results)
      (unlocked : w'.lock = none) : ProcessEnds gid t w row (.error (.transient detail)) w'

/-- A terminal is returned, the algorithm has returned nothing, and the row is failed. -/
def FailEnds (gid : ℤ) (t : ℕ) (w : World S K) (row : GenerationModel S)
    (out : Except Exc Terminal) (w' : World S K) : Prop :=
  ∃ terminal, out = .ok terminal ∧ ProcessEnds gid t w row (.ok terminal) w' ∧
    w'.solved = w.solved

section Pipeline

variable {w : World S K} {row : GenerationModel S} (hrow : w.row = some row)
  (hpending : row.status = .pending) (hlock : w.lock = none)
include hrow hpending hlock

/-- A failure is stored, for its message fits. -/
theorem silent_failWith {w₀ : World S K} (hresults : w.results = w₀.results)
    (hsolved : w.solved = w₀.solved) (errorMessage : String) (key : Option String) :
    Silent gid t solves (failWith gid errorMessage key) w (FailEnds gid t w₀ row) := by
  have hnil : FitsColumns ([] : List (AllocationKeyGeneratedModel K)) := fun _ h => by cases h
  refine Silent.bind (silent_saveOutcome hrow hpending hlock .failed _ _ _) (fun _ w' h => ?_)
    fun e w' h => by cases (h.fitting hnil).1
  obtain ⟨-, hkept⟩ := h.fitting hnil
  rw [settle_eq hrow] at hkept
  have hsolved' := hkept.solved.trans hsolved
  refine silent_ret ⟨_, rfl, .failed _ (explains_truncate errorMessage) hsolved' hkept.row ?_ ?_,
    hsolved'⟩
  · rw [hkept.results, ← hresults]
    exact List.append_nil _
  · exact hkept.lock.trans hlock

end Pipeline

omit [Zero K] [Add K] in
/-- The object is downloaded, or is not there. -/
theorem silent_download (key : String) {w : World S K} :
    Silent gid t solves (download key) w fun out w' =>
      ((∃ content, w.object = some (key, content) ∧ out = .ok content) ∨
        (∀ content, w.object ≠ some (key, content)) ∧ out = .error (.objectNotFound key)) ∧
          w' = w := by
  have hanswer : ∀ r w₁, exec gid t (.download key : Op S K) .ok w = some (r, w₁) →
      ((∃ content, w.object = some (key, content) ∧ r = .ok content) ∨
        (∀ content, w.object ≠ some (key, content)) ∧ r = .error (.objectNotFound key)) ∧
          w₁ = w := by
    intro r w₁ h
    simp only [exec] at h
    rcases hobject : w.object with _ | ⟨stored, content⟩
    · rw [hobject] at h
      cases h
      exact ⟨Or.inr ⟨fun content h => (by cases h), rfl⟩, rfl⟩
    · rw [hobject] at h
      dsimp only at h
      split at h
      · rename_i heq
        cases h
        exact ⟨Or.inl ⟨content, by rw [heq], rfl⟩, rfl⟩
      · rename_i hne
        cases h
        refine ⟨Or.inr ⟨fun content h => ?_, rfl⟩, rfl⟩
        cases h
        exact hne rfl
  refine silent_call rfl ?_ fun choice r w₁ hup h => ?_
  · refine ⟨.ok, ?_⟩
    simp only [exec]
    repeat' split
    all_goals exact ⟨_, _, rfl, rfl⟩
  · cases choice with
    | ok => exact silent_ofExcept (hanswer r w₁ h)
    | fail detail => cases hup
    | notFound => cases hup
    | unavailable detail => cases hup
    | _ => cases h

/-! ### Loading -/

/-- The object of the row holds this data. -/
def World.Holds (w : World S K) (row : GenerationModel S) (rawData : S.RawData) : Prop :=
  ∃ key fileName content, row.fileStorageKey = some key ∧ row.fileName = some fileName ∧
    w.object = some (key, content) ∧
      S.load content fileName (row.injectionName.getD "") = .ok rawData

omit [Zero K] [Add K] in
/-- Nothing else. -/
theorem World.Holds.unique {w : World S K} {row : GenerationModel S} {rawData rawData' : S.RawData}
    (h : w.Holds row rawData) (h' : w.Holds row rawData') : rawData = rawData' := by
  obtain ⟨key, fileName, content, hkey, hname, hobject, hload⟩ := h
  obtain ⟨key', fileName', content', hkey', hname', hobject', hload'⟩ := h'
  cases hkey.symm.trans hkey'
  cases hname.symm.trans hname'
  cases hobject.symm.trans hobject'
  cases hload.symm.trans hload'
  rfl

/-- A load leaves everything as it was, or has ended the row as failed. The data of an upload is
what its object holds. -/
def LoadEnds (gid : ℤ) (t : ℕ) (w : World S K) (row : GenerationModel S)
    (out : Except Exc (Except Terminal S.RawData)) (w' : World S K) : Prop :=
  (∃ rawData, out = .ok (.ok rawData) ∧ (row.source = .file → w.Holds row rawData) ∧ w' = w) ∨
    ∃ terminal, out = .ok (.error terminal) ∧
      (row.source = .file → ∀ rawData, ¬ w.Holds row rawData) ∧
        FailEnds gid t w row (.ok terminal) w'

section Loading

variable {w : World S K} {row : GenerationModel S} (hrow : w.row = some row)
  (hpending : row.status = .pending) (hlock : w.lock = none)
include hrow hpending hlock

/-- A failure while loading ends the delivery as a failure. -/
theorem silent_failLoading (hholds : row.source = .file → ∀ rawData, ¬ w.Holds row rawData)
    (errorMessage : String) (key : Option String) :
    Silent gid t solves (Except.error <$> failWith gid errorMessage key) w
      (LoadEnds gid t w row) := by
  rw [← bind_pure_comp]
  refine (silent_failWith hrow hpending hlock rfl rfl errorMessage key).bind
    (fun terminal w' h => ?_)
    fun e w' h => ?_
  · exact silent_ret (Or.inr ⟨terminal, rfl, hholds, h⟩)
  · obtain ⟨_, heq, -⟩ := h
    cases heq

/-- Loading a file gives the data, or the failure is stored. -/
theorem silent_loadFromFile :
    Silent gid t solves (loadFromFile (GenerationSnapshot.ofRow gid row)) w
      (LoadEnds gid t w row) := by
  have hfail := fun hholds errorMessage key =>
    (silent_failLoading hrow hpending hlock hholds errorMessage key : Silent gid t solves _ w _)
  unfold loadFromFile
  split
  · rename_i key fileName hkey hname
    have hkey : row.fileStorageKey = some key := hkey
    have hname : row.fileName = some fileName := hname
    refine (silent_download key).attemptBind fun content w₁ hcontent => ?_
    obtain ⟨hcontent, rfl⟩ := hcontent
    rcases hcontent with ⟨content, hobject, rfl⟩ | ⟨hobject, rfl⟩
    · -- the object is that of the row, and there is no other
      have hholds : ∀ rawData, w₁.Holds row rawData →
          S.load content fileName (row.injectionName.getD "") = .ok rawData := by
        rintro rawData ⟨key', fileName', content', hkey', hname', hobject', hload⟩
        rw [hkey] at hkey'
        rw [hname] at hname'
        rw [hobject] at hobject'
        cases hkey'
        cases hname'
        cases hobject'
        exact hload
      dsimp only
      split
      · rename_i rawData hload
        exact silent_ret (Or.inl ⟨rawData, rfl,
          fun _ => ⟨key, fileName, content, hkey, hname, hobject, hload⟩, rfl⟩)
      · rename_i detail hload
        refine hfail (fun _ rawData h => ?_) _ _
        cases hload.symm.trans (hholds rawData h)
      · rename_i detail hload
        refine hfail (fun _ rawData h => ?_) _ _
        cases hload.symm.trans (hholds rawData h)
    · refine hfail (fun _ rawData h => ?_) _ _
      obtain ⟨key', fileName', content', hkey', -, hobject', -⟩ := h
      rw [hkey] at hkey'
      cases hkey'
      exact hobject _ hobject'
  · rename_i hincomplete
    refine hfail (fun _ rawData h => ?_) _ _
    obtain ⟨key, fileName, -, hkey, hname, -⟩ := h
    exact hincomplete key fileName hkey hname

variable [Nonempty S.Summary] [Nonempty S.Rows]

/-- Loading from the CRM gives the data, or the failure is stored. -/
theorem silent_loadFromCrm (hsource : row.source ≠ .file) :
    Silent gid t solves (loadFromCrm (GenerationSnapshot.ofRow gid row)) w
      (LoadEnds gid t w row) := by
  have hfail := fun errorMessage key =>
    (silent_failLoading hrow hpending hlock (fun hfile => absurd hfile hsource) errorMessage key :
      Silent gid t solves _ w _)
  unfold loadFromCrm
  split
  · rename_i id start stop hid hstart hstop
    refine Silent.attemptBind
      (?_ : Silent gid t solves _ w fun out w' => (∃ read, out = .ok read) ∧ w' = w)
      fun read w₁ hread => ?_
    · obtain ⟨summary⟩ := ‹Nonempty S.Summary›
      obtain ⟨rows⟩ := ‹Nonempty S.Rows›
      refine silent_call rfl ⟨.summary summary, _, _, rfl, rfl⟩ fun choice r w₁ hup h => ?_
      cases choice with
      | summary answer =>
        cases h
        by_cases hblockers : (S.blockers answer).isEmpty = true
        · show Silent gid t solves ((if (S.blockers answer).isEmpty then
              some <$> fetchRows row.idCommunity id start stop else pure none) >>= _) w _
          rw [if_pos hblockers]
          refine silent_call rfl ⟨.rows rows, _, _, rfl, rfl⟩ fun choice r w₁ hup h => ?_
          cases choice with
          | rows answer => cases h; exact silent_ret ⟨⟨_, rfl⟩, rfl⟩
          | fail detail => cases hup
          | _ => cases h
        · show Silent gid t solves ((if (S.blockers answer).isEmpty then
              some <$> fetchRows row.idCommunity id start stop else pure none) >>= _) w _
          rw [if_neg hblockers]
          exact silent_ret ⟨⟨_, rfl⟩, rfl⟩
      | fail detail => cases hup
      | _ => cases h
    · obtain ⟨⟨read, rfl⟩, rfl⟩ := hread
      rcases read with ⟨summary, _ | rows⟩
      · exact hfail _ _
      · dsimp only
        split
        · exact silent_ret (Or.inl ⟨_, rfl, fun hfile => absurd hfile hsource, rfl⟩)
        · exact hfail _ _
        · exact hfail _ _
  · exact hfail _ _

/-- Loading gives the data, or the failure is stored. -/
theorem silent_loadRawData :
    Silent gid t solves (loadRawData (GenerationSnapshot.ofRow gid row)) w
      (LoadEnds gid t w row) := by
  unfold loadRawData
  split
  · rename_i hsource
    have hsource : row.source = .crm := hsource
    exact silent_loadFromCrm hrow hpending hlock (by rw [hsource]; nofun)
  · exact silent_loadFromFile hrow hpending hlock

end Loading

/-! ### Solving and saving -/

/-- The algorithm has returned to the thread a result for these inputs and this data, or has
raised. -/
def Got (solves : S.AlgoInput → S.RawData → Option (AlgorithmResult K) → Prop) (t : ℕ)
    (inputs : S.AlgoInput) (rawData : S.RawData) (w w' : World S K) : Prop :=
  (∃ result, w'.solved = (t, result) :: w.solved ∧ solves inputs rawData (some result)) ∨
    w'.solved = w.solved ∧ solves inputs rawData none

omit [Zero K] [Add K] in
/-- The algorithm returns a result or raises; a dead process is not among its ends. -/
theorem silent_runAlgorithm (algorithm : String) {inputs : S.AlgoInput} {rawData : S.RawData}
    (htotal : ∃ outcome, solves inputs rawData outcome) {w : World S K} :
    Silent gid t solves (runAlgorithm algorithm inputs rawData) w fun out w' =>
      (∃ result, out = .ok result ∧ solves inputs rawData (some result) ∧
          w' = { w with solved := (t, result) :: w.solved }) ∨
        (∃ detail, out = .error (.other detail)) ∧ solves inputs rawData none ∧ w' = w := by
  refine ⟨?_, fun choice r w₁ hup h => ?_⟩
  · obtain ⟨_ | result, hsolves⟩ := htotal
    · exact ⟨.fail "", _, _, ⟨fun detail h => (by cases h), hsolves⟩, rfl⟩
    · exact ⟨.result result, _, _, ⟨fun detail h => (by cases h), hsolves⟩, rfl⟩
  · cases choice with
    | result answer => cases h; exact ⟨rfl, Or.inl ⟨answer, rfl, hup.2, rfl⟩⟩
    | fail detail => cases h; exact ⟨rfl, Or.inr ⟨⟨detail, rfl⟩, hup.2, rfl⟩⟩
    | crash detail => exact absurd rfl (hup.1 detail)
    | _ => cases h

section Solving

variable {w : World S K} {row : GenerationModel S} (hrow : w.row = some row)
  (hpending : row.status = .pending) (hlock : w.lock = none)
include hrow hpending hlock

/-- A failure can be stored after anything that has kept the row. -/
theorem silent_failed {w₀ : World S K} (hkept : w.Kept w₀) (errorMessage : String)
    (key : Option String) :
    Silent gid t solves (failWith gid errorMessage key) w₀ (FailEnds gid t w row) :=
  silent_failWith (hkept.row.trans hrow) hpending (hkept.lock.trans hlock) hkept.results
    hkept.solved errorMessage key

/-- With the data, the delivery ends as a success, as a failure, or with a result that does not fit.
-/
theorem silent_solveAndSave (algorithm : String) (numDelivered : Option ℕ) (key : Option String)
    {inputs : S.AlgoInput} {rawData : S.RawData}
    (htotal : ∃ outcome, solves inputs rawData outcome) :
    Silent gid t solves (solveAndSave algorithm gid numDelivered key inputs rawData) w
      fun out w' => ProcessEnds gid t w row out w' ∧ Got solves t inputs rawData w w' := by
  refine (silent_runAlgorithm algorithm htotal).attemptBind fun solved w₁ hsolved => ?_
  rcases hsolved with ⟨result, rfl, hsolves, rfl⟩ | ⟨⟨detail, rfl⟩, hsolves, rfl⟩
  · refine (silent_addMetric _).bind (fun _ w₂ hkept => ?_) fun e w₂ h => by cases h.1
    obtain ⟨-, hkept⟩ := hkept
    have hrow₂ : w₂.row = some row := hkept.row.trans hrow
    refine (silent_saveOutcome hrow₂ hpending (hkept.lock.trans hlock) .success none _ _
      ).attemptBind fun saved w₃ h => ?_
    by_cases hfits : FitsColumns (resultRows gid row.idCommunity result)
    · obtain ⟨rfl, hsettled⟩ := h.fitting hfits
      rw [settle_eq hrow₂] at hsettled
      have hgot := hsettled.solved.trans hkept.solved
      refine silent_ret ⟨.saved result hgot hfits hsettled.row ?_
        (hsettled.lock.trans (hkept.lock.trans hlock)), Or.inl ⟨result, hgot, hsolves⟩⟩
      refine hsettled.results.trans ?_
      show w₂.results ++ numbered w₂.nextKeyId (resultRows gid row.idCommunity result) = _
      rw [hkept.results, hkept.nextKeyId]
    · obtain ⟨⟨e, rfl⟩, hsame⟩ := h.unfitting hfits
      have hgot := hsame.solved.trans hkept.solved
      exact silent_raise ⟨.refused result hgot hfits
        (hsame.row.trans hrow₂) (hsame.results.trans hkept.results)
        (hsame.lock.trans (hkept.lock.trans hlock)), Or.inl ⟨result, hgot, hsolves⟩⟩
  · refine (silent_addMetric _).bind (fun _ w₂ hkept => ?_) fun e w₂ h => by cases h.1
    refine (silent_failed hrow hpending hlock hkept.2 _ _).mono fun out w₃ h => ?_
    obtain ⟨terminal, rfl, hprocessed, hnothing⟩ := h
    exact ⟨hprocessed, Or.inr ⟨hnothing, hsolves⟩⟩

/-- The count at which a message is given up. -/
def Late (numDelivered : Option ℕ) : Prop := ∃ n, numDelivered = some n ∧ maxDeliveries ≤ n

/-- What a delivery runs the algorithm on: data within the size limit, and inputs that are valid. -/
structure Accepts (metadata : AlgorithmMetadata S) (row : GenerationModel S) (rawData : S.RawData)
    (inputs : S.AlgoInput) : Prop where
  fits : tooLarge (S.shape rawData).1 (S.shape rawData).2 = none
  valid : metadata.validate row.inputs = .ok inputs
  implemented : S.implemented metadata.name = true

/-- The algorithm is run exactly when the delivery accepts what the object holds, and then on
that. -/
def RunsOnUpload (solves : S.AlgoInput → S.RawData → Option (AlgorithmResult K) → Prop) (t : ℕ)
    (metadata : AlgorithmMetadata S) (row : GenerationModel S) (w w' : World S K) : Prop :=
  (∃ rawData inputs, w.Holds row rawData ∧ Accepts metadata row rawData inputs ∧
      Got solves t inputs rawData w w') ∨
    (∀ rawData inputs, w.Holds row rawData → ¬ Accepts metadata row rawData inputs) ∧
      w'.solved = w.solved

variable [Nonempty S.Summary] [Nonempty S.Rows]

/-- From the snapshot on; and once the count of the message is reached, a terminal is returned. -/
theorem silent_process (htotal : ∀ inputs rawData, ∃ outcome, solves inputs rawData outcome)
    (metadata : AlgorithmMetadata S) (numDelivered : Option ℕ) :
    Silent gid t solves (process metadata gid numDelivered) w fun out w' =>
      ProcessEnds gid t w row out w' ∧ (Late numDelivered → ∃ terminal, out = .ok terminal) ∧
        (row.source = .file → ¬ Late numDelivered → RunsOnUpload solves t metadata row w w') := by
  refine (silent_snapshotGeneration hlock).bind (fun snapshot w₁ hsnapshot => ?_)
    fun e w₁ h => by cases h.1
  obtain ⟨heq, rfl⟩ := hsnapshot
  cases heq
  rw [hrow]
  -- the row is pending, so the message is not skipped
  have hstatus : ¬ (GenerationSnapshot.ofRow gid row).status ≠ .pending := not_not.mpr hpending
  simp only [Option.map_some, hstatus, if_false]
  split
  · rename_i delivered hsome
    have hlate : Late numDelivered := by
      obtain ⟨hdelivered, hcount⟩ := Option.filter_eq_some_iff.mp hsome
      exact ⟨delivered, hdelivered, of_decide_eq_true hcount⟩
    refine (silent_failWith hrow hpending hlock rfl rfl _ _).mono fun out w' h => ?_
    obtain ⟨terminal, rfl, hprocessed, -⟩ := h
    exact ⟨hprocessed, fun _ => ⟨terminal, rfl⟩, fun _ hearly => absurd hlate hearly⟩
  · -- not the last delivery
    rename_i hnone
    have hearly : ¬ Late numDelivered := by
      rintro ⟨n, rfl, hn⟩
      simp only [Option.filter_some, decide_eq_true_eq, ite_eq_right_iff, reduceCtorEq,
        imp_false] at hnone
      exact hnone hn
    refine Silent.mono (?_ : Silent gid t solves _ w₁ fun out w' =>
        ProcessEnds gid t w₁ row out w' ∧ (row.source = .file →
          RunsOnUpload solves t metadata row w₁ w'))
      fun out w' h => ⟨h.1, fun hlate => absurd hlate hearly, fun hfile _ => h.2 hfile⟩
    refine (silent_loadRawData hrow hpending hlock).bind (fun loaded w₂ h => ?_)
      fun e w₂ h => ?_
    · rcases h with ⟨rawData, heq, hholds, rfl⟩ |
        ⟨terminal, heq, hholds, _, heq', hprocessed, hnothing⟩
      · cases heq
        -- data that the delivery refuses
        have hfail : ∀ errorMessage key, (∀ inputs, ¬ Accepts metadata row rawData inputs) →
            Silent gid t solves (failWith gid errorMessage key) w₂ fun out w' =>
              ProcessEnds gid t w₂ row out w' ∧ (row.source = .file →
                RunsOnUpload solves t metadata row w₂ w') := by
          intro errorMessage key hrefused
          refine (silent_failed hrow hpending hlock (World.Kept.refl w₂) errorMessage key).mono
            fun out w' h => ?_
          obtain ⟨terminal, rfl, hprocessed, hnothing⟩ := h
          refine ⟨hprocessed, fun hfile => Or.inr ⟨fun rawData' inputs hholds' => ?_, hnothing⟩⟩
          rw [(hholds hfile).unique hholds'] at hrefused
          exact hrefused inputs
        dsimp only
        split
        · rename_i oversize hoversize
          exact hfail _ _ fun inputs h => by cases hoversize.symm.trans h.fits
        rename_i hfits
        split
        · rename_i detail hinvalid
          exact hfail _ _ fun inputs h => by cases hinvalid.symm.trans h.valid
        rename_i inputs hvalid
        split
        · rename_i himplemented
          refine (silent_solveAndSave hrow hpending hlock _ _ _ (htotal inputs rawData)).mono
            fun out w' h => ⟨h.1, fun hfile => ?_⟩
          exact Or.inl ⟨rawData, inputs, hholds hfile, ⟨hfits, hvalid, himplemented⟩, h.2⟩
        · rename_i hmissing
          exact hfail _ _ fun inputs h => hmissing h.implemented
      · cases heq
        cases heq'
        exact silent_ret ⟨hprocessed, fun hfile =>
          Or.inr ⟨fun rawData inputs h => absurd h (hholds hfile rawData), hnothing⟩⟩
    · rcases h with ⟨_, heq, -⟩ | ⟨_, heq, -⟩
      · cases heq
      · cases heq

end Solving

/-! ### The message -/

/-- What follows and keeps the row does not change how the delivery has ended. -/
theorem ProcessEnds.kept {w w₁ w₂ : World S K} {row : GenerationModel S} {out : Except Exc Terminal}
    (h : ProcessEnds gid t w row out w₁) (hkept : w₁.Kept w₂) : ProcessEnds gid t w row out w₂ := by
  cases h with
  | failed errorMessage explains solved ended results unlocked =>
    exact .failed errorMessage explains (hkept.solved.trans solved) (hkept.row.trans ended)
      (hkept.results.trans results) (hkept.lock.trans unlocked)
  | saved result solved fits ended results unlocked =>
    exact .saved result (hkept.solved.trans solved) fits (hkept.row.trans ended)
      (hkept.results.trans results) (hkept.lock.trans unlocked)
  | refused result solved unfit same results unlocked =>
    exact .refused result (hkept.solved.trans solved) unfit (hkept.row.trans same)
      (hkept.results.trans results) (hkept.lock.trans unlocked)

/-- The algorithm has returned to the thread a result with a text that is too long. -/
def ReturnedUnfit (t : ℕ) (w : World S K) (row : GenerationModel S) (gid : ℤ) (w' : World S K) :
    Prop :=
  ∃ result, w'.solved = (t, result) :: w.solved ∧
    ¬ FitsColumns (resultRows gid row.idCommunity result)

/-- The pipeline raises exactly when the result does not fit. -/
theorem ProcessEnds.error_iff {w w' : World S K} {row : GenerationModel S}
    {out : Except Exc Terminal} (h : ProcessEnds gid t w row out w') :
    (∃ e, out = .error e) ↔ ReturnedUnfit t w row gid w' := by
  cases h with
  | failed errorMessage explains solved ended results unlocked =>
    refine iff_of_false (by simp) ?_
    rintro ⟨result, hsolved, -⟩
    rw [solved] at hsolved
    exact List.cons_ne_self _ _ hsolved.symm
  | saved result solved fits ended results unlocked =>
    refine iff_of_false (by simp) ?_
    rintro ⟨result', hsolved, hunfit⟩
    rw [solved] at hsolved
    cases hsolved
    exact hunfit fits
  | refused result solved unfit same results unlocked =>
    exact iff_of_true ⟨_, rfl⟩ ⟨result, solved, unfit⟩

/-- How a message is settled. -/
def settlementOf : Except Exc Terminal → Op S K
  | .ok _ => .ack
  | .error _ => .nak nakRetryDelaySeconds

/-- A delivery is done: it has settled its message once, as its pipeline has ended; it has naked it
exactly when the algorithm returned a result that does not fit. -/
structure SettledOnce (gid : ℤ) (t : ℕ) (w : World S K) (row : GenerationModel S)
    (numDelivered : Option ℕ) (settled : List (Op S K)) (out : Except Exc Unit) (w' : World S K) :
    Prop where
  done : out = .ok ()
  once : ∃ result, settled = [settlementOf result] ∧ ProcessEnds gid t w row result w' ∧
    (Late numDelivered → ∃ terminal, result = .ok terminal)
  naks : settled = [.nak nakRetryDelaySeconds] ↔ ReturnedUnfit t w row gid w'

/-- How the delivery has settled its message, from how its processing has ended. -/
theorem settledOnce_of_ends {w w' : World S K} {row : GenerationModel S}
    {numDelivered : Option ℕ} {settled : List (Op S K)} (result : Except Exc Terminal)
    (hsettled : settled = [settlementOf result]) (hprocessed : ProcessEnds gid t w row result w')
    (hlate : Late numDelivered → ∃ terminal, result = .ok terminal) :
    SettledOnce gid t w row numDelivered settled (.ok ()) w' := by
  refine ⟨rfl, ⟨result, hsettled, hprocessed, hlate⟩, ?_⟩
  rw [← hprocessed.error_iff, hsettled]
  cases result <;> simp [settlementOf]

section Settle

variable {w : World S K}

omit [Zero K] [Add K] in
theorem settling_ack :
    Settling gid t solves ack w fun settled out w' => settled = [.ack] ∧ out = .ok () ∧ w' = w := by
  refine settling_call ⟨.ok, _, _, rfl, rfl⟩ fun choice r w₁ hup hexec => ?_
  cases orFail_up hup hexec
  exact surely_ofExcept ⟨rfl, rfl, rfl⟩

omit [Zero K] [Add K] in
theorem settling_nak (delay : ℕ) :
    Settling gid t solves (nak delay) w fun settled out w' =>
      settled = [.nak delay] ∧ out = .ok () ∧ w' = w := by
  refine settling_call ⟨.ok, _, _, rfl, rfl⟩ fun choice r w₁ hup hexec => ?_
  cases orFail_up hup hexec
  exact surely_ofExcept ⟨rfl, rfl, rfl⟩

omit [Zero K] [Add K] in
/-- What follows the settlement of the message settles nothing. -/
theorem Settling.bindSilent {p : Pipeline S K Unit} {f : Unit → Pipeline S K α} {o : Op S K}
    {post : Except Exc α → World S K → Prop}
    (hp : Settling gid t solves p w fun settled out w' => settled = [o] ∧ out = .ok () ∧ w' = w)
    (hf : Silent gid t solves (f ()) w post) :
    Settling gid t solves (p >>= f) w fun settled out w' => settled = [o] ∧ post out w' := by
  refine Surely.bind hp (fun events a w₁ hmid => ?_) fun events e w₁ hmid => by cases hmid.2.1
  obtain ⟨hsettled, -, rfl⟩ := hmid
  refine Surely.mono hf fun events' out w' hout => ⟨?_, hout.2⟩
  rw [settlements_append, hsettled, hout.1]
  rfl

omit [Zero K] [Add K] in
/-- A deletion changes nothing else, whether or not it succeeds. -/
theorem silent_delete (key : String) :
    Silent gid t solves (delete key) w fun out w' => out = .ok () ∧ w.Kept w' := by
  refine silent_call rfl ⟨.ok, _, _, trivial, rfl⟩ fun choice r w₁ _ hanswer => ?_
  cases choice <;> cases hanswer <;> exact silent_ret ⟨rfl, rfl, rfl, rfl, rfl, rfl⟩

end Settle

/-- A delivery settles its message, and what its pipeline has done stays so. -/
theorem settles_handleMessage (metadata : AlgorithmMetadata S) {msg : Msg S}
    (habout : msg.About gid) {w : World S K} {row : GenerationModel S} {given : World S K → Prop}
    (hgiven : ∀ {w₁ w₂}, w₁.Kept w₂ → given w₁ → given w₂)
    (hprocess : Silent gid t solves (process metadata gid msg.numDelivered) w fun out w' =>
      ProcessEnds gid t w row out w' ∧ (Late msg.numDelivered → ∃ terminal, out = .ok terminal) ∧
        given w') :
    Settling gid t solves (handleMessage metadata msg) w fun settled out w' =>
      SettledOnce gid t w row msg.numDelivered settled out w' ∧ given w' := by
  obtain ⟨event, hdecode, hid⟩ := Option.bind_eq_some_iff.mp habout
  unfold handleMessage
  rw [hdecode]
  dsimp only
  rw [hid]
  refine hprocess.attemptSettling fun out w₁ h => ?_
  obtain ⟨hprocessed, hlate, hhas⟩ := h
  rcases out with e | terminal
  · obtain ⟨detail, rfl⟩ : ∃ detail, e = .transient detail := by
      cases hprocessed
      exact ⟨_, rfl⟩
    refine Surely.mono ((settling_nak nakRetryDelaySeconds).bindSilent (silent_addMetric _))
      fun events out w' hout => ?_
    obtain ⟨hsettled, rfl, hkept⟩ := hout
    exact ⟨settledOnce_of_ends (.error (.transient detail)) hsettled (hprocessed.kept hkept) hlate,
      hgiven hkept hhas⟩
  · refine Surely.mono (settling_ack.bindSilent
      (?_ : Silent gid t solves _ w₁ fun out w' => out = .ok () ∧ w₁.Kept w'))
      fun events out w' hout => ?_
    · split
      · exact silent_delete _
      · exact silent_ret ⟨rfl, World.Kept.refl w₁⟩
    · obtain ⟨hsettled, rfl, hkept⟩ := hout
      exact ⟨settledOnce_of_ends (.ok terminal) hsettled (hprocessed.kept hkept) hlate,
        hgiven hkept hhas⟩

/-- **A delivery surely settles its message**, alone and with everything up: it is never left
without an answer, and at its end it has made one settlement, the one its pipeline calls for: a nak
exactly when the algorithm returned a result that does not fit. -/
theorem handleMessage_surely [Nonempty S.Summary] [Nonempty S.Rows]
    (metadata : AlgorithmMetadata S) {msg : Msg S} (habout : msg.About gid) {w : World S K}
    {row : GenerationModel S} (hrow : w.row = some row) (hpending : row.status = .pending)
    (hlock : w.lock = none) :
    (handleMessage metadata msg).Surely (exec gid t) Up w fun events out w' =>
      SettledOnce gid t w row msg.numDelivered (settlements events) out w' := by
  rw [← upSolving_true]
  have hprocess : Silent gid t (fun _ _ _ => True) (process metadata gid msg.numDelivered) w
      fun out w' => ProcessEnds gid t w row out w' ∧
        (Late msg.numDelivered → ∃ terminal, out = .ok terminal) ∧ True :=
    (silent_process hrow hpending hlock (fun _ _ => ⟨none, trivial⟩) metadata _).mono
      fun out w' h => ⟨h.1, h.2.1, trivial⟩
  refine Surely.mono (settles_handleMessage metadata habout (fun _ _ => trivial) hprocess) ?_
  exact fun events out w' h => h.1

/-- The first delivery of a message, for a generation that has been queued. -/
theorem handleMessage_surely_first :
    ∃ events out w', Performs (exec 1 2) (handleMessage plainMetadata
        ⟨⟨"generation.requested", 1, some 1⟩, some 1⟩ : Pipeline plainServices ℕ Unit)
        (World.queuedFor racedRow ()) events out w' ∧
      SettledOnce 1 2 (World.queuedFor racedRow ()) racedRow (some 1) (settlements events) out
        w' := by
  have : Nonempty plainServices.Summary := ⟨()⟩
  have : Nonempty plainServices.Rows := ⟨()⟩
  have habout : Msg.About (S := plainServices) 1 ⟨⟨"generation.requested", 1, some 1⟩, some 1⟩ :=
    rfl
  have hrow : (World.queuedFor racedRow () : World plainServices ℕ).row = some racedRow := rfl
  obtain ⟨events, out, w', hrun, -, hsettled⟩ :=
    (handleMessage_surely (t := 2) plainMetadata habout hrow rfl rfl).exists_performs
  exact ⟨events, out, w', hrun, hsettled⟩

end AllocationKeys.Generation
