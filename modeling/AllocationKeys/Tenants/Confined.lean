import AllocationKeys.Tenants.Sound

/-!
# What a request may change

`Guarded scope before db`: the databases are sound, the rows of the other communities are as they
were before the request, and what its sessions have not committed yet is about its own community.
Every access of a request keeps it (`guarded_execPipeline`), given that the row it writes to is in
scope; the requests are followed to their end from that.
-/

namespace AllocationKeys.Tenants

open Algorithms Generation Program

variable {S : Services} {K α : Type} {db db' before : Databases S K} {scope : Option ℤ}

/-- A row of another community, for a request in this scope. -/
def foreign (scope : Option ℤ) (community : ℤ) : Bool := scope != some community

/-- Only the rows of the own community are not foreign. -/
theorem foreign_eq_false {community : ℤ} :
    foreign scope community = false ↔ scope = some community := by
  simp [foreign]

/-- The rows of the other communities. -/
def Databases.outside (scope : Option ℤ) (db : Databases S K) :
    List (ℤ × GenerationModel S) ×
      Rows ℤ ℤ (KeyColumns K) (IterationColumns K) (ConsumerColumns K) ×
      Rows Unit ℤ CrmKeyColumns (CrmIterationColumns K) (ConsumerColumns K) :=
  (db.generations.filter fun entry => foreign scope entry.2.idCommunity,
    db.keys.restrict (foreign scope), db.crm.restrict (foreign scope))

/-- A generation with this id is in scope, if there is one. -/
def Databases.InScope (scope : Option ℤ) (id : ℤ) (db : Databases S K) : Prop :=
  ∀ entry ∈ db.generations, entry.1 = id → scope = some entry.2.idCommunity

structure Guarded (scope : Option ℤ) (before db : Databases S K) : Prop where
  sound : db.Sound
  outside : db.outside scope = before.outside scope
  flushed : ∀ id ∈ db.flushed, db.InScope scope id
  staged : ∀ rows ∈ db.stagedCrm,
    rows.restrict (foreign scope) = before.crm.restrict (foreign scope)

/-- A change of other tables stays within the scope. -/
theorem Databases.Same.guarded (h : db.Same db') (hguarded : Guarded scope before db)
    (hflushed : ∀ id ∈ db'.flushed, db.InScope scope id) : Guarded scope before db' where
  sound := h.sound hguarded.sound
  outside := by
    rw [← hguarded.outside, Databases.outside, Databases.outside, h.generations, h.keys, h.crm]
  flushed id hid := by
    rw [Databases.InScope, h.generations]
    exact hflushed id hid
  staged := by
    rw [h.stagedCrm]
    exact hguarded.staged

/-! ### Commits -/

/-- The outcome of a generation in scope changes no foreign row. -/
theorem outside_settle {id : ℤ} (hscope : db.InScope scope id) (status : GenerationStatus)
    (errorMessage : Option String) :
    (db.settle id status errorMessage).outside scope = db.outside scope := by
  have hgenerations : (db.settle id status errorMessage).generations.filter
      (fun entry => foreign scope entry.2.idCommunity) =
        db.generations.filter fun entry => foreign scope entry.2.idCommunity := by
    rw [Databases.settle, List.filter_map]
    simp only [Function.comp_def, settleEntry_idCommunity]
    refine (List.map_congr_left fun entry hentry => ?_).trans (List.map_id _)
    obtain ⟨hmem, hforeign⟩ := List.mem_filter.mp hentry
    refine settleEntry_of_ne status errorMessage fun hid => ?_
    rw [foreign_eq_false.mpr (hscope entry hmem hid)] at hforeign
    cases hforeign
  rw [Databases.outside, hgenerations]
  rfl

/-- Deleting a generation in scope, with its keys, changes no foreign row. -/
theorem outside_delete (h : db.Sound) {id : ℤ} (hscope : db.InScope scope id) :
    (db.apply id .delete).outside scope = db.outside scope := by
  have hkeys : (db.keys.toRows.remove fun row => row.parent == id).restrict (foreign scope) =
      db.keys.toRows.restrict (foreign scope) := by
    refine Rows.restrict_remove_other h.descends fun key hkey hparent => ?_
    obtain ⟨entry, hentry, hid, hcommunity⟩ := h.key_generation key hkey
    rw [foreign_eq_false, ← hcommunity]
    exact hscope entry hentry (hid.trans (eq_of_beq hparent))
  have hgenerations : (db.generations.filter fun entry => entry.1 != id).filter
      (fun entry => foreign scope entry.2.idCommunity) =
        db.generations.filter fun entry => foreign scope entry.2.idCommunity := by
    rw [List.filter_filter]
    refine List.filter_congr fun entry hentry => ?_
    by_cases hid : entry.1 = id
    · rw [foreign_eq_false.mpr (hscope entry hentry hid), Bool.false_and]
    · rw [bne_iff_ne.mpr hid, Bool.and_true]
  simp only [Databases.outside, Databases.apply, hgenerations, hkeys]

/-- Deleting a key in scope changes no foreign row. -/
theorem outside_deleteKey (h : db.Sound) (id : ℤ) {idKey : ℕ}
    (hscope : ∀ key ∈ db.keys.roots, key.id = idKey → scope = some key.owner) :
    (db.apply id (.deleteKey idKey)).outside scope = db.outside scope := by
  have hkeys : (db.keys.toRows.remove fun row => row.id == idKey).restrict (foreign scope) =
      db.keys.toRows.restrict (foreign scope) :=
    Rows.restrict_remove_other h.descends fun key hkey hid =>
      foreign_eq_false.mpr (hscope key hkey (eq_of_beq hid))
  simp only [Databases.outside, Databases.apply, hkeys]

/-- A new row in scope is no foreign row. -/
theorem outside_insert {row : GenerationModel S} (hscope : scope = some row.idCommunity) (id : ℤ) :
    (db.apply id (.insert row)).outside scope = db.outside scope := by
  simp [Databases.outside, Databases.apply, List.filter_append, foreign_eq_false.mpr hscope]

/-! ### What an access keeps -/

/-- What an access of a request writes to is in its scope. -/
def Within (scope : Option ℤ) (db : Databases S K) : Op S K → Prop
  | .updateWherePending .. => False
  | .flushUpdate id => db.InScope scope id
  | .flushDelete id => db.InScope scope id
  | .commit (.insert row) => scope = some row.idCommunity ∧
      ∀ id ∈ db.flushed, id < db.nextGenerationId ∧ ∀ entry ∈ db.generations, entry.1 ≠ id
  | .commit (.outcome ..) => False
  | .commit (.deleteKey idKey) =>
      ∀ key ∈ db.keys.roots, key.id = idKey → scope = some key.owner
  | _ => True

/-- The generation an access writes to. -/
def Flushes (id : ℤ) : Op S K → Prop
  | .updateWherePending id' .. => id' = id
  | .flushUpdate id' => id' = id
  | .flushDelete id' => id' = id
  | _ => False

/-- The open row is the one that was open, or the one the call writes to. -/
theorem flushed_execPipeline {o : Op S K} (ho : Leaves o) {choice : Choice S K} {r : Resp S K o}
    (h : execPipeline o choice db = some (r, db')) {id : ℤ} (hid : id ∈ db'.flushed) :
    id ∈ db.flushed ∨ Flushes id o := by
  cases o with
  | flushInsert row => exact ho.elim
  | commit write => exact ho.elim
  | get id' | flushDeleteKey id' | select id' scope | ack | nak delay =>
    rcases orFail_cases h with hok | ⟨rfl, -⟩
    · cases hok
      exact Or.inl hid
    · exact Or.inl hid
  | selectKey id' scope =>
    obtain ⟨rfl, -⟩ := orArranged_cases h
    exact Or.inl hid
  | flushDelete id' =>
    rcases orFail_cases h with hok | ⟨rfl, -⟩
    · cases hok
      exact Or.inr (Option.some.inj hid)
    · exact Or.inl hid
  | updateWherePending id' status errorMessage | flushUpdate id' =>
    rcases orFail_cases h with hok | ⟨rfl, -⟩
    · repeat' split at hok
      all_goals cases hok
      all_goals first | exact Or.inl hid | exact Or.inr (Option.some.inj hid)
    · exact Or.inl hid
  | close => cases h; cases hid
  | addMetric metric => cases h; exact Or.inl hid
  | commitCrm staged | upload key content | publish subject data =>
    rcases orLost_cases h with rfl | ⟨rfl, -⟩ <;> exact Or.inl hid
  | stageAudit entry | sharingOperationExists c id' | summarize c id' start stop
  | fetchRows c id' start stop | delete key | emit event | solve algorithm inputs rawData =>
    cases choice <;> cases h <;> exact Or.inl hid
  | download key =>
    simp only [execPipeline] at h
    repeat' split at h
    all_goals cases h
    all_goals exact Or.inl hid

/-- A commit within the scope changes no foreign row. -/
theorem guarded_commit (h : Guarded scope before db) {write : Write S K}
    (hwithin : Within scope db (.commit write)) : Guarded scope before (db.commit write) := by
  rcases commit_cases db write with heq | ⟨id, hid, heq⟩
  · rwa [heq]
  rw [heq]
  have hflushed : ∀ id' ∈ ({ db.apply id write with flushed := none } : Databases S K).flushed,
      ({ db.apply id write with flushed := none } : Databases S K).InScope scope id' :=
    fun id' hid' => by cases hid'
  cases write with
  | insert row =>
    have hid := hid.resolve_right (by simp)
    obtain ⟨hlt, hnew⟩ := hwithin.2 id hid
    exact ⟨(same_flushed _ none).sound (sound_insert h.sound hnew hlt row),
      (outside_insert hwithin.1 id).trans h.outside, hflushed, h.staged⟩
  | outcome status errorMessage keys => exact hwithin.elim
  | save status errorMessage =>
    have hscope := h.flushed id (hid.resolve_right (by simp))
    exact ⟨(same_flushed _ none).sound (sound_settle h.sound id status errorMessage),
      (outside_settle hscope status errorMessage).trans h.outside, hflushed, h.staged⟩
  | delete =>
    have hscope := h.flushed id (hid.resolve_right (by simp))
    exact ⟨(same_flushed _ none).sound (sound_delete h.sound id),
      (outside_delete h.sound hscope).trans h.outside, hflushed, h.staged⟩
  | deleteKey idKey =>
    exact ⟨(same_flushed _ none).sound (sound_deleteKey h.sound id idKey),
      (outside_deleteKey h.sound id hwithin).trans h.outside, hflushed, h.staged⟩

/-- **An access in scope leaves the rows of the other communities as they are.** -/
theorem guarded_execPipeline (h : Guarded scope before db) {o : Op S K}
    (hwithin : Within scope db o) {choice : Choice S K} {r : Resp S K o}
    (hexec : execPipeline o choice db = some (r, db')) : Guarded scope before db' := by
  have hleaves : Leaves o → Guarded scope before db' := fun ho =>
    (same_execPipeline ho hexec).guarded h fun id hid => by
      rcases flushed_execPipeline ho hexec hid with hold | hnew
      · exact h.flushed id hold
      · cases o with
        | updateWherePending => exact hwithin.elim
        | flushUpdate id' => cases hnew; exact hwithin
        | flushDelete id' => cases hnew; exact hwithin
        | _ => exact hnew.elim
  cases o with
  | flushInsert row =>
    rcases orFail_cases hexec with hok | ⟨rfl, -⟩
    · cases hok
      refine ⟨sound_flushInsert h.sound _, h.outside, fun id hid entry hentry heq => ?_, h.staged⟩
      have hlt := h.sound.ids_lt entry hentry
      have hid' : db.nextGenerationId = id := Option.some.inj hid
      omega
    · exact h
  | commit write =>
    rcases orLost_cases hexec with rfl | ⟨rfl, -⟩
    · exact guarded_commit h hwithin
    · exact (same_flushed db none).guarded h fun id hid => by cases hid
  | _ => exact hleaves trivial

/-! ### Creating a generation -/

/-- What a part of a request keeps. -/
abbrev KeepsGuarded (scope : Option ℤ) (before : Databases S K) (p : Pipeline S K α) : Prop :=
  p.Keeps execPipeline (Guarded scope before)

/-- The accesses that write to no generation. -/
def Aside : Op S K → Prop
  | .updateWherePending .. | .flushUpdate _ | .flushDelete _ | .commit _ => False
  | _ => True

/-- A program that stays aside of the tables stays within the scope. -/
theorem keepsGuarded_of_aside {p : Pipeline S K α} (h : p.Calls Aside) :
    KeepsGuarded scope before p :=
  h.keeps fun o ho _ _ _ _ hexec hguarded => by
    refine guarded_execPipeline hguarded ?_ hexec
    cases o <;> first | exact ho.elim | trivial

/-- The created row is in scope, under the id that is returned. -/
theorem ends_createGeneration {row : GenerationModel S} (hscope : scope = some row.idCommunity)
    (h : Guarded scope before db) : (createGeneration row).Ends execPipeline db
      fun _ out db' => Guarded scope before db' ∧ ∀ id, out = .ok id → db'.InScope scope id := by
  have hflush : (flushInsert row : Pipeline S K ℤ).Ends execPipeline db fun _ out db' =>
      Guarded scope before db' ∧ ∀ id, out = .ok id → db'.flushed = some id ∧
        id < db'.nextGenerationId ∧ ∀ entry ∈ db'.generations, entry.1 ≠ id := by
    refine ends_callExcept fun choice r db' hexec => ?_
    refine ⟨guarded_execPipeline (o := .flushInsert row) h trivial hexec, fun id hid => ?_⟩
    rcases orFail_cases hexec with hok | ⟨rfl, e, rfl⟩
    · cases hok
      cases hid
      refine ⟨rfl, ?_, fun entry hentry heq => ?_⟩
      · show db.nextGenerationId < db.nextGenerationId + 1
        omega
      · have hlt := h.sound.ids_lt entry hentry
        omega
    · cases hid
  refine hflush.bind (fun _ id db₁ hfresh => ?_) fun _ e db₁ hfresh => ⟨hfresh.1, by simp⟩
  obtain ⟨hguarded, hid⟩ := hfresh
  obtain ⟨hflushed, hlt, hnew⟩ := hid id rfl
  have hcommit : (commit (.insert row) : Pipeline S K Unit).Ends execPipeline db₁ fun _ out db' =>
      Guarded scope before db' ∧ ∀ u, out = .ok u → db'.InScope scope id := by
    refine ends_callExcept fun choice r db' hexec => ?_
    have hwithin : Within scope db₁ (.commit (.insert row)) := by
      refine ⟨hscope, fun id' hid' => ?_⟩
      rw [hflushed] at hid'
      cases hid'
      exact ⟨hlt, hnew⟩
    refine ⟨guarded_execPipeline hguarded hwithin hexec, fun u hu entry hentry heq => ?_⟩
    rcases orLost_cases hexec with rfl | ⟨-, e, rfl⟩
    · have hdone : (db₁.commit (.insert row)).generations = db₁.generations ++ [(id, row)] := by
        simp [Databases.commit, Databases.apply, hflushed]
      rw [hdone] at hentry
      rcases List.mem_append.mp hentry with hold | hinserted
      · exact absurd heq (hnew entry hold)
      · rw [List.mem_singleton.mp hinserted]
        exact hscope
    · cases hu
  refine hcommit.bind (fun _ u db₂ h => ends_ret ⟨h.1, fun id' hid' => ?_⟩)
    fun _ e db₂ h => ⟨h.1, by simp⟩
  cases hid'
  exact h.2 u rfl

/-- What follows the creation of a generation reads and writes that one. The entry it commits says
that the generation could not be queued. -/
def AfterCreation (id : ℤ) : Op S K → Prop
  | .get id' | .flushUpdate id' => id' = id
  | .commit (.save ..) => True
  | .commitCrm staged => ∀ entry ∈ staged, entry.action = .generationQueueFailed
  | .updateWherePending .. | .flushInsert _ | .flushDelete _ | .commit _ | .select .. |
    .selectKey .. | .download _ => False
  | _ => True

/-- What follows the creation keeps the new row in scope. -/
theorem inScope_execPipeline {id : ℤ} {o : Op S K} (ho : AfterCreation id o) {choice : Choice S K}
    {r : Resp S K o} (hexec : execPipeline o choice db = some (r, db'))
    (hscope : db.InScope scope id) : db'.InScope scope id := by
  have hsame : Leaves o → db'.InScope scope id := fun hleaves => by
    rw [Databases.InScope, (same_execPipeline hleaves hexec).generations]
    exact hscope
  cases o with
  | commit write =>
    cases write with
    | save status errorMessage =>
      rcases orLost_cases hexec with rfl | ⟨rfl, -⟩
      · rcases commit_cases db (.save status errorMessage) with heq | ⟨id', -, heq⟩
        · rwa [heq]
        · rw [heq]
          intro entry hentry hid
          obtain ⟨old, hold, rfl⟩ := List.mem_map.mp hentry
          rw [settleEntry_fst] at hid
          rw [settleEntry_idCommunity]
          exact hscope old hold hid
      · exact hscope
    | _ => exact ho.elim
  | flushInsert => exact ho.elim
  | _ => exact hsame trivial

/-- So does a program of such calls. -/
theorem keeps_of_afterCreation {id : ℤ} {p : Pipeline S K α} (h : p.Calls (AfterCreation id)) :
    p.Keeps execPipeline fun db => Guarded scope before db ∧ db.InScope scope id := by
  refine h.keeps fun o ho choice db r db' hexec hI => ?_
  obtain ⟨hguarded, hscope⟩ := hI
  refine ⟨guarded_execPipeline hguarded ?_ hexec, inScope_execPipeline ho hexec hscope⟩
  cases o with
  | flushUpdate id' =>
    cases ho
    exact hscope
  | commit write =>
    cases write with
    | save status errorMessage => trivial
    | _ => exact ho.elim
  | updateWherePending | flushDelete => exact ho.elim
  | _ => trivial

theorem calls_previewCrmData {may : Op S K → Prop}
    (hexists : ∀ communityId idSharingOperation,
      may (.sharingOperationExists communityId idSharingOperation))
    (hsummarize : ∀ communityId idSharingOperation periodStart periodEnd,
      may (.summarize communityId idSharingOperation periodStart periodEnd))
    (idSharingOperation : ℤ) (periodStart periodEnd : S.Date) (communityId : ℤ) :
    (previewCrmData idSharingOperation periodStart periodEnd communityId :
      Pipeline S K S.Summary).Calls may := by
  unfold previewCrmData
  split
  · trivial
  refine Calls.bind (calls_call (hexists _ _)) fun known => ?_
  split
  · exact calls_call (hsummarize _ _ _ _)
  · trivial

theorem afterCreation_of_ofQueueing {id : ℤ} {o : Op S K} (h : o.OfQueueing id) :
    AfterCreation id o := by
  cases o with
  | commit write => cases write <;> trivial
  | get | flushUpdate | commitCrm => exact h
  | _ => trivial

/-- A row of the community is created, and what follows writes to that row. -/
theorem guarded_create {row : GenerationModel S} {onError : Exc → Pipeline S K α}
    {rest : ℤ → Pipeline S K α} (hscope : scope = some row.idCommunity)
    (honError : ∀ e, (onError e).Calls Aside) (hrest : ∀ id, (rest id).Calls (AfterCreation id)) :
    KeepsGuarded scope before ((createGeneration row).attempt >>= fun created =>
      match created with
      | .error e => onError e
      | .ok id => rest id) := by
  intro db h
  have hattempt : (createGeneration row).attempt.Ends execPipeline db fun _ result db' =>
      ∃ out, result = .ok out ∧ Guarded scope before db' ∧
        ∀ id, out = .ok id → db'.InScope scope id :=
    Ends.attempt ((ends_createGeneration hscope h).mono fun _ out db' hout => ⟨out, rfl, hout⟩)
  refine hattempt.bind (fun _ out db₁ hcreated => ?_) fun _ e db₁ hcreated => ?_
  · obtain ⟨_, heq, hguarded, hid⟩ := hcreated
    cases heq
    cases out with
    | error e => exact keepsGuarded_of_aside (honError e) db₁ hguarded
    | ok id =>
      exact (keeps_of_afterCreation (hrest id) db₁ ⟨hguarded, hid id rfl⟩).mono
        fun _ _ _ hdone => hdone.1
  · exact hcreated.choose_spec.2.1

/-- A creation and what follows it stay within the scope. -/
theorem guarded_createThen {row : GenerationModel S} {rest : ℤ → Pipeline S K α}
    (hscope : scope = some row.idCommunity) (hrest : ∀ id, (rest id).Calls (AfterCreation id)) :
    KeepsGuarded scope before (createGeneration row >>= rest) := by
  intro db h
  refine (ends_createGeneration hscope h).bind (fun _ id db₁ hcreated => ?_)
    fun _ e db₁ hcreated => hcreated.1
  exact (keeps_of_afterCreation (hrest id) db₁ ⟨hcreated.1, hcreated.2 id rfl⟩).mono
    fun _ _ _ hdone => hdone.1

/-- A request with a file stays within its community. -/
theorem keepsGuarded_startGeneration (registry : String → Option (AlgorithmMetadata S))
    (req : GenerateRequest S) (file : UploadFile S) {communityId : ℤ}
    (hscope : scope = some communityId) :
    KeepsGuarded scope before (startGeneration (K := K) registry req file communityId) := by
  unfold startGeneration
  split
  · exact keeps_raise
  split
  · exact keeps_raise
  dsimp only
  split
  · exact keeps_raise
  split
  · exact keeps_raise
  split
  · exact keeps_raise
  refine Keeps.bind (keepsGuarded_of_aside (Calls.attempt (calls_call trivial))) fun uploaded => ?_
  split
  · exact keeps_raise
  refine guarded_create ?_ (fun e => ?_) fun id => ?_
  · exact hscope
  · exact Calls.bind (calls_ask trivial) fun _ => trivial
  · exact Calls.bind (calls_ask trivial) fun _ => Calls.bind (calls_ask trivial) fun _ =>
      calls_queueGeneration (fun _ => afterCreation_of_ofQueueing) _ (calls_ask trivial)

/-- A request over CRM data stays within its community. -/
theorem keepsGuarded_startGenerationFromCrm (registry : String → Option (AlgorithmMetadata S))
    (req : GenerateFromCrmRequest S) {communityId : ℤ} (hscope : scope = some communityId) :
    KeepsGuarded scope before (startGenerationFromCrm (K := K) registry req communityId) := by
  have hpreview : KeepsGuarded scope before (previewCrmData (K := K) req.idSharingOperation
      req.periodStart req.periodEnd communityId) :=
    keepsGuarded_of_aside
      (calls_previewCrmData (fun _ _ => trivial) (fun _ _ _ _ => trivial) _ _ _ _)
  unfold startGenerationFromCrm
  split
  · exact keeps_raise
  split
  · exact keeps_raise
  refine hpreview.bind fun summary => ?_
  split
  · exact keeps_raise
  refine guarded_createThen ?_ fun id => ?_
  · exact hscope
  · exact Calls.bind (calls_ask trivial) fun _ => Calls.bind (calls_ask trivial) fun _ =>
      calls_queueGeneration (fun _ => afterCreation_of_ofQueueing) _ trivial

/-! ### Deleting -/

theorem keepsGuarded_stageAudit (entry : AuditLogInput) :
    KeepsGuarded (K := K) (S := S) scope before (stageAudit entry) :=
  keepsGuarded_of_aside (calls_ask trivial)

/-- A generation that a scoped query finds is in scope, and it is the only one with its id. -/
theorem inScope_of_select (h : db.Sound) {id : ℤ} {row : GenerationModel S}
    (hselect : ((db.generation id).filter fun row => scope == some row.idCommunity) = some row) :
    db.InScope scope id := by
  obtain ⟨hgeneration, hscope⟩ := Option.filter_eq_some_iff.mp hselect
  intro entry hentry hid
  rw [h.eq_of_generation hgeneration hentry hid]
  exact eq_of_beq hscope

/-- The query of a deletion finds rows of the community only. -/
theorem keepsGuarded_deleteGeneration (id : ℤ) :
    KeepsGuarded (K := K) (S := S) scope before (deleteGeneration id scope) := by
  intro db h
  have hselect : (select id scope : Pipeline S K _).Ends execPipeline db fun _ out db' =>
      Guarded scope before db' ∧
        ∀ row, out = .ok (some row) → db'.InScope scope id := by
    refine ends_callExcept fun choice r db' hexec => ?_
    refine ⟨guarded_execPipeline (o := .select id scope) h trivial hexec, fun row hrow => ?_⟩
    rcases orFail_cases hexec with hok | ⟨rfl, e, rfl⟩
    · cases hok
      exact inScope_of_select h.sound (Except.ok.inj hrow)
    · cases hrow
  refine hselect.bind (fun _ found db₁ hfound => ?_) fun _ e db₁ hfound => hfound.1
  cases found with
  | none => exact ends_raise hfound.1
  | some row =>
    obtain ⟨hguarded, hid⟩ := hfound
    have hflush : (flushDelete id : Pipeline S K Unit).Ends execPipeline db₁ fun _ _ db' =>
        Guarded scope before db' :=
      ends_callExcept fun choice r db' hexec =>
        guarded_execPipeline (o := .flushDelete id) hguarded (hid row rfl) hexec
    refine hflush.bind (fun _ _ db₂ hguarded₂ => ?_) fun _ _ _ hguarded₂ => hguarded₂
    have hcommit : (commit .delete : Pipeline S K Unit).Ends execPipeline db₂ fun _ _ db' =>
        Guarded scope before db' :=
      ends_callExcept fun choice r db' hexec =>
        guarded_execPipeline (o := .commit .delete) hguarded₂ trivial hexec
    refine hcommit.bind (fun _ _ db₃ hguarded₃ => ?_) fun _ _ _ hguarded₃ => hguarded₃
    exact (keepsGuarded_stageAudit _).bind (fun _ => keeps_ret) db₃ hguarded₃

/-- A key that a scoped query finds is in scope, and it is the only one with its id. -/
theorem scope_of_find (h : db.Sound) {idKey : ℕ} {key : Row ℤ ℤ (KeyColumns K)}
    (hfind : (db.keys.roots.find? fun row => row.id == idKey && scope == some row.owner) = some key)
    {row : Row ℤ ℤ (KeyColumns K)} (hrow : row ∈ db.keys.roots) (hid : row.id = idKey) :
    scope = some row.owner := by
  have htest := List.find?_some hfind
  rw [Bool.and_eq_true, beq_iff_eq, beq_iff_eq] at htest
  have heq := List.inj_on_of_nodup_map h.descends.roots_nodup hrow
    (List.mem_of_find?_eq_some hfind) (hid.trans htest.1.symm)
  rw [heq]
  exact htest.2

/-- The query of a key's deletion finds keys of the community only. -/
theorem keepsGuarded_deleteKey (idKey : ℕ) :
    KeepsGuarded (K := K) (S := S) scope before (deleteKey idKey scope) := by
  intro db h
  have hselect : (selectKey idKey scope : Pipeline S K _).Ends execPipeline db fun _ out db' =>
      db' = db ∧ ∀ key, out = .ok (some key) →
        ∀ row ∈ db.keys.roots, row.id = idKey → scope = some row.owner := by
    refine ends_callExcept fun choice r db' hexec => ?_
    obtain ⟨rfl, ⟨arrangement, rfl⟩ | ⟨e, rfl⟩⟩ := orArranged_cases hexec
    · refine ⟨rfl, fun key hkey row hrow hid => ?_⟩
      obtain ⟨root, hfind, -⟩ := Option.map_eq_some_iff.mp (Except.ok.inj hkey)
      exact scope_of_find h.sound hfind hrow hid
    · exact ⟨rfl, fun key hkey => by cases hkey⟩
  refine hselect.bind (fun _ found db₁ hfound => ?_) fun _ e db₁ hfound => ?_
  · obtain ⟨rfl, hscope⟩ := hfound
    cases found with
    | none => exact ends_raise h
    | some key =>
      have hflush : (flushDeleteKey idKey : Pipeline S K Unit).Ends execPipeline db₁
          fun _ _ db' => db' = db₁ :=
        ends_callExcept fun choice r db' hexec => by
          rcases orFail_cases hexec with hok | ⟨rfl, -⟩
          · cases hok
            rfl
          · rfl
      refine hflush.bind (fun _ _ db₂ heq => ?_) fun _ _ _ heq => by rw [heq]; exact h
      subst heq
      have hcommit : (commit (.deleteKey idKey) : Pipeline S K Unit).Ends execPipeline db₂
          fun _ _ db' => Guarded scope before db' :=
        ends_callExcept fun choice r db' hexec =>
          guarded_execPipeline (o := .commit (.deleteKey idKey)) h (hscope key rfl) hexec
      refine hcommit.bind (fun _ _ db₃ hguarded₃ => ?_) fun _ _ _ hguarded₃ => hguarded₃
      exact (keepsGuarded_stageAudit _).bind (fun _ => keeps_ret) db₃ hguarded₃
  · rw [hfound.1]
    exact h

/-! ### Requests -/

section Requests

variable {text : TextRules}

/-- What a request keeps. -/
abbrev RequestKeeps (text : TextRules) (scope : Option ℤ) (before : Databases S K)
    (p : RequestProgram S K α) : Prop :=
  p.Keeps (exec text) (Guarded scope before)

/-- The queries of requests. -/
def Query : RequestOp S K → Prop
  | .countGenerations .. | .pageGenerations .. | .countKeys .. | .pageKeys .. | .selectTree .. =>
      True
  | _ => False

/-- A query changes nothing. -/
theorem exec_query {o : RequestOp S K} (ho : Query o) {choice : Choice S K}
    {r : RequestResp S K o} (h : exec text o choice db = some (r, db')) : db' = db := by
  cases o with
  | countGenerations | pageGenerations | countKeys | pageKeys =>
    rcases orFail_cases h with hok | ⟨rfl, -⟩
    · cases hok
      rfl
    · rfl
  | selectTree idKey scope => exact (orArranged_cases h).1
  | _ => exact ho.elim

theorem requestKeeps_query {o : RequestOp S K} (ho : Query o)
    {next : RequestResp S K o → Except Exc α} :
    RequestKeeps text scope before (.call o fun r => Program.ofExcept (next r)) :=
  fun db h => ends_callExcept fun choice r db' hexec => by
    rw [exec_query ho hexec]
    exact h

/-- Copying a key to the CRM copies its communities. -/
theorem ownedBy_toAllocationKeyCrm {key : KeyTree K} {community : ℤ}
    (h : key.OwnedBy community) : (toAllocationKeyCrm key).OwnedBy community := by
  refine ⟨h.root, fun node hnode => ?_, fun node hnode leaf hleaf => ?_⟩
  · obtain ⟨iteration, hiteration, rfl⟩ := List.mem_map.mp hnode
    exact h.node iteration hiteration
  · obtain ⟨iteration, hiteration, rfl⟩ := List.mem_map.mp hnode
    obtain ⟨consumer, hconsumer, rfl⟩ := List.mem_map.mp hleaf
    exact h.leaf iteration hiteration consumer hconsumer

/-- The tables of the CRM after a key was written, before the commit. -/
theorem guarded_flushCrmKey (h : Guarded scope before db) {key : CrmTree K} {community : ℤ}
    (howned : key.OwnedBy community) (hscope : scope = some community) {choice : Choice S K}
    {r : RequestResp S K (.flushCrmKey key)}
    (hexec : exec text (.flushCrmKey key) choice db = some (r, db')) :
    Guarded scope before db' := by
  rcases orFail_cases hexec with hok | ⟨rfl, -⟩
  · cases hok
    have houtside : before.crm.restrict (foreign scope) = db.crm.restrict (foreign scope) :=
      congrArg (fun rows => rows.2.2) h.outside.symm
    refine ⟨sound_flushCrmKey h.sound key, h.outside, h.flushed, ?_⟩
    rintro rows hrows
    cases hrows
    rw [houtside]
    exact Forest.restrict_add_other howned (foreign_eq_false.mpr hscope)
  · exact h

theorem guarded_rollbackCrm (h : Guarded scope before db) : Guarded scope before db.rollbackCrm :=
  ⟨sound_rollbackCrm h.sound, h.outside, h.flushed, fun _ hrows => nomatch hrows⟩

theorem guarded_commitCrm (h : Guarded scope before db) : Guarded scope before db.commitCrm := by
  have hkept := h.outside
  refine ⟨sound_commitCrm h.sound, ?_, h.flushed, fun _ hrows => nomatch hrows⟩
  simp only [Databases.outside, Prod.mk.injEq] at hkept ⊢
  refine ⟨hkept.1, hkept.2.1, ?_⟩
  cases hstaged : db.stagedCrm with
  | none =>
    rw [Databases.commitCrm, hstaged]
    exact hkept.2.2
  | some rows =>
    rw [Databases.commitCrm, hstaged]
    exact h.staged rows hstaged

/-- What is saved to the CRM has the community of the request. -/
theorem requestKeeps_saveKey (idKey : ℕ) :
    RequestKeeps (S := S) (K := K) text scope before (saveKey idKey scope) := by
  intro db h
  have hselect : (selectTree idKey scope : RequestProgram S K _).Ends (exec text) db
      fun _ out db' => db' = db ∧ ∀ key, out = .ok (some key) →
        ∃ community, key.OwnedBy community ∧ scope = some community := by
    refine ends_callExcept fun choice r db' hexec => ?_
    refine ⟨exec_query (o := .selectTree idKey scope) trivial hexec, fun key hkey => ?_⟩
    obtain ⟨-, ⟨arrangement, rfl⟩ | ⟨e, rfl⟩⟩ := orArranged_cases hexec
    · obtain ⟨root, hfind, rfl⟩ := Option.map_eq_some_iff.mp (Except.ok.inj hkey)
      have htest := List.find?_some hfind
      rw [Bool.and_eq_true, beq_iff_eq, beq_iff_eq] at htest
      have hroot := List.mem_of_find?_eq_some hfind
      exact ⟨root.owner, h.sound.descends.ownedBy_read arrangement hroot, htest.2⟩
    · cases hkey
  refine hselect.bind (fun _ found db₁ hfound => ?_) fun _ e db₁ hfound => ?_
  · obtain ⟨rfl, hkey⟩ := hfound
    cases found with
    | none => exact ends_raise h
    | some key =>
      obtain ⟨community, howned, hscope⟩ := hkey key rfl
      have hflush : (saveAllocationKey (toAllocationKeyCrm key) : RequestProgram S K ℕ).Ends
          (exec text) db₁ fun _ _ db' => Guarded scope before db' :=
        ends_callExcept fun choice r db' hexec =>
          guarded_flushCrmKey h (ownedBy_toAllocationKeyCrm howned) hscope hexec
      refine hflush.bind (fun _ id db₂ h₂ => ?_) fun _ _ _ h₂ => h₂
      have hcommit : (commitCrmSession : RequestProgram S K Unit).Ends (exec text) db₂
          fun _ _ db' => Guarded scope before db' :=
        ends_callExcept fun choice r db' hexec => by
          rcases orLost_cases hexec with rfl | ⟨rfl, -⟩
          · exact guarded_commitCrm h₂
          · exact guarded_rollbackCrm h₂
      refine hcommit.bind (fun _ _ db₃ h₃ => ?_) fun _ _ _ h₃ => h₃
      exact (keeps_ofPipeline (keepsGuarded_stageAudit _)).bind (fun _ => keeps_ret) db₃ h₃
  · rw [hfound.1]
    exact h

variable [Zero K] [Add K] (registry : String → Option (AlgorithmMetadata S))

/-- Every request stays within its community. -/
theorem requestKeeps_handle (request : Request S) :
    RequestKeeps text scope before (request.handle (K := K) text registry scope) := by
  have hlists : ∀ (page pageSize : ℤ) (total : ℕ), RequestKeeps (S := S) text scope before
      (Program.ofExcept (pagination page pageSize total)) := fun _ _ _ => keeps_ofExcept
  cases request with
  | getGenerations page pageSize query =>
    refine Keeps.bind (keeps_ofExcept.bind fun status => ?_) fun rows => ?_
    · refine (requestKeeps_query (by trivial)).bind fun total => ?_
      exact (requestKeeps_query (by trivial)).bind fun rows => keeps_ret
    · exact (hlists _ _ _).bind fun _ => keeps_ret
  | getAllocationKeys id page pageSize query =>
    refine Keeps.bind ?_ fun rows => ?_
    · refine (requestKeeps_query (by trivial)).bind fun total => ?_
      exact (requestKeeps_query (by trivial)).bind fun rows => keeps_ret
    · exact (hlists _ _ _).bind fun _ => keeps_ret
  | getAllocationKey idKey =>
    refine (requestKeeps_query (by trivial)).bind fun key => ?_
    cases key with
    | none => exact keeps_raise
    | some key => exact keeps_ret
  | startGeneration req file =>
    cases scope with
    | none => exact keeps_raise
    | some communityId =>
      exact (keeps_ofPipeline (keepsGuarded_startGeneration registry req file rfl)).bind
        fun _ => keeps_ret
  | startGenerationFromCrm req =>
    cases scope with
    | none => exact keeps_raise
    | some communityId =>
      exact (keeps_ofPipeline (keepsGuarded_startGenerationFromCrm registry req rfl)).bind
        fun _ => keeps_ret
  | saveKey idKey => exact (requestKeeps_saveKey idKey).bind fun _ => keeps_ret
  | deleteGeneration id =>
    exact (keeps_ofPipeline (keepsGuarded_deleteGeneration id)).bind fun _ => keeps_ret
  | deleteKey idKey =>
    exact (keeps_ofPipeline (keepsGuarded_deleteKey idKey)).bind fun _ => keeps_ret

/-- **A request leaves the rows of the other communities as they are.** -/
theorem requestKeeps_serve (request : Request S) :
    RequestKeeps text scope before (request.serve (K := K) text registry scope) := by
  have hdefault : RequestKeeps text scope before
      (withDefaultError request.defaultError (request.handle (K := K) text registry scope)) := by
    refine (requestKeeps_handle registry request).tryCatch fun e => ?_
    split <;> exact keeps_raise
  have hclose : RequestKeeps (S := S) (K := K) text scope before (ask (.pipeline .close)) :=
    keeps_ofPipeline (keepsGuarded_of_aside (calls_ask (o := Op.close) trivial))
  have hcloseCrm : RequestKeeps (S := S) (K := K) text scope before (ask .closeCrm) :=
    fun db h => ends_ask fun choice r db' hexec => by
      cases hexec
      exact guarded_rollbackCrm h
  exact hdefault.attempt.bind fun _ => hclose.bind fun _ => hcloseCrm.bind fun _ => keeps_ofExcept

end Requests

end AllocationKeys.Tenants
