import AllocationKeys.Tenants.Isolation

/-!
# The same request on two databases

A request for a list, a key, a copy of a key to the CRM or a deletion answers the same on databases
that agree on its community (`mirrors_serve`). So does one that creates a generation, as far as the
sequence of the ids allows: the next id belongs to no community.
-/

namespace AllocationKeys.Tenants

open Algorithms Generation Program

variable {S : Services} {K α β : Type} {scope : Option ℤ} {db₁ db₂ : Databases S K}

/-! ### The generation of a request -/

/-- Two runs that have come as far in the sequence of ids, and write to one generation. -/
structure Aligned (scope : Option ℤ) (id next : ℤ) (db₁ db₂ : Databases S K) : Prop extends
    Agree scope db₁ db₂ where
  next₁ : db₁.nextGenerationId = next
  next₂ : db₂.nextGenerationId = next
  inScope₁ : db₁.InScope scope id
  inScope₂ : db₂.InScope scope id

variable {id next : ℤ}

/-- Nothing has the next id yet. -/
theorem Agree.aligned (h : Agree scope db₁ db₂)
    (hnext : db₁.nextGenerationId = db₂.nextGenerationId) :
    Aligned scope db₁.nextGenerationId db₁.nextGenerationId db₁ db₂ where
  toAgree := h
  next₁ := rfl
  next₂ := hnext.symm
  inScope₁ entry hentry hid := by
    have hlt := h.sound₁.ids_lt entry hentry
    omega
  inScope₂ entry hentry hid := by
    have hlt := h.sound₂.ids_lt entry hentry
    omega

/-- A row in scope is found by a scoped query as by its id. -/
theorem filter_of_inScope {db : Databases S K} (h : db.InScope scope id) :
    ((db.generation id).filter fun row => scope == some row.idCommunity) = db.generation id := by
  cases hgeneration : db.generation id with
  | none => rfl
  | some row =>
    have hscope := h (id, row) (mem_of_generation hgeneration) rfl
    rw [Option.filter_eq_some_iff]
    exact ⟨rfl, beq_iff_eq.mpr hscope⟩

/-- Aligned databases have the same row. -/
theorem generation_eq (h : Aligned scope id next db₁ db₂) :
    db₁.generation id = db₂.generation id := by
  rw [← filter_of_inScope h.inScope₁, ← filter_of_inScope h.inScope₂, select_eq h.toAgree]

/-- The same outcome keeps the databases in agreement. -/
theorem Agree.settle (h : Agree scope db₁ db₂) (id : ℤ) (status : GenerationStatus)
    (errorMessage : Option String) :
    Agree scope (db₁.settle id status errorMessage) (db₂.settle id status errorMessage) where
  generations := by
    have hcommute : ∀ db : Databases S K, ((db.settle id status errorMessage).generations.filter
        fun entry => own scope entry.2.idCommunity) =
          (db.generations.filter fun entry => own scope entry.2.idCommunity).map
            (Databases.settleEntry id status errorMessage) := by
      intro db
      rw [Databases.settle, List.filter_map]
      simp only [Function.comp_def, settleEntry_idCommunity]
    rw [hcommute, hcommute, h.generations]
  keys := h.keys
  crm := h.crm
  sound₁ := sound_settle h.sound₁ id status errorMessage
  sound₂ := sound_settle h.sound₂ id status errorMessage
  flushed := h.flushed
  staged := h.staged

/-- So does the commit of a status. -/
theorem Agree.commitSave (h : Agree scope db₁ db₂) (status : GenerationStatus)
    (errorMessage : Option String) :
    Agree scope (db₁.commit (.save status errorMessage))
      (db₂.commit (.save status errorMessage)) := by
  have hflushed := h.flushed
  cases hid : db₁.flushed with
  | none =>
    rw [hid] at hflushed
    simp only [Databases.commit, hid, ← hflushed]
    exact h
  | some id =>
    rw [hid] at hflushed
    simp only [Databases.commit, hid, ← hflushed]
    exact (h.settle id status errorMessage).setFlushed none

/-! ### Accesses -/

/-- The answers of an access to two databases that are aligned. -/
theorem answer_execPipeline (h : Aligned scope id next db₁ db₂) {o : Op S K}
    (ho : AfterCreation id o) {choice : Choice S K} {r : Resp S K o} {db₁' : Databases S K}
    (hexec : execPipeline o choice db₁ = some (r, db₁')) :
    ∃ db₂', execPipeline o choice db₂ = some (r, db₂') ∧
      (Leaves o → db₁'.flushed = db₂'.flushed) := by
  cases o with
  | get id' =>
    cases ho
    cases choice <;> cases hexec
    · exact ⟨db₂, by rw [generation_eq h]; rfl, fun _ => h.flushed⟩
    · exact ⟨db₂, rfl, fun _ => h.flushed⟩
  | flushUpdate id' =>
    cases ho
    have heq := generation_eq h
    cases hgeneration : db₂.generation id with
    | none =>
      rw [hgeneration] at heq
      simp only [execPipeline, heq, hgeneration] at hexec ⊢
      cases choice <;> cases hexec
      · exact ⟨db₂, rfl, fun _ => h.flushed⟩
      · exact ⟨db₂, rfl, fun _ => h.flushed⟩
    | some row =>
      rw [hgeneration] at heq
      simp only [execPipeline, heq, hgeneration] at hexec ⊢
      cases choice <;> cases hexec
      · exact ⟨_, rfl, fun _ => rfl⟩
      · exact ⟨db₂, rfl, fun _ => h.flushed⟩
  | updateWherePending | flushInsert | flushDelete | select | selectKey | download =>
    exact ho.elim
  | commit write => cases choice <;> cases hexec <;> exact ⟨_, rfl, fun hleaves => hleaves.elim⟩
  | close => cases hexec; exact ⟨_, rfl, fun _ => rfl⟩
  | addMetric metric => cases hexec; exact ⟨_, rfl, fun _ => h.flushed⟩
  | _ => cases choice <;> cases hexec <;> exact ⟨_, rfl, fun _ => h.flushed⟩

/-- A call after the creation does the same in both runs. -/
theorem aligned_execPipeline (h : Aligned scope id next db₁ db₂) {o : Op S K}
    (ho : AfterCreation id o) {choice : Choice S K} {r : Resp S K o} {db₁' : Databases S K}
    (hexec : execPipeline o choice db₁ = some (r, db₁')) :
    ∃ db₂', execPipeline o choice db₂ = some (r, db₂') ∧ Aligned scope id next db₁' db₂' := by
  obtain ⟨db₂', hexec₂, hflushed⟩ := answer_execPipeline h ho hexec
  have hin₁ := inScope_execPipeline ho hexec h.inScope₁
  have hin₂ := inScope_execPipeline ho hexec₂ h.inScope₂
  have hsame : Leaves o → Aligned scope id next db₁' db₂' := fun hleaves => by
    have h₁ := same_execPipeline hleaves hexec
    have h₂ := same_execPipeline hleaves hexec₂
    exact ⟨h.toAgree.of_same h₁ h₂ (hflushed hleaves), h₁.nextGenerationId.trans h.next₁,
      h₂.nextGenerationId.trans h.next₂, hin₁, hin₂⟩
  refine ⟨db₂', hexec₂, ?_⟩
  cases o with
  | commit write =>
    cases write with
    | save status errorMessage =>
      have hkept : ∀ db : Databases S K,
          (db.commit (.save status errorMessage)).nextGenerationId = db.nextGenerationId := by
        intro db
        rcases commit_cases db (.save status errorMessage) with heq | ⟨id', -, heq⟩ <;> rw [heq]
        rfl
      have hdone := h.toAgree.commitSave status errorMessage
      cases choice <;> cases hexec <;> cases hexec₂
      · exact ⟨hdone, (hkept _).trans h.next₁, (hkept _).trans h.next₂, hin₁, hin₂⟩
      · exact ⟨h.toAgree.setFlushed none, h.next₁, h.next₂, hin₁, hin₂⟩
      · exact ⟨hdone, (hkept _).trans h.next₁, (hkept _).trans h.next₂, hin₁, hin₂⟩
    | _ => exact ho.elim
  | flushInsert => exact ho.elim
  | _ => exact hsame trivial

/-! ### Creating a generation -/

/-- Two runs that are aligned on a generation. -/
abbrev AlignedMirrors (scope : Option ℤ) (id : ℤ) (p : Pipeline S K α) (db₁ : Databases S K)
    (p' : Pipeline S K β) (db₂ : Databases S K) (Q : α → Databases S K → β → Databases S K → Prop) :
    Prop :=
  Mirrors execPipeline (fun t₁ t₂ => ∃ next, Aligned scope id next t₁ t₂) p db₁ p' db₂ Q

/-- So does a program of such calls. -/
theorem mirrors_of_afterCreation {p : Pipeline S K α} (hp : p.Calls (AfterCreation id))
    (h : Aligned scope id next db₁ db₂) :
    AlignedMirrors scope id p db₁ p db₂ fun a t₁ b t₂ => a = b ∧ Aligned scope id next t₁ t₂ :=
  (hp.mirrors (fun _ ho _ _ _ _ _ haligned hexec => aligned_execPipeline haligned ho hexec)
    h).weaken (fun _ _ _ _ hsame => hsame) fun _ _ haligned => ⟨next, haligned⟩

/-- The same row is inserted into both. -/
theorem Agree.insert (h : Agree scope db₁ db₂) {id : ℤ} (row : GenerationModel S)
    (hlt₁ : id < db₁.nextGenerationId) (hnew₁ : ∀ entry ∈ db₁.generations, entry.1 ≠ id)
    (hlt₂ : id < db₂.nextGenerationId) (hnew₂ : ∀ entry ∈ db₂.generations, entry.1 ≠ id) :
    Agree scope (db₁.apply id (.insert row)) (db₂.apply id (.insert row)) where
  generations := by
    simp only [Databases.apply, List.filter_append]
    rw [h.generations]
  keys := h.keys
  crm := h.crm
  sound₁ := sound_insert h.sound₁ hnew₁ hlt₁ row
  sound₂ := sound_insert h.sound₂ hnew₂ hlt₂ row
  flushed := h.flushed
  staged := h.staged

/-- A row of the community is in scope. -/
theorem inScope_insert {db : Databases S K} {row : GenerationModel S}
    (hscope : scope = some row.idCommunity) (h : db.InScope scope id) :
    (db.apply id (.insert row)).InScope scope id := by
  intro entry hentry hid
  rcases List.mem_append.mp hentry with hold | hnew
  · exact h entry hold hid
  · rw [List.mem_singleton.mp hnew]
    exact hscope

/-- Both runs draw the same id, and insert the same row under it. -/
theorem mirrors_createGeneration {row : GenerationModel S} (hscope : scope = some row.idCommunity)
    (h : Aligned scope id id db₁ db₂) :
    AlignedMirrors scope id (createGeneration row) db₁ (createGeneration row) db₂
      fun a t₁ b t₂ => a = id ∧ b = id ∧ Aligned scope id (id + 1) t₁ t₂ := by
  obtain ⟨hagree, hnext₁, hnext₂, hin₁, hin₂⟩ := h
  -- the insertion draws the same id on both sides
  have hdrawn : Agree scope
      { db₁ with nextGenerationId := db₁.nextGenerationId + 1, flushed := some id }
      { db₂ with nextGenerationId := db₂.nextGenerationId + 1, flushed := some id } :=
    ⟨⟨hagree.generations, hagree.keys, hagree.crm⟩, sound_flushInsert hagree.sound₁ _,
      sound_flushInsert hagree.sound₂ _, rfl, hagree.staged⟩
  have hflush : AlignedMirrors scope id (flushInsert row) db₁ (flushInsert row) db₂
      fun a t₁ b t₂ => (a = id ∧ b = id) ∧
        t₁ = { db₁ with nextGenerationId := db₁.nextGenerationId + 1, flushed := some id } ∧
        t₂ = { db₂ with nextGenerationId := db₂.nextGenerationId + 1, flushed := some id } := by
    refine mirrors_callExcept fun choice r₁ db₁' hexec => ?_
    cases choice <;> cases hexec
    · exact ⟨_, _, rfl, ⟨hnext₁, hnext₂⟩, by rw [hnext₁], by rw [hnext₂]⟩
    · exact ⟨_, _, rfl, rfl, id, hagree, hnext₁, hnext₂, hin₁, hin₂⟩
  refine hflush.bind ?_
  rintro a t₁ b t₂ ⟨⟨ha, hb⟩, rfl, rfl⟩
  rw [ha, hb]
  have hsucc : ∀ db : Databases S K, db.nextGenerationId = id → db.nextGenerationId + 1 = id + 1 :=
    fun db hnext => by rw [hnext]
  -- a commit that fails uses the id up, and a commit that is done has the row
  have hfailed : Aligned scope id (id + 1)
      { db₁ with nextGenerationId := db₁.nextGenerationId + 1, flushed := none }
      { db₂ with nextGenerationId := db₂.nextGenerationId + 1, flushed := none } :=
    ⟨hdrawn.setFlushed none, hsucc db₁ hnext₁, hsucc db₂ hnext₂, hin₁, hin₂⟩
  -- the drawn id is one no row has
  have hnew : ∀ db : Databases S K, db.Sound → db.nextGenerationId = id →
      id < db.nextGenerationId + 1 ∧ ∀ entry ∈ db.generations, entry.1 ≠ id := by
    intro db hsound hnext
    refine ⟨by omega, fun entry hentry hid => ?_⟩
    have hlt := hsound.ids_lt entry hentry
    omega
  obtain ⟨hlt₁, hnew₁⟩ := hnew db₁ hagree.sound₁ hnext₁
  obtain ⟨hlt₂, hnew₂⟩ := hnew db₂ hagree.sound₂ hnext₂
  have hinserted := (hdrawn.insert row hlt₁ hnew₁ hlt₂ hnew₂).setFlushed none
  have hdone : Aligned scope id (id + 1)
      (Databases.commit { db₁ with
        nextGenerationId := db₁.nextGenerationId + 1, flushed := some id } (.insert row))
      (Databases.commit { db₂ with
        nextGenerationId := db₂.nextGenerationId + 1, flushed := some id } (.insert row)) :=
    ⟨hinserted, hsucc db₁ hnext₁, hsucc db₂ hnext₂, inScope_insert hscope hin₁,
      inScope_insert hscope hin₂⟩
  have hcommit : AlignedMirrors scope id (commit (.insert row))
      { db₁ with nextGenerationId := db₁.nextGenerationId + 1, flushed := some id }
      (commit (.insert row))
      { db₂ with nextGenerationId := db₂.nextGenerationId + 1, flushed := some id }
      fun _ t₁ _ t₂ => Aligned scope id (id + 1) t₁ t₂ := by
    refine mirrors_callExcept fun choice r₁ db₁' hexec => ?_
    cases choice <;> cases hexec
    · exact ⟨_, _, rfl, hdone⟩
    · exact ⟨_, _, rfl, rfl, id + 1, hfailed⟩
    · exact ⟨_, _, rfl, rfl, id + 1, hdone⟩
  exact hcommit.bind fun _ _ _ _ haligned => mirrors_ret ⟨rfl, rfl, haligned⟩

/-- Two runs of a part of a request that return the same, aligned on a generation. -/
abbrev SameAligned (scope : Option ℤ) (id : ℤ) (a : α) (db₁ : Databases S K) (b : α)
    (db₂ : Databases S K) : Prop :=
  a = b ∧ ∃ next, Aligned scope id next db₁ db₂

/-- From the upload on, both runs create the row under the same id. -/
theorem mirrors_uploadAndQueue (metadata : AlgorithmMetadata S) (req : GenerateRequest S)
    (file : UploadFile S) {communityId : ℤ} (hscope : scope = some communityId)
    (validatedInputs : S.AlgoInput) (fileName : String) (h : Aligned scope id id db₁ db₂) :
    AlignedMirrors scope id
      (uploadAndQueue metadata req file communityId validatedInputs fileName) db₁
      (uploadAndQueue metadata req file communityId validatedInputs fileName) db₂
      (SameAligned scope id) := by
  refine (mirrors_of_afterCreation (Calls.attempt (calls_call (by trivial))) h).bind ?_
  rintro uploaded t₁ _ t₂ ⟨rfl, haligned⟩
  cases uploaded with
  | error e => exact mirrors_raise ⟨id, haligned⟩
  | ok u =>
    refine (mirrors_createGeneration (by exact hscope) haligned).attempt.bind ?_
    rintro (e₁ | a) u₁ (e₂ | b) u₂ halike
    · obtain ⟨rfl, next, haligned₂⟩ := halike
      refine (mirrors_of_afterCreation (calls_ask (by trivial)) haligned₂).bind ?_
      rintro _ v₁ _ v₂ ⟨-, haligned₃⟩
      exact mirrors_raise ⟨next, haligned₃⟩
    · exact halike.elim
    · exact halike.elim
    · obtain ⟨rfl, rfl, haligned₂⟩ := halike
      refine (mirrors_of_afterCreation ?_ haligned₂).mono
        fun _ _ _ _ hsame => ⟨hsame.1, _, hsame.2⟩
      exact Calls.bind (calls_ask trivial) fun _ => Calls.bind (calls_ask trivial) fun _ =>
        calls_queueGeneration (fun _ => afterCreation_of_ofQueueing) _ (calls_ask trivial)

/-- A request with a file answers alike. -/
theorem mirrors_startGeneration (registry : String → Option (AlgorithmMetadata S))
    (req : GenerateRequest S) (file : UploadFile S) {communityId : ℤ}
    (hscope : scope = some communityId) (h : Aligned scope id id db₁ db₂) :
    AlignedMirrors scope id (startGeneration registry req file communityId) db₁
      (startGeneration registry req file communityId) db₂ (SameAligned scope id) := by
  unfold startGeneration
  split
  · exact mirrors_raise ⟨id, h⟩
  split
  · exact mirrors_raise ⟨id, h⟩
  dsimp only
  split
  · exact mirrors_raise ⟨id, h⟩
  split
  · exact mirrors_raise ⟨id, h⟩
  split
  · exact mirrors_raise ⟨id, h⟩
  exact mirrors_uploadAndQueue _ req file hscope _ _ h

/-- A request over CRM data answers alike. -/
theorem mirrors_startGenerationFromCrm (registry : String → Option (AlgorithmMetadata S))
    (req : GenerateFromCrmRequest S) {communityId : ℤ} (hscope : scope = some communityId)
    (h : Aligned scope id id db₁ db₂) :
    AlignedMirrors scope id (startGenerationFromCrm registry req communityId) db₁
      (startGenerationFromCrm registry req communityId) db₂ (SameAligned scope id) := by
  unfold startGenerationFromCrm
  split
  · exact mirrors_raise ⟨id, h⟩
  split
  · exact mirrors_raise ⟨id, h⟩
  refine (mirrors_of_afterCreation
    (calls_previewCrmData (fun _ _ => trivial) (fun _ _ _ _ => trivial) _ _ _ _) h).bind ?_
  rintro summary t₁ _ t₂ ⟨rfl, haligned⟩
  split
  · exact mirrors_raise ⟨id, haligned⟩
  refine (mirrors_createGeneration (by exact hscope) haligned).bind ?_
  rintro _ u₁ _ u₂ ⟨rfl, rfl, haligned₂⟩
  refine (mirrors_of_afterCreation ?_ haligned₂).mono fun _ _ _ _ hsame => ⟨hsame.1, _, hsame.2⟩
  exact Calls.bind (calls_ask trivial) fun _ => Calls.bind (calls_ask trivial) fun _ =>
    calls_queueGeneration (fun _ => afterCreation_of_ofQueueing) _ trivial

/-! ### Reading -/

section Requests

variable {text : TextRules}

/-- The list is that of the community. -/
theorem listGenerations_eq (h : Agree scope db₁ db₂) (filter : GenerationFilter)
    (order : List (OrderBy GenerationColumn)) :
    db₁.listGenerations text scope filter order = db₂.listGenerations text scope filter order := by
  rw [Databases.listGenerations, scopedGenerations_eq h]
  rfl

/-- The count answers alike. -/
theorem mirrors_countGenerations (h : Agree scope db₁ db₂) (filter : GenerationFilter)
    (order : List (OrderBy GenerationColumn)) :
    RequestMirrors text scope (countGenerations scope filter order) db₁
      (countGenerations scope filter order) db₂ (SameAnswer scope) := by
  exact mirrors_callExcept fun choice r₁ db₁' hexec =>
    orFail_alike hexec ⟨congrArg List.length (listGenerations_eq h filter order), h⟩ h

/-- The page answers alike. -/
theorem mirrors_pageGenerations (h : Agree scope db₁ db₂) (filter : GenerationFilter)
    (order : List (OrderBy GenerationColumn)) (offset limit : ℤ) :
    RequestMirrors text scope (pageGenerations scope filter order offset limit) db₁
      (pageGenerations scope filter order offset limit) db₂ (SameAnswer scope) := by
  refine mirrors_callExcept fun choice r₁ db₁' hexec => orFail_alike hexec ?_ h
  rw [listGenerations_eq h]
  exact alike_of_eq (fun rows _ => ⟨rfl, h⟩) h

/-- The list of keys is that of the community. -/
theorem listKeys_eq (h : Agree scope db₁ db₂) (id : ℤ) (name : Option String)
    (order : List (OrderBy KeyColumn)) :
    db₁.listKeys text scope id name order = db₂.listKeys text scope id name order := by
  rw [Databases.listKeys, scopedKeys_eq h]
  rfl

/-- The count of the keys answers alike. -/
theorem mirrors_countKeys (h : Agree scope db₁ db₂) (id : ℤ) (name : Option String)
    (order : List (OrderBy KeyColumn)) :
    RequestMirrors text scope (countKeys scope id name order) db₁
      (countKeys scope id name order) db₂ (SameAnswer scope) := by
  refine mirrors_callExcept fun choice r₁ db₁' hexec => orFail_alike hexec ?_ h
  rw [listKeys_eq h]
  exact alike_of_eq (fun rows _ => ⟨rfl, h⟩) h

/-- The keys of a page are in scope, so are their iterations. -/
theorem mirrors_pageKeys (h : Agree scope db₁ db₂) (id : ℤ) (name : Option String)
    (order : List (OrderBy KeyColumn)) (offset limit : ℤ) :
    RequestMirrors text scope (pageKeys scope id name order offset limit) db₁
      (pageKeys scope id name order offset limit) db₂ (SameAnswer scope) := by
  refine mirrors_callExcept fun choice r₁ db₁' hexec => orFail_alike hexec ?_ h
  rw [← listKeys_eq h]
  cases hlist : db₁.listKeys text scope id name order with
  | error e => exact ⟨rfl, h⟩
  | ok rows =>
    cases hpage : page offset limit rows with
    | error e =>
      show Alike _ _ (page offset limit rows >>= _) _ (page offset limit rows >>= _) _
      rw [hpage]
      exact ⟨rfl, h⟩
    | ok rows' =>
      show Alike _ _ (page offset limit rows >>= _) _ (page offset limit rows >>= _) _
      rw [hpage]
      refine ⟨List.map_congr_left fun row hrow => ?_, h⟩
      rw [nodesOf_eq h (mem_of_listKeys hlist (mem_of_page hpage hrow))]

/-- What asks nothing answers alike. -/
theorem mirrors_value (h : Agree scope db₁ db₂) (x : Except Exc α) :
    RequestMirrors text scope (Program.ofExcept x) db₁ (Program.ofExcept x) db₂
      (SameAnswer scope) :=
  mirrors_ofExcept (alike_of_eq (fun _ _ => ⟨rfl, h⟩) h)

/-- The list of generations answers alike. -/
theorem mirrors_getListGenerations (h : Agree scope db₁ db₂) (pageNumber pageSize : ℤ)
    (query : QueryParam) :
    RequestMirrors text scope (getListGenerations text scope pageNumber pageSize query) db₁
      (getListGenerations text scope pageNumber pageSize query) db₂ (SameAnswer scope) := by
  refine (mirrors_value h _).bind ?_
  rintro status t₁ _ t₂ ⟨rfl, h⟩
  refine (mirrors_countGenerations h _ _).bind ?_
  rintro total u₁ _ u₂ ⟨rfl, h⟩
  refine (mirrors_pageGenerations h _ _ _ _).bind ?_
  rintro rows v₁ _ v₂ ⟨rfl, h⟩
  exact mirrors_ret ⟨rfl, h⟩

/-- The list of keys answers alike. -/
theorem mirrors_getAllocationKeysList (h : Agree scope db₁ db₂) (id pageNumber pageSize : ℤ)
    (query : QueryParam) :
    RequestMirrors text scope (getAllocationKeysList scope id pageNumber pageSize query) db₁
      (getAllocationKeysList scope id pageNumber pageSize query) db₂ (SameAnswer scope) := by
  refine (mirrors_countKeys h _ _ _).bind ?_
  rintro total u₁ _ u₂ ⟨rfl, h⟩
  refine (mirrors_pageKeys h _ _ _ _ _).bind ?_
  rintro rows v₁ _ v₂ ⟨rfl, h⟩
  exact mirrors_ret ⟨rfl, h⟩

/-! ### Every request -/

/-- A request that draws an id from the sequence of the generations. -/
def Request.Creates : Request S → Prop
  | .startGeneration .. | .startGenerationFromCrm _ => True
  | _ => False

/-- The answer of a creation shows the id. -/
theorem mirrors_created {p : Pipeline S K ℤ}
    (hp : AlignedMirrors scope id p db₁ p db₂ (SameAligned scope id)) :
    RequestMirrors text scope
      (ofPipeline p >>= fun id => (pure (.generated id .pending) :
        RequestProgram S K (Response K))) db₁
      (ofPipeline p >>= fun id => pure (.generated id .pending)) db₂ (SameAnswer scope) := by
  have hsame : PipelineMirrors scope p db₁ p db₂ (SameAnswer scope) :=
    hp.weaken (fun _ _ _ _ h => ⟨h.1, h.2.choose_spec.toAgree⟩) fun _ _ h =>
      h.choose_spec.toAgree
  refine (mirrors_ofPipeline hsame).bind ?_
  rintro created t₁ _ t₂ ⟨rfl, h⟩
  exact mirrors_ret ⟨rfl, h⟩

/-- Answers that are alike are the same. -/
theorem eq_of_alike {out₁ out₂ : Except Exc α}
    (h : Alike (Agree scope) (SameAnswer scope) out₁ db₁ out₂ db₂) :
    out₁ = out₂ ∧ Agree scope db₁ db₂ := by
  cases out₁ <;> cases out₂
  · exact ⟨congrArg _ h.1, h.2⟩
  · exact h.elim
  · exact h.elim
  · exact ⟨congrArg _ h.1, h.2⟩

variable [Zero K] [Add K] (registry : String → Option (AlgorithmMetadata S))

/-- **Every request answers alike.** -/
theorem mirrors_handle (request : Request S) (h : Agree scope db₁ db₂)
    (hnext : scope.isSome → request.Creates → db₁.nextGenerationId = db₂.nextGenerationId) :
    RequestMirrors text scope (request.handle (K := K) text registry scope) db₁
      (request.handle text registry scope) db₂ (SameAnswer scope) := by
  cases request with
  | getGenerations pageNumber pageSize query =>
    refine (mirrors_getListGenerations h pageNumber pageSize query).bind ?_
    rintro ⟨rows, total⟩ t₁ _ t₂ ⟨rfl, h⟩
    refine (mirrors_value h _).bind ?_
    rintro pages u₁ _ u₂ ⟨rfl, h⟩
    exact mirrors_ret ⟨rfl, h⟩
  | getAllocationKeys id pageNumber pageSize query =>
    refine (mirrors_getAllocationKeysList h id pageNumber pageSize query).bind ?_
    rintro ⟨rows, total⟩ t₁ _ t₂ ⟨rfl, h⟩
    refine (mirrors_value h _).bind ?_
    rintro pages u₁ _ u₂ ⟨rfl, h⟩
    exact mirrors_ret ⟨rfl, h⟩
  | getAllocationKey idKey =>
    refine (mirrors_selectTree h idKey).bind ?_
    rintro key t₁ _ t₂ ⟨rfl, h⟩
    cases key with
    | none => exact mirrors_raise h
    | some key => exact mirrors_ret ⟨rfl, h⟩
  | startGeneration req file =>
    cases scope with
    | none => exact mirrors_raise h
    | some communityId =>
      exact mirrors_created
        (mirrors_startGeneration registry req file rfl (h.aligned (hnext rfl trivial)))
  | startGenerationFromCrm req =>
    cases scope with
    | none => exact mirrors_raise h
    | some communityId =>
      exact mirrors_created
        (mirrors_startGenerationFromCrm registry req rfl (h.aligned (hnext rfl trivial)))
  | saveKey idKey =>
    refine (mirrors_saveKey h idKey).bind ?_
    rintro _ t₁ _ t₂ ⟨-, h⟩
    exact mirrors_ret ⟨rfl, h⟩
  | deleteGeneration idGeneration =>
    refine (mirrors_ofPipeline (mirrors_deleteGeneration h idGeneration)).bind ?_
    rintro _ t₁ _ t₂ ⟨-, h⟩
    exact mirrors_ret ⟨rfl, h⟩
  | deleteKey idKey =>
    refine (mirrors_ofPipeline (mirrors_deleteKey h idKey)).bind ?_
    rintro _ t₁ _ t₂ ⟨-, h⟩
    exact mirrors_ret ⟨rfl, h⟩

/-- **A request answers the same on two databases that agree on its community, and leaves them
agreeing on it.** -/
theorem mirrors_serve (request : Request S) (h : Agree scope db₁ db₂)
    (hnext : scope.isSome → request.Creates → db₁.nextGenerationId = db₂.nextGenerationId) :
    RequestMirrors text scope (request.serve (K := K) text registry scope) db₁
      (request.serve text registry scope) db₂ (SameAnswer scope) := by
  have hdefault : RequestMirrors text scope
      (withDefaultError request.defaultError (request.handle (K := K) text registry scope)) db₁
      (withDefaultError request.defaultError (request.handle text registry scope)) db₂
      (SameAnswer scope) := by
    refine (mirrors_handle registry request h hnext).tryCatch fun e t₁ t₂ h => ?_
    split <;> exact mirrors_raise h
  refine hdefault.attempt.bind fun out₁ t₁ out₂ t₂ halike => ?_
  obtain ⟨rfl, h⟩ := eq_of_alike halike
  have hclose : RequestMirrors text scope (ask (.pipeline .close)) t₁ (ask (.pipeline .close)) t₂
      (SameAnswer scope) :=
    mirrors_call fun choice r₁ t₁' hexec => by
      cases hexec
      exact ⟨_, _, rfl, mirrors_ret ⟨rfl, h.setFlushed none⟩⟩
  refine hclose.bind ?_
  rintro _ u₁ _ u₂ ⟨-, h⟩
  have hcloseCrm : RequestMirrors text scope (ask .closeCrm) u₁ (ask .closeCrm) u₂
      (SameAnswer scope) :=
    mirrors_call fun choice r₁ u₁' hexec => by
      cases hexec
      exact ⟨_, _, rfl, mirrors_ret ⟨rfl, h.rollbackCrm⟩⟩
  refine hcloseCrm.bind ?_
  rintro _ v₁ _ v₂ ⟨-, h⟩
  exact mirrors_value h out₁

end Requests

end AllocationKeys.Tenants
