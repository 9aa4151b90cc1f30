import AllocationKeys.Tenants.Requests

/-!
# What the databases always satisfy

`Databases.Sound`: ids are unique, and every key, iteration and consumer row has the community of
what it belongs to, up to its generation. Most accesses keep it because they leave the tables as
they are or take rows away (`sound_execPipeline`); the insert of a generation and the rows of a
result are followed through the programs that commit them.
-/

namespace AllocationKeys.Tenants

open Algorithms Generation Program

variable {S : Services} {K α : Type} {db db' : Databases S K}

/-- Ids are unique and fresh, and rows carry the community of what they belong to. -/
structure Databases.Sound (db : Databases S K) : Prop where
  ids_nodup : (db.generations.map Prod.fst).Nodup
  ids_lt : ∀ entry ∈ db.generations, entry.1 < db.nextGenerationId
  descends : db.keys.Descends
  fresh : db.keys.Fresh
  key_generation : ∀ key ∈ db.keys.roots, ∃ entry ∈ db.generations,
    entry.1 = key.parent ∧ entry.2.idCommunity = key.owner
  crm_fresh : db.crm.Fresh
  staged_fresh : ∀ rows ∈ db.stagedCrm, ({ db.crm with toRows := rows } : CrmForest K).Fresh

/-- The tables, and what the CRM session has written, are the same. -/
structure Databases.Same (db db' : Databases S K) : Prop where
  generations : db'.generations = db.generations
  nextGenerationId : db'.nextGenerationId = db.nextGenerationId
  keys : db'.keys = db.keys
  crm : db'.crm = db.crm
  stagedCrm : db'.stagedCrm = db.stagedCrm

theorem Databases.Same.refl (db : Databases S K) : db.Same db := ⟨rfl, rfl, rfl, rfl, rfl⟩

/-- A change of other tables keeps the databases sound. -/
theorem Databases.Same.sound (h : db.Same db') (hsound : db.Sound) : db'.Sound := by
  obtain ⟨hgenerations, hnext, hkeys, hcrm, hstaged⟩ := h
  constructor
  · rw [hgenerations]; exact hsound.ids_nodup
  · rw [hgenerations, hnext]; exact hsound.ids_lt
  · rw [hkeys]; exact hsound.descends
  · rw [hkeys]; exact hsound.fresh
  · rw [hkeys, hgenerations]; exact hsound.key_generation
  · rw [hcrm]; exact hsound.crm_fresh
  · rw [hstaged, hcrm]; exact hsound.staged_fresh

/-! ### Generations -/

theorem mem_of_generation {id : ℤ} {row : GenerationModel S} (h : db.generation id = some row) :
    (id, row) ∈ db.generations := by
  obtain ⟨entry, hfind, rfl⟩ := Option.map_eq_some_iff.mp h
  have hid := List.find?_some hfind
  rw [beq_iff_eq] at hid
  rw [← hid]
  exact List.mem_of_find?_eq_some hfind

/-- The only row with its id. -/
theorem Databases.Sound.eq_of_generation (h : db.Sound) {id : ℤ} {row : GenerationModel S}
    (hrow : db.generation id = some row) {entry : ℤ × GenerationModel S}
    (hentry : entry ∈ db.generations) (hid : entry.1 = id) : entry.2 = row := by
  have heq := List.inj_on_of_nodup_map h.ids_nodup hentry (mem_of_generation hrow) hid
  rw [heq]

section Settle

variable (id : ℤ) (status : GenerationStatus) (errorMessage : Option String)
  (entry : ℤ × GenerationModel S)

@[simp] theorem settleEntry_fst :
    (Databases.settleEntry id status errorMessage entry).1 = entry.1 := by
  unfold Databases.settleEntry
  split <;> rfl

@[simp] theorem settleEntry_idCommunity :
    (Databases.settleEntry id status errorMessage entry).2.idCommunity = entry.2.idCommunity := by
  unfold Databases.settleEntry
  split <;> rfl

/-- The outcome of a generation is no change of another. -/
theorem settleEntry_of_ne {id : ℤ} {entry : ℤ × GenerationModel S} (h : entry.1 ≠ id) :
    Databases.settleEntry id status errorMessage entry = entry := if_neg h

end Settle

/-! ### What a commit keeps -/

/-- An outcome keeps the databases sound. -/
theorem sound_settle (h : db.Sound) (id : ℤ) (status : GenerationStatus)
    (errorMessage : Option String) : (db.settle id status errorMessage).Sound where
  ids_nodup := by
    have hids : (db.settle id status errorMessage).generations.map Prod.fst =
        db.generations.map Prod.fst := by
      rw [Databases.settle, List.map_map]
      exact List.map_congr_left fun entry _ => settleEntry_fst id status errorMessage entry
    rw [hids]
    exact h.ids_nodup
  ids_lt entry hentry := by
    obtain ⟨old, hold, rfl⟩ := List.mem_map.mp hentry
    rw [settleEntry_fst]
    exact h.ids_lt old hold
  descends := h.descends
  fresh := h.fresh
  key_generation key hkey := by
    obtain ⟨old, hold, hid, hcommunity⟩ := h.key_generation key hkey
    exact ⟨_, List.mem_map_of_mem hold, by rw [settleEntry_fst, hid],
      by rw [settleEntry_idCommunity, hcommunity]⟩
  crm_fresh := h.crm_fresh
  staged_fresh := h.staged_fresh

/-- Removing rows frees no id. -/
theorem fresh_remove {P O κ ι γ : Type} {forest : Forest P O κ ι γ} (h : forest.Fresh)
    (gone : Row P O κ → Bool) :
    ({ forest with toRows := forest.toRows.remove gone } : Forest P O κ ι γ).Fresh where
  root root hroot := h.root root (List.mem_filter.mp hroot).1
  node node hnode := h.node node (List.mem_filter.mp hnode).1
  leaf leaf hleaf := h.leaf leaf (List.mem_filter.mp hleaf).1

/-- Deleting a generation with its keys keeps the databases sound. -/
theorem sound_delete (h : db.Sound) (id : ℤ) : (db.apply id .delete).Sound where
  ids_nodup := h.ids_nodup.sublist (List.filter_sublist.map _)
  ids_lt entry hentry := h.ids_lt entry (List.mem_filter.mp hentry).1
  descends := h.descends.remove _
  fresh := fresh_remove h.fresh _
  key_generation key hkey := by
    obtain ⟨hmem, hkept⟩ := List.mem_filter.mp hkey
    obtain ⟨entry, hentry, hid, hcommunity⟩ := h.key_generation key hmem
    refine ⟨entry, List.mem_filter.mpr ⟨hentry, ?_⟩, hid, hcommunity⟩
    rw [hid]
    simpa using hkept
  crm_fresh := h.crm_fresh
  staged_fresh := h.staged_fresh

/-- Deleting a key keeps the databases sound. -/
theorem sound_deleteKey (h : db.Sound) (id : ℤ) (idKey : ℕ) :
    (db.apply id (.deleteKey idKey)).Sound where
  ids_nodup := h.ids_nodup
  ids_lt := h.ids_lt
  descends := h.descends.remove _
  fresh := fresh_remove h.fresh _
  key_generation key hkey := h.key_generation key (List.mem_filter.mp hkey).1
  crm_fresh := h.crm_fresh
  staged_fresh := h.staged_fresh

/-- A new generation under an id that was never given keeps the databases sound. -/
theorem sound_insert (h : db.Sound) {id : ℤ} (hnew : ∀ entry ∈ db.generations, entry.1 ≠ id)
    (hlt : id < db.nextGenerationId) (row : GenerationModel S) :
    (db.apply id (.insert row)).Sound where
  ids_nodup := by
    show ((db.generations ++ [(id, row)]).map Prod.fst).Nodup
    rw [List.map_append, List.nodup_append']
    refine ⟨h.ids_nodup, by simp, ?_⟩
    rintro id' hold hnew'
    obtain ⟨entry, hentry, rfl⟩ := List.mem_map.mp hold
    exact hnew entry hentry (by simpa using hnew')
  ids_lt entry hentry := by
    rcases List.mem_append.mp hentry with hold | hnew'
    · exact h.ids_lt entry hold
    · rw [List.mem_singleton.mp hnew']
      exact hlt
  descends := h.descends
  fresh := h.fresh
  key_generation key hkey := by
    obtain ⟨entry, hentry, hid, hcommunity⟩ := h.key_generation key hkey
    exact ⟨entry, List.mem_append_left _ hentry, hid, hcommunity⟩
  crm_fresh := h.crm_fresh
  staged_fresh := h.staged_fresh

/-- The rows of a result, which have the community of the generation. -/
theorem sound_addKeys {id community : ℤ} (keys : List (AllocationKeyGeneratedModel K))
    (hkeys : ∀ key ∈ keys, key.idGeneration = id ∧ (keyTree key).OwnedBy community) :
    ∀ {db : Databases S K}, db.Sound →
      (∃ entry ∈ db.generations, entry.1 = id ∧ entry.2.idCommunity = community) →
      ({ db with keys := keys.foldl (fun forest key => forest.add (keyTree key)) db.keys } :
        Databases S K).Sound := by
  induction keys with
  | nil => exact fun h _ => h
  | cons key keys ih =>
    intro db h hentry
    obtain ⟨hid, howned⟩ := hkeys key List.mem_cons_self
    have hadded : ({ db with keys := db.keys.add (keyTree key) } : Databases S K).Sound :=
      { ids_nodup := h.ids_nodup
        ids_lt := h.ids_lt
        descends := Forest.descends_add h.descends h.fresh howned
        fresh := h.fresh.add _
        key_generation := by
          intro row hrow
          rw [Forest.add_roots] at hrow
          rcases List.mem_append.mp hrow with hold | hnew
          · exact h.key_generation row hold
          · rw [List.mem_singleton.mp hnew]
            obtain ⟨entry, hmem, hid', hcommunity⟩ := hentry
            exact ⟨entry, hmem, hid'.trans hid.symm, hcommunity.trans howned.root.symm⟩
        crm_fresh := h.crm_fresh
        staged_fresh := h.staged_fresh }
    exact ih (fun k hk => hkeys k (List.mem_cons_of_mem _ hk)) hadded hentry

/-! ### The CRM session of a request -/

theorem sound_rollbackCrm (h : db.Sound) : db.rollbackCrm.Sound :=
  ⟨h.ids_nodup, h.ids_lt, h.descends, h.fresh, h.key_generation, h.crm_fresh,
    fun _ hrows => nomatch hrows⟩

/-- A key written to the CRM gets ids that were never given. -/
theorem sound_flushCrmKey (h : db.Sound) (key : CrmTree K) : (db.flushCrmKey key).Sound := by
  have hroot := Forest.nextRoot_le_add db.crm key
  have hnode := Forest.nextNode_le_add db.crm key
  have hadded := h.crm_fresh.add key
  refine ⟨h.ids_nodup, h.ids_lt, h.descends, h.fresh, h.key_generation, ?_, ?_⟩
  · refine ⟨fun root hmem => ?_, fun node hmem => ?_, fun leaf hmem => ?_⟩
    · exact Nat.lt_of_lt_of_le (h.crm_fresh.root root hmem) hroot
    · obtain ⟨hid, hparent⟩ := h.crm_fresh.node node hmem
      exact ⟨Nat.lt_of_lt_of_le hid hnode, Nat.lt_of_lt_of_le hparent hroot⟩
    · exact Nat.lt_of_lt_of_le (h.crm_fresh.leaf leaf hmem) hnode
  · rintro rows hrows
    cases hrows
    exact ⟨hadded.root, hadded.node, hadded.leaf⟩

theorem sound_commitCrm (h : db.Sound) : db.commitCrm.Sound := by
  refine ⟨h.ids_nodup, h.ids_lt, h.descends, h.fresh, h.key_generation, ?_,
    fun _ hrows => nomatch hrows⟩
  cases hstaged : db.stagedCrm with
  | none =>
    rw [Databases.commitCrm, hstaged]
    exact h.crm_fresh
  | some rows =>
    rw [Databases.commitCrm, hstaged]
    exact h.staged_fresh rows hstaged

/-! ### What an access keeps -/

/-- The accesses that leave the tables as they are. -/
def Leaves : Op S K → Prop
  | .flushInsert _ => False
  | .commit _ => False
  | _ => True

/-- A call that leaves the tables alone. -/
theorem same_execPipeline {o : Op S K} (ho : Leaves o) {choice : Choice S K} {r : Resp S K o}
    (h : execPipeline o choice db = some (r, db')) : db.Same db' := by
  cases o with
  | flushInsert row => exact ho.elim
  | commit write => exact ho.elim
  | get id | flushDeleteKey id | select id scope | ack | nak delay | flushDelete id =>
    rcases orFail_cases h with hok | ⟨rfl, -⟩
    · cases hok
      exact ⟨rfl, rfl, rfl, rfl, rfl⟩
    · exact .refl _
  | selectKey id scope =>
    obtain ⟨rfl, -⟩ := orArranged_cases h
    exact .refl _
  | updateWherePending id status errorMessage | flushUpdate id =>
    rcases orFail_cases h with hok | ⟨rfl, -⟩
    · repeat' split at hok
      all_goals cases hok
      all_goals exact ⟨rfl, rfl, rfl, rfl, rfl⟩
    · exact .refl _
  | close | addMetric metric => cases h; exact ⟨rfl, rfl, rfl, rfl, rfl⟩
  | commitCrm staged | upload key content | publish subject data =>
    rcases orLost_cases h with rfl | ⟨rfl, -⟩ <;> exact ⟨rfl, rfl, rfl, rfl, rfl⟩
  | stageAudit entry | sharingOperationExists c id | summarize c id start stop
  | fetchRows c id start stop | delete key | emit event | solve algorithm inputs rawData =>
    cases choice <;> cases h <;> exact ⟨rfl, rfl, rfl, rfl, rfl⟩
  | download key =>
    simp only [execPipeline] at h
    repeat' split at h
    all_goals cases h
    all_goals exact .refl _

/-- The accesses that keep the databases sound whatever the state. -/
def Plain : Op S K → Prop
  | .commit (.insert _) => False
  | .commit (.outcome ..) => False
  | _ => True

theorem same_stagedAudits (db : Databases S K) (staged : List AuditLogInput) :
    db.Same { db with stagedAudits := staged } := ⟨rfl, rfl, rfl, rfl, rfl⟩

theorem same_flushed (db : Databases S K) (flushed : Option ℤ) :
    db.Same { db with flushed := flushed } := ⟨rfl, rfl, rfl, rfl, rfl⟩

theorem sound_flushInsert (h : db.Sound) (flushed : Option ℤ) :
    ({ db with nextGenerationId := db.nextGenerationId + 1, flushed := flushed } :
      Databases S K).Sound where
  ids_nodup := h.ids_nodup
  ids_lt entry hentry := by
    have hlt := h.ids_lt entry hentry
    show entry.1 < db.nextGenerationId + 1
    omega
  descends := h.descends
  fresh := h.fresh
  key_generation := h.key_generation
  crm_fresh := h.crm_fresh
  staged_fresh := h.staged_fresh

/-- A commit makes a write to the flushed row visible, or a deletion of a key. -/
theorem commit_cases (db : Databases S K) (write : Write S K) : db.commit write = db ∨
    ∃ id, (db.flushed = some id ∨ ∃ idKey, write = .deleteKey idKey) ∧
      db.commit write = { db.apply id write with flushed := none } := by
  cases write with
  | deleteKey idKey => exact Or.inr ⟨0, Or.inr ⟨idKey, rfl⟩, rfl⟩
  | insert row | outcome status errorMessage keys | save status errorMessage | delete =>
    cases hflushed : db.flushed with
    | none => exact Or.inl (by simp only [Databases.commit, hflushed])
    | some id => exact Or.inr ⟨id, Or.inl rfl, by simp only [Databases.commit, hflushed]⟩

/-- A plain commit keeps the databases sound. -/
theorem sound_commit (h : db.Sound) {write : Write S K} (hplain : Plain (.commit write)) :
    (db.commit write).Sound := by
  have hdone : ∀ id, ({ db.apply id write with flushed := none } : Databases S K).Sound := by
    intro id
    refine (same_flushed (db.apply id write) none).sound ?_
    cases write with
    | insert row => exact hplain.elim
    | outcome status errorMessage keys => exact hplain.elim
    | save status errorMessage => exact sound_settle h id status errorMessage
    | delete => exact sound_delete h id
    | deleteKey idKey => exact sound_deleteKey h id idKey
  rcases commit_cases db write with heq | ⟨id, -, heq⟩
  · rwa [heq]
  · rw [heq]
    exact hdone id

/-- A plain call keeps the databases sound. -/
theorem sound_execPipeline {o : Op S K} (ho : Plain o) {choice : Choice S K} {r : Resp S K o}
    (h : execPipeline o choice db = some (r, db')) (hsound : db.Sound) : db'.Sound := by
  cases o with
  | flushInsert row =>
    rcases orFail_cases h with hok | ⟨rfl, -⟩
    · cases hok
      exact sound_flushInsert hsound _
    · exact hsound
  | commit write =>
    rcases orLost_cases h with rfl | ⟨rfl, -⟩
    · exact sound_commit hsound ho
    · exact (same_flushed db none).sound hsound
  | _ => exact (same_execPipeline (by trivial) h).sound hsound

/-! ### The worker -/

/-- What every program of the worker keeps. -/
abbrev KeepsSound (p : Pipeline S K α) : Prop := p.Keeps execPipeline Databases.Sound

/-- So does a program of plain calls. -/
theorem keepsSound_of_plain {p : Pipeline S K α} (h : p.Calls Plain) : KeepsSound p :=
  h.keeps fun _ ho _ _ _ _ hexec hsound => sound_execPipeline ho hexec hsound

/-- Closing the session drops what is not committed. -/
theorem keepsSound_withLocalSession {body : Pipeline S K α} (h : KeepsSound body) :
    KeepsSound (withLocalSession body) :=
  h.attempt.bind fun _ =>
    (keepsSound_of_plain (calls_ask (o := Op.close) trivial)).bind fun _ => keeps_ofExcept

theorem keepsSound_logAudit (entry : AuditLogInput) :
    KeepsSound (K := K) (S := S) (logAudit entry) :=
  keepsSound_of_plain <| Calls.bind (calls_ask trivial) fun _ => calls_call trivial

/-- The commit of a result: the rows have the community of the row that was claimed. -/
theorem ends_commitOutcome {id : ℤ} {row : GenerationModel S} (hsound : db.Sound)
    (hrow : db.generation id = some row) (hflushed : db.flushed = some id)
    (status : GenerationStatus) (errorMessage : Option String)
    {keys : List (AllocationKeyGeneratedModel K)}
    (hkeys : ∀ key ∈ keys, key.idGeneration = id ∧ (keyTree key).OwnedBy row.idCommunity) :
    (commit (.outcome status errorMessage keys) : Pipeline S K Unit).Ends execPipeline db
      fun _ _ db' => db'.Sound := by
  refine ends_callExcept fun choice r db' hexec => ?_
  rcases orLost_cases hexec with rfl | ⟨rfl, -⟩
  · show (db.commit (.outcome status errorMessage keys)).Sound
    simp only [Databases.commit, hflushed]
    refine (same_flushed (db.apply id (.outcome status errorMessage keys)) none).sound ?_
    refine sound_addKeys keys hkeys (sound_settle hsound id status errorMessage) ?_
    exact ⟨_, List.mem_map_of_mem (mem_of_generation hrow), by simp, by simp⟩
  · exact (same_flushed db none).sound hsound

/-- The rows of a result get the community of the row that was claimed. -/
theorem keepsSound_claimOutcome (id : ℤ) (status : GenerationStatus)
    (errorMessage : Option String)
    {keyRows : GenerationModel S → List (AllocationKeyGeneratedModel K)}
    (hkeys : ∀ row, ∀ key ∈ keyRows row,
      key.idGeneration = id ∧ (keyTree key).OwnedBy row.idCommunity) :
    KeepsSound (claimOutcome id status errorMessage keyRows) := by
  refine keepsSound_withLocalSession fun db hsound => ?_
  -- `get` reads the row and leaves the databases
  have hget : (get id : Pipeline S K _).Ends execPipeline db fun _ out db' =>
      db' = db ∧ ∀ found, out = .ok found → found = db.generation id := by
    refine ends_callExcept fun choice r db' hexec => ?_
    rcases orFail_cases hexec with hok | ⟨rfl, e, rfl⟩
    · cases hok
      exact ⟨rfl, fun found hfound => by cases hfound; rfl⟩
    · exact ⟨rfl, fun found hfound => by cases hfound⟩
  refine hget.bind (fun _ found db₁ h => ?_) fun _ e db₁ h => ?_
  · obtain ⟨rfl, hfound⟩ := h
    have hgeneration := hfound found rfl
    cases found with
    | none => exact ends_ret hsound
    | some row =>
      -- the update matches only a pending row, and the claimed row is the one that was read
      have hclaim : (updateWherePending id status errorMessage : Pipeline S K ℕ).Ends
          execPipeline db₁ fun _ out db' => db'.Sound ∧ db'.generations = db₁.generations ∧
            ∀ rowcount, out = .ok rowcount → rowcount ≠ 0 → db'.flushed = some id := by
        refine ends_callExcept fun choice r db' hexec => ?_
        have hsame := same_execPipeline (o := .updateWherePending id status errorMessage) trivial
          hexec
        refine ⟨hsame.sound hsound, hsame.generations, fun rowcount hout hne => ?_⟩
        rcases orFail_cases hexec with hok | ⟨rfl, e, rfl⟩
        · rw [← hgeneration] at hok
          dsimp only at hok
          by_cases hpending : row.status = .pending
          · rw [if_pos hpending] at hok
            cases hok
            rfl
          · rw [if_neg hpending] at hok
            cases hok
            cases hout
            exact absurd rfl hne
        · cases hout
      refine hclaim.bind (fun _ rowcount db₂ h => ?_) fun _ e db₂ h => h.1
      obtain ⟨hsound₂, hgenerations, hflushed⟩ := h
      -- no row was matched, so nothing is committed
      by_cases hzero : rowcount = 0
      · rw [if_pos hzero]
        exact ends_ret hsound₂
      · rw [if_neg hzero]
        have hrow : db₂.generation id = some row := by
          rw [Databases.generation, hgenerations]
          exact hgeneration.symm
        refine (ends_commitOutcome hsound₂ hrow (hflushed rowcount rfl hzero) status errorMessage
          (hkeys row)).bind (fun _ _ db₃ hsound₃ => ?_) fun _ _ _ hsound₃ => hsound₃
        exact keepsSound_of_plain
          (p := do addMetric (.generationsCompleted row.algorithmName status.text); pure (some row))
          (Calls.bind (calls_ask trivial) fun _ => trivial) db₃ hsound₃
  · rw [h.1]
    exact hsound

/-- A delivery that saves an outcome keeps the databases sound. -/
theorem keepsSound_saveOutcome (id : ℤ) (status : GenerationStatus) (errorMessage : Option String)
    {keyRows : GenerationModel S → List (AllocationKeyGeneratedModel K)}
    (hkeys : ∀ row, ∀ key ∈ keyRows row,
      key.idGeneration = id ∧ (keyTree key).OwnedBy row.idCommunity)
    (audit : GenerationModel S → AuditLogInput) :
    KeepsSound (saveOutcome id status errorMessage keyRows audit) := by
  refine (keepsSound_claimOutcome id status errorMessage hkeys).bind fun claimed => ?_
  cases claimed with
  | none => exact keeps_ret
  | some row =>
    refine (keepsSound_logAudit _).bind fun _ => ?_
    exact keepsSound_of_plain (calls_ask (o := Op.emit _) trivial)

/-- The rows of a result have the community they are made for. -/
theorem ownedBy_resultRows [Zero K] [Add K] (id community : ℤ) (result : AlgorithmResult K) :
    ∀ key ∈ resultRows id community result,
      key.idGeneration = id ∧ (keyTree key).OwnedBy community := by
  intro key hkey
  obtain ⟨source, -, rfl⟩ := List.mem_map.mp hkey
  refine ⟨rfl, ?_⟩
  simp only [keyTree, List.map_map]
  refine ⟨rfl, fun node hnode => ?_, fun node hnode leaf hleaf => ?_⟩
  · obtain ⟨iteration, -, rfl⟩ := List.mem_map.mp hnode
    rfl
  · obtain ⟨iteration, -, rfl⟩ := List.mem_map.mp hnode
    simp only [Function.comp_apply, List.map_map] at hleaf
    obtain ⟨consumer, -, rfl⟩ := List.mem_map.mp hleaf
    rfl

theorem keepsSound_saveFailure (id : ℤ) (errorMessage : String) :
    KeepsSound (S := S) (K := K) (saveFailure id errorMessage) :=
  keepsSound_saveOutcome id .failed _ (by simp) _

theorem keepsSound_failWith (id : ℤ) (errorMessage : String) (storageKey : Option String) :
    KeepsSound (S := S) (K := K) (failWith id errorMessage storageKey) :=
  (keepsSound_saveFailure id errorMessage).bind fun _ => keeps_ret

theorem keepsSound_loadFromFile (snapshot : GenerationSnapshot S) :
    KeepsSound (K := K) (loadFromFile snapshot) := by
  unfold loadFromFile
  split
  · rename_i storageKey fileName _ _
    have hdownload : KeepsSound (download storageKey : Pipeline S K S.Content) :=
      keepsSound_of_plain (calls_call trivial)
    refine hdownload.attempt.bind fun content => ?_
    split
    · exact (keepsSound_failWith _ _ _).map _
    · exact keeps_raise
    · exact keeps_raise
    · split
      · exact keeps_ret
      · exact (keepsSound_failWith _ _ _).map _
      · exact (keepsSound_failWith _ _ _).map _
  · exact (keepsSound_failWith _ _ _).map _

theorem keepsSound_loadFromCrm (snapshot : GenerationSnapshot S) :
    KeepsSound (K := K) (loadFromCrm snapshot) := by
  unfold loadFromCrm
  split
  · rename_i idSharingOperation periodStart periodEnd _ _ _
    have hsummarize : KeepsSound (K := K) (summarize snapshot.idCommunity idSharingOperation
        periodStart periodEnd) := keepsSound_of_plain (calls_call trivial)
    have hfetch : KeepsSound (K := K) (fetchRows snapshot.idCommunity idSharingOperation
        periodStart periodEnd) := keepsSound_of_plain (calls_call trivial)
    refine Keeps.bind (Keeps.attempt (hsummarize.bind fun summary => Keeps.bind ?_ fun rows => ?_))
      fun read => ?_
    · split
      · exact hfetch.map some
      · exact keeps_ret
    · exact keeps_ret
    · split
      · exact keeps_raise
      · exact (keepsSound_failWith _ _ _).map _
      · split
        · exact keeps_ret
        · exact (keepsSound_failWith _ _ _).map _
        · exact (keepsSound_failWith _ _ _).map _
  · exact (keepsSound_failWith _ _ _).map _

section Process

variable [Zero K] [Add K]

theorem keepsSound_saveSuccess (id : ℤ) (result : AlgorithmResult K) :
    KeepsSound (S := S) (saveSuccess id result) :=
  keepsSound_saveOutcome id .success none
    (fun row => ownedBy_resultRows id row.idCommunity result) _

/-- From the data to the stored result, the databases stay sound. -/
theorem keepsSound_solveAndSave (algorithm : String) (id : ℤ) (numDelivered : Option ℕ)
    (storageKey : Option String) (inputs : S.AlgoInput) (rawData : S.RawData) :
    KeepsSound (K := K) (solveAndSave algorithm id numDelivered storageKey inputs rawData) := by
  have hmetric : ∀ metric, KeepsSound (S := S) (K := K) (addMetric metric) :=
    fun metric => keepsSound_of_plain (calls_ask (o := Op.addMetric metric) trivial)
  have hsolve : KeepsSound (K := K) (runAlgorithm algorithm inputs rawData) := by
    refine Keeps.tryCatch (keepsSound_of_plain (calls_call trivial)) fun e => ?_
    split <;> exact keeps_raise
  refine hsolve.attempt.bind fun result => ?_
  split
  · refine (hmetric _).bind fun _ => ?_
    unfold afterSolverCrash
    split
    · exact keepsSound_failWith _ _ _
    · split
      · exact keeps_raise
      · exact keepsSound_failWith _ _ _
  · exact (hmetric _).bind fun _ => keepsSound_failWith _ _ _
  · refine (hmetric _).bind fun _ => (keepsSound_saveSuccess id _).attempt.bind fun saved => ?_
    split
    · exact keeps_raise
    · exact keeps_ret

/-- A whole delivery keeps the databases sound. -/
theorem keepsSound_process (metadata : AlgorithmMetadata S) (id : ℤ) (numDelivered : Option ℕ) :
    KeepsSound (K := K) (process metadata id numDelivered) := by
  have hsnapshot : KeepsSound (snapshotGeneration id : Pipeline S K _) :=
    keepsSound_withLocalSession <|
      keepsSound_of_plain (Calls.bind (calls_call trivial) fun _ => trivial)
  refine hsnapshot.bind fun snapshot => ?_
  split
  · exact keeps_ret
  rename_i snapshot
  by_cases hpending : snapshot.status ≠ .pending
  · rw [if_pos hpending]
    exact keeps_ret
  rw [if_neg hpending]
  split
  · exact keepsSound_failWith _ _ _
  have hload : KeepsSound (K := K) (loadRawData snapshot) := by
    unfold loadRawData
    split
    · exact keepsSound_loadFromCrm snapshot
    · exact keepsSound_loadFromFile snapshot
  refine hload.bind fun loaded => ?_
  split
  · exact keeps_ret
  dsimp only
  split
  · exact keepsSound_failWith _ _ _
  split
  · exact keepsSound_failWith _ _ _
  split
  · exact keepsSound_solveAndSave _ _ _ _ _ _
  · exact keepsSound_failWith _ _ _

/-- A delivery keeps the databases sound, whatever its message. -/
theorem keepsSound_handleMessage (metadata : AlgorithmMetadata S) (msg : Msg S) :
    KeepsSound (K := K) (handleMessage metadata msg) := by
  have hdone : ∀ metric, KeepsSound (S := S) (K := K) (do ack; addMetric metric) := fun metric =>
    keepsSound_of_plain (Calls.bind (calls_call trivial) fun _ => calls_ask (by trivial))
  unfold handleMessage
  split
  · exact hdone _
  split
  · exact hdone _
  refine (keepsSound_process metadata _ _).attempt.bind fun outcome => ?_
  split
  · exact keepsSound_of_plain (Calls.bind (calls_call trivial) fun _ => calls_ask (by trivial))
  · exact (keepsSound_saveFailure _ _).bind fun _ => hdone _
  · refine Keeps.bind (keepsSound_of_plain (calls_call trivial)) fun _ => ?_
    split
    · exact keepsSound_of_plain (calls_ask (o := Op.delete _) trivial)
    · exact keeps_ret

end Process

end AllocationKeys.Tenants
