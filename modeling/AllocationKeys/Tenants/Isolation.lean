import AllocationKeys.Tenants.Confined
import AllocationKeys.Lib.Mirror

/-!
# Two databases that agree on a community

A request in the scope of a community does the same on any two databases that have the same rows of
that community: it answers the same, and leaves the same rows of that community. The ids of the CRM
rows a request writes come from sequences that all communities share, so the CRM tables are compared
by their contents.
-/

namespace AllocationKeys.Tenants

open Algorithms Generation Program

variable {S : Services} {K α β : Type} {scope : Option ℤ} {db db₁ db₂ : Databases S K}

/-- A row of the community of the request. -/
def own (scope : Option ℤ) (community : ℤ) : Bool := scope == some community

theorem own_eq_true {community : ℤ} : own scope community = true ↔ scope = some community := by
  simp [own]

/-- The keys of the CRM that belong to the community. -/
def crmContents (scope : Option ℤ)
    (rows : Rows Unit ℤ CrmKeyColumns (CrmIterationColumns K) (ConsumerColumns K)) :
    List (CrmTree K) :=
  rows.contents.filter fun key => own scope key.owner

/-- The same rows of the community of a request. -/
structure SameRows (scope : Option ℤ) (db₁ db₂ : Databases S K) : Prop where
  generations : (db₁.generations.filter fun entry => own scope entry.2.idCommunity) =
    db₂.generations.filter fun entry => own scope entry.2.idCommunity
  keys : db₁.keys.restrict (own scope) = db₂.keys.restrict (own scope)
  crm : crmContents scope db₁.crm.toRows = crmContents scope db₂.crm.toRows

/-- What two runs of a request have in common. -/
structure Agree (scope : Option ℤ) (db₁ db₂ : Databases S K) : Prop extends
    SameRows scope db₁ db₂ where
  sound₁ : db₁.Sound
  sound₂ : db₂.Sound
  flushed : db₁.flushed = db₂.flushed
  staged : crmContents scope (db₁.stagedCrm.getD db₁.crm.toRows) =
    crmContents scope (db₂.stagedCrm.getD db₂.crm.toRows)

/-- Two runs that return the same. -/
abbrev SameAnswer (scope : Option ℤ) (a : α) (db₁ : Databases S K) (b : α) (db₂ : Databases S K) :
    Prop :=
  a = b ∧ Agree scope db₁ db₂

/-- The same outcome in both runs. -/
theorem alike_of_eq {x : Except Exc α} {Q : α → Databases S K → α → Databases S K → Prop}
    (hQ : ∀ a, x = .ok a → Q a db₁ a db₂) (hagree : Agree scope db₁ db₂) :
    Alike (Agree scope) Q x db₁ x db₂ := by
  cases x with
  | ok a => exact hQ a rfl
  | error e => exact ⟨rfl, hagree⟩

/-! ### Reading -/

/-- Databases that agree list the same generations. -/
theorem scopedGenerations_eq (h : Agree scope db₁ db₂) :
    db₁.scopedGenerations scope = db₂.scopedGenerations scope := h.generations

theorem scopedKeys_eq (h : Agree scope db₁ db₂) :
    db₁.scopedKeys scope = db₂.scopedKeys scope := congrArg Rows.roots h.keys

/-- The generation with an id, if it is in scope. -/
theorem generation_own (h : db.Sound) (id : ℤ) :
    ((db.generation id).filter fun row => scope == some row.idCommunity) =
      ((db.scopedGenerations scope).find? fun entry => entry.1 == id).map Prod.snd := by
  cases hscoped : (db.scopedGenerations scope).find? fun entry => entry.1 == id with
  | none =>
    rw [Option.map_none, Option.filter_eq_none_iff]
    intro row hrow hown
    have hmem : (id, row) ∈ db.scopedGenerations scope :=
      List.mem_filter.mpr ⟨mem_of_generation hrow, hown⟩
    exact absurd (List.find?_eq_none.mp hscoped _ hmem) (by simp)
  | some entry =>
    obtain ⟨hmem, hown⟩ := List.mem_filter.mp (List.mem_of_find?_eq_some hscoped)
    have hid := List.find?_some hscoped
    rw [beq_iff_eq] at hid
    cases hgeneration : db.generation id with
    | none =>
      rw [Databases.generation, Option.map_eq_none_iff, List.find?_eq_none] at hgeneration
      exact absurd (hgeneration entry hmem) (by simp [hid])
    | some row =>
      have heq := h.eq_of_generation hgeneration hmem hid
      rw [Option.map_some, heq, Option.filter_eq_some_iff]
      exact ⟨rfl, heq ▸ hown⟩

/-- They find the same generation. -/
theorem select_eq (h : Agree scope db₁ db₂) (id : ℤ) :
    ((db₁.generation id).filter fun row => scope == some row.idCommunity) =
      (db₂.generation id).filter fun row => scope == some row.idCommunity := by
  rw [generation_own h.sound₁, generation_own h.sound₂, scopedGenerations_eq h]

/-- They find the same key with the same children. -/
theorem tree_eq (h : Agree scope db₁ db₂) (arrangement : Arrangement) (idKey : ℕ) :
    (db₁.keys.roots.find? fun row => row.id == idKey && scope == some row.owner).map
        (db₁.keys.read arrangement) =
      (db₂.keys.roots.find? fun row => row.id == idKey && scope == some row.owner).map
        (db₂.keys.read arrangement) := by
  have hread : ∀ db : Databases S K, db.Sound →
      (db.keys.roots.find? fun row => row.id == idKey && own scope row.owner).map
          (db.keys.read arrangement) =
        ((db.keys.restrict (own scope)).roots.find? fun row => row.id == idKey).map
          ((db.keys.restrict (own scope)).read arrangement) :=
    fun db hdb => Rows.read_find hdb.descends arrangement fun row => row.id == idKey
  refine (hread db₁ h.sound₁).trans ?_
  rw [h.keys]
  exact (hread db₂ h.sound₂).symm

/-- A key has the same iterations in both. -/
theorem nodesOf_eq (h : Agree scope db₁ db₂) {row : Row ℤ ℤ (KeyColumns K)}
    (hrow : row ∈ db₁.scopedKeys scope) : db₁.keys.nodesOf row.id = db₂.keys.nodesOf row.id := by
  have hrow₂ : row ∈ db₂.scopedKeys scope := scopedKeys_eq h ▸ hrow
  obtain ⟨hmem₁, hscope⟩ := List.mem_filter.mp hrow
  obtain ⟨hmem₂, -⟩ := List.mem_filter.mp hrow₂
  have hown : own scope row.owner = true := hscope
  rw [← Rows.nodesOf_restrict h.sound₁.descends hmem₁ hown, h.keys,
    Rows.nodesOf_restrict h.sound₂.descends hmem₂ hown]

/-- A page has rows of the list only. -/
theorem mem_of_page {rows page' : List α} {offset limit : ℤ}
    (h : page offset limit rows = .ok page') {row : α} (hrow : row ∈ page') : row ∈ rows := by
  unfold page at h
  split at h
  · cases h
  split at h
  · cases h
  cases h
  exact List.mem_of_mem_drop (List.mem_of_mem_take hrow)

/-- A list has keys of the scope only. -/
theorem mem_of_listKeys {text : TextRules} {idGeneration : ℤ} {name : Option String}
    {order : List (OrderBy KeyColumn)} {rows : List (Row ℤ ℤ (KeyColumns K))}
    (h : db.listKeys text scope idGeneration name order = .ok rows)
    {row : Row ℤ ℤ (KeyColumns K)} (hrow : row ∈ rows) : row ∈ db.scopedKeys scope := by
  unfold Databases.listKeys at h
  split at h
  · cases h
  cases h
  exact (List.mem_filter.mp ((List.mergeSort_perm _ _).mem_iff.mp hrow)).1

/-! ### Accesses -/

/-- The environment makes the same of the call in both runs. -/
theorem orFail_alike {choice : Choice S K} {value₁ : Except Exc α} {value₂ : Except Exc β}
    {done₁ done₂ db₁' : Databases S K} {r₁ : Except Exc α}
    {Q : α → Databases S K → β → Databases S K → Prop}
    (h : orFail choice db₁ (some (value₁, done₁)) = some (r₁, db₁'))
    (hdone : Alike (Agree scope) Q value₁ done₁ value₂ done₂) (hagree : Agree scope db₁ db₂) :
    ∃ r₂ db₂', orFail choice db₂ (some (value₂, done₂)) = some (r₂, db₂') ∧
      Alike (Agree scope) Q r₁ db₁' r₂ db₂' := by
  cases choice with
  | ok => cases h; exact ⟨_, _, rfl, hdone⟩
  | fail detail => cases h; exact ⟨_, _, rfl, rfl, hagree⟩
  | _ => cases h

/-- It arranges the children alike. -/
theorem orArranged_alike {choice : Choice S K} {found₁ : Arrangement → α} {found₂ : Arrangement → β}
    {db₁' : Databases S K} {r₁ : Except Exc α} {Q : α → Databases S K → β → Databases S K → Prop}
    (h : orArranged choice db₁ found₁ = some (r₁, db₁'))
    (hfound : ∀ arrangement, Q (found₁ arrangement) db₁ (found₂ arrangement) db₂)
    (hagree : Agree scope db₁ db₂) :
    ∃ r₂ db₂', orArranged choice db₂ found₂ = some (r₂, db₂') ∧
      Alike (Agree scope) Q r₁ db₁' r₂ db₂' := by
  cases choice with
  | arranged arrangement => cases h; exact ⟨_, _, rfl, hfound arrangement⟩
  | fail detail => cases h; exact ⟨_, _, rfl, rfl, hagree⟩
  | _ => cases h

/-- It loses the same commits. -/
theorem orLost_alike {choice : Choice S K} {failed₁ failed₂ done₁ done₂ db₁' : Databases S K}
    {r₁ : Except Exc Unit} (h : orLost choice failed₁ done₁ = some (r₁, db₁'))
    (hdone : Agree scope done₁ done₂) (hfailed : Agree scope failed₁ failed₂) :
    ∃ r₂ db₂', orLost choice failed₂ done₂ = some (r₂, db₂') ∧
      Alike (Agree scope) (SameAnswer scope) r₁ db₁' r₂ db₂' := by
  cases choice with
  | ok => cases h; exact ⟨_, _, rfl, rfl, hdone⟩
  | fail detail => cases h; exact ⟨_, _, rfl, rfl, hfailed⟩
  | lost detail => cases h; exact ⟨_, _, rfl, rfl, hdone⟩
  | _ => cases h

/-- Two accesses that leave the tables as they are. -/
theorem Agree.of_same {db₁' db₂' : Databases S K} (h : Agree scope db₁ db₂) (h₁ : db₁.Same db₁')
    (h₂ : db₂.Same db₂') (hflushed : db₁'.flushed = db₂'.flushed) : Agree scope db₁' db₂' where
  generations := by rw [h₁.generations, h₂.generations, h.generations]
  keys := by rw [h₁.keys, h₂.keys, h.keys]
  crm := by rw [h₁.crm, h₂.crm, h.crm]
  sound₁ := h₁.sound h.sound₁
  sound₂ := h₂.sound h.sound₂
  flushed := hflushed
  staged := by rw [h₁.stagedCrm, h₁.crm, h₂.stagedCrm, h₂.crm, h.staged]

theorem Agree.setFlushed (h : Agree scope db₁ db₂) (flushed : Option ℤ) :
    Agree scope { db₁ with flushed := flushed } { db₂ with flushed := flushed } :=
  h.of_same (same_flushed db₁ flushed) (same_flushed db₂ flushed) rfl

/-- Staged entries are not rows. -/
theorem Agree.setStagedAudits (h : Agree scope db₁ db₂) (staged₁ staged₂ : List AuditLogInput) :
    Agree scope { db₁ with stagedAudits := staged₁ } { db₂ with stagedAudits := staged₂ } :=
  h.of_same (same_stagedAudits db₁ staged₁) (same_stagedAudits db₂ staged₂) h.flushed

/-- A rollback drops what neither run has committed. -/
theorem Agree.rollbackCrm (h : Agree scope db₁ db₂) :
    Agree scope db₁.rollbackCrm db₂.rollbackCrm where
  generations := h.generations
  keys := h.keys
  crm := h.crm
  sound₁ := sound_rollbackCrm h.sound₁
  sound₂ := sound_rollbackCrm h.sound₂
  flushed := h.flushed
  staged := h.crm

theorem Agree.commitCrm (h : Agree scope db₁ db₂) : Agree scope db₁.commitCrm db₂.commitCrm where
  generations := h.generations
  keys := h.keys
  crm := h.staged
  sound₁ := sound_commitCrm h.sound₁
  sound₂ := sound_commitCrm h.sound₂
  flushed := h.flushed
  staged := h.staged

/-- The same key is written to both, with other ids. -/
theorem Agree.flushCrmKey (h : Agree scope db₁ db₂) (key : CrmTree K) :
    Agree scope (db₁.flushCrmKey key) (db₂.flushCrmKey key) where
  generations := h.generations
  keys := h.keys
  crm := h.crm
  sound₁ := sound_flushCrmKey h.sound₁ key
  sound₂ := sound_flushCrmKey h.sound₂ key
  flushed := h.flushed
  staged := by
    show crmContents scope (db₁.crm.add key).toRows = crmContents scope (db₂.crm.add key).toRows
    rw [crmContents, crmContents, Forest.contents_add h.sound₁.crm_fresh,
      Forest.contents_add h.sound₂.crm_fresh, List.filter_append, List.filter_append]
    exact congrArg (· ++ _) h.crm

/-! ### Deleting -/

/-- What a scoped deletion of a generation leaves of the rows in scope. -/
theorem Agree.delete (h : Agree scope db₁ db₂) {id : ℤ} (h₁ : db₁.InScope scope id)
    (h₂ : db₂.InScope scope id) : Agree scope (db₁.apply id .delete) (db₂.apply id .delete) where
  generations := by
    have hcommute : ∀ db : Databases S K,
        ((db.apply id .delete).generations.filter fun entry => own scope entry.2.idCommunity) =
          (db.generations.filter fun entry => own scope entry.2.idCommunity).filter
            fun entry => entry.1 != id := by
      intro db
      rw [Databases.apply, List.filter_filter, List.filter_filter]
      exact List.filter_congr fun _ _ => Bool.and_comm _ _
    rw [hcommute, hcommute, h.generations]
  keys := by
    have hcommute : ∀ db : Databases S K, db.Sound → db.InScope scope id →
        (db.apply id .delete).keys.restrict (own scope) =
          (db.keys.restrict (own scope)).remove fun row => row.parent == id := by
      intro db hdb hscope
      refine Rows.restrict_remove hdb.descends fun key hkey hparent => ?_
      obtain ⟨entry, hentry, hid, hcommunity⟩ := hdb.key_generation key hkey
      rw [own_eq_true, ← hcommunity]
      exact hscope entry hentry (hid.trans (eq_of_beq hparent))
    rw [hcommute db₁ h.sound₁ h₁, hcommute db₂ h.sound₂ h₂, h.keys]
  crm := h.crm
  sound₁ := sound_delete h.sound₁ id
  sound₂ := sound_delete h.sound₂ id
  flushed := h.flushed
  staged := h.staged

/-- Deleting a key of the scope keeps the databases in agreement. -/
theorem Agree.deleteKey (h : Agree scope db₁ db₂) (id : ℤ) {idKey : ℕ}
    (h₁ : ∀ key ∈ db₁.keys.roots, key.id = idKey → scope = some key.owner)
    (h₂ : ∀ key ∈ db₂.keys.roots, key.id = idKey → scope = some key.owner) :
    Agree scope (db₁.apply id (.deleteKey idKey)) (db₂.apply id (.deleteKey idKey)) where
  generations := h.generations
  keys := by
    have hcommute : ∀ db : Databases S K, db.Sound →
        (∀ key ∈ db.keys.roots, key.id = idKey → scope = some key.owner) →
        (db.apply id (.deleteKey idKey)).keys.restrict (own scope) =
          (db.keys.restrict (own scope)).remove fun row => row.id == idKey := by
      intro db hdb hscope
      exact Rows.restrict_remove hdb.descends fun key hkey hid =>
        own_eq_true.mpr (hscope key hkey (eq_of_beq hid))
    rw [hcommute db₁ h.sound₁ h₁, hcommute db₂ h.sound₂ h₂, h.keys]
  crm := h.crm
  sound₁ := sound_deleteKey h.sound₁ id idKey
  sound₂ := sound_deleteKey h.sound₂ id idKey
  flushed := h.flushed
  staged := h.staged

/-! ### Two runs of the pipeline -/

/-- Two runs of a part of a request. -/
abbrev PipelineMirrors (scope : Option ℤ) (p : Pipeline S K α) (db₁ : Databases S K)
    (p' : Pipeline S K β) (db₂ : Databases S K) (Q : α → Databases S K → β → Databases S K → Prop) :
    Prop :=
  Mirrors execPipeline (Agree scope) p db₁ p' db₂ Q

theorem mirrors_stageAudit (h : Agree scope db₁ db₂) (entry₁ entry₂ : AuditLogInput) :
    PipelineMirrors scope (stageAudit entry₁) db₁ (stageAudit entry₂) db₂ (SameAnswer scope) := by
  refine mirrors_call fun choice r₁ db₁' hexec => ?_
  cases choice with
  | ok =>
    cases hexec
    exact ⟨_, _, rfl, mirrors_ret ⟨rfl, h.setStagedAudits _ _⟩⟩
  | fail detail =>
    cases hexec
    exact ⟨_, _, rfl, mirrors_ret ⟨rfl, h⟩⟩
  | _ => cases hexec

/-- A deletion finds, and deletes, the same in both runs. -/
theorem mirrors_deleteGeneration (h : Agree scope db₁ db₂) (id : ℤ) :
    PipelineMirrors scope (deleteGeneration id scope) db₁ (deleteGeneration id scope) db₂
      (SameAnswer scope) := by
  have hselect : PipelineMirrors scope (select id scope) db₁ (select id scope) db₂
      fun found t₁ found' t₂ => found = found' ∧ Agree scope t₁ t₂ ∧
        ∀ row, found = some row → t₁.InScope scope id ∧ t₂.InScope scope id := by
    refine mirrors_callExcept fun choice r₁ db₁' hexec => orFail_alike hexec ?_ h
    refine ⟨select_eq h id, h, fun row hrow => ⟨inScope_of_select h.sound₁ hrow, ?_⟩⟩
    exact inScope_of_select h.sound₂ (by rw [← select_eq h id]; exact hrow)
  refine hselect.bind ?_
  rintro found t₁ _ t₂ ⟨rfl, hagree, hscope⟩
  cases found with
  | none => exact mirrors_raise hagree
  | some row =>
    obtain ⟨hscope₁, hscope₂⟩ := hscope row rfl
    have hflush : PipelineMirrors scope (flushDelete id) t₁ (flushDelete id) t₂
        fun _ u₁ _ u₂ => u₁ = { t₁ with flushed := some id } ∧
          u₂ = { t₂ with flushed := some id } :=
      mirrors_callExcept fun choice r₁ db₁' hexec =>
        orFail_alike hexec ⟨rfl, rfl⟩ hagree
    refine hflush.bind ?_
    rintro _ _ _ _ ⟨rfl, rfl⟩
    have hcommit : PipelineMirrors scope (commit .delete) { t₁ with flushed := some id }
        (commit .delete) { t₂ with flushed := some id } (SameAnswer scope) := by
      refine mirrors_callExcept fun choice r₁ db₁' hexec => orLost_alike hexec ?_ ?_
      · exact ((hagree.setFlushed (some id)).delete hscope₁ hscope₂).setFlushed none
      · exact hagree.setFlushed none
    refine hcommit.bind ?_
    rintro _ u₁ _ u₂ ⟨-, hagree'⟩
    exact (mirrors_stageAudit hagree' _ _).bind fun _ _ _ _ hsame => mirrors_ret ⟨rfl, hsame.2⟩

/-- So does the deletion of a key. -/
theorem mirrors_deleteKey (h : Agree scope db₁ db₂) (idKey : ℕ) :
    PipelineMirrors scope (deleteKey idKey scope) db₁ (deleteKey idKey scope) db₂
      (SameAnswer scope) := by
  -- a key that is found is one of the community
  have hfound : ∀ db : Databases S K, db.Sound → ∀ arrangement key,
      ((db.keys.roots.find? fun row => row.id == idKey && scope == some row.owner).map
        fun row => keyModel (db.keys.read arrangement row)) = some key →
      ∀ row ∈ db.keys.roots, row.id = idKey → scope = some row.owner := by
    intro db hdb arrangement key hkey row hrow hid
    obtain ⟨root, hfind, -⟩ := Option.map_eq_some_iff.mp hkey
    exact scope_of_find hdb hfind hrow hid
  have hsame : ∀ arrangement,
      ((db₁.keys.roots.find? fun row => row.id == idKey && scope == some row.owner).map
        fun row => keyModel (db₁.keys.read arrangement row)) =
        (db₂.keys.roots.find? fun row => row.id == idKey && scope == some row.owner).map
          fun row => keyModel (db₂.keys.read arrangement row) := by
    intro arrangement
    have hmodel := congrArg (Option.map keyModel) (tree_eq h arrangement idKey)
    rwa [Option.map_map, Option.map_map] at hmodel
  have hselect : PipelineMirrors scope (selectKey idKey scope) db₁ (selectKey idKey scope) db₂
      fun found t₁ found' t₂ => found = found' ∧ Agree scope t₁ t₂ ∧ ∀ key, found = some key →
        (∀ row ∈ t₁.keys.roots, row.id = idKey → scope = some row.owner) ∧
          ∀ row ∈ t₂.keys.roots, row.id = idKey → scope = some row.owner := by
    refine mirrors_callExcept fun choice r₁ db₁' hexec =>
      orArranged_alike hexec (fun arrangement => ?_) h
    refine ⟨hsame arrangement, h, fun key hkey => ⟨hfound db₁ h.sound₁ arrangement key hkey, ?_⟩⟩
    exact hfound db₂ h.sound₂ arrangement key (by rw [← hsame]; exact hkey)
  refine hselect.bind ?_
  rintro found t₁ _ t₂ ⟨rfl, hagree, hscope⟩
  cases found with
  | none => exact mirrors_raise hagree
  | some key =>
    obtain ⟨hscope₁, hscope₂⟩ := hscope key rfl
    -- the same key goes in both
    have hflush : PipelineMirrors scope (flushDeleteKey idKey) t₁ (flushDeleteKey idKey) t₂
        fun _ u₁ _ u₂ => u₁ = t₁ ∧ u₂ = t₂ :=
      mirrors_callExcept fun choice r₁ db₁' hexec => orFail_alike hexec ⟨rfl, rfl⟩ hagree
    refine hflush.bind fun _ u₁ _ u₂ hsame' => ?_
    rw [hsame'.1, hsame'.2]
    have hcommit : PipelineMirrors scope (commit (.deleteKey idKey)) t₁
        (commit (.deleteKey idKey)) t₂ (SameAnswer scope) := by
      refine mirrors_callExcept fun choice r₁ db₁' hexec => orLost_alike hexec ?_ ?_
      · exact (hagree.deleteKey 0 hscope₁ hscope₂).setFlushed none
      · exact hagree.setFlushed none
    refine hcommit.bind ?_
    rintro _ u₁ _ u₂ ⟨-, hagree'⟩
    exact (mirrors_stageAudit hagree' _ _).bind fun _ _ _ _ hsame => mirrors_ret ⟨rfl, hsame.2⟩

/-! ### Two runs of a request -/

section Requests

variable {text : TextRules}

/-- What mirrors in a delivery mirrors in a request. -/
theorem mirrors_ofPipeline {R : Databases S K → Databases S K → Prop} {p : Pipeline S K α}
    {p' : Pipeline S K β} {Q : α → Databases S K → β → Databases S K → Prop}
    (h : Mirrors execPipeline R p db₁ p' db₂ Q) :
    Mirrors (exec text) R (ofPipeline p) db₁ (ofPipeline p') db₂ Q := by
  intro events₁ out₁ db₁' hrun
  obtain ⟨events₁', rfl, hrun'⟩ := performs_ofPipeline.mp hrun
  obtain ⟨events₂', out₂, db₂', hrun₂, hchoices, halike⟩ := h events₁' out₁ db₁' hrun'
  refine ⟨_, out₂, db₂', performs_ofPipeline.mpr ⟨events₂', rfl, hrun₂⟩, ?_, halike⟩
  rw [List.map_map, List.map_map]
  exact hchoices

/-- Two runs of a request. -/
abbrev RequestMirrors (text : TextRules) (scope : Option ℤ) (p : RequestProgram S K α)
    (db₁ : Databases S K) (p' : RequestProgram S K β) (db₂ : Databases S K)
    (Q : α → Databases S K → β → Databases S K → Prop) : Prop :=
  Mirrors (exec text) (Agree scope) p db₁ p' db₂ Q

/-- The read of a key answers alike. -/
theorem mirrors_selectTree (h : Agree scope db₁ db₂) (idKey : ℕ) :
    RequestMirrors text scope (selectTree idKey scope) db₁ (selectTree idKey scope) db₂
      (SameAnswer scope) :=
  mirrors_callExcept fun _ _ _ hexec =>
    orArranged_alike hexec (fun arrangement => ⟨tree_eq h arrangement idKey, h⟩) h

/-- A key is saved alike, under ids of its own. -/
theorem mirrors_saveKey (h : Agree scope db₁ db₂) (idKey : ℕ) :
    RequestMirrors text scope (saveKey idKey scope) db₁ (saveKey idKey scope) db₂
      (SameAnswer scope) := by
  refine (mirrors_selectTree h idKey).bind ?_
  rintro found t₁ _ t₂ ⟨rfl, hagree⟩
  cases found with
  | none => exact mirrors_raise hagree
  | some key =>
    -- the ids differ, and with them the audit entries
    have hflush : RequestMirrors text scope (saveAllocationKey (toAllocationKeyCrm key)) t₁
        (saveAllocationKey (toAllocationKeyCrm key)) t₂ fun _ u₁ _ u₂ => Agree scope u₁ u₂ :=
      mirrors_callExcept fun choice r₁ db₁' hexec =>
        orFail_alike hexec (hagree.flushCrmKey _) hagree
    refine hflush.bind fun id₁ u₁ id₂ u₂ hagree₂ => ?_
    have hcommit : RequestMirrors text scope commitCrmSession u₁ commitCrmSession u₂
        (SameAnswer scope) :=
      mirrors_callExcept fun choice r₁ db₁' hexec =>
        orLost_alike hexec hagree₂.commitCrm hagree₂.rollbackCrm
    refine hcommit.bind ?_
    rintro _ v₁ _ v₂ ⟨-, hagree₃⟩
    exact (mirrors_ofPipeline (mirrors_stageAudit hagree₃ _ _)).bind
      fun _ _ _ _ hsame => mirrors_ret ⟨rfl, hsame.2⟩

end Requests

end AllocationKeys.Tenants
