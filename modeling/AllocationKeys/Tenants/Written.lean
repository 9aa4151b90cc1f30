import AllocationKeys.Generation.Lifecycle
import AllocationKeys.Lib.Trees
import AllocationKeys.Tenants.Reachable

/-!
# Keys are written once

The keys of all communities are in the same three tables, to which outcomes add rows and from which
the user deletes them. `Written` is what this leaves of the tables: every key was there at the start
or has come with an outcome, and none has changed (`written_exec`). Only requests to save a key
write to the CRM (`crm_exec`).
-/

namespace AllocationKeys.Tenants

open Algorithms Generation Program

variable {S : Services} {K α : Type} {db db' before : Databases S K}

/-! ### The tables of keys -/

/-- Every tree was there at the start or is that of a key of `P`, and none has changed. -/
structure Written (P : AllocationKeyGeneratedModel K → Prop) (start forest : KeyForest K) :
    Prop where
  fresh : forest.Fresh
  numbered : forest.Numbered
  later : start.Later forest
  trees : ∀ entry ∈ forest.trees, entry ∈ start.trees ∨ ∃ key, P key ∧ entry.2 = keyTree key

section Tables

variable {P P' : AllocationKeyGeneratedModel K → Prop} {start forest : KeyForest K}

theorem Written.refl (hfresh : forest.Fresh) (hnumbered : forest.Numbered) :
    Written P forest forest :=
  ⟨hfresh, hnumbered, .refl forest, fun _ hentry => Or.inl hentry⟩

theorem Written.mono (h : Written P start forest) (himp : ∀ key, P key → P' key) :
    Written P' start forest where
  fresh := h.fresh
  numbered := h.numbered
  later := h.later
  trees entry hentry := (h.trees entry hentry).imp_right fun ⟨key, hkey, heq⟩ =>
    ⟨key, himp key hkey, heq⟩

theorem Written.add (h : Written P start forest) {key : AllocationKeyGeneratedModel K}
    (hkey : P key) : Written P start (forest.add (keyTree key)) where
  fresh := h.fresh.add _
  numbered := Forest.numbered_add h.numbered h.fresh _
  later := h.later.trans (Forest.later_add h.fresh _)
  trees entry hentry := by
    rw [Forest.trees_add h.fresh] at hentry
    rcases List.mem_append.mp hentry with hold | hnew
    · exact h.trees entry hold
    · rw [List.mem_singleton.mp hnew]
      exact Or.inr ⟨key, hkey, rfl⟩

theorem Written.addAll {keys : List (AllocationKeyGeneratedModel K)} (hkeys : ∀ key ∈ keys, P key)
    (h : Written P start forest) :
    Written P start (keys.foldl (fun forest key => forest.add (keyTree key)) forest) := by
  induction keys generalizing forest with
  | nil => exact h
  | cons key keys ih =>
    exact ih (fun k hk => hkeys k (List.mem_cons_of_mem _ hk))
      (h.add (hkeys key List.mem_cons_self))

theorem Written.remove (h : Written P start forest) (gone : Row ℤ ℤ (KeyColumns K) → Bool) :
    Written P start { forest with toRows := forest.toRows.remove gone } where
  fresh := fresh_remove h.fresh gone
  numbered := h.numbered.remove gone
  later := h.later.trans (Forest.later_remove h.numbered gone)
  trees entry hentry := h.trees entry ((Rows.trees_remove_sublist h.numbered gone).mem hentry)

/-- The rows the write adds are of `P`. -/
def Provides (P : AllocationKeyGeneratedModel K → Prop) : Write S K → Prop
  | .outcome _ _ keys => ∀ key ∈ keys, P key
  | _ => True

theorem written_commit (h : Written P start db.keys) {write : Write S K}
    (hwrite : Provides P write) : Written P start (db.commit write).keys := by
  rcases commit_cases db write with heq | ⟨id, -, heq⟩
  · rwa [heq]
  · rw [heq]
    cases write with
    | insert row => exact h
    | outcome status errorMessage keys => exact h.addAll hwrite
    | save status errorMessage => exact h
    | delete => exact h.remove _
    | deleteKey idKey => exact h.remove _

/-- An access changes the tables of keys by its commit alone. -/
theorem written_execPipeline {o : Op S K} (ho : o.Writes (Provides P)) {choice : Choice S K}
    {r : Resp S K o} (h : execPipeline o choice db = some (r, db'))
    (hwritten : Written P start db.keys) : Written P start db'.keys := by
  cases o with
  | commit write =>
    rcases orLost_cases h with rfl | ⟨rfl, -⟩
    · exact written_commit hwritten ho
    · exact hwritten
  | flushInsert row =>
    rcases orFail_cases h with hok | ⟨rfl, -⟩
    · cases hok
      exact hwritten
    · exact hwritten
  | _ =>
    rw [(same_execPipeline (by trivial) h).keys]
    exact hwritten

theorem Written.of_sound (P : AllocationKeyGeneratedModel K → Prop) (h : db.Sound) :
    Written P db.keys db.keys :=
  .refl h.fresh ⟨h.descends.roots_nodup, h.descends.nodes_nodup⟩

theorem written_calls {p : Pipeline S K α} (h : p.Calls (Op.Writes (Provides P)))
    {events : List (Op S K × Choice S K)} {out : Except Exc α}
    (hrun : p.Performs execPipeline db events out db') (hwritten : Written P start db.keys) :
    Written P start db'.keys :=
  h.keeps (I := fun db => Written P start db.keys)
    (fun _ ho _ _ _ _ hexec => written_execPipeline ho hexec) _ hwritten _ _ _ hrun

end Tables

/-- An access of the pipeline leaves the CRM, committed or not. -/
theorem crm_execPipeline {o : Op S K} {choice : Choice S K} {r : Resp S K o}
    (h : execPipeline o choice db = some (r, db')) :
    db'.crm = db.crm ∧ db'.stagedCrm = db.stagedCrm := by
  cases o with
  | commit write =>
    rcases orLost_cases h with rfl | ⟨rfl, -⟩
    · rcases commit_cases db write with heq | ⟨id, -, heq⟩
      · rw [heq]
        exact ⟨rfl, rfl⟩
      · rw [heq]
        cases write <;> exact ⟨rfl, rfl⟩
    · exact ⟨rfl, rfl⟩
  | flushInsert row =>
    rcases orFail_cases h with hok | ⟨rfl, -⟩
    · cases hok
      exact ⟨rfl, rfl⟩
    · exact ⟨rfl, rfl⟩
  | _ =>
    have hsame := same_execPipeline (by trivial) h
    exact ⟨hsame.crm, hsame.stagedCrm⟩

theorem crm_pipeline {p : Pipeline S K α} {events : List (Op S K × Choice S K)}
    {out : Except Exc α} (hrun : p.Performs execPipeline db.opened events out db') :
    db'.crm = db.crm :=
  (calls_true p).keeps (I := fun s : Databases S K => s.crm = db.crm)
    (fun _ _ _ _ _ _ hexec hs => (crm_execPipeline hexec).1.trans hs) db.opened rfl _ _ _ hrun

/-! ### The accesses of requests -/

/-- What a request may access, and whether it may write to the CRM. -/
def RequestOp.Within (may : Op S K → Prop) (saves : Prop) : RequestOp S K → Prop
  | .pipeline o => may o
  | .flushCrmKey _ => saves
  | _ => True

def Request.Saves : Request S → Prop
  | .saveKey _ => True
  | _ => False

theorem calls_ofPipeline {may : Op S K → Prop} {saves : Prop} {p : Pipeline S K α}
    (h : p.Calls may) : (ofPipeline p).Calls (RequestOp.Within may saves) := by
  induction p with
  | ret a => trivial
  | raise e => trivial
  | call o next ih => exact ⟨h.1, fun r => ih r (h.2 r)⟩

section Requests

variable {P : AllocationKeyGeneratedModel K → Prop} {saves : Prop} {text : TextRules}
  {start : KeyForest K}

/-- A request that creates a generation adds no rows of keys. -/
theorem writes_of_makes {role : Role S} (hrole : role.creates = true) {o : Op S K}
    (h : role.Makes o) : o.Writes (Provides P) := by
  cases o with
  | commit write =>
    cases write with
    | outcome status errorMessage keys =>
      cases role with
      | startGeneration req file communityId => exact h.elim
      | startGenerationFromCrm req communityId => exact h.elim
      | _ => cases hrole
    | _ => trivial
  | _ => trivial

theorem writes_of_ofDeletion {o : Op S K} (h : o.OfDeletion) : o.Writes (Provides P) := by
  cases o with
  | commit write =>
    cases write with
    | outcome status errorMessage keys => exact h.elim
    | _ => trivial
  | _ => trivial

theorem calls_saveKey (idKey : ℕ) (scope : Option ℤ) :
    (saveKey idKey scope : RequestProgram S K Unit).Calls
      (RequestOp.Within (Op.Writes (Provides P)) True) := by
  refine Calls.bind (calls_call trivial) fun key => ?_
  cases key with
  | none => trivial
  | some key =>
    refine Calls.bind (calls_call trivial) fun id => Calls.bind (calls_call trivial) fun _ => ?_
    exact (calls_ofPipeline (calls_ask (o := Op.stageAudit _) trivial)).bind fun _ => trivial

/-- No access changes a key. -/
theorem written_exec {o : RequestOp S K} (ho : o.Within (Op.Writes (Provides P)) saves)
    {choice : Choice S K} {r : RequestResp S K o} (h : exec text o choice db = some (r, db'))
    (hwritten : Written P start db.keys) : Written P start db'.keys := by
  cases o with
  | pipeline o => exact written_execPipeline ho h hwritten
  | flushCrmKey key =>
    rcases orFail_cases h with hok | ⟨rfl, -⟩
    · cases hok
      exact hwritten
    · exact hwritten
  | commitCrmSession => rcases orLost_cases h with rfl | ⟨rfl, -⟩ <;> exact hwritten
  | closeCrm =>
    cases h
    exact hwritten
  | _ =>
    rw [exec_query (by trivial) h]
    exact hwritten

/-- Without a key to save, the tables of the CRM stay as they are. -/
theorem crm_exec {may : Op S K → Prop} {o : RequestOp S K} (ho : o.Within may False)
    {choice : Choice S K} {r : RequestResp S K o} (h : exec text o choice db = some (r, db'))
    (hstaged : db.stagedCrm = none) : db'.crm = db.crm ∧ db'.stagedCrm = none := by
  cases o with
  | pipeline o =>
    obtain ⟨hcrm, hsame⟩ := crm_execPipeline h
    exact ⟨hcrm, hsame.trans hstaged⟩
  | flushCrmKey key => exact ho.elim
  | commitCrmSession =>
    rcases orLost_cases h with rfl | ⟨rfl, -⟩
    · refine ⟨?_, rfl⟩
      show { db.crm with toRows := db.stagedCrm.getD db.crm.toRows } = db.crm
      rw [hstaged]
      rfl
    · exact ⟨rfl, rfl⟩
  | closeCrm =>
    cases h
    exact ⟨rfl, rfl⟩
  | _ =>
    rw [exec_query (by trivial) h]
    exact ⟨rfl, hstaged⟩

variable [Zero K] [Add K] {registry : String → Option (AlgorithmMetadata S)}

theorem calls_handle (scope : Option ℤ) (request : Request S) :
    (request.handle (K := K) text registry scope).Calls
      (RequestOp.Within (Op.Writes (Provides P)) request.Saves) := by
  cases request with
  | getGenerations page pageSize query =>
    refine Calls.bind ?_ fun rows => Calls.bind (calls_ofExcept _) fun _ => trivial
    exact Calls.bind (calls_ofExcept _) fun status => Calls.bind (calls_call trivial) fun total =>
      Calls.bind (calls_call trivial) fun rows => trivial
  | getAllocationKeys id page pageSize query =>
    refine Calls.bind ?_ fun rows => Calls.bind (calls_ofExcept _) fun _ => trivial
    exact Calls.bind (calls_call trivial) fun total =>
      Calls.bind (calls_call trivial) fun rows => trivial
  | getAllocationKey idKey =>
    refine Calls.bind (calls_call trivial) fun key => ?_
    cases key <;> trivial
  | startGeneration req file =>
    cases scope with
    | none => trivial
    | some communityId =>
      have honce : (Generation.startGeneration registry req file communityId :
          Pipeline S K ℤ).CallsOnce (Role.startGeneration req file communityId).Makes Op.Inserts :=
        once_startGeneration rfl req file communityId
      exact (calls_ofPipeline (honce.calls.mono fun _ => writes_of_makes rfl)).bind fun _ => trivial
  | startGenerationFromCrm req =>
    cases scope with
    | none => trivial
    | some communityId =>
      have honce : (Generation.startGenerationFromCrm registry req communityId :
          Pipeline S K ℤ).CallsOnce (Role.startGenerationFromCrm req communityId).Makes
            Op.Inserts :=
        once_startGenerationFromCrm rfl req communityId
      exact (calls_ofPipeline (honce.calls.mono fun _ => writes_of_makes rfl)).bind fun _ => trivial
  | saveKey idKey => exact (calls_saveKey idKey scope).bind fun _ => trivial
  | deleteGeneration id =>
    exact (calls_ofPipeline ((calls_deleteGeneration id scope).mono
      fun _ => writes_of_ofDeletion)).bind fun _ => trivial
  | deleteKey idKey =>
    exact (calls_ofPipeline ((calls_deleteKey idKey scope).mono
      fun _ => writes_of_ofDeletion)).bind fun _ => trivial

theorem calls_serve (scope : Option ℤ) (request : Request S) :
    (request.serve (K := K) text registry scope).Calls
      (RequestOp.Within (Op.Writes (Provides P)) request.Saves) := by
  refine Calls.bind (Calls.attempt (Calls.tryCatch (calls_handle scope request) fun e => ?_))
    fun out => ?_
  · cases e <;> trivial
  · exact Calls.bind (calls_ask trivial) fun _ => Calls.bind (calls_ask trivial) fun _ =>
      calls_ofExcept _

end Requests

end AllocationKeys.Tenants
