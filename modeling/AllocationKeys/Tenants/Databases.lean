import AllocationKeys.Generation.System
import AllocationKeys.Lib.Forest
import AllocationKeys.Lib.Perform

/-!
# The databases of all communities

The local database (`generation`, and `allocation_key_generated`, `iteration_generated` and
`consumer_generated` as a forest), the tables of the CRM database that `save_key` writes, its
`audit_log`, and the uploaded objects.

A `RequestOp` is one access of a request: an access of the pipeline (`Op`), or one of the queries
that only requests make. `exec` is what it does, and `Choice` what the environment makes of it.
Requests follow one another here. What a session has written but not committed is kept apart:
`flushed`, the row the open local transaction has written to, whose values come with the commit;
`stagedCrm` and `stagedAudits`, what the CRM sessions of the request have written. Closing a session
drops what it has not committed.
-/

namespace AllocationKeys.Tenants

open Algorithms Generation Program

/-! ### Rows -/

section Columns

variable (K : Type)

/-- The columns of `allocation_key_generated`, next to its ids and its community. -/
structure KeyColumns where
  name : String
  description : String
  surplusTotal : K

structure IterationColumns where
  number : ℕ
  energyAllocatedPercentage : K
  surplusTotal : K

structure ConsumerColumns where
  name : String
  energyAllocatedPercentage : K

/-- The columns of `allocation_key`, of the CRM. -/
structure CrmKeyColumns where
  name : String
  description : String

structure CrmIterationColumns where
  number : ℕ
  energyAllocatedPercentage : K

abbrev KeyForest : Type := Forest ℤ ℤ (KeyColumns K) (IterationColumns K) (ConsumerColumns K)

/-- A generated key with its iterations and consumers, and the ids of all. -/
abbrev KeyTree : Type :=
  Tree ℤ ℤ (ℕ × KeyColumns K) (ℕ × IterationColumns K) (ℕ × ConsumerColumns K)

abbrev CrmForest : Type :=
  Forest Unit ℤ CrmKeyColumns (CrmIterationColumns K) (ConsumerColumns K)

/-- A key of the CRM before it has ids. -/
abbrev CrmTree : Type := Tree Unit ℤ CrmKeyColumns (CrmIterationColumns K) (ConsumerColumns K)

variable {K}

/-- The rows of a key and of what belongs to it. -/
def keyTree (key : AllocationKeyGeneratedModel K) :
    Tree ℤ ℤ (KeyColumns K) (IterationColumns K) (ConsumerColumns K) where
  parent := key.idGeneration
  owner := key.idCommunity
  columns := ⟨key.name, key.description, key.surplusTotal⟩
  nodes := key.iterations.map fun iteration =>
    { owner := iteration.idCommunity
      columns := ⟨iteration.number, iteration.energyAllocatedPercentage, iteration.surplusTotal⟩
      leaves := iteration.consumers.map fun consumer =>
        ⟨consumer.idCommunity, consumer.name, consumer.energyAllocatedPercentage⟩ }

/-- The key of its rows, as the pipeline sees it. -/
def keyModel (tree : KeyTree K) : AllocationKeyGeneratedModel K where
  name := tree.columns.2.name
  description := tree.columns.2.description
  surplusTotal := tree.columns.2.surplusTotal
  idGeneration := tree.parent
  idCommunity := tree.owner
  iterations := tree.nodes.map fun node =>
    { number := node.columns.2.number
      energyAllocatedPercentage := node.columns.2.energyAllocatedPercentage
      surplusTotal := node.columns.2.surplusTotal
      idCommunity := node.owner
      consumers := node.leaves.map fun leaf =>
        { name := leaf.columns.2.name
          energyAllocatedPercentage := leaf.columns.2.energyAllocatedPercentage
          idCommunity := leaf.owner } }

end Columns

/-! ### Queries -/

/-- What PostgreSQL and Python make of text: `ILIKE` of a value and a pattern, the order of the
collation, and `int`. -/
structure TextRules where
  ilike : String → String → Bool
  compare : String → String → Ordering
  int : String → Option ℤ

inductive GenerationColumn where
  | id
  | name
  | status
  deriving DecidableEq

inductive KeyColumn where
  | id
  | name
  | surplus
  deriving DecidableEq

/-- A clause of `ORDER BY`. -/
structure OrderBy (C : Type) where
  column : C
  descending : Bool

/-- The filters of `get_list_generations`. -/
structure GenerationFilter where
  name : Option String
  status : Option ℤ

/-- The value of a status. -/
def statusCode : GenerationStatus → ℤ
  | .pending => 0
  | .success => 1
  | .failed => 2

/-- The first clause decides, then the next. -/
def compareBy {C α : Type} (compare : C → α → α → Ordering) (order : List (OrderBy C)) (a b : α) :
    Ordering :=
  order.foldr (fun clause rest =>
    let first := compare clause.column a b
    (if clause.descending then first.swap else first).then rest) .eq

/-- `ORDER BY`; rows that compare equal stay in the order of the table. -/
def orderBy {C α : Type} (compare : C → α → α → Ordering) (order : List (OrderBy C))
    (rows : List α) : List α :=
  rows.mergeSort fun a b => compareBy compare order a b != .gt

/-- `OFFSET` and `LIMIT`, which must not be negative. -/
def page {α : Type} (offset limit : ℤ) (rows : List α) : Except Exc (List α) :=
  if offset < 0 then .error (.other "OFFSET must not be negative")
  else if limit < 0 then .error (.other "LIMIT must not be negative")
  else .ok ((rows.drop offset.toNat).take limit.toNat)

/-! ### The state -/

structure Databases (S : Services) (K : Type) where
  generations : List (ℤ × GenerationModel S)
  nextGenerationId : ℤ
  keys : KeyForest K
  crm : CrmForest K
  audits : List AuditLogInput
  objects : List (String × S.Content)
  /-- The generation the open local transaction has written to. -/
  flushed : Option ℤ
  /-- The CRM tables as the open CRM transaction sees them, when it has written to them. -/
  stagedCrm : Option (Rows Unit ℤ CrmKeyColumns (CrmIterationColumns K) (ConsumerColumns K))
  stagedAudits : List AuditLogInput

section Access

variable (S : Services) (K : Type)

/-- One access of a request. -/
inductive RequestOp where
  | pipeline (o : Op S K)
  | countGenerations (scope : Option ℤ) (filter : GenerationFilter)
      (order : List (OrderBy GenerationColumn))
  | pageGenerations (scope : Option ℤ) (filter : GenerationFilter)
      (order : List (OrderBy GenerationColumn)) (offset limit : ℤ)
  | countKeys (scope : Option ℤ) (idGeneration : ℤ) (name : Option String)
      (order : List (OrderBy KeyColumn))
  /-- The keys, each with its iterations, of which only a sum is shown. -/
  | pageKeys (scope : Option ℤ) (idGeneration : ℤ) (name : Option String)
      (order : List (OrderBy KeyColumn)) (offset limit : ℤ)
  /-- The key with its iterations and their consumers. -/
  | selectTree (idKey : ℕ) (scope : Option ℤ)
  /-- The insert of a key of the CRM and of all that belongs to it, answered by its id. -/
  | flushCrmKey (key : CrmTree K)
  /-- The commit of the CRM session of the request. -/
  | commitCrmSession
  /-- The end of the CRM session of the request. -/
  | closeCrm

@[reducible] def RequestResp : RequestOp S K → Type
  | .pipeline o => Resp S K o
  | .countGenerations .. | .countKeys .. => Except Exc ℕ
  | .pageGenerations .. => Except Exc (List (ℤ × GenerationModel S))
  | .pageKeys .. =>
      Except Exc (List (Row ℤ ℤ (KeyColumns K) × List (Row ℕ ℤ (IterationColumns K))))
  | .selectTree .. => Except Exc (Option (KeyTree K))
  | .flushCrmKey _ => Except Exc ℕ
  | .commitCrmSession => Except Exc Unit
  | .closeCrm => Unit

end Access

variable {S : Services} {K : Type}

namespace Databases

/-- `session.get(GenerationModel, id)`. -/
def generation (db : Databases S K) (id : ℤ) : Option (GenerationModel S) :=
  (db.generations.find? fun entry => entry.1 == id).map Prod.snd

/-- The generations a scoped query sees. -/
def scopedGenerations (db : Databases S K) (scope : Option ℤ) : List (ℤ × GenerationModel S) :=
  db.generations.filter fun entry => scope == some entry.2.idCommunity

def scopedKeys (db : Databases S K) (scope : Option ℤ) : List (Row ℤ ℤ (KeyColumns K)) :=
  db.keys.roots.filter fun row => scope == some row.owner

/-- The status of the row with this id, with what else the `UPDATE` sets. -/
def settleEntry (id : ℤ) (status : GenerationStatus) (errorMessage : Option String)
    (entry : ℤ × GenerationModel S) : ℤ × GenerationModel S :=
  if entry.1 = id then
    (entry.1, { entry.2 with status := status, errorMessage := errorMessage })
  else entry

def settle (db : Databases S K) (id : ℤ) (status : GenerationStatus)
    (errorMessage : Option String) : Databases S K :=
  { db with generations := db.generations.map (settleEntry id status errorMessage) }

/-- What the commit of a local transaction that has written to `id` makes visible. -/
def apply (db : Databases S K) (id : ℤ) : Write S K → Databases S K
  | .insert row => { db with generations := db.generations ++ [(id, row)] }
  | .outcome status errorMessage keys =>
      { db.settle id status errorMessage with
        keys := keys.foldl (fun forest key => forest.add (keyTree key)) db.keys }
  | .save status errorMessage => db.settle id status errorMessage
  | .delete =>
      { db with
        generations := db.generations.filter fun entry => entry.1 != id
        keys := { db.keys with toRows := db.keys.toRows.remove fun row => row.parent == id } }
  | .deleteKey idKey =>
      { db with
        keys := { db.keys with toRows := db.keys.toRows.remove fun row => row.id == idKey } }

/-- A commit; the deletion of a key is the only one that has not written to a generation. -/
def commit (db : Databases S K) (write : Write S K) : Databases S K :=
  match write with
  | .deleteKey idKey => { db.apply 0 (.deleteKey idKey) with flushed := none }
  | write =>
      match db.flushed with
      | some id => { db.apply id write with flushed := none }
      | none => db

/-- A key is written to the CRM, with new ids, in the transaction of the request. -/
def flushCrmKey (db : Databases S K) (key : CrmTree K) : Databases S K :=
  { db with
    crm := { db.crm.add key with toRows := db.crm.toRows }
    stagedCrm := some (db.crm.add key).toRows }

/-- A commit of the CRM session of the request. -/
def commitCrm (db : Databases S K) : Databases S K :=
  { db with
    crm := { db.crm with toRows := db.stagedCrm.getD db.crm.toRows }
    audits := db.audits ++ db.stagedAudits
    stagedCrm := none
    stagedAudits := [] }

/-- What the CRM session of the request has not committed is rolled back. -/
def rollbackCrm (db : Databases S K) : Databases S K :=
  { db with stagedCrm := none, stagedAudits := [] }

end Databases

/-! ### What an access does -/

/-- A query for a key with all that belongs to it, which asks for no order of that. -/
def orArranged {α : Type} (choice : Choice S K) (db : Databases S K) (found : Arrangement → α) :
    Option (Except Exc α × Databases S K) :=
  match choice with
  | .arranged arrangement => some (.ok (found arrangement), db)
  | .fail detail => some (.error (.other detail), db)
  | _ => none

theorem orArranged_cases {α : Type} {choice : Choice S K} {db db' : Databases S K}
    {found : Arrangement → α} {r : Except Exc α} (h : orArranged choice db found = some (r, db')) :
    db' = db ∧ ((∃ arrangement, r = .ok (found arrangement)) ∨ ∃ e, r = .error e) := by
  cases choice with
  | arranged arrangement => cases h; exact ⟨rfl, Or.inl ⟨arrangement, rfl⟩⟩
  | fail detail => cases h; exact ⟨rfl, Or.inr ⟨_, rfl⟩⟩
  | _ => cases h

/-- An access of the pipeline. The entries of `commitCrm` were staged by a session of their own. -/
def execPipeline : (o : Op S K) → Choice S K → Databases S K →
    Option (Resp S K o × Databases S K)
  | .get id, choice, db => orFail choice db (some (.ok (db.generation id), db))
  | .updateWherePending id _ _, choice, db =>
      orFail choice db <|
        match db.generation id with
        | some row =>
            if row.status = .pending then some (.ok 1, { db with flushed := some id })
            else some (.ok 0, db)
        | none => some (.ok 0, db)
  | .flushInsert _, choice, db =>
      orFail choice db <| some (.ok db.nextGenerationId,
        { db with
          nextGenerationId := db.nextGenerationId + 1
          flushed := some db.nextGenerationId })
  | .flushUpdate id, choice, db =>
      orFail choice db <|
        match db.generation id with
        | some _ => some (.ok (), { db with flushed := some id })
        | none => some (.error (.other "StaleDataError"), db)
  | .flushDelete id, choice, db =>
      orFail choice db <| some (.ok (), { db with flushed := some id })
  | .flushDeleteKey _, choice, db => orFail choice db (some (.ok (), db))
  | .select id scope, choice, db =>
      orFail choice db <|
        some (.ok ((db.generation id).filter fun row => scope == some row.idCommunity), db)
  | .selectKey id scope, choice, db =>
      orArranged choice db fun arrangement => (db.keys.roots.find? fun row =>
        row.id == id && scope == some row.owner).map fun row =>
          keyModel (db.keys.read arrangement row)
  | .commit write, choice, db => orLost choice { db with flushed := none } (db.commit write)
  | .close, _, db => some ((), { db with flushed := none })
  | .stageAudit entry, choice, db =>
      match choice with
      | .ok => some (true, { db with stagedAudits := db.stagedAudits ++ [entry] })
      | .fail _ => some (false, db)
      | _ => none
  | .commitCrm staged, choice, db =>
      let closed := { db with stagedAudits := db.stagedAudits.diff staged }
      orLost choice closed { closed with audits := db.audits ++ staged }
  | .sharingOperationExists .., choice, db =>
      match choice with
      | .known answer => some (.ok answer, db)
      | .fail detail => some (.error (.other detail), db)
      | _ => none
  | .summarize .., choice, db =>
      match choice with
      | .summary answer => some (.ok answer, db)
      | .fail detail => some (.error (.other detail), db)
      | _ => none
  | .fetchRows .., choice, db =>
      match choice with
      | .rows answer => some (.ok answer, db)
      | .fail detail => some (.error (.other detail), db)
      | _ => none
  | .upload key content, choice, db =>
      orLost choice db { db with objects := (key, content) :: db.objects }
  | .download key, choice, db =>
      match choice with
      | .ok =>
          match db.objects.find? fun stored => stored.1 == key with
          | some stored => some (.ok stored.2, db)
          | none => some (.error (.objectNotFound key), db)
      | .notFound => some (.error (.objectNotFound key), db)
      | .unavailable detail => some (.error (.transientStorageError detail), db)
      | .fail detail => some (.error (.other detail), db)
      | _ => none
  | .delete key, choice, db =>
      match choice with
      | .ok => some ((), { db with objects := db.objects.filter fun stored => stored.1 != key })
      | .fail _ => some ((), db)
      | _ => none
  | .publish .., choice, db => orLost choice db db
  | .ack, choice, db => orFail choice db (some (.ok (), db))
  | .nak _, choice, db => orFail choice db (some (.ok (), db))
  | .addMetric _, _, db => some ((), db)
  | .emit _, choice, db =>
      match choice with
      | .ok | .fail _ => some ((), db)
      | _ => none
  | .solve .., choice, db =>
      match choice with
      | .result answer => some (.ok answer, db)
      | .crash detail => some (.error (.brokenExecutor detail), db)
      | .fail detail => some (.error (.other detail), db)
      | _ => none

section Exec

variable (text : TextRules)

def compareGenerations : GenerationColumn → ℤ × GenerationModel S → ℤ × GenerationModel S → Ordering
  | .id, a, b => compare a.1 b.1
  | .name, a, b => text.compare a.2.name b.2.name
  | .status, a, b => compare (statusCode a.2.status) (statusCode b.2.status)

def compareKeys : KeyColumn → Row ℤ ℤ (KeyColumns K) → Row ℤ ℤ (KeyColumns K) → Ordering
  | .id, a, b => compare a.id b.id
  | .name, a, b => text.compare a.columns.name b.columns.name
  | .surplus, _, _ => .eq

def GenerationFilter.holds (filter : GenerationFilter) (row : GenerationModel S) : Bool :=
  filter.name.all (text.ilike row.name) && filter.status.all (· == statusCode row.status)

/-- The rows of `get_list_generations`. -/
def Databases.listGenerations (db : Databases S K) (scope : Option ℤ) (filter : GenerationFilter)
    (order : List (OrderBy GenerationColumn)) : List (ℤ × GenerationModel S) :=
  orderBy (compareGenerations text) order <|
    (db.scopedGenerations scope).filter fun entry => filter.holds text entry.2

/-- The rows of `get_allocation_keys_list`. The order by `surplus` names a subquery that the
statement does not join: `ORDER BY` adds nothing to its `FROM`, and the database refuses it. -/
def Databases.listKeys (db : Databases S K) (scope : Option ℤ) (idGeneration : ℤ)
    (name : Option String) (order : List (OrderBy KeyColumn)) :
    Except Exc (List (Row ℤ ℤ (KeyColumns K))) :=
  if order.any (fun clause => clause.column == .surplus) then
    .error (.other "missing FROM-clause entry")
  else
    .ok <| orderBy (compareKeys text) order <| (db.scopedKeys scope).filter fun row =>
      row.parent == idGeneration && name.all (text.ilike row.columns.name)

def exec : (o : RequestOp S K) → Choice S K → Databases S K →
    Option (RequestResp S K o × Databases S K)
  | .pipeline o, choice, db => execPipeline o choice db
  | .countGenerations scope filter order, choice, db =>
      orFail choice db (some (.ok (db.listGenerations text scope filter order).length, db))
  | .pageGenerations scope filter order offset limit, choice, db =>
      orFail choice db (some (page offset limit (db.listGenerations text scope filter order), db))
  | .countKeys scope idGeneration name order, choice, db =>
      orFail choice db <|
        some (List.length <$> db.listKeys text scope idGeneration name order, db)
  | .pageKeys scope idGeneration name order offset limit, choice, db =>
      orFail choice db <| some (do
        let rows ← db.listKeys text scope idGeneration name order
        let rows ← page offset limit rows
        pure (rows.map fun row => (row, db.keys.nodesOf row.id)), db)
  | .selectTree idKey scope, choice, db =>
      orArranged choice db fun arrangement => (db.keys.roots.find? fun row =>
        row.id == idKey && scope == some row.owner).map (db.keys.read arrangement)
  | .flushCrmKey key, choice, db =>
      orFail choice db (some (.ok db.crm.nextRoot, db.flushCrmKey key))
  | .commitCrmSession, choice, db => orLost choice db.rollbackCrm db.commitCrm
  | .closeCrm, _, db => some ((), db.rollbackCrm)

end Exec

end AllocationKeys.Tenants
