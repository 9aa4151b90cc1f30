import AllocationKeys.Tenants.Databases

/-!
# The requests of a community

`api/generation`: the routes, the service, the repository and the mappers, for a request in the
scope of a community (`current_internal_community_id`, `none` when none was resolved). What the
pipeline also models (`startGeneration`, `deleteGeneration` and others) is run on the databases
through `ofPipeline`.
-/

namespace AllocationKeys.Tenants

open Algorithms Generation Program

variable {S : Services} {K : Type} {α : Type}

/-! ### Calls -/

abbrev RequestProgram (S : Services) (K : Type) : Type → Type :=
  Program (RequestOp S K) (RequestResp S K) Exc

/-- A program of the pipeline, as part of a request. -/
def ofPipeline : Pipeline S K α → RequestProgram S K α
  | .ret a => .ret a
  | .raise e => .raise e
  | .call o next => .call (.pipeline o) fun r => ofPipeline (next r)

/-- A program of the pipeline does the same as part of a request. -/
theorem performs_ofPipeline {text : TextRules} {p : Pipeline S K α} {out : Except Exc α}
    {db' : Databases S K} :
    ∀ {db : Databases S K} {events : List (RequestOp S K × Choice S K)},
      (ofPipeline p).Performs (exec text) db events out db' ↔
        ∃ events', events = events'.map (Prod.map .pipeline id) ∧
          p.Performs execPipeline db events' out db' := by
  induction p with
  | ret a =>
    intro db events
    constructor
    · rintro ⟨rfl, h⟩
      exact ⟨[], rfl, rfl, h⟩
    · rintro ⟨events', rfl, rfl, h⟩
      exact ⟨rfl, h⟩
  | raise e =>
    intro db events
    constructor
    · rintro ⟨rfl, h⟩
      exact ⟨[], rfl, rfl, h⟩
    · rintro ⟨events', rfl, rfl, h⟩
      exact ⟨rfl, h⟩
  | call o next ih =>
    intro db events
    constructor
    · rintro ⟨choice, r, db₁, rest, hexec, rfl, hrest⟩
      obtain ⟨rest', rfl, hrest'⟩ := (ih r).mp hrest
      exact ⟨(o, choice) :: rest', rfl, choice, r, db₁, rest', hexec, rfl, hrest'⟩
    · rintro ⟨events', rfl, choice, r, db₁, rest', hexec, rfl, hrest'⟩
      exact ⟨choice, r, db₁, _, hexec, rfl, (ih r).mpr ⟨rest', rfl, hrest'⟩⟩

/-- What a delivery keeps, it keeps as part of a request. -/
theorem keeps_ofPipeline {text : TextRules} {I : Databases S K → Prop} {p : Pipeline S K α}
    (h : p.Keeps execPipeline I) : (ofPipeline p).Keeps (exec text) I := by
  intro db hdb events out db' hrun
  obtain ⟨events', -, hrun'⟩ := performs_ofPipeline.mp hrun
  exact h db hdb events' out db' hrun'

def countGenerations (scope : Option ℤ) (filter : GenerationFilter)
    (order : List (OrderBy GenerationColumn)) : RequestProgram S K ℕ :=
  .call (.countGenerations scope filter order) Program.ofExcept

def pageGenerations (scope : Option ℤ) (filter : GenerationFilter)
    (order : List (OrderBy GenerationColumn)) (offset limit : ℤ) :
    RequestProgram S K (List (ℤ × GenerationModel S)) :=
  .call (.pageGenerations scope filter order offset limit) Program.ofExcept

def countKeys (scope : Option ℤ) (idGeneration : ℤ) (name : Option String)
    (order : List (OrderBy KeyColumn)) : RequestProgram S K ℕ :=
  .call (.countKeys scope idGeneration name order) Program.ofExcept

def pageKeys (scope : Option ℤ) (idGeneration : ℤ) (name : Option String)
    (order : List (OrderBy KeyColumn)) (offset limit : ℤ) :
    RequestProgram S K (List (Row ℤ ℤ (KeyColumns K) × List (Row ℕ ℤ (IterationColumns K)))) :=
  .call (.pageKeys scope idGeneration name order offset limit) Program.ofExcept

/-- `GenerationRepository.get_allocation_key`. -/
def selectTree (idKey : ℕ) (scope : Option ℤ) : RequestProgram S K (Option (KeyTree K)) :=
  .call (.selectTree idKey scope) Program.ofExcept

/-- `CRMRepository.save_allocation_key`. -/
def saveAllocationKey (key : CrmTree K) : RequestProgram S K ℕ :=
  .call (.flushCrmKey key) Program.ofExcept

def commitCrmSession : RequestProgram S K Unit := .call .commitCrmSession Program.ofExcept

/-- A request has sessions of its own, which end with it however it ends. -/
def withSessions (body : RequestProgram S K α) : RequestProgram S K α := do
  let out ← body.attempt
  ask (RequestOp.pipeline .close)
  ask RequestOp.closeCrm
  Program.ofExcept out

/-! ### Answers -/

structure Pagination where
  page : ℤ
  limit : ℤ
  total : ℤ
  totalPages : ℤ

/-- The pagination of a list; `total // page_size` fails on a page size of 0. -/
def pagination (page pageSize : ℤ) (total : ℕ) : Except Exc Pagination :=
  if pageSize = 0 then .error (.other "integer division or modulo by zero")
  else .ok ⟨page, pageSize, total, -(Int.fdiv (-total) pageSize)⟩

structure GenerationSchema where
  id : ℤ
  name : String
  status : GenerationStatus

structure ConsumerGenerated (K : Type) where
  id : ℕ
  name : String
  energyAllocatedPercentage : K

structure IterationGenerated (K : Type) where
  id : ℕ
  number : ℕ
  energyAllocatedPercentage : K
  consumers : List (ConsumerGenerated K)
  surplusTotal : K

structure PartialAllocationKeyGenerated (K : Type) where
  id : ℕ
  name : String
  description : String
  surplusTotal : K

structure AllocationKeyGenerated (K : Type) extends PartialAllocationKeyGenerated K where
  iterations : List (IterationGenerated K)

inductive Response (K : Type) where
  | generations (data : List GenerationSchema) (pagination : Pagination)
  | keys (data : List (PartialAllocationKeyGenerated K)) (pagination : Pagination)
  | key (data : AllocationKeyGenerated K)
  | generated (id : ℤ) (status : GenerationStatus)
  | success

def toGenerationSchema (entry : ℤ × GenerationModel S) : GenerationSchema where
  id := entry.1
  name := entry.2.name
  status := entry.2.status

def toConsumerGeneratedSchema (consumer : Leaf ℤ (ℕ × ConsumerColumns K)) :
    ConsumerGenerated K where
  id := consumer.columns.1
  name := consumer.columns.2.name
  energyAllocatedPercentage := consumer.columns.2.energyAllocatedPercentage

def toIterationGeneratedSchema
    (iteration : Node ℤ (ℕ × IterationColumns K) (ℕ × ConsumerColumns K)) :
    IterationGenerated K where
  id := iteration.columns.1
  number := iteration.columns.2.number
  energyAllocatedPercentage := iteration.columns.2.energyAllocatedPercentage
  consumers := iteration.leaves.map toConsumerGeneratedSchema
  surplusTotal := iteration.columns.2.surplusTotal

section Sum

variable [Zero K] [Add K]

def toPartialAllocationKeyGeneratedSchema
    (key : Row ℤ ℤ (KeyColumns K) × List (Row ℕ ℤ (IterationColumns K))) :
    PartialAllocationKeyGenerated K where
  id := key.1.id
  name := key.1.columns.name
  description := key.1.columns.description
  surplusTotal := (key.2.map fun iteration => iteration.columns.surplusTotal).sum

def toAllocationKeyGeneratedSchema (key : KeyTree K) : AllocationKeyGenerated K where
  id := key.columns.1
  name := key.columns.2.name
  description := key.columns.2.description
  surplusTotal := (key.nodes.map fun iteration => iteration.columns.2.surplusTotal).sum
  iterations := key.nodes.map toIterationGeneratedSchema

end Sum

/-! ### Saving a key in the CRM -/

def toConsumerCrm (consumer : Leaf ℤ (ℕ × ConsumerColumns K)) : Leaf ℤ (ConsumerColumns K) where
  owner := consumer.owner
  columns := ⟨consumer.columns.2.name, consumer.columns.2.energyAllocatedPercentage⟩

def toIterationCrm (iteration : Node ℤ (ℕ × IterationColumns K) (ℕ × ConsumerColumns K)) :
    Node ℤ (CrmIterationColumns K) (ConsumerColumns K) where
  owner := iteration.owner
  columns := ⟨iteration.columns.2.number, iteration.columns.2.energyAllocatedPercentage⟩
  leaves := iteration.leaves.map toConsumerCrm

def toAllocationKeyCrm (key : KeyTree K) : CrmTree K where
  parent := ()
  owner := key.owner
  columns := ⟨key.columns.2.name, key.columns.2.description⟩
  nodes := key.nodes.map toIterationCrm

def saveKey (idKey : ℕ) (scope : Option ℤ) : RequestProgram S K Unit := do
  let key ← selectTree idKey scope
  match key with
  | none => throw (.errorException "ERRORS.GENERATION.ALLOCATION_KEY_NOT_FOUND" 400)
  | some key => do
      let allocationKey := toAllocationKeyCrm key
      let id ← saveAllocationKey allocationKey
      commitCrmSession
      let _ ← ofPipeline <| stageAudit
        { action := .allocationKeySaved
          entityType := "allocation_key"
          entityId := toString id
          payload :=
            [("local_key_id", .number idKey), ("name", .text allocationKey.columns.name)] }

/-! ### Lists -/

/-- The query parameters of a request. -/
abbrev QueryParam : Type := List (String × String)

/-- A parameter that is there and not empty. -/
def QueryParam.get (query : QueryParam) (key : String) : Option String :=
  (query.lookup key).filter (· ≠ "")

/-- The columns to sort by, in the order of `sort_map`, or the id. -/
def sortClauses {C : Type} (query : QueryParam) (sortMap : List (String × C)) (id : C) :
    List (OrderBy C) :=
  let clauses := sortMap.filterMap fun (key, column) =>
    (query.get s!"sort_{key}").bind fun direction =>
      if direction.toLower = "desc" then some ⟨column, true⟩
      else if direction.toLower = "asc" then some ⟨column, false⟩
      else none
  if clauses.isEmpty then [⟨id, false⟩] else clauses

def pattern (name : String) : String := s!"%{name}%"

section Lists

variable (text : TextRules)

def getListGenerations (scope : Option ℤ) (page pageSize : ℤ) (query : QueryParam) :
    RequestProgram S K (List (ℤ × GenerationModel S) × ℕ) := do
  let status ← Program.ofExcept <|
    match query.get "status" with
    | none => .ok none
    | some status =>
        match text.int status with
        | some status => .ok (some status)
        | none => .error (.other "invalid literal for int()")
  let filter := ⟨(query.get "name").map pattern, status⟩
  let order := sortClauses query [("id", .id), ("name", .name), ("status", .status)] .id
  let total ← countGenerations scope filter order
  let rows ← pageGenerations scope filter order ((page - 1) * pageSize) pageSize
  pure (rows, total)

def getAllocationKeysList (scope : Option ℤ) (id page pageSize : ℤ) (query : QueryParam) :
    RequestProgram S K
      (List (Row ℤ ℤ (KeyColumns K) × List (Row ℕ ℤ (IterationColumns K))) × ℕ) := do
  let name := (query.get "name").map pattern
  let order := sortClauses query [("id", .id), ("name", .name), ("surplus", .surplus)] .id
  let total ← countKeys scope id name order
  let rows ← pageKeys scope id name order ((page - 1) * pageSize) pageSize
  pure (rows, total)

end Lists

/-! ### The routes -/

inductive Request (S : Services) where
  | getGenerations (page pageSize : ℤ) (query : QueryParam)
  | getAllocationKeys (id page pageSize : ℤ) (query : QueryParam)
  | getAllocationKey (idKey : ℕ)
  | startGeneration (req : GenerateRequest S) (file : UploadFile S)
  | startGenerationFromCrm (req : GenerateFromCrmRequest S)
  | saveKey (idKey : ℕ)
  | deleteGeneration (idGeneration : ℤ)
  | deleteKey (idKey : ℕ)

/-- The error a route answers with when an exception is not one of the application's. -/
def Request.defaultError : Request S → String
  | .getGenerations .. => "ERRORS.GENERATION.GET_GENERATIONS"
  | .getAllocationKeys .. => "ERRORS.GENERATION.GET_ALLOCATION_KEYS"
  | .getAllocationKey _ => "ERRORS.GENERATION.GET_ALLOCATION_KEY"
  | .startGeneration .. | .startGenerationFromCrm _ => "ERRORS.GENERATION.START_GENERATION"
  | .saveKey _ => "ERRORS.GENERATION.SAVE_KEY"
  | .deleteGeneration _ => "ERRORS.GENERATION.DELETE_GENERATION"
  | .deleteKey _ => "ERRORS.GENERATION.DELETE_KEY"

/-- `with_default_error`. -/
def withDefaultError (error : String) (body : RequestProgram S K α) : RequestProgram S K α :=
  tryCatch body fun e => match e with
    | .errorException error statusCode => throw (.errorException error statusCode)
    | _ => throw (.errorException error 400)

variable (text : TextRules) (registry : String → Option (AlgorithmMetadata S))

/-- The routes that create a generation refuse a request without a community. -/
def requireCommunity (scope : Option ℤ) (body : ℤ → RequestProgram S K α) :
    RequestProgram S K α :=
  match scope with
  | none => throw (.errorException "ERRORS.AUTH.UNAUTHORIZED" 401)
  | some communityId => body communityId

variable [Zero K] [Add K]

/-- What the service does for a request. -/
def Request.handle (scope : Option ℤ) : Request S → RequestProgram S K (Response K)
  | .getGenerations page pageSize query => do
      let (rows, total) ← getListGenerations text scope page pageSize query
      let pagination ← Program.ofExcept (pagination page pageSize total)
      pure (.generations (rows.map toGenerationSchema) pagination)
  | .getAllocationKeys id page pageSize query => do
      let (rows, total) ← getAllocationKeysList scope id page pageSize query
      let pagination ← Program.ofExcept (pagination page pageSize total)
      pure (.keys (rows.map toPartialAllocationKeyGeneratedSchema) pagination)
  | .getAllocationKey idKey => do
      let key ← selectTree idKey scope
      match key with
      | none => throw (.errorException "ERRORS.GENERATION.ALLOCATION_KEY_NOT_FOUND" 400)
      | some key => pure (.key (toAllocationKeyGeneratedSchema key))
  | .startGeneration req file => requireCommunity scope fun communityId => do
      let id ← ofPipeline (Generation.startGeneration registry req file communityId)
      pure (.generated id .pending)
  | .startGenerationFromCrm req => requireCommunity scope fun communityId => do
      let id ← ofPipeline (Generation.startGenerationFromCrm registry req communityId)
      pure (.generated id .pending)
  | .saveKey idKey => do
      Tenants.saveKey idKey scope
      pure .success
  | .deleteGeneration idGeneration => do
      ofPipeline (Generation.deleteGeneration idGeneration scope)
      pure .success
  | .deleteKey idKey => do
      ofPipeline (Generation.deleteKey idKey scope)
      pure .success

/-- A request, from its route to the end of its sessions. -/
def Request.serve (scope : Option ℤ) (request : Request S) : RequestProgram S K (Response K) :=
  withSessions (withDefaultError request.defaultError (request.handle text registry scope))

end AllocationKeys.Tenants
