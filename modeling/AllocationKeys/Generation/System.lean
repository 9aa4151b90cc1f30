import AllocationKeys.Generation.Dispatcher
import AllocationKeys.Generation.Service

/-!
# The system around one generation

The request that creates the generation, any number of deliveries of its message, and the user
deleting it or its keys, over the world they share. A delivery can begin at any time once the
broker has the message, also again after it was acked.
-/

namespace AllocationKeys.Generation

open Algorithms Concurrent Program

variable (S : Services) (K : Type)

/-- What a thread does. -/
inductive Role where
  | deliver (metadata : AlgorithmMetadata S) (msg : Msg S)
  | startGeneration (req : GenerateRequest S) (file : UploadFile S) (communityId : ℤ)
  | startGenerationFromCrm (req : GenerateFromCrmRequest S) (communityId : ℤ)
  | deleteGeneration (scope : Option ℤ)
  | deleteKey (idKey : ℕ) (scope : Option ℤ)

variable {S K}

/-- The message is about the generation. -/
def Msg.About (gid : ℤ) (msg : Msg S) : Prop :=
  (S.decode msg.data).bind Event.generationId = some gid

instance (gid : ℤ) (msg : Msg S) : Decidable (msg.About gid) :=
  inferInstanceAs (Decidable (_ = _))

variable (registry : String → Option (AlgorithmMetadata S)) (gid : ℤ)

/-- The program of a role; every request runs in its own session. -/
def program [Zero K] [Add K] : Role S → Pipeline S K Unit
  | .deliver metadata msg => handleMessage metadata msg
  | .startGeneration req file communityId => withLocalSession do
      let _ ← startGeneration registry req file communityId
  | .startGenerationFromCrm req communityId => withLocalSession do
      let _ ← startGenerationFromCrm registry req communityId
  | .deleteGeneration scope => withLocalSession (deleteGeneration gid scope)
  | .deleteKey idKey scope => withLocalSession (deleteKey idKey scope)

/-- A message is delivered once it is queued, and one request creates the generation. -/
def launch (t : ℕ) (role : Role S) (w : World S K) : Option (World S K) :=
  match role with
  | .deliver _ msg => if w.queued ∧ msg.About gid then some w else none
  | .startGeneration .. | .startGenerationFromCrm .. =>
      if w.created = false ∧ w.creator = none then some { w with creator := some t } else none
  | .deleteGeneration _ | .deleteKey .. => some w

/-- The system; a thread that is killed loses its transaction. -/
def system [Zero K] [Add K] :
    Machine (Role S) (Op S K) (Resp S K) (Choice S K) Exc (World S K) where
  program := program registry gid
  launch := launch gid
  exec := exec gid
  abort := World.release

/-- Nothing has happened. -/
def World.empty : World S K where
  row := none
  results := []
  nextKeyId := 0
  lock := none
  object := none
  queued := false
  creator := none
  created := false
  deletedByUser := false
  keyDeleted := false
  history := []
  solved := []
  completions := []
  audits := []
  events := []

/-- A row has been committed as pending, with its file uploaded, and its message queued. -/
def World.queuedFor (row : GenerationModel S) (content : S.Content) : World S K :=
  { (World.empty : World S K) with
    row := some { row with status := .pending, errorMessage := none }
    object := row.fileStorageKey.map fun key => (key, content)
    queued := true
    created := true }

end AllocationKeys.Generation
