import AllocationKeys.Generation.Lifecycle
import AllocationKeys.Generation.Published
import AllocationKeys.Upload.Keys

/-!
# What is stored of an uploaded table

The pipeline around an algorithm and the algorithm itself, put together. The result rows of a
generation are what is left of the rows of one result that the solver has returned
(`kept_of_run`). When the request uploads a table of nonnegative readings for brute force, and the
solver processes run brute force, these are the rows of valid keys for the uploaded table and the
requested number of iterations, stored in the order of their final surplus, the first an optimal one
(`stored_of_upload`): whatever the threads, failures and kills on the way.

The inputs reach the algorithm through the row: dumped by the request, validated again by the
delivery, which is for the algorithm on whose queue the message was published. `RoundTrips` and
`Routed` are what this takes of the schemas and of the broker.
-/

namespace AllocationKeys.Generation

open Algorithms Concurrent Program Upload

variable {S : Services} {gid : ℤ} {t : ℕ}

/-! ### The rows of one result -/

section Kept

variable {K : Type} [Zero K] [Add K] {registry : String → Option (AlgorithmMetadata S)}

variable (gid) in
/-- The result rows are what the user has left of one result that a thread got. -/
def Kept (w : World S K) : Prop :=
  w.results = [] ∨ ∃ row t result first, w.row = some row ∧ (t, result) ∈ w.solved ∧
    w.results.Sublist (numbered first (resultRows gid row.idCommunity result)) ∧
    (w.keyDeleted = false → w.results = numbered first (resultRows gid row.idCommunity result))

theorem kept_outcome {w : World S K} {status : GenerationStatus} {errorMessage : Option String}
    {keys : List (AllocationKeyGeneratedModel K)} (hinv : Inv gid w)
    (hinv' : Inv gid ((w.apply t (.outcome status errorMessage keys)).release t))
    {row : GenerationModel S} (hrow : w.row = some row) (hpending : row.status = .pending) :
    Kept gid ((w.apply t (.outcome status errorMessage keys)).release t) := by
  have hresults := results_of_pending hinv hrow hpending
  have happly : w.apply t (.outcome status errorMessage keys) = _ :=
    settle_eq hrow status errorMessage keys
  rw [happly] at hinv' ⊢
  have hends := hinv'.ends _ (List.mem_cons_self ..)
  have hafter : w.results ++ numbered w.nextKeyId keys = numbered w.nextKeyId keys := by
    rw [hresults, List.nil_append]
  cases status with
  | pending => exact absurd rfl hends.final
  | success =>
    obtain ⟨rfl, result, hsolved, hkeys⟩ := hends.success rfl
    have hkeys : keys = resultRows gid row.idCommunity result :=
      hkeys (row.ended .success none) rfl
    subst hkeys
    refine Or.inr ⟨row.ended .success none, t, result, w.nextKeyId, rfl, hsolved, ?_, fun _ => ?_⟩
    · exact hafter ▸ List.Sublist.refl _
    · exact hafter
  | failed =>
    obtain rfl : keys = [] := hends.failed rfl
    exact Or.inl hafter

theorem kept_commit {w : World S K} {write : Write S K} (hinv : Inv gid w)
    (hinv' : Inv gid ((w.apply t write).release t)) (hpre : pre t (.commit write) w)
    (hfresh : (Op.commit write).Inserts → w.created = false) (h : Kept gid w) :
    Kept gid ((w.apply t write).release t) := by
  cases write with
  | insert row => exact Or.inl (hinv.empty (hinv.uncreated (hfresh trivial)).1)
  | outcome status errorMessage keys =>
    -- no rows of keys before the creation
    obtain ⟨-, row, hrow, hpending⟩ := hpre
    exact kept_outcome hinv hinv' hrow hpending
  | save status errorMessage =>
    rcases hrow : w.row with _ | row
    · have happly : w.apply t (.save status errorMessage) = w := by
        rw [World.apply, World.settle, hrow]
      rw [happly]
      exact h
    · have happly : w.apply t (.save status errorMessage) = _ :=
        settle_eq hrow status errorMessage []
      rw [happly]
      rcases h with hnil | ⟨row', t', result, first, hrow', hsolved, hsublist, hall⟩
      · exact Or.inl (by rw [show w.results = [] from hnil]; rfl)
      · obtain rfl : row = row' := Option.some_injective _ (hrow.symm.trans hrow')
        have hsame : w.results ++ numbered w.nextKeyId [] = w.results := List.append_nil _
        refine Or.inr ⟨row.ended status errorMessage, t', result, first, rfl, hsolved, ?_, ?_⟩
        · exact hsame.symm ▸ hsublist
        · exact fun hkept => hsame.trans (hall hkept)
  | delete =>
    rcases hrow : w.row with _ | row
    · exact Or.inl (by simp only [World.release, World.apply, World.remove, hrow, hinv.empty hrow])
    · exact Or.inl (by simp only [World.release, World.apply, World.remove, hrow])
  | deleteKey id =>
    by_cases hfound : w.results.any (fun key => key.1 == id) = true
    · have happly : w.apply t (.deleteKey id) =
          { w with results := w.results.filter fun key => key.1 != id, keyDeleted := true } := by
        rw [World.apply, World.removeKey, if_pos hfound]
      rw [happly]
      rcases h with hnil | ⟨row, t', result, first, hrow, hsolved, hsublist, -⟩
      · exact Or.inl (by show w.results.filter _ = []; rw [hnil]; rfl)
      · exact Or.inr ⟨row, t', result, first, hrow, hsolved,
          List.filter_sublist.trans hsublist, fun hkept => by cases hkept⟩
    · have happly : w.apply t (.deleteKey id) = w := by
        rw [World.apply, World.removeKey, if_neg hfound]
      rw [happly]
      exact h

/-- The rows are the same, and nothing that was solved is lost. -/
structure SameKeys (w w' : World S K) : Prop where
  row : w'.row = w.row
  results : w'.results = w.results
  keyDeleted : w'.keyDeleted = w.keyDeleted
  solved : w.solved ⊆ w'.solved

theorem Kept.congr {w w' : World S K} (h : Kept gid w) (hsame : SameKeys w w') : Kept gid w' := by
  obtain ⟨hrow, hresults, hkeyDeleted, hsolved⟩ := hsame
  rcases h with hnil | ⟨row, t, result, first, hrow', hmem, hsublist, hall⟩
  · exact Or.inl (hresults.trans hnil)
  · refine Or.inr ⟨row, t, result, first, hrow.trans hrow', hsolved hmem, ?_, fun hkept => ?_⟩
    · rwa [hresults]
    · rw [hresults]
      exact hall (hkeyDeleted.symm.trans hkept)

omit [Zero K] [Add K] in
/-- Only a commit that takes effect changes the rows. -/
theorem exec_sameKeys {o : Op S K} {choice : Choice S K} {r : Resp S K o} {w w' : World S K}
    (h : exec gid t o choice w = some (r, w')) :
    SameKeys w w' ∨ ∃ write, o = .commit write ∧ w' = (w.apply t write).release t := by
  rcases exec_stores h with hsame | ⟨write, ho, -, heq⟩ | ⟨_, _, -, rfl⟩ | ⟨_, -, rfl⟩ |
    ⟨_, _, _, answer, -, rfl⟩
  · exact Or.inl ⟨hsame.row, hsame.results, hsame.keyDeleted, hsame.solved ▸ List.Subset.refl _⟩
  · exact Or.inr ⟨write, ho, heq⟩
  · exact Or.inl ⟨rfl, rfl, rfl, List.Subset.refl _⟩
  · exact Or.inl ⟨rfl, rfl, rfl, List.Subset.refl _⟩
  · exact Or.inl ⟨rfl, rfl, rfl, List.subset_cons_self _ _⟩

omit [Zero K] [Add K] in
theorem launch_sameKeys {role : Role S} {w w' : World S K} (h : launch gid t role w = some w') :
    SameKeys w w' := by
  cases role <;> simp only [launch] at h
  case deliver => split at h <;> cases h; exact ⟨rfl, rfl, rfl, List.Subset.refl _⟩
  case startGeneration => split at h <;> cases h; exact ⟨rfl, rfl, rfl, List.Subset.refl _⟩
  case startGenerationFromCrm => split at h <;> cases h; exact ⟨rfl, rfl, rfl, List.Subset.refl _⟩
  case deleteGeneration => cases h; exact ⟨rfl, rfl, rfl, List.Subset.refl _⟩
  case deleteKey => cases h; exact ⟨rfl, rfl, rfl, List.Subset.refl _⟩

theorem kept_step {c c' : State S K} {label : Step S K} (halive : Alive gid registry c)
    (h : Kept gid c.state) (hstep : (system registry gid).step c label = some c') :
    Kept gid c'.state := by
  have hgood' := good_step system_obeys halive.good hstep
  rcases Machine.step_cases hstep with ⟨t, role, w, -, -, hlaunch, rfl⟩ |
    ⟨t, choice, role, o, next, r, w, rfl, hrunning, hexec, rfl⟩ | ⟨t, role, rest, -, -, rfl⟩
  · exact h.congr (launch_sameKeys hlaunch)
  · rcases exec_sameKeys hexec with hsame | ⟨write, rfl, rfl⟩
    · exact h.congr hsame
    · exact kept_commit halive.good.inv hgood'.inv (halive.good.pre hrunning)
        (halive.once.call hrunning).2 h
  · exact h.congr ⟨rfl, rfl, rfl, List.Subset.refl _⟩

/-- In every run the result rows are what is left of one result. -/
theorem kept_of_run {c : State S K}
    (hrun : (system registry gid).Run (fun _ _ => True) (Machine.start World.empty) c) :
    Kept gid c.state := by
  induction hrun with
  | refl => exact Or.inl rfl
  | tail hprefix hstep ih =>
    obtain ⟨label, -, hstep⟩ := hstep
    exact kept_step (alive_of_run hprefix) ih hstep

end Kept

/-! ### Brute force on tables -/

section Tables

variable {K : Type}

/-- How a content is parsed to a table, and how readings of the CRM become matrices. -/
structure TableReaders (S : Services) (K : Type) where
  parseFile : S.Content → String → Except LoadError (Frame ℕ String K)
  pivot : S.Rows → S.Summary → Except LoadError (RawMatrices K)

/-- `data_loading.load`; a missing injection column is an error the worker knows. -/
def TableReaders.load (readers : TableReaders S K) (content : S.Content)
    (fileName injectionName : String) : Except LoadError (RawMatrices K) := do
  let dataframe ← readers.parseFile content fileName
  (toAlgorithmRawData dataframe injectionName).mapError fun e => .classified e.str

/-- The services with the matrices of tables, and the inputs of brute force next to those of the
other algorithms. -/
abbrev onTables (S : Services) (readers : TableReaders S K) : Services :=
  { S with
    AlgoInput := BruteForce.BruteForceInput ⊕ S.AlgoInput
    RawData := RawMatrices K
    load := readers.load
    shape := RawMatrices.shape
    pivot := readers.pivot }

variable {readers : TableReaders S K}

theorem load_table {table : UploadedTable K} {content : S.Content} {fileName : String}
    {m : RawMatrices K} (hparsed : readers.parseFile content fileName = .ok table.frame)
    (hload : readers.load content fileName table.injectionName = .ok m) : table.load = .ok m := by
  simp only [TableReaders.load, hparsed] at hload
  rw [UploadedTable.load]
  cases htable : toAlgorithmRawData table.frame table.injectionName with
  | ok m' =>
    have heq : (.ok m' : Except LoadError (RawMatrices K)) = .ok m := by
      rw [← hload]
      show _ = (toAlgorithmRawData table.frame table.injectionName).mapError _
      rw [htable]
      rfl
    cases heq
    rfl
  | error e =>
    have heq : (.error (.classified e.str) : Except LoadError (RawMatrices K)) = .ok m := by
      rw [← hload]
      show _ = (toAlgorithmRawData table.frame table.injectionName).mapError _
      rw [htable]
      rfl
    cases heq

variable [Field K] [LinearOrder K]

/-- Inputs that are dumped once they are validated are validated to the same. -/
def RoundTrips (registry : String → Option (AlgorithmMetadata S)) : Prop :=
  ∀ name metadata inputs validated, registry name = some metadata →
    metadata.validate inputs = .ok validated →
      metadata.validate (metadata.dump validated) = .ok validated

/-- Each algorithm has a queue of its own, the workers serve the queues of the registry, and the
broker delivers on a queue what was published on it. -/
structure Routed {K : Type} (registry : String → Option (AlgorithmMetadata S))
    (log : List (LogEntry S K)) : Prop where
  distinct : ∀ name name' metadata metadata', registry name = some metadata →
    registry name' = some metadata' → metadata.queue = metadata'.queue → metadata = metadata'
  served : ∀ t metadata msg, .launched t (.deliver metadata msg) ∈ log →
    ∃ name, registry name = some metadata
  published : ∀ t metadata msg, .launched t (.deliver metadata msg) ∈ log →
    ∃ t' r, .called t' (.publish metadata.queue msg.data) r ∈ log

/-- A delivery is for the algorithm that the request names. -/
theorem Routed.requested {K : Type} [Zero K] [Add K]
    {registry : String → Option (AlgorithmMetadata S)} {c : LoggedState S K}
    (hrun : (system registry gid).traced.Run (fun _ _ => True) (Machine.start (World.empty, [])) c)
    (hrouted : Routed registry c.state.2) {t₀ : ℕ} {req : GenerateRequest S} {file : UploadFile S}
    {communityId : ℤ} (hrequest : .launched t₀ (.startGeneration req file communityId) ∈ c.state.2)
    {metadata : AlgorithmMetadata S} {msg : Msg S}
    (hdelivered : .launched t (.deliver metadata msg) ∈ c.state.2) :
    registry req.algorithmName = some metadata := by
  obtain ⟨name, hname⟩ := hrouted.served t metadata msg hdelivered
  obtain ⟨t', r, hpublished⟩ := hrouted.published t metadata msg hdelivered
  obtain ⟨request, -, -, honly, name', metadata', event, hname', hmetadata', hqueue, -⟩ :=
    published_by_creator hrun hpublished
  cases honly _ hrequest rfl
  cases hname'
  rw [hmetadata', hrouted.distinct _ _ _ _ hname hmetadata' hqueue]

/-- What the solver processes return for the generation is what brute force computes. -/
def SolvedByBruteForce (rounded : Nan K → String) (keySort : BruteForce.Blanks.KeySort K)
    (log : List (LogEntry (onTables S readers) (Nan K))) : Prop :=
  ∀ t algorithm (inputs : BruteForce.BruteForceInput ⊕ S.AlgoInput) (m : RawMatrices K) result,
    .called t (.solve algorithm inputs m) (.ok result) ∈ log →
      ∃ input, inputs = .inl input ∧ runBruteForce rounded keySort input m = some result

variable [IsStrictOrderedRing K]
  {registry : String → Option (AlgorithmMetadata (onTables S readers))}

/-- **What is stored of an uploaded table.** When a request uploads a table of nonnegative readings
and brute force solves the generation, then in every state of every run the result rows are what the
user has left of the rows of one result, which the algorithm returned for that table and the
validated inputs of that request. They are those of valid keys: each splits the production among the
requested number of iterations and every iteration among the consumers of the table, the keys are
stored in the order of their final surplus, and the first of them leaves only what the production
exceeds the demand by. -/
theorem stored_of_upload {rounded : Nan K → String} {keySort : BruteForce.Blanks.KeySort K}
    {c : LoggedState (onTables S readers) (Nan K)}
    (hrun : (system registry gid).traced.Run (fun _ _ => True) (Machine.start (World.empty, [])) c)
    (hroundTrips : RoundTrips registry) (hrouted : Routed registry c.state.2)
    (hsolver : SolvedByBruteForce rounded keySort c.state.2) {t₀ : ℕ}
    {req : GenerateRequest (onTables S readers)} {file : UploadFile (onTables S readers)}
    {communityId : ℤ} (hrequest : .launched t₀ (.startGeneration req file communityId) ∈ c.state.2)
    {table : UploadedTable K}
    (hparsed : readers.parseFile file.content
      ((file.filename.filter (· ≠ "")).getD "uploaded-file") = .ok table.frame)
    (hinjection : table.injectionName = req.injectionName.getD "")
    (hnonneg : table.NonNegative) :
    c.state.1.results = [] ∨ ∃ metadata input m t result first keys,
      registry req.algorithmName = some metadata ∧
      metadata.validate req.inputs = .ok (.inl input) ∧ table.load = .ok m ∧
      .called t (.solve metadata.name (.inl input) m) (.ok result) ∈ c.state.2 ∧
      c.state.1.results.Sublist (numbered first (resultRows gid communityId result)) ∧
      (c.state.1.keyDeleted = false →
        c.state.1.results = numbered first (resultRows gid communityId result)) ∧
      result.keys = keys.map (BruteForce.Blanks.keyMap Nan.number) ∧
      BruteForce.ValidKeys table.shownNames table.unavoidable
        (BruteForce.BruteForceInput.iterations input) keys := by
  rcases kept_of_run (Machine.run_erase hrun) with
    hnil | ⟨row, t, result, first, hrow, hsolved, hsublist, hall⟩
  · exact Or.inl hnil
  have honly : ∀ t role, .launched t role ∈ c.state.2 → role.creates = true →
      role = .startGeneration req file communityId := by
    rcases request_of_run hrun with hnone | ⟨t₁, request, -, honly⟩
    · have hcreates := hnone _ _ hrequest
      cases hcreates
    · cases honly _ hrequest rfl
      intro t₂ role hmem hcreates
      cases honly _ hmem hcreates
      rfl
  have hdocumented := documented_of_run hrun honly
  -- the algorithm is the requested one, and its inputs are those of the request
  obtain ⟨algorithm, inputs, m, hcalled⟩ := hdocumented.solved _ hsolved
  obtain ⟨role, hlaunched, metadata, msg, model, rfl, rfl, hhanded⟩ :=
    asks_of_run hrun honly hcalled
  have hregistered := hrouted.requested hrun hrequest hlaunched
  obtain ⟨input, rfl, hresult⟩ := hsolver _ _ _ _ _ hcalled
  obtain ⟨metadata', validated, hmetadata', hvalidated, rfl⟩ := hhanded.requested
  obtain rfl : metadata = metadata' := Option.some_injective _ (hregistered.symm.trans hmetadata')
  have hinputs : metadata.validate (metadata.dump validated) = .ok (.inl input) := hhanded.valid
  rw [hroundTrips _ _ _ _ hregistered hvalidated] at hinputs
  cases hinputs
  -- the result is what brute force makes of the uploaded file
  obtain ⟨key, content, fileName, -, hfileName, hcontent, hload⟩ := hhanded.read
  cases hfileName
  cases hcontent
  have hload : readers.load file.content _ (req.injectionName.getD "") = .ok m := hload
  rw [← hinjection] at hload
  have htable := load_table hparsed hload
  obtain ⟨keys, hkeys, hvalid⟩ :=
    UploadedTable.validKeys_of_table rounded keySort input htable hnonneg hresult
  -- and the row is the request's
  obtain ⟨model', hrequested, hsame⟩ := hdocumented.sourced.row row hrow
  obtain ⟨_, _, -, -, rfl⟩ := hrequested
  have hcommunity : row.idCommunity = communityId := by rw [hsame]; rfl
  rw [hcommunity] at hsublist hall
  exact Or.inr ⟨metadata, input, m, t, result, first, keys, hregistered, hvalidated, htable,
    hcalled, hsublist, hall, hkeys, hvalid⟩

/-! One house that takes one of three units, and brute force with one iteration. -/

def solarReaders : TableReaders plainServices ℚ where
  parseFile _ _ :=
    .ok ⟨[0], [("house", [some 1]), ("solar", [some 3])], by decide⟩
  pivot _ _ := .error (.classified "")

def solarTable : UploadedTable ℚ where
  frame := ⟨[0], [("house", [some 1]), ("solar", [some 3])], by decide⟩
  injectionName := "solar"
  distinct := by decide
  injection := by decide

theorem solarTable_nonNegative : solarTable.NonNegative := by
  simp [UploadedTable.NonNegative, solarTable]

def solarInput : BruteForce.BruteForceInput := ⟨1, by decide, by decide⟩

def solarMetadata : AlgorithmMetadata (onTables plainServices solarReaders) where
  name := "brute_force"
  version := "1"
  queue := "optimce.allocation.brute_force"
  validate _ := .ok (.inl solarInput)
  dump _ := ()

def solarResult : AlgorithmResult (Nan ℚ) :=
  (runBruteForce (fun _ => "") .insertion solarInput ⟨[[some 1]], [[some 3]], ["house"]⟩).getD ⟨[]⟩

def solarRun : List (Step (onTables plainServices solarReaders) (Nan ℚ)) :=
  [.launch 1 (.startGeneration ⟨"generation", "brute_force", some "solar", ()⟩
      ⟨none, (), "uuid"⟩ 7)]
    ++ [.ok, .ok, .ok, .ok, .ok, .ok].map (.act 1)
    ++ [.launch 2 (.deliver solarMetadata ⟨⟨"generation.requested", 1, some 1⟩, some 1⟩)]
    ++ [.ok, .ok, .ok, .result solarResult, .ok, .ok, .ok, .ok, .ok, .ok].map (.act 2)

/-- The entry is not a run of the algorithm, or one that has returned what brute force computes. -/
def isBruteForce : LogEntry (onTables plainServices solarReaders) (Nan ℚ) → Bool
  | .called _ (.solve _ (.inl input) m) (.ok result) =>
      decide (runBruteForce (fun _ => "") .insertion input m = some result)
  | .called _ (.solve _ (.inr _) _) (.ok _) => false
  | _ => true

def uploadsSolar : LogEntry (onTables plainServices solarReaders) (Nan ℚ) → Bool
  | .launched _ (.startGeneration req _ _) => req.injectionName == some "solar"
  | _ => false

/-- The message of the delivery has been published on the queue of brute force. -/
def isSent : LogEntry (onTables plainServices solarReaders) (Nan ℚ) → Bool
  | .called _ (.publish subject (Event.mk type version generationId)) _ =>
      subject == solarMetadata.queue && type == "generation.requested" && version == 1 &&
        generationId == some 1
  | _ => false

theorem solvedByBruteForce_of_all
    {log : List (LogEntry (onTables plainServices solarReaders) (Nan ℚ))}
    (h : log.all isBruteForce = true) : SolvedByBruteForce (fun _ => "") .insertion log := by
  intro t algorithm inputs m result hcalled
  have hentry := List.all_eq_true.mp h _ hcalled
  cases inputs with
  | inl input => exact ⟨input, rfl, of_decide_eq_true hentry⟩
  | inr input => cases hentry

theorem solar_roundTrips : RoundTrips fun _ => some solarMetadata := by
  intro name metadata inputs validated hmetadata hvalidated
  cases hmetadata
  exact hvalidated

/-- The only delivery of the play is of the message that the request has sent. -/
theorem solar_routed {log : List (LogEntry (onTables plainServices solarReaders) (Nan ℚ))}
    (hlaunched : ∀ t role, .launched t role ∈ log → .launch t role ∈ solarRun)
    (hsent : log.any isSent = true) : Routed (fun _ => some solarMetadata) log := by
  have hdelivery : ∀ t metadata msg, .launched t (.deliver metadata msg) ∈ log →
      metadata = solarMetadata ∧ msg = ⟨⟨"generation.requested", 1, some 1⟩, some 1⟩ := by
    intro t metadata msg h
    have hstep : t = 2 ∧ metadata = solarMetadata ∧
        msg = ⟨⟨"generation.requested", 1, some 1⟩, some 1⟩ := by
      simpa [solarRun] using hlaunched t _ h
    exact hstep.2
  refine ⟨fun name name' metadata metadata' h h' _ => ?_, fun t metadata msg h => ?_,
    fun t metadata msg h => ?_⟩
  · exact Option.some_injective _ (h.symm.trans h')
  · exact ⟨"", by rw [(hdelivery t metadata msg h).1]⟩
  · obtain ⟨rfl, rfl⟩ := hdelivery t metadata msg h
    obtain ⟨entry, hentry, hpublished⟩ := List.any_eq_true.mp hsent
    cases entry with
    | launched t' role => cases hpublished
    | called t' o r =>
      cases o with
      | publish subject data =>
        obtain ⟨type, version, generationId⟩ := data
        simp only [isSent, Bool.and_eq_true, beq_iff_eq] at hpublished
        obtain ⟨⟨⟨rfl, rfl⟩, rfl⟩, rfl⟩ := hpublished
        exact ⟨t', r, hentry⟩
      | _ => cases hpublished

theorem stored_of_upload_solar :
    ∃ (c : LoggedState (onTables plainServices solarReaders) (Nan ℚ)) (communityId : ℤ),
      ∃ input m t result first keys,
        solarMetadata.validate () = .ok (.inl input) ∧ solarTable.load = .ok m ∧
        .called t (.solve solarMetadata.name (.inl input) m) (.ok result) ∈ c.state.2 ∧
        c.state.1.results.Sublist (numbered first (resultRows 1 communityId result)) ∧
        (c.state.1.keyDeleted = false →
          c.state.1.results = numbered first (resultRows 1 communityId result)) ∧
        result.keys = keys.map (BruteForce.Blanks.keyMap Nan.number) ∧
        BruteForce.ValidKeys solarTable.shownNames solarTable.unavoidable
          (BruteForce.BruteForceInput.iterations input) keys := by
  have hplay : ((system (K := Nan ℚ) (fun _ => some solarMetadata) 1).traced.play
      (fun _ _ => True) solarRun (Machine.start (World.empty, []))).any (fun c =>
        !c.state.1.results.isEmpty && c.state.2.all isBruteForce && c.state.2.any isSent &&
          c.state.2.any uploadsSolar) = true := by
    decide +kernel
  obtain ⟨c, hc, hrun⟩ : ∃ c, (system (K := Nan ℚ) (fun _ => some solarMetadata) 1).traced.play
      (fun _ _ => True) solarRun (Machine.start (World.empty, [])) = some c ∧ _ :=
    (Option.any_eq_true _ _).mp hplay
  simp only [Bool.and_eq_true] at hrun
  obtain ⟨⟨⟨hresults, hsolver⟩, hsent⟩, huploads⟩ := hrun
  have hrouted := solar_routed (fun t role h => (Machine.launched_of_play hc h).resolve_left
    (fun h => by cases h)) hsent
  obtain ⟨entry, hentry, hsolar⟩ := List.any_eq_true.mp huploads
  rcases entry with ⟨t, role⟩ | ⟨t, o, r⟩
  · cases role with
    | startGeneration req file communityId =>
      have hinjection : req.injectionName = some "solar" := by simpa [uploadsSolar] using hsolar
      have hinjection : solarTable.injectionName = req.injectionName.getD "" := by
        rw [hinjection]
        rfl
      rcases stored_of_upload (Machine.run_of_play hc) solar_roundTrips hrouted
        (solvedByBruteForce_of_all hsolver) hentry rfl hinjection solarTable_nonNegative with
        hnil | ⟨metadata, input, m, t, result, first, keys, hmetadata, hstored⟩
      · rw [hnil] at hresults
        cases hresults
      · cases hmetadata
        exact ⟨c, communityId, input, m, t, result, first, keys, hstored⟩
    | _ => cases hsolar
  · cases hsolar

end Tables

end AllocationKeys.Generation
