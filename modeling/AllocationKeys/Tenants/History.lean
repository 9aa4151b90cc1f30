import AllocationKeys.Tenants.Written

/-!
# What becomes of a result

What the solver returns for a generation is written to three tables, shown to the users of the
community and, when one of them saves it, copied to the CRM. In between, keys of all communities
come and go. `History` are the runs of requests and completions with the results that the solver has
returned in them; in all of them

* every key of the tables is one of a result, for as long as it is there, and what a request shows
  of it is what the algorithm returned, its iterations and their consumers in the order that the
  query brings them (`keys_of_history`);
* the CRM has the keys it had and after them copies of keys of results, and a request to save a key
  adds one copy of that key when it succeeds, and nothing else does (`crm_of_history`).
-/

namespace AllocationKeys.Tenants

open Algorithms Generation Program

variable {S : Services} {K α : Type} {db db' start : Databases S K} {scope : Option ℤ} {idKey : ℕ}

/-! ### Keys of results -/

/-- The row is one of a result. -/
def Computed [Zero K] [Add K] (results : List (AlgorithmResult K))
    (row : AllocationKeyGeneratedModel K) : Prop :=
  ∃ result ∈ results, row ∈ resultRows row.idGeneration row.idCommunity result

/-- What an answer shows of a key, without the ids. -/
def AllocationKeyGenerated.result (data : AllocationKeyGenerated K) : AllocationKeyResult K where
  name := data.name
  description := data.description
  iterations := data.iterations.map fun iteration =>
    { number := iteration.number
      energyAllocatedPercentage := iteration.energyAllocatedPercentage
      surplusTotal := iteration.surplusTotal
      consumers := iteration.consumers.map fun consumer =>
        ⟨consumer.name, consumer.energyAllocatedPercentage⟩ }

/-- The key of a result that the rows are of. -/
def treeResult (tree : Tree ℤ ℤ (KeyColumns K) (IterationColumns K) (ConsumerColumns K)) :
    AllocationKeyResult K where
  name := tree.columns.name
  description := tree.columns.description
  iterations := tree.nodes.map fun node =>
    { number := node.columns.number
      energyAllocatedPercentage := node.columns.energyAllocatedPercentage
      surplusTotal := node.columns.surplusTotal
      consumers := node.leaves.map fun leaf =>
        ⟨leaf.columns.name, leaf.columns.energyAllocatedPercentage⟩ }

/-- A key as the CRM keeps it, which has no surplus. -/
def crmTree (community : ℤ) (key : AllocationKeyResult K) : CrmTree K where
  parent := ()
  owner := community
  columns := ⟨key.name, key.description⟩
  nodes := key.iterations.map fun iteration =>
    { owner := community
      columns := ⟨iteration.number, iteration.energyAllocatedPercentage⟩
      leaves := iteration.consumers.map fun consumer =>
        ⟨community, consumer.name, consumer.energyAllocatedPercentage⟩ }

theorem result_toSchema [Zero K] [Add K] (key : KeyTree K) :
    (toAllocationKeyGeneratedSchema key).result = treeResult key.content := by
  simp [AllocationKeyGenerated.result, toAllocationKeyGeneratedSchema, toIterationGeneratedSchema,
    toConsumerGeneratedSchema, treeResult, Tree.content, Node.content, Function.comp_def]

/-- Keys that differ in an order have copies that do. -/
theorem reorders_crmTree {tree tree' : Tree ℤ ℤ (KeyColumns K) (IterationColumns K)
    (ConsumerColumns K)} (h : tree.Reorders tree') :
    (crmTree tree.owner (treeResult tree)).Reorders (crmTree tree'.owner (treeResult tree')) where
  parent := rfl
  owner := h.owner
  columns := by simp only [crmTree, treeResult, h.columns]
  nodes := by
    obtain ⟨nodes, hnodes, hperm⟩ := h.nodes
    simp only [crmTree, treeResult, List.map_map, h.owner]
    refine ⟨nodes.map _, ?_, hperm.map _⟩
    rw [List.forall₂_map_left_iff, List.forall₂_map_right_iff]
    refine hnodes.imp fun node node' hnode => ⟨rfl, ?_, (hnode.leaves.map _).map _⟩
    simp only [Function.comp_apply, hnode.columns]

/-- The copy of a key with one owner. -/
theorem toAllocationKeyCrm_eq {key : KeyTree K} (h : key.OwnedBy key.owner) :
    toAllocationKeyCrm key = crmTree key.owner (treeResult key.content) := by
  have hnodes : key.nodes.map toIterationCrm =
      (crmTree key.owner (treeResult key.content)).nodes := by
    simp only [crmTree, treeResult, Tree.content, List.map_map]
    refine List.map_congr_left fun node hnode => ?_
    have hleaves : node.leaves.map toConsumerCrm = node.leaves.map fun leaf =>
        ⟨key.owner, leaf.columns.2.name, leaf.columns.2.energyAllocatedPercentage⟩ :=
      List.map_congr_left fun leaf hleaf => by rw [toConsumerCrm, h.leaf node hnode leaf hleaf]
    simp [toIterationCrm, Node.content, hleaves, h.node node hnode, Function.comp_def]
  rw [toAllocationKeyCrm, hnodes]
  rfl

section Computed

variable [Zero K] [Add K] {results : List (AlgorithmResult K)} {row : AllocationKeyGeneratedModel K}

theorem Computed.mono {results' : List (AlgorithmResult K)} (h : Computed results row)
    (hsub : ∀ result ∈ results, result ∈ results') : Computed results' row := by
  obtain ⟨result, hresult, hrow⟩ := h
  exact ⟨result, hsub result hresult, hrow⟩

theorem computed_of_mem {result : AlgorithmResult K} (hresult : result ∈ results) {id community : ℤ}
    (hrow : row ∈ resultRows id community result) : Computed results row := by
  refine ⟨result, hresult, ?_⟩
  obtain ⟨key, -, rfl⟩ := List.mem_map.mp hrow
  exact hrow

/-- The rows of a key of a result are read as that key. -/
theorem Computed.treeResult_mem (h : Computed results row) :
    ∃ result ∈ results, treeResult (keyTree row) ∈ result.keys := by
  obtain ⟨result, hresult, hrow⟩ := h
  obtain ⟨key, hkey, hmake⟩ := List.mem_map.mp hrow
  refine ⟨result, hresult, ?_⟩
  have heq : treeResult (keyTree row) = key := by
    rw [← hmake]
    simp [treeResult, keyTree, Function.comp_def]
  rwa [heq]

end Computed

/-! ### Requests for one key -/

section Requests

variable {text : TextRules}

/-- The query for a key finds it in the scope of the request, and reads it in some order. -/
def Finds (db : Databases S K) (idKey : ℕ) (scope : Option ℤ) (key : KeyTree K) : Prop :=
  ∃ root ∈ db.keys.roots, root.id = idKey ∧ scope = some root.owner ∧
    ∃ arrangement, key = db.keys.read arrangement root

/-- What a query finds is a tree of the tables, in another order. -/
theorem Finds.reorders {key : KeyTree K} (h : Finds db idKey scope key) :
    key.columns.1 = idKey ∧ ∃ tree, (idKey, tree) ∈ db.keys.trees ∧ scope = some tree.owner ∧
      key.content.Reorders tree := by
  obtain ⟨root, hroot, rfl, hscope, arrangement, rfl⟩ := h
  exact ⟨rfl, _, List.mem_map_of_mem hroot, hscope,
    (Rows.reorders_read db.keys.toRows arrangement root).content⟩

theorem Finds.ownedBy {key : KeyTree K} (h : Finds db idKey scope key) (hsound : db.Sound) :
    key.OwnedBy key.owner := by
  obtain ⟨root, hroot, -, -, arrangement, rfl⟩ := h
  exact hsound.descends.ownedBy_read arrangement hroot

theorem ends_selectTree : (selectTree idKey scope : RequestProgram S K _).Ends (exec text) db
    fun _ out db' => db' = db ∧ ∀ key, out = .ok (some key) → Finds db idKey scope key := by
  refine ends_callExcept fun choice r db' hexec => ?_
  refine ⟨exec_query (o := .selectTree idKey scope) trivial hexec, fun key hkey => ?_⟩
  obtain ⟨rfl, ⟨arrangement, rfl⟩ | ⟨e, rfl⟩⟩ := orArranged_cases hexec
  · obtain ⟨root, hfind, rfl⟩ := Option.map_eq_some_iff.mp (Except.ok.inj hkey)
    have htest := List.find?_some hfind
    rw [Bool.and_eq_true, beq_iff_eq, beq_iff_eq] at htest
    exact ⟨root, List.mem_of_find?_eq_some hfind, htest.1, htest.2, arrangement, rfl⟩
  · cases hkey

/-- The request failed and has written nothing to the CRM, or it has written one copy of the key. -/
def Saved (before : Databases S K) (idKey : ℕ) (scope : Option ℤ) (out : Except Exc α)
    (after : Databases S K) : Prop :=
  ((∃ e, out = .error e) ∧ after.crm.contents = before.crm.contents) ∨
    ∃ key, Finds before idKey scope key ∧
      after.crm.contents = before.crm.contents ++ [toAllocationKeyCrm key]

theorem saved_error (db : Databases S K) (e : Exc) :
    Saved db idKey scope (.error e : Except Exc α) db :=
  Or.inl ⟨⟨e, rfl⟩, rfl⟩

/-- A copy is written once, by the commit. -/
theorem ends_saveKey (hfresh : db.crm.Fresh) :
    (saveKey idKey scope : RequestProgram S K Unit).Ends (exec text) db
      fun _ out db' => Saved db idKey scope out db' := by
  refine ends_selectTree.bind (fun _ found db₁ h => ?_) fun _ e db₁ h => ?_
  · obtain ⟨rfl, hfinds⟩ := h
    cases found with
    | none => exact ends_raise (saved_error _ _)
    | some key =>
      have hcopy : ∀ {db₂ : Databases S K} {out : Except Exc Unit},
          db₂.crm.contents = db₁.crm.contents ++ [toAllocationKeyCrm key] →
            Saved db₁ idKey scope out db₂ := fun heq => Or.inr ⟨key, hfinds key rfl, heq⟩
      have hflush : (saveAllocationKey (toAllocationKeyCrm key) : RequestProgram S K ℕ).Ends
          (exec text) db₁ fun _ out db₂ => db₂ = db₁ ∧ (∃ e, out = .error e) ∨
            db₂ = db₁.flushCrmKey (toAllocationKeyCrm key) ∧ ∃ id, out = .ok id :=
        ends_callExcept fun choice r db₂ hexec => by
          rcases orFail_cases hexec with hok | ⟨rfl, e, rfl⟩
          · cases hok
            exact Or.inr ⟨rfl, _, rfl⟩
          · exact Or.inl ⟨rfl, e, rfl⟩
      -- the flush gives the copy its id, and only the commit makes it stay
      refine hflush.bind (fun _ id db₂ h => ?_) fun _ e db₂ h => ?_
      · rcases h with ⟨-, e, heq⟩ | ⟨rfl, -⟩
        · cases heq
        have hcommit : (commitCrmSession : RequestProgram S K Unit).Ends (exec text)
            (db₁.flushCrmKey (toAllocationKeyCrm key)) fun _ out db₃ =>
              db₃.crm.contents = db₁.crm.contents ++ [toAllocationKeyCrm key] ∨
                (∃ e, out = .error e) ∧ db₃.crm.contents = db₁.crm.contents :=
          ends_callExcept fun choice r db₃ hexec => by
            rcases orLost_cases hexec with rfl | ⟨rfl, e, rfl⟩
            · exact Or.inl (Forest.contents_add hfresh _)
            · exact Or.inr ⟨⟨e, rfl⟩, rfl⟩
        refine hcommit.bind (fun _ u db₃ h => ?_) fun _ e db₃ h => ?_
        · rcases h with heq | ⟨⟨e, herror⟩, -⟩
          · -- the copy is committed, so the audit entry may be lost without it
            have haudit : ∀ entry, (ofPipeline (stageAudit entry) : RequestProgram S K Bool).Ends
                (exec text) db₃ fun _ _ db₄ => db₄.crm = db₃.crm := fun entry =>
              ends_call fun choice r db₄ hexec =>
                have hstage : execPipeline (.stageAudit entry) choice db₃ = some (r, db₄) := hexec
                ends_ret (crm_execPipeline hstage).1
            refine (haudit _).bind (fun _ _ db₄ h₄ => ends_ret (hcopy (by rw [h₄, heq])))
              fun _ e db₄ h₄ => hcopy (by rw [h₄, heq])
          · cases herror
        · rcases h with heq | ⟨-, heq⟩
          · exact hcopy heq
          · exact Or.inl ⟨⟨e, rfl⟩, heq⟩
      · rcases h with ⟨rfl, -⟩ | ⟨-, id, heq⟩
        · exact saved_error _ _
        · cases heq
  · obtain ⟨rfl, -⟩ := h
    exact saved_error _ _

variable [Zero K] [Add K] {registry : String → Option (AlgorithmMetadata S)}

/-- A request ends as its service method, with the error its route answers with, and the end of its
sessions leaves what they have committed. -/
theorem ends_serve {request : Request S} {post : Except Exc (Response K) → Databases S K → Prop}
    (hhandle : (request.handle (K := K) text registry scope).Ends (exec text) db
      fun _ out db' => post out db')
    (herror : ∀ e e' db', post (.error e) db' → post (.error e') db')
    (hclosed : ∀ out db', post out db' →
      post out ({ db' with flushed := none } : Databases S K).rollbackCrm) :
    (request.serve (K := K) text registry scope).Ends (exec text) db
      fun _ out db' => post out db' := by
  have hdefault : (withDefaultError request.defaultError
      (request.handle (K := K) text registry scope)).Ends (exec text) db
        fun _ out db' => post out db' := by
    refine Ends.tryCatch (hhandle.mono fun events out db₁ h₁ => ?_)
    cases out with
    | ok response => exact h₁
    | error e => cases e <;> exact ends_raise (herror _ _ _ h₁)
  have hattempt : (withDefaultError request.defaultError
      (request.handle (K := K) text registry scope)).attempt.Ends (exec text) db
        fun _ result db' => ∃ out, result = .ok out ∧ post out db' :=
    Ends.attempt (hdefault.mono fun _ out _ h => ⟨out, rfl, h⟩)
  refine hattempt.bind (fun _ result db₁ h => ?_) fun _ e db₁ h => ?_
  · obtain ⟨out, heq, hpost⟩ := h
    cases heq
    refine ends_call fun choice r db₂ hexec => ?_
    cases hexec
    refine ends_call fun choice r db₃ hexec => ?_
    cases hexec
    exact ends_ofExcept (hclosed _ _ hpost)
  · obtain ⟨out, heq, -⟩ := h
    cases heq

/-- What a request for a key shows. -/
theorem ends_getAllocationKey :
    ((Request.getAllocationKey idKey).serve (K := K) text registry scope).Ends (exec text) db
      fun _ out _ => ∀ data, out = .ok (.key data) →
        ∃ key, Finds db idKey scope key ∧ data = toAllocationKeyGeneratedSchema key := by
  refine ends_serve ?_ (fun e e' db' _ data heq => by cases heq) fun out db' h => h
  refine ends_selectTree.bind (fun _ found db₁ h => ?_) fun _ e db₁ h data heq => by cases heq
  cases found with
  | none => exact ends_raise fun data heq => by cases heq
  | some key =>
    refine ends_ret fun data heq => ?_
    cases heq
    exact ⟨key, h.2 key rfl, rfl⟩

theorem ends_save (hfresh : db.crm.Fresh) :
    ((Request.saveKey idKey).serve (K := K) text registry scope).Ends (exec text) db
      fun _ out db' => Saved db idKey scope out db' := by
  refine ends_serve ?_ (fun e e' db' h => ?_) fun out db' h => h
  · refine (ends_saveKey hfresh).bind (fun _ u db₁ h => ends_ret ?_) fun _ e db₁ h => ?_
    · rcases h with ⟨⟨e, heq⟩, -⟩ | hcopy
      · cases heq
      · exact Or.inr hcopy
    · exact h.imp_left fun hnone => ⟨⟨e, rfl⟩, hnone.2⟩
  · exact h.imp_left fun hnone => ⟨⟨e', rfl⟩, hnone.2⟩

end Requests

/-! ### Runs with their results -/

section Runs

variable [Zero K] [Add K] {results : List (AlgorithmResult K)}

/-- The result of a call of the solver. -/
def returned : Op S K × Choice S K → Option (AlgorithmResult K)
  | (.solve .., .result result) => some result
  | _ => none

/-- The results that the solver answers with are of `P`. -/
def Answers (P : AlgorithmResult K → Prop) : (o : Op S K) → Resp S K o → Prop
  | .solve .., answer => ∀ result, answer = .ok result → P result
  | _, _ => True

variable (text : TextRules) (registry : String → Option (AlgorithmMetadata S)) in
/-- The runs from `start`, with the results that the solver has returned. -/
inductive History (start : Databases S K) : Databases S K → List (AlgorithmResult K) → Prop where
  | initial (h : start.Initial) : History start start []
  | request {db db' : Databases S K} {results : List (AlgorithmResult K)}
      (h : History start db results) (scope : Option ℤ) (request : Request S) {events out}
      (hrun : (request.serve text registry scope).Performs (exec text) db.opened events out db') :
      History start db' results
  | delivery {db db' : Databases S K} {results : List (AlgorithmResult K)}
      (h : History start db results) (metadata : AlgorithmMetadata S) (msg : Msg S) {events out}
      (hrun : (handleMessage metadata msg).Performs execPipeline db.opened events out db') :
      History start db' (results ++ events.filterMap returned)
  | success {db db' : Databases S K} {results : List (AlgorithmResult K)}
      (h : History start db results) (id : ℤ) (result : AlgorithmResult K) {events out}
      (hrun : (saveSuccess id result).Performs execPipeline db.opened events out db') :
      History start db' (results ++ [result])
  | failure {db db' : Databases S K} {results : List (AlgorithmResult K)}
      (h : History start db results) (id : ℤ) (errorMessage : String) {events out}
      (hrun : (saveFailure id errorMessage).Performs execPipeline db.opened events out db') :
      History start db' results

variable {text : TextRules} {registry : String → Option (AlgorithmMetadata S)}

theorem History.initial_start (h : History text registry start db results) : start.Initial := by
  induction h with
  | initial h => exact h
  | _ => assumption

theorem History.reachable (h : History text registry start db results) :
    Reachable text registry db := by
  induction h with
  | initial h => exact .initial h
  | request _ scope request hrun ih => exact ih.step (.request scope request hrun)
  | delivery _ metadata msg hrun ih => exact ih.step (.delivery metadata msg hrun)
  | success _ id result hrun ih => exact ih.step (.success id result hrun)
  | failure _ id errorMessage hrun ih => exact ih.step (.failure id errorMessage hrun)

/-- A key of two iterations. -/
def sharedResult : AlgorithmResult ℕ :=
  ⟨[⟨"key", "", [⟨1, 60, 0, [⟨"first", 2⟩, ⟨"second", 1⟩]⟩, ⟨2, 40, 0, [⟨"first", 1⟩]⟩]⟩]⟩

/-- The numbers of the iterations that an answer shows. -/
def shownNumbers : Except Exc (Response ℕ) → List ℕ
  | .ok (.key data) => data.iterations.map fun iteration => iteration.number
  | _ => []

/-- Community 2 creates a generation, the worker completes it, and the key is saved. Shown instead,
it comes with its second iteration first. -/
theorem exists_history : ∃ (db db' db'' : Databases plainServices ℕ)
    (results : List (AlgorithmResult ℕ))
    (events events' : List (RequestOp plainServices ℕ × Choice plainServices ℕ))
    (response : Response ℕ) (data : AllocationKeyGenerated ℕ),
    History plainText plainRegistry emptyDatabases db results ∧ db.keys.trees ≠ [] ∧
      ((Request.saveKey 0).serve plainText plainRegistry (some 2)).Performs (exec plainText)
        db.opened events (.ok response) db' ∧
      ((Request.getAllocationKey 0).serve plainText plainRegistry (some 2)).Performs
        (exec plainText) db.opened events' (.ok (.key data)) db'' ∧
      data.iterations.map (fun iteration => iteration.number) = [2, 1] := by
  have hplay : (perform (exec plainText) [.ok, .ok, .ok, .ok, .ok, .ok, .ok, .ok] startOfOther
      emptyDatabases.opened).any (fun start =>
        (perform execPipeline [.ok, .ok, .ok, .result sharedResult, .ok, .ok, .ok, .ok, .ok, .ok,
          .ok, .ok, .ok, .ok, .ok] (handleMessage plainMetadata
            ⟨⟨"generation.requested", 1, some 1⟩, some 1⟩) start.2.2.opened).any fun delivery =>
          (!delivery.2.2.keys.roots.isEmpty &&
            (perform (exec plainText) [.arranged .stored, .ok, .ok, .ok, .ok, .ok]
              ((Request.saveKey 0).serve plainText plainRegistry (some 2))
              delivery.2.2.opened).any fun save => save.2.1.toBool) &&
          (perform (exec plainText) [.arranged ⟨[1, 0], []⟩, .ok, .ok]
            ((Request.getAllocationKey 0).serve plainText plainRegistry (some 2))
            delivery.2.2.opened).any fun shown => shownNumbers shown.2.1 == [2, 1]) = true := by
    decide +kernel
  obtain ⟨_, _, db₁, hstart, hplay⟩ := exists_of_perform hplay
  obtain ⟨_, _, db, hdelivery, hplay⟩ := exists_of_perform hplay
  rw [Bool.and_eq_true, Bool.and_eq_true, Bool.not_eq_true', List.isEmpty_eq_false_iff] at hplay
  obtain ⟨events, out, db', hsave, hok⟩ := exists_of_perform hplay.1.2
  obtain ⟨events', shown, db'', hget, hnumbers⟩ := exists_of_perform hplay.2
  have hhistory := History.delivery (.request (.initial initial_emptyDatabases) _ _ hstart) _ _
    hdelivery
  have hne : db.keys.trees ≠ [] := fun hnil => hplay.1.1 (List.map_eq_nil_iff.mp hnil)
  cases out with
  | error e => cases hok
  | ok response =>
    cases shown with
    | error e => cases hnumbers
    | ok answer =>
      cases answer with
      | key data => exact ⟨db, db', db'', _, events, events', response, data, hhistory, hne, hsave,
          hget, eq_of_beq hnumbers⟩
      | _ => cases hnumbers

/-! ### The tables along a run -/

/-- A delivery adds rows of the results the solver answers with. -/
theorem written_delivery {keys : KeyForest K} {metadata : AlgorithmMetadata S} {msg : Msg S}
    {events : List (Op S K × Choice S K)} {out : Except Exc Unit}
    (hrun : (handleMessage metadata msg).Performs execPipeline db events out db')
    (hwritten : Written (Computed results) keys db.keys) :
    Written (Computed (results ++ events.filterMap returned)) keys db'.keys := by
  have hcalls : (handleMessage metadata msg : Pipeline S K Unit).CallsGiven
      (Answers fun result => result ∈ events.filterMap returned)
      (Op.Writes (Provides (Computed (results ++ events.filterMap returned)))) := by
    refine writes_handleMessage (fun _ key hkey => nomatch hkey) ?_ metadata msg
    intro algorithm inputs rawData result hanswer id community key hkey
    exact computed_of_mem (List.mem_append_right _ (hanswer result rfl)) hkey
  refine hcalls.keeps (I := fun db => Written _ keys db.keys) hrun ?_
    (fun o ho choice s r s' hexec => written_execPipeline ho hexec)
    (hwritten.mono fun key hkey => hkey.mono fun _ => List.mem_append_left _)
  rintro ⟨o, choice⟩ hevent s r s' hexec
  cases o with
  | solve algorithm inputs rawData =>
    intro result hr
    cases choice with
    | result answer =>
      cases hexec
      cases hr
      exact List.mem_filterMap.mpr ⟨_, hevent, rfl⟩
    | crash detail | fail detail =>
      cases hexec
      cases hr
    | _ => cases hexec
  | _ => trivial

theorem written_history (h : History text registry start db results) :
    Written (Computed results) start.keys db.keys := by
  induction h with
  | initial h => exact .of_sound _ h.sound
  | request _ scope request hrun ih =>
    exact (calls_serve scope request).keeps (I := fun db => Written (Computed _) start.keys db.keys)
      (fun _ ho _ _ _ _ hexec => written_exec ho hexec) _ ih _ _ _ hrun
  | delivery _ metadata msg hrun ih => exact written_delivery hrun ih
  | success _ id result hrun ih =>
    refine written_calls (writes_saveOutcome id (fun row key hkey => ?_) _) hrun
      (ih.mono fun key hkey => hkey.mono fun _ => List.mem_append_left _)
    exact computed_of_mem (List.mem_append_right _ (List.mem_singleton_self result)) hkey
  | failure _ id errorMessage hrun ih =>
    exact written_calls (writes_saveOutcome id (fun _ key hkey => nomatch hkey) _) hrun ih

/-- Whatever happens, a key that was there is what it was or gone. -/
theorem later_happens (hsound : db.Sound) (h : Happens text registry db db') :
    db.keys.Later db'.keys := by
  have hstart : Written (fun _ => True) db.keys db.opened.keys := .of_sound _ hsound
  have hany : ∀ o : Op S K, o.Writes (Provides fun _ => True) := by
    intro o
    cases o with
    | commit write =>
      cases write with
      | outcome status errorMessage keys => exact fun _ _ => trivial
      | _ => trivial
    | _ => trivial
  have hcalls : ∀ p : Pipeline S K Unit, p.Calls (Op.Writes (Provides fun _ => True)) := fun p =>
    (calls_true p).mono fun o _ => hany o
  cases h with
  | request scope request hrun =>
    exact ((calls_serve scope request).keeps
      (I := fun s => Written (fun _ => True) db.keys s.keys)
      (fun _ ho _ _ _ _ hexec => written_exec ho hexec) _ hstart _ _ _ hrun).later
  | delivery metadata msg hrun => exact (written_calls (hcalls _) hrun hstart).later
  | success id result hrun => exact (written_calls (hcalls _) hrun hstart).later
  | failure id errorMessage hrun => exact (written_calls (hcalls _) hrun hstart).later

theorem later_run (hreach : Reachable text registry db)
    (h : Relation.ReflTransGen (Happens text registry) db db') : db.keys.Later db'.keys := by
  have hboth : Reachable text registry db' ∧ db.keys.Later db'.keys := by
    induction h with
    | refl => exact ⟨hreach, .refl _⟩
    | tail _ hstep ih =>
      exact ⟨ih.1.step hstep, ih.2.trans (later_happens (sound_reachable ih.1) hstep)⟩
  exact hboth.2

/-- Every tree of the tables is that of a key of a result. -/
theorem computed_trees (h : History text registry start db results)
    {entry : ℕ × Tree ℤ ℤ (KeyColumns K) (IterationColumns K) (ConsumerColumns K)}
    (hentry : entry ∈ db.keys.trees) : ∃ result ∈ results, treeResult entry.2 ∈ result.keys := by
  have hempty : start.keys.trees = [] := by rw [Rows.trees, h.initial_start.roots, List.map_nil]
  rcases (written_history h).trees entry hentry with hold | ⟨row, hcomputed, heq⟩
  · rw [hempty] at hold
    cases hold
  · rw [heq]
    exact hcomputed.treeResult_mem

/-- **A key is written once, and shown as it was computed.** In every state of every run, every key
of the tables is one that the solver has returned, no matter which requests and completions of which
communities came after; while it is there it does not change, and once it is gone its id is not
given again. What a request for a key shows is a key of its community with that id, as the solver
has returned it: its iterations, each with its consumers, in the order that the query brings. -/
theorem keys_of_history (h : History text registry start db results) :
    (db.keys.trees.map Prod.fst).Nodup ∧
      (∀ entry ∈ db.keys.trees, ∃ result ∈ results, treeResult entry.2 ∈ result.keys) ∧
      (∀ db', Relation.ReflTransGen (Happens text registry) db db' →
        ∀ entry ∈ db'.keys.trees, entry.1 < db.keys.nextRoot → entry ∈ db.keys.trees) ∧
      ∀ scope idKey events data db',
        ((Request.getAllocationKey idKey).serve (K := K) text registry scope).Performs (exec text)
          db.opened events (.ok (.key data)) db' →
        data.id = idKey ∧ ∃ tree shown, (idKey, tree) ∈ db.keys.trees ∧ scope = some tree.owner ∧
          (∃ result ∈ results, treeResult tree ∈ result.keys) ∧
          shown.Reorders tree ∧ data.result = treeResult shown := by
  refine ⟨(written_history h).numbered.trees_nodup, fun _ => computed_trees h,
    fun db' hrun => (later_run h.reachable hrun).old, ?_⟩
  intro scope idKey events data db' hrun
  obtain ⟨key, hfinds, rfl⟩ := ends_getAllocationKey _ _ _ hrun data rfl
  obtain ⟨hid, tree, hmem, hscope, hreorders⟩ := hfinds.reorders
  exact ⟨hid, tree, key.content, hmem, hscope, computed_trees h hmem, hreorders,
    result_toSchema key⟩

/-- The key of a generation that has succeeded, shown with its second iteration first. -/
theorem keys_of_history_computed : ∃ (db db' : Databases plainServices ℕ)
    (results : List (AlgorithmResult ℕ)) (data : AllocationKeyGenerated ℕ)
    (tree shown : Tree ℤ ℤ (KeyColumns ℕ) (IterationColumns ℕ) (ConsumerColumns ℕ)),
    (db.keys.trees.map Prod.fst).Nodup ∧
      (∀ entry ∈ db.keys.trees, ∃ result ∈ results, treeResult entry.2 ∈ result.keys) ∧
      (∀ entry ∈ db'.keys.trees, entry.1 < db.keys.nextRoot → entry ∈ db.keys.trees) ∧
      data.iterations.map (fun iteration => iteration.number) = [2, 1] ∧
      (0, tree) ∈ db.keys.trees ∧ shown.Reorders tree ∧ data.result = treeResult shown := by
  obtain ⟨db, db', db'', results, events, events', response, data, hhistory, -, hsave, hget,
    hnumbers⟩ := exists_history
  obtain ⟨hnodup, hcomputed, hlater, hshown⟩ := keys_of_history hhistory
  obtain ⟨-, tree, shown, hmem, -, -, hreorders, hresult⟩ := hshown _ _ _ _ _ hget
  exact ⟨db, db', results, data, tree, shown, hnodup, hcomputed,
    hlater db' (.single (.request _ _ hsave)), hnumbers, hmem, hreorders, hresult⟩

/-! ### The CRM along a run -/

/-- Only requests to save a key change the CRM. -/
theorem crm_other {request : Request S} (hsaves : ¬ request.Saves)
    {events : List (RequestOp S K × Choice S K)} {out : Except Exc (Response K)}
    (hrun : (request.serve text registry scope).Performs (exec text) db.opened events out db') :
    db'.crm = db.crm := by
  have hcalls : (request.serve (K := K) text registry scope).Calls
      (RequestOp.Within (Op.Writes (Provides fun _ => True)) False) := by
    have hserve : (request.serve (K := K) text registry scope).Calls
        (RequestOp.Within (Op.Writes (Provides fun _ => True)) request.Saves) :=
      calls_serve scope request
    refine hserve.mono fun o ho => ?_
    cases o with
    | flushCrmKey key => exact hsaves ho
    | _ => exact ho
  have hkeep : (request.serve (K := K) text registry scope).Keeps (exec text)
      fun s : Databases S K => s.crm = db.crm ∧ s.stagedCrm = none :=
    hcalls.keeps fun o ho choice s r s' hexec hs => by
      obtain ⟨hcrm, hstaged⟩ := crm_exec ho hexec hs.2
      exact ⟨hcrm.trans hs.1, hstaged⟩
  exact (hkeep db.opened ⟨rfl, rfl⟩ _ _ _ hrun).1

/-- What a request to save a key leaves in the CRM. -/
theorem copied_of_save (h : History text registry start db results)
    {events : List (RequestOp S K × Choice S K)} {out : Except Exc (Response K)}
    (hrun : ((Request.saveKey idKey).serve text registry scope).Performs (exec text) db.opened
      events out db') :
    ((∃ e, out = .error e) ∧ db'.crm.contents = db.crm.contents) ∨
      ∃ tree copy, (idKey, tree) ∈ db.keys.trees ∧ scope = some tree.owner ∧
        copy.Reorders (crmTree tree.owner (treeResult tree)) ∧
        db'.crm.contents = db.crm.contents ++ [copy] := by
  have hsound := sound_reachable h.reachable
  have hfresh : db.opened.crm.Fresh := hsound.crm_fresh
  rcases ends_save hfresh _ _ _ hrun with herror | ⟨key, hfinds, heq⟩
  · exact Or.inl herror
  · obtain ⟨-, tree, hmem, hscope, hreorders⟩ := hfinds.reorders
    rw [toAllocationKeyCrm_eq (hfinds.ownedBy (sound_opened hsound))] at heq
    exact Or.inr ⟨tree, _, hmem, hscope, reorders_crmTree hreorders, heq⟩

/-- **The CRM gets copies of computed keys, one for each save.** In every state of every run, the
CRM holds the keys it had at the start, unchanged and in their order, and after them copies of keys
that the solver has returned, for one community each. A request to save a key that fails has written
nothing or one copy, and one that succeeds has written exactly one, of the key with that id in the
community of the request. No other request writes to the CRM, and no delivery or completion does. -/
theorem crm_of_history (h : History text registry start db results) :
    (∃ saved : List (CrmTree K), db.crm.contents = start.crm.contents ++ saved ∧
      ∀ copy ∈ saved, ∃ result ∈ results, ∃ key ∈ result.keys,
        copy.Reorders (crmTree copy.owner key)) ∧
      (∀ scope idKey events out db',
        ((Request.saveKey idKey).serve (K := K) text registry scope).Performs (exec text) db.opened
          events out db' →
        ((∃ e, out = .error e) ∧ db'.crm.contents = db.crm.contents) ∨
          ∃ tree copy, (idKey, tree) ∈ db.keys.trees ∧ scope = some tree.owner ∧
            copy.Reorders (crmTree tree.owner (treeResult tree)) ∧
            db'.crm.contents = db.crm.contents ++ [copy]) ∧
      (∀ scope (request : Request S) events out db', ¬ request.Saves →
        (request.serve (K := K) text registry scope).Performs (exec text) db.opened events out db' →
        db'.crm.contents = db.crm.contents) ∧
      (∀ metadata msg events out db',
        (handleMessage metadata msg).Performs execPipeline db.opened events out db' →
        db'.crm.contents = db.crm.contents) ∧
      (∀ id result events out db',
        (saveSuccess id result).Performs execPipeline db.opened events out db' →
        db'.crm.contents = db.crm.contents) ∧
      ∀ id errorMessage events out db',
        (saveFailure id errorMessage).Performs execPipeline db.opened events out db' →
        db'.crm.contents = db.crm.contents := by
  refine ⟨?_, fun _ _ _ _ _ hrun => copied_of_save h hrun,
    fun _ _ _ _ _ hsaves hrun => by rw [crm_other hsaves hrun],
    fun _ _ _ _ _ hrun => by rw [crm_pipeline hrun],
    fun _ _ _ _ _ hrun => by rw [crm_pipeline hrun],
    fun _ _ _ _ _ hrun => by rw [crm_pipeline hrun]⟩
  induction h with
  | initial h => exact ⟨[], by rw [List.append_nil], fun copy hcopy => nomatch hcopy⟩
  | @request db db' results h scope request events out hrun ih =>
    obtain ⟨saved, hcontents, hsaved⟩ := ih
    by_cases hsaves : request.Saves
    · cases request with
      | saveKey idKey =>
        -- the copy is one of a stored key, and so of a key some result has
        rcases copied_of_save h hrun with ⟨-, heq⟩ | ⟨tree, new, hmem, -, hreorders, heq⟩
        · exact ⟨saved, heq.trans hcontents, hsaved⟩
        · refine ⟨saved ++ [new], by rw [heq, hcontents, List.append_assoc], fun copy hcopy => ?_⟩
          rcases List.mem_append.mp hcopy with hold | hnew
          · exact hsaved copy hold
          · obtain ⟨result, hresult, hkey⟩ := computed_trees h hmem
            rw [List.mem_singleton.mp hnew]
            refine ⟨result, hresult, _, hkey, ?_⟩
            rw [hreorders.owner]
            exact hreorders
      | _ => exact hsaves.elim
    · -- every other request leaves the CRM tables
      exact ⟨saved, by rw [crm_other hsaves hrun, hcontents], hsaved⟩
  | delivery _ metadata msg hrun ih | success _ id result hrun ih =>
    obtain ⟨saved, hcontents, hsaved⟩ := ih
    refine ⟨saved, by rw [crm_pipeline hrun, hcontents], fun copy hcopy => ?_⟩
    obtain ⟨result, hresult, hkey⟩ := hsaved copy hcopy
    exact ⟨result, List.mem_append_left _ hresult, hkey⟩
  | failure _ id errorMessage hrun ih =>
    obtain ⟨saved, hcontents, hsaved⟩ := ih
    exact ⟨saved, by rw [crm_pipeline hrun, hcontents], hsaved⟩

/-- The key of a generation that has succeeded, when community 2 saves it and then looks at it. -/
theorem crm_of_history_saved : ∃ (db db' db'' : Databases plainServices ℕ)
    (tree : Tree ℤ ℤ (KeyColumns ℕ) (IterationColumns ℕ) (ConsumerColumns ℕ)) (copy : CrmTree ℕ),
      (0, tree) ∈ db.keys.trees ∧ some 2 = some tree.owner ∧
        copy.Reorders (crmTree tree.owner (treeResult tree)) ∧
        db'.crm.contents = db.crm.contents ++ [copy] ∧
        db''.crm.contents = db.crm.contents := by
  obtain ⟨db, db', db'', results, events, events', response, data, hhistory, -, hsave, hget, -⟩ :=
    exists_history
  obtain ⟨-, hsaved, hother, -⟩ := crm_of_history hhistory
  rcases hsaved _ _ _ _ _ hsave with ⟨⟨e, herror⟩, -⟩ | ⟨tree, copy, hmem, hscope, hcopy, heq⟩
  · cases herror
  · exact ⟨db, db', db'', tree, copy, hmem, hscope, hcopy, heq,
      hother _ (.getAllocationKey 0) _ _ _ (fun hsaves => hsaves) hget⟩

end Runs

end AllocationKeys.Tenants
