import AllocationKeys.Generation.Runs

/-!
# One result for each generation

Any number of deliveries of one message, in any order of their steps and with the user deleting
the generation or its keys, commit at most one end, and all that is left of the generation is
what that commit wrote (`oneResult_of_run`).
-/

namespace AllocationKeys.Generation

open Algorithms Concurrent Program

variable {S : Services} {K : Type} {gid : ℤ} {t : ℕ}
  {registry : String → Option (AlgorithmMetadata S)}

/-- Everything that is left of a generation comes from one commit, or from none. -/
structure OneResult [Zero K] [Add K] (gid : ℤ) (w : World S K) : Prop where
  once : w.Once
  current : ∀ row, w.row = some row → Current row w.history
  /-- Unless the user deleted a key, a success has the rows of one result, which the thread that
  committed it got from one run of the algorithm. -/
  success : ∀ row, w.row = some row → row.status = .success → w.keyDeleted = false →
    ∃ o result, w.history = [o] ∧ (o.thread, result) ∈ w.solved ∧
      w.results.map Prod.snd = resultRows gid row.idCommunity result
  others : (∀ row, w.row = some row → row.status ≠ .success) → w.results = []
  completions : AtMostOne tellsMetric w.history w.completions
  audits : AtMostOne AuditLogInput.Tells w.history w.audits
  events : AtMostOne tellsEvent w.history w.events

/-! ### The start -/

/-- No request is creating the generation any more. -/
structure World.Created (w : World S K) : Prop where
  creator : w.creator = none
  created : w.created = true

theorem created_apply {w : World S K} (h : w.Created) (write : Write S K) :
    (w.apply t write).Created := by
  cases write with
  | insert row => exact ⟨h.creator, rfl⟩
  | outcome status errorMessage keys =>
    simp only [World.apply, World.settle]
    split
    · exact h
    · exact ⟨h.creator, h.created⟩
  | save status errorMessage =>
    simp only [World.apply, World.settle]
    split
    · exact h
    · exact ⟨h.creator, h.created⟩
  | delete =>
    simp only [World.apply, World.remove]
    split
    · exact h
    · exact ⟨h.creator, h.created⟩
  | deleteKey id =>
    simp only [World.apply, World.removeKey]
    split
    · exact ⟨h.creator, h.created⟩
    · exact h

variable [Zero K] [Add K]

theorem inv_queuedFor (row : GenerationModel S) (content : S.Content) :
    Inv gid (World.queuedFor row content : World S K) where
  lock _ hlock := by cases hlock
  uncreated hfalse := by cases hfalse
  gone hgone := by cases hgone.2
  queued _ := Or.inr ⟨_, rfl, fun key hkey => ⟨content, by
    show row.fileStorageKey.map _ = _
    rw [show row.fileStorageKey = some key from hkey]
    rfl⟩⟩
  current row' hrow' := by
    cases hrow'
    exact ⟨rfl, rfl⟩
  ends o ho := by cases ho
  later o ho := by cases ho
  empty hnone := by cases hnone
  owned key hkey := by cases hkey
  complete _ _ := rfl
  completions := ⟨fun x hx => (by cases hx), List.nodup_nil⟩
  audits := ⟨fun x hx => (by cases hx), List.nodup_nil⟩
  events := ⟨fun x hx => (by cases hx), List.nodup_nil⟩

theorem created_step {c c' : State S K} {label : Step S K} (h : c.state.Created)
    (hstep : (system registry gid).step c label = some c') : c'.state.Created := by
  rcases Machine.step_cases hstep with ⟨t, role, w, -, -, hlaunch, rfl⟩ |
    ⟨t, choice, role, o, next, r, w, rfl, hrunning, hexec, rfl⟩ | ⟨t, role, rest, -, -, rfl⟩
  · have hlaunch : launch gid t role c.state = some w := hlaunch
    cases role <;> simp only [launch, h.created, Bool.true_eq_false, false_and, if_false] at hlaunch
    case deliver => split at hlaunch <;> cases hlaunch; exact h
    case deleteGeneration => cases hlaunch; exact h
    case deleteKey => cases hlaunch; exact h
    all_goals cases hlaunch
  · rcases exec_rows hexec with hsame | ⟨write, -, -, rfl⟩
    · exact ⟨hsame.creator.trans h.creator, hsame.created.trans h.created⟩
    · have happly := created_apply (t := t) h write
      exact ⟨happly.creator, happly.created⟩
  · exact ⟨h.creator, h.created⟩

/-- Without a request that creates the generation nothing is saved. -/
theorem savesWhilePending_of_created {c : State S K} (hgood : Reached gid registry c)
    (h : c.state.Created) (label : Step S K) : SavesWhilePending c label := by
  cases label with
  | act t choice =>
    intro hsaves
    obtain ⟨role, status, errorMessage, next, hrunning⟩ := of_saves hsaves
    obtain ⟨-, hcreator⟩ : c.state.lock = some t ∧ c.state.creator = some t :=
      hgood.pre hrunning
    rw [h.creator] at hcreator
    cases hcreator
  | launch t role => trivial
  | kill t => trivial

theorem run_of_created {c c' : State S K} (hgood : Reached gid registry c) (h : c.state.Created)
    (hrun : (system registry gid).Run (fun _ _ => True) c c') :
    (system registry gid).Run SavesWhilePending c c' ∧ c'.state.Created := by
  induction hrun with
  | refl => exact ⟨Relation.ReflTransGen.refl, h⟩
  | tail hrun hstep ih =>
    obtain ⟨label, -, hstep⟩ := hstep
    obtain ⟨hsaves, hcreated⟩ := ih
    have hgood' := good_of_run system_obeys hgood hrun
    exact ⟨hsaves.tail ⟨label, savesWhilePending_of_created hgood' hcreated label, hstep⟩,
      created_step hcreated hstep⟩

/-! ### One result -/

theorem oneResult_of_once {w : World S K} (hinv : Inv gid w) (honce : w.Once) :
    OneResult gid w where
  once := honce
  current := hinv.current
  success row hrow hstatus hkept := by
    have hcurrent := hinv.current row hrow
    rcases honce with hnil | ⟨o, hone, -⟩
    · rw [hnil] at hcurrent
      have hpending := hcurrent.1
      rw [hstatus] at hpending
      cases hpending
    · rw [hone] at hcurrent
      have hend := hinv.ends o (by rw [hone]; exact List.mem_singleton.mpr rfl)
      obtain ⟨-, result, hsolved, hkeys⟩ := hend.success (hcurrent.1.symm.trans hstatus)
      refine ⟨o, result, hone, hsolved, ?_⟩
      rw [hinv.complete (by rw [hrow]; simp) hkept, hone, ← hkeys row hrow]
      simp
  others := results_of_once hinv honce
  completions := hinv.completions.atMostOne honce
  audits := hinv.audits.atMostOne honce
  events := hinv.events.atMostOne honce

/-- **Exactly one result for each generation**: in every state that deliveries of its message,
however their steps interleave, fail or are cut short, and the deletions of the user reach from
the moment the message is queued. -/
theorem oneResult_of_run (row : GenerationModel S) (content : S.Content) {c : State S K}
    (hrun : (system registry gid).Run (fun _ _ => True)
      (Machine.start (World.queuedFor row content)) c) : OneResult gid c.state := by
  have hgood : Reached (K := K) gid registry (Machine.start (World.queuedFor row content)) :=
    good_start (inv_queuedFor row content)
  obtain ⟨hsaves, -⟩ := run_of_created hgood ⟨rfl, rfl⟩ hrun
  obtain ⟨hgood', honce, -⟩ := once_of_run hgood (Or.inl rfl) hsaves
  exact oneResult_of_once hgood'.inv honce

/-- Two deliveries find the row pending and solve; the one that claims it first is saved. -/
def racingDeliveries : List (Step plainServices ℕ) :=
  [.launch 1 plainDelivery, .launch 2 plainDelivery]
    ++ acts 1 [.ok, .ok, .ok, .result (plainResult 60), .ok]
    ++ acts 2 [.ok, .ok, .ok, .result (plainResult 40), .ok]
    -- both sessions have read the row when the second thread claims it
    ++ acts 1 [.ok] ++ acts 2 [.ok, .ok, .ok, .ok, .ok] ++ acts 1 [.ok, .ok, .ok]
    ++ acts 2 [.ok, .ok, .ok, .ok, .ok]

def racedRow : GenerationModel plainServices where
  name := "generation"
  idCommunity := 7
  source := .file
  fileStorageKey := "allocations/7/uuid/file"
  fileName := "file"
  injectionName := none
  idSharingOperation := none
  periodStart := none
  periodEnd := none
  algorithmName := "brute_force"
  algorithmVersion := "1"
  inputs := ()
  status := .pending
  errorMessage := none
  dataWarnings := none

theorem oneResult_of_run_racing :
    ∃ c : State plainServices ℕ, c.state.results.length = 1 ∧ OneResult 1 c.state := by
  have hplay : ((system (K := ℕ) (fun _ => none) 1).play (fun _ _ => True) racingDeliveries
      (Machine.start (World.queuedFor racedRow ()))).any
        (fun c => c.state.results.length == 1) = true := by decide +kernel
  obtain ⟨c, hrun, hc⟩ := Machine.exists_of_play hplay
  exact ⟨c, by simpa using hc, oneResult_of_run racedRow () hrun⟩

end AllocationKeys.Generation
