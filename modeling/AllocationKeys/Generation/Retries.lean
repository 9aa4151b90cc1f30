import AllocationKeys.Generation.Crashes
import AllocationKeys.Generation.OneResult
import Mathlib.Data.Finset.Card

/-!
# How often a generation is retried

The broker numbers the deliveries of a message and stops after `maxDeliver`. Whatever ends each of
them, and however they overlap (`retries_bounded`):

* fewer than `maxDeliveries` of them load the input or start the solver;
* only those below `maxSolverCrashDeliveries` nak after a solver crash;
* a final row and its results stay as they are;
* once the local write of `save_success` or `save_failure` has gone through, the row is final.
-/

namespace AllocationKeys.Generation

open Algorithms Concurrent Program

variable {S : Services} {K α : Type} {gid : ℤ} {t : ℕ} {n : Option ℕ}

/-- `_MAX_DELIVER`. -/
def maxDeliver : ℕ := maxDeliveries + 1

/-! ### Numbered deliveries -/

/-- The deliveries on the log with their counts, the latest first. -/
def deliveries (log : List (LogEntry S K)) : List (ℕ × Option ℕ) :=
  log.filterMap fun e => match e with
    | .launched t (.deliver _ msg) => some (t, msg.numDelivered)
    | _ => none

/-- Only deliveries begin, each with the next number, and none after the last one. -/
def Numbered (c : LoggedState S K) : Step S K → Prop
  | .launch _ (.deliver _ msg) =>
      msg.numDelivered = some ((deliveries c.state.2).length + 1) ∧
        (deliveries c.state.2).length < maxDeliver
  | .launch _ _ => False
  | _ => True

instance (c : LoggedState S K) : (label : Step S K) → Decidable (Numbered c label)
  | .launch _ (.deliver ..) => inferInstanceAs (Decidable (_ ∧ _))
  | .launch _ (.startGeneration ..) => isFalse id
  | .launch _ (.startGenerationFromCrm ..) => isFalse id
  | .launch _ (.deleteGeneration _) => isFalse id
  | .launch _ (.deleteKey ..) => isFalse id
  | .act .. => isTrue trivial
  | .kill _ => isTrue trivial

theorem deliver_of_numbered {c : LoggedState S K} {role : Role S}
    (h : Numbered c (.launch t role)) : ∃ metadata msg, role = .deliver metadata msg ∧
      msg.numDelivered = some ((deliveries c.state.2).length + 1) := by
  cases role with
  | deliver metadata msg => exact ⟨metadata, msg, rfl, h.1⟩
  | _ => exact absurd h id

/-- The numbers are 1, 2, …, in the order of the launches. -/
def Counted (log : List (LogEntry S K)) : Prop :=
  (deliveries log).map Prod.snd =
    ((List.range (deliveries log).length).map fun i => some (i + 1)).reverse

theorem mem_deliveries {log : List (LogEntry S K)} {metadata : AlgorithmMetadata S} {msg : Msg S}
    (h : .launched t (.deliver metadata msg) ∈ log) : (t, msg.numDelivered) ∈ deliveries log :=
  List.mem_filterMap.mpr ⟨_, h, rfl⟩

theorem countP_range (k n : ℕ) : (List.range n).countP (fun i => decide (i + 1 < k)) ≤ k - 1 := by
  have hmin : (List.range n).countP (fun i => decide (i + 1 < k)) ≤ min n (k - 1) := by
    induction n with
    | zero => simp
    | succ n ih =>
      rw [List.range_succ, List.countP_append, List.countP_singleton]
      by_cases hn : n + 1 < k
      · simp only [hn, decide_true, if_true]
        omega
      · simp only [hn, decide_false, Bool.false_eq_true, if_false]
        omega
  omega

/-- The deliveries numbered below the limit. -/
def early (log : List (LogEntry S K)) : Finset ℕ :=
  (((deliveries log).filter fun d => d.2.any (· < maxDeliveries)).map Prod.fst).toFinset

theorem card_early {log : List (LogEntry S K)} (h : Counted log) :
    (early log).card ≤ maxDeliveries - 1 := by
  calc (early log).card ≤ _ := List.toFinset_card_le _
    _ = ((deliveries log).map Prod.snd).countP fun n => n.any (· < maxDeliveries) := by
        rw [List.length_map, ← List.countP_eq_length_filter, List.countP_map]
        rfl
    _ = (List.range (deliveries log).length).countP fun i => decide (i + 1 < maxDeliveries) := by
        rw [h, List.countP_reverse, List.countP_map]
        rfl
    _ ≤ maxDeliveries - 1 := countP_range _ _

theorem mem_early {log : List (LogEntry S K)} (h : Counted log) {metadata : AlgorithmMetadata S}
    {msg : Msg S} (hmem : .launched t (.deliver metadata msg) ∈ log)
    (hlimit : ∀ n, msg.numDelivered = some n → n < maxDeliveries) : t ∈ early log := by
  have hdelivery := mem_deliveries hmem
  -- every delivery has a number
  have hnumber : msg.numDelivered ∈ (deliveries log).map Prod.snd :=
    List.mem_map_of_mem hdelivery
  rw [h, List.mem_reverse, List.mem_map] at hnumber
  obtain ⟨i, -, hi⟩ := hnumber
  refine List.mem_toFinset.mpr (List.mem_map.mpr ⟨_, List.mem_filter.mpr ⟨hdelivery, ?_⟩, rfl⟩)
  show msg.numDelivered.any _ = true
  rw [← hi]
  simpa using hlimit _ hi.symm

variable [Zero K] [Add K] {registry : String → Option (AlgorithmMetadata S)}

/-- The numbers of a run. -/
theorem counted_of_run {w : World S K} {c : LoggedState S K}
    (hrun : (system registry gid).traced.Run Numbered (Machine.start (w, [])) c) :
    Counted c.state.2 ∧ ∀ t role, .launched t role ∈ c.state.2 →
      ∃ metadata msg, role = .deliver metadata msg := by
  induction hrun with
  | refl => exact ⟨rfl, fun _ _ h => by cases h⟩
  | @tail b c _ hstep ih =>
    obtain ⟨label, hok, hstep⟩ := hstep
    obtain ⟨hcounted, hdeliver⟩ := ih
    rcases Machine.step_cases hstep with ⟨t, role, s, rfl, -, hlaunch, rfl⟩ |
      ⟨t, choice, role, o, next, r, s, -, -, hexec, rfl⟩ | ⟨t, role, rest, -, -, rfl⟩
    · obtain ⟨w', -, rfl⟩ := Option.map_eq_some_iff.mp hlaunch
      obtain ⟨metadata, msg, rfl, hnumber⟩ := deliver_of_numbered hok
      constructor
      · show msg.numDelivered :: (deliveries b.state.2).map Prod.snd = _
        rw [hcounted, hnumber]
        show _ =
          ((List.range ((deliveries b.state.2).length + 1)).map fun i => some (i + 1)).reverse
        rw [List.range_succ, List.map_append, List.reverse_append]
        rfl
      · intro t' role' hmem
        rcases List.mem_cons.mp hmem with heq | hmem
        · cases heq
          exact ⟨metadata, msg, rfl⟩
        · exact hdeliver t' role' hmem
    · obtain ⟨-, hlog⟩ := Machine.exec_traced hexec
      refine ⟨?_, fun t' role' hmem => hdeliver t' role' ?_⟩
      · show Counted s.2
        rw [hlog]
        exact hcounted
      · have hmem : .launched t' role' ∈ s.2 := hmem
        rw [hlog] at hmem
        exact (List.mem_cons.mp hmem).resolve_left fun heq => by cases heq
    · exact ⟨hcounted, hdeliver⟩

/-! ### Loading and solving -/

/-- The reads of the input, and the start of the solver. -/
def Op.loads : Op S K → Bool
  | .download _ | .summarize .. | .fetchRows .. | .solve .. => true
  | _ => false

omit [Zero K] [Add K] in
theorem loads_of_ofSave {o : Op S K} (h : o.OfSave) : o.loads = false := by
  cases o <;> first | rfl | exact absurd h id

/-- From the limit on, nothing is loaded. -/
theorem calls_process_late (metadata : AlgorithmMetadata S) (generationId : ℤ) {delivered : ℕ}
    (h : maxDeliveries ≤ delivered) :
    (process metadata generationId (some delivered) : Pipeline S K Terminal).Calls
      fun o => o.loads = false := by
  have hsnapshot : (snapshotGeneration generationId : Pipeline S K _).Calls
      fun o => o.loads = false :=
    calls_withLocalSession rfl (Calls.bind (calls_call rfl) fun _ => trivial)
  refine hsnapshot.bind fun snapshot => ?_
  split
  · trivial
  · dsimp only
    split
    · trivial
    · simp only [Option.filter, h, decide_true, if_true]
      exact (calls_failWith ..).mono fun _ => loads_of_ofSave

/-- **Only the deliveries below the limit load the input or start the solver.** -/
theorem calls_handleMessage_early (metadata : AlgorithmMetadata S) (msg : Msg S) :
    (handleMessage metadata msg : Pipeline S K Unit).Calls fun o =>
      o.loads = true → ∀ n, msg.numDelivered = some n → n < maxDeliveries := by
  by_cases hearly : ∀ n, msg.numDelivered = some n → n < maxDeliveries
  · exact (calls_true _).mono fun _ _ _ => hearly
  · push Not at hearly
    obtain ⟨delivered, hnumber, hlate⟩ := hearly
    suffices hnone : (handleMessage metadata msg : Pipeline S K Unit).Calls
        fun o => o.loads = false from
      hnone.mono fun o ho hloads => by
        rw [ho] at hloads
        cases hloads
    unfold handleMessage
    rw [hnumber]
    split
    · exact Calls.bind (calls_call rfl) fun _ => calls_ask rfl
    · split
      · exact Calls.bind (calls_call rfl) fun _ => calls_ask rfl
      · refine (calls_process_late metadata _ hlate).attempt.bind fun outcome => ?_
        split
        · exact Calls.bind (calls_call rfl) fun _ => calls_ask rfl
        · refine Calls.bind ((calls_saveOutcome ..).mono fun _ => loads_of_ofSave) fun _ => ?_
          exact Calls.bind (calls_call rfl) fun _ => calls_ask rfl
        · refine Calls.bind (calls_call rfl) fun _ => ?_
          split
          · exact calls_ask rfl
          · trivial

/-! ### Runs of deliveries -/

/-- **No delivery naks after a solver crash from the crash limit on.** -/
theorem mayRetry_of_run {w : World S K} {c : LoggedState S K}
    (hrun : (system registry gid).traced.Run Numbered (Machine.start (w, [])) c)
    {metadata : AlgorithmMetadata S} {msg : Msg S} {delay : ℕ}
    {next : Resp S K (.nak delay) → Pipeline S K Unit}
    (hrunning : c.threads t = .running (.deliver metadata msg) (.call (.nak delay) next))
    (hcrash : Has isCrash t c.state) : MayRetry msg.numDelivered := by
  have hrestricted : (deliveriesOnly gid registry).Run Numbered (Machine.start (w, [])) c := by
    refine Machine.run_restrict (fun c t role hrun hok hidle => ⟨?_, fun e he ht => ?_⟩)
      (fun _ _ _ _ _ _ _ _ _ => trivial) hrun
    · obtain ⟨metadata, msg, hrole, -⟩ := deliver_of_numbered hok
      exact ⟨metadata, msg, hrole⟩
    · exact Machine.not_idle_of_run hrun he (by rw [ht]; exact hidle)
  have hgood := good_of_run deliveriesOnly_obeys (good_start trivial) hrestricted
  exact hgood.pre hrunning delay rfl hcrash metadata msg (Machine.launched_of_run hrun hrunning)

/-! ### The row -/

/-- The row has a final status. -/
def World.Final (w : World S K) : Prop := ∃ row, w.row = some row ∧ row.status ≠ .pending

/-- The row and its results stay, or the row was pending and has become final. -/
def World.Moves (w w' : World S K) : Prop :=
  (w'.row = w.row ∧ w'.results = w.results) ∨
    (∃ row, w.row = some row ∧ row.status = .pending) ∧ w'.Final

/-- The local write of a helper has gone through, or has found no pending row. -/
def isSaved : LogEntry S K → Bool
  | .called _ (.commit (.outcome ..)) (.ok _) => true
  | .called _ (.updateWherePending ..) (.ok 0) => true
  | _ => false

theorem final_settle {w : World S K} {status : GenerationStatus} {errorMessage : Option String}
    {keys : List (AllocationKeyGeneratedModel K)}
    (hpre : pre t (.commit (.outcome status errorMessage keys)) w)
    (hinv : Inv gid ((w.apply t (.outcome status errorMessage keys)).release t)) :
    ((w.apply t (.outcome status errorMessage keys)).release t).Final := by
  obtain ⟨-, row, hrow, -⟩ := hpre
  rw [World.apply, settle_eq hrow] at hinv ⊢
  exact ⟨_, rfl, (hinv.ends _ (List.mem_cons_self ..)).final⟩

/-- A call of a worker. -/
theorem moves_exec {o : Op S K} {choice : Choice S K} {r : Resp S K o} {w w' : World S K}
    (hworker : o.OfWorker) (hpre : pre t o w) (hinv : Inv gid w')
    (h : exec gid t o choice w = some (r, w')) : w.Moves w' := by
  rcases exec_rows h with hsame | ⟨write, rfl, -, rfl⟩
  · exact Or.inl ⟨hsame.row, hsame.results⟩
  · cases write with
    | outcome status errorMessage keys =>
      exact Or.inr ⟨hpre.2, final_settle hpre hinv⟩
    | _ => exact absurd hworker id

theorem final_of_saved {o : Op S K} {choice : Choice S K} {r : Resp S K o} {w w' : World S K}
    (hrow : w.row ≠ none) (hpre : pre t o w) (hinv : Inv gid w')
    (h : exec gid t o choice w = some (r, w')) (hsaved : isSaved (.called t o r) = true) :
    w'.Final := by
  cases o with
  | commit write =>
    cases write with
    | outcome status errorMessage keys =>
      cases choice <;> cases h
      · exact final_settle hpre hinv
      · cases hsaved
      · cases hsaved
    | _ => cases hsaved
  | updateWherePending id status errorMessage =>
    rcases orFail_cases h with hok | ⟨-, e, rfl⟩
    · split at hok
      · split at hok
        · rename_i row hsome
          split at hok
          · cases hok
            cases hsaved
          · cases hok
            exact ⟨row, hsome, ‹_›⟩
        · exact absurd ‹_› hrow
      · cases hok
    · cases hsaved
  | _ => cases hsaved

/-- What is known while deliveries are under way. -/
structure Underway (registry : String → Option (AlgorithmMetadata S)) (gid : ℤ)
    (c : LoggedState S K) : Prop where
  good : Reached gid registry (Machine.erase c)
  worker : ∀ t role rest, c.threads t = .running role rest → rest.Calls Op.OfWorker
  row : c.state.1.row ≠ none
  saved : (∃ e ∈ c.state.2, isSaved e = true) → c.state.1.Final

omit [Zero K] [Add K] in
theorem World.Moves.row {w w' : World S K} (h : w.Moves w') (hrow : w.row ≠ none) :
    w'.row ≠ none := by
  rcases h with ⟨hsame, -⟩ | ⟨-, row, hfinal, -⟩
  · rwa [hsame]
  · rw [hfinal]
    simp

omit [Zero K] [Add K] in
theorem World.Moves.kept {w w' : World S K} (h : w.Moves w') (hfinal : w.Final) :
    w'.row = w.row ∧ w'.results = w.results := by
  rcases h with hsame | ⟨⟨row, hrow, hpending⟩, -⟩
  · exact hsame
  · obtain ⟨row', hrow', hfinal⟩ := hfinal
    rw [hrow] at hrow'
    cases hrow'
    exact absurd hpending hfinal

omit [Zero K] [Add K] in
theorem World.Moves.final {w w' : World S K} (h : w.Moves w') (hfinal : w.Final) : w'.Final := by
  rw [World.Final, (h.kept hfinal).1]
  exact hfinal

theorem underway_step {c c' : LoggedState S K} {label : Step S K} (h : Underway registry gid c)
    (hok : Numbered c label) (hstep : (system registry gid).traced.step c label = some c') :
    Underway registry gid c' ∧ c.state.1.Moves c'.state.1 := by
  have hgood : Reached gid registry (Machine.erase c') :=
    good_step system_obeys h.good (Machine.step_erase hstep)
  have hprogram : ∀ t role, label = .launch t role →
      (program registry gid role : Pipeline S K Unit).Calls Op.OfWorker := by
    intro t role heq
    subst heq
    obtain ⟨metadata, msg, rfl, -⟩ := deliver_of_numbered hok
    exact calls_handleMessage metadata msg
  have hworker := Machine.calls_step hprogram h.worker hstep
  have hsaved : ∀ {w w' : World S K} {log : List (LogEntry S K)}, w.Moves w' →
      ((∃ e ∈ log, isSaved e = true) → w.Final) → (∃ e ∈ log, isSaved e = true) → w'.Final :=
    fun hmoves hold hentry => hmoves.final (hold hentry)
  rcases Machine.step_cases hstep with ⟨t, role, s, -, -, hlaunch, rfl⟩ |
    ⟨t, choice, role, o, next, r, s, -, hrunning, hexec, rfl⟩ | ⟨t, role, rest, -, -, rfl⟩
  · obtain ⟨w', hworld, rfl⟩ := Option.map_eq_some_iff.mp hlaunch
    obtain ⟨hrow, hresults, -⟩ := launch_rows hworld
    have hmoves : c.state.1.Moves w' := Or.inl ⟨hrow, hresults⟩
    refine ⟨⟨hgood, hworker, hmoves.row h.row, fun hentry => ?_⟩, hmoves⟩
    obtain ⟨e, he, hkind⟩ := hentry
    refine hmoves.final (h.saved ⟨e, (List.mem_cons.mp he).resolve_left fun heq => ?_, hkind⟩)
    rw [heq] at hkind
    cases hkind
  · obtain ⟨hexec, hlog⟩ := Machine.exec_traced hexec
    have hpre : pre t o c.state.1 := h.good.pre hrunning
    have hmoves : c.state.1.Moves s.1 :=
      moves_exec (h.worker t role _ hrunning).1 hpre hgood.inv hexec
    refine ⟨⟨hgood, hworker, hmoves.row h.row, fun hentry => ?_⟩, hmoves⟩
    obtain ⟨e, he, hkind⟩ := hentry
    have he : e ∈ s.2 := he
    rw [hlog] at he
    rcases List.mem_cons.mp he with rfl | he
    · exact final_of_saved h.row hpre hgood.inv hexec hkind
    · exact hmoves.final (h.saved ⟨e, he, hkind⟩)
  · have hmoves : c.state.1.Moves (c.state.1.release t) := Or.inl ⟨rfl, rfl⟩
    exact ⟨⟨hgood, hworker, h.row, fun hentry => hmoves.final (h.saved hentry)⟩, hmoves⟩

/-- Once the row is final, it and its results stay. -/
theorem underway_run {c c' : LoggedState S K} (h : Underway registry gid c)
    (hrun : (system registry gid).traced.Run Numbered c c') :
    Underway registry gid c' ∧ (c.state.1.Final →
      c'.state.1.row = c.state.1.row ∧ c'.state.1.results = c.state.1.results) := by
  induction hrun with
  | refl => exact ⟨h, fun _ => ⟨rfl, rfl⟩⟩
  | tail _ hstep ih =>
    obtain ⟨label, hok, hstep⟩ := hstep
    obtain ⟨hunder, hkept⟩ := ih
    obtain ⟨hunder', hmoves⟩ := underway_step hunder hok hstep
    refine ⟨hunder', fun hfinal => ?_⟩
    obtain ⟨hrow, hresults⟩ := hkept hfinal
    obtain ⟨hrow', hresults'⟩ := hmoves.kept (by rwa [World.Final, hrow])
    exact ⟨hrow'.trans hrow, hresults'.trans hresults⟩

theorem underway_start (row : GenerationModel S) (content : S.Content) :
    Underway registry gid
      (Machine.start (World.queuedFor row content, []) : LoggedState S K) where
  good := good_start (inv_queuedFor row content)
  worker _ _ _ hrunning := by cases hrunning
  row := by simp [Machine.start, World.queuedFor]
  saved := by
    rintro ⟨e, he, -⟩
    cases he

/-! ### Bounded retries -/

/-- The thread is about to load the input or to start the solver. -/
def Loading (t : ℕ) (c : LoggedState S K) : Prop :=
  ∃ o, nextCall (c.threads t) = some o ∧ o.loads = true

/-- What holds of the deliveries of one message between `c₀` and `c`. -/
structure BoundedRetries (registry : String → Option (AlgorithmMetadata S)) (gid : ℤ)
    (c₀ c : LoggedState S K) : Prop where
  limits : maxSolverCrashDeliveries < maxDeliveries ∧ maxDeliveries < maxDeliver
  /-- All threads that come to load or to solve are among these. -/
  loads : ∃ threads : Finset ℕ, threads.card ≤ maxDeliveries - 1 ∧
    ∀ c', (system registry gid).traced.Run Numbered c₀ c' →
      (system registry gid).traced.Run Numbered c' c → ∀ t, Loading t c' → t ∈ threads
  crashes : ∀ t metadata msg delay next,
    c.threads t = .running (.deliver metadata msg) (.call (.nak delay) next) →
      Has isCrash t c.state → MayRetry msg.numDelivered
  kept : c.state.1.Final → ∀ c', (system registry gid).traced.Run Numbered c c' →
    c'.state.1.row = c.state.1.row ∧ c'.state.1.results = c.state.1.results
  saved : (∃ e ∈ c.state.2, isSaved e = true) → c.state.1.Final

theorem mem_early_of_loading {w : World S K} {c : LoggedState S K}
    (hrun : (system registry gid).traced.Run Numbered (Machine.start (w, [])) c)
    (hloading : Loading t c) : ∃ metadata msg,
      .launched t (.deliver metadata msg) ∈ c.state.2 ∧
        ∀ n, msg.numDelivered = some n → n < maxDeliveries := by
  obtain ⟨o, hnext, hloads⟩ := hloading
  unfold nextCall at hnext
  split at hnext
  · rename_i role o' next hrunning
    cases hnext
    have hlaunched := Machine.launched_of_run hrun hrunning
    obtain ⟨metadata, msg, rfl⟩ := (counted_of_run hrun).2 t role hlaunched
    have hprogram : ∀ (c : LoggedState S K) t role, Numbered c (.launch t role) →
        (program registry gid role : Pipeline S K Unit).Calls fun o => ∀ metadata msg,
          role = .deliver metadata msg → o.loads = true →
            ∀ n, msg.numDelivered = some n → n < maxDeliveries := by
      intro c t role hok
      obtain ⟨metadata, msg, rfl, -⟩ := deliver_of_numbered hok
      refine (calls_handleMessage_early metadata msg).mono fun o ho metadata' msg' heq => ?_
      cases heq
      exact ho
    have hcalls := Machine.calls_of_run hprogram hrun t _ _ hrunning
    exact ⟨metadata, msg, hlaunched, hcalls.1 metadata msg rfl hloads⟩
  · cases hnext

/-- **A generation is not retried forever**: in every run of the deliveries of its message, from
the moment it is queued, however they end and overlap. -/
theorem retries_bounded (row : GenerationModel S) (content : S.Content) {c : LoggedState S K}
    (hrun : (system registry gid).traced.Run Numbered
      (Machine.start (World.queuedFor row content, [])) c) :
    BoundedRetries registry gid (Machine.start (World.queuedFor row content, [])) c where
  limits := by decide
  loads := by
    obtain ⟨hcounted, -⟩ := counted_of_run hrun
    refine ⟨early c.state.2, card_early hcounted, fun c' hto hfrom t hloading => ?_⟩
    obtain ⟨metadata, msg, hlaunched, hlimit⟩ := mem_early_of_loading hto hloading
    exact mem_early hcounted (Machine.mem_of_run hfrom hlaunched) hlimit
  crashes _ _ _ _ _ hrunning hcrash := mayRetry_of_run hrun hrunning hcrash
  kept hfinal _ hcont := (underway_run (underway_run (underway_start row content) hrun).1 hcont).2
    hfinal
  saved := (underway_run (underway_start row content) hrun).1.saved

/-- The delivery of the message of generation 1 with this number. -/
def numberedDelivery (number : ℕ) : Role plainServices :=
  .deliver plainMetadata
    ⟨{ type := "generation.requested", version := 1, generationId := some 1 }, some number⟩

/-- The solver dies under the first delivery, which naks, the worker under the second, and the
solver again under the third, which marks the row as failed. -/
def crashingDeliveries : List (Step plainServices ℕ) :=
  [.launch 1 (numberedDelivery 1)]
    ++ acts 1 [.ok, .ok, .ok, .crash "out of memory", .ok, .ok, .ok]
    ++ [.launch 2 (numberedDelivery 2)] ++ acts 2 [.ok, .ok, .ok] ++ [.kill 2]
    ++ [.launch 3 (numberedDelivery 3)]
    ++ acts 3 [.ok, .ok, .ok, .crash "out of memory", .ok]
    ++ acts 3 [.ok, .ok, .ok, .ok, .ok, .ok, .ok, .ok, .ok, .ok]

theorem retries_bounded_crashing :
    ∃ c : LoggedState plainServices ℕ, c.state.1.row.any (·.status == .failed) = true ∧
      BoundedRetries (fun _ => none) 1 (Machine.start (World.queuedFor racedRow (), [])) c := by
  have hplay : ((system (K := ℕ) (fun _ => none) 1).traced.play Numbered crashingDeliveries
      (Machine.start (World.queuedFor racedRow (), []))).any
        (fun c => c.state.1.row.any (·.status == .failed)) = true := by decide +kernel
  obtain ⟨c, hrun, hc⟩ := Machine.exists_of_play hplay
  exact ⟨c, hc, retries_bounded racedRow () hrun⟩

end AllocationKeys.Generation
