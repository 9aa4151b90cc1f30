import AllocationKeys.Generation.Requests

/-!
# Runs of the system

What holds along every run. A call changes at most one store (`exec_stores`), the rows only a commit
(`exec_rows`), and the status of a row changes at most once as long as nothing is saved over a final
status (`once_of_run`); then the row, its result rows and all that is announced come from one commit
(`oneResult_of_once`).
-/

namespace AllocationKeys.Generation

open Algorithms Concurrent Program

variable {S : Services} {K : Type} {gid : ℤ} {t : ℕ}
  {registry : String → Option (AlgorithmMetadata S)}

variable (S K) in
/-- The configurations of the system. -/
abbrev State : Type := Config (Role S) (Op S K) (Resp S K) Exc (World S K)

variable (S K) in
abbrev Step : Type := Label (Role S) (Choice S K)

/-! ### What a call does to the rows -/

/-- The rows, and who creates them, are the same; a message that is queued stays queued. -/
structure World.SameRows (w w' : World S K) : Prop where
  row : w'.row = w.row
  results : w'.results = w.results
  history : w'.history = w.history
  creator : w'.creator = w.creator
  created : w'.created = w.created
  queued : w.queued = true → w'.queued = true

/-- The rows, the object and the results of the algorithm are the same. -/
structure World.SameStores (w w' : World S K) : Prop extends World.SameRows w w' where
  keyDeleted : w'.keyDeleted = w.keyDeleted
  object : w'.object = w.object
  solved : w'.solved = w.solved

theorem World.SameStores.refl (w : World S K) : w.SameStores w :=
  ⟨⟨rfl, rfl, rfl, rfl, rfl, id⟩, rfl, rfl, rfl⟩

theorem orFail_stores {α : Type} {choice : Choice S K} {w w' : World S K} {r : Except Exc α}
    {done : Option (Except Exc α × World S K)} (h : orFail choice w done = some (r, w'))
    (hdone : done = some (r, w') → w.SameStores w') : w.SameStores w' := by
  rcases orFail_cases h with hok | ⟨rfl, -⟩
  · exact hdone hok
  · exact World.SameStores.refl w'

def Choice.Fails : Choice S K → Bool
  | .fail _ => true
  | _ => false

/-- Only a commit changes the rows, only an upload and a deletion change the object, and only a run
of the algorithm adds a result. -/
theorem exec_stores {o : Op S K} {choice : Choice S K} {w w' : World S K} {r : Resp S K o}
    (h : exec gid t o choice w = some (r, w')) :
    w.SameStores w' ∨
      (∃ write, o = .commit write ∧ choice.Fails = false ∧ w' = (w.apply t write).release t) ∨
      (∃ key content, o = .upload key content ∧ w' = { w with object := some (key, content) }) ∨
      (∃ key, o = .delete key ∧
        w' = { w with object := w.object.filter fun stored => stored.1 != key }) ∨
      ∃ algorithm inputs rawData answer,
        (⟨o, r⟩ : Σ o, Resp S K o) = ⟨.solve algorithm inputs rawData, .ok answer⟩ ∧
          w' = { w with solved := (t, answer) :: w.solved } := by
  by_cases hquiet : o.Quiet = true
  · have hsame : w' = w := exec_quiet hquiet h
    subst hsame
    exact Or.inl (World.SameStores.refl w')
  cases o with
  | commit write =>
    cases choice with
    | ok => cases h; exact Or.inr (Or.inl ⟨write, rfl, rfl, rfl⟩)
    | lost detail => cases h; exact Or.inr (Or.inl ⟨write, rfl, rfl, rfl⟩)
    | fail detail => cases h; exact Or.inl ⟨⟨rfl, rfl, rfl, rfl, rfl, id⟩, rfl, rfl, rfl⟩
    | _ => cases h
  | updateWherePending id status errorMessage | flushUpdate id | flushDelete id =>
    -- an update takes the lock, and only its commit makes it stay
    refine Or.inl (orFail_stores h fun hok => ?_)
    repeat' split at hok
    all_goals cases hok
    all_goals exact ⟨⟨rfl, rfl, rfl, rfl, rfl, fun hqueued => hqueued⟩, rfl, rfl, rfl⟩
  | close => cases h; exact Or.inl ⟨⟨rfl, rfl, rfl, rfl, rfl, id⟩, rfl, rfl, rfl⟩
  | addMetric metric =>
    cases metric <;> cases h <;>
      exact Or.inl ⟨⟨rfl, rfl, rfl, rfl, rfl, id⟩, rfl, rfl, rfl⟩
  | commitCrm staged =>
    rcases orLost_cases h with rfl | ⟨rfl, -⟩
    · exact Or.inl ⟨⟨rfl, rfl, rfl, rfl, rfl, id⟩, rfl, rfl, rfl⟩
    · exact Or.inl (World.SameStores.refl w')
  | publish subject data =>
    rcases orLost_cases h with rfl | ⟨rfl, -⟩
    · exact Or.inl ⟨⟨rfl, rfl, rfl, rfl, rfl, fun _ => rfl⟩, rfl, rfl, rfl⟩
    · exact Or.inl (World.SameStores.refl w')
  | emit event =>
    cases choice <;> cases h
    · exact Or.inl ⟨⟨rfl, rfl, rfl, rfl, rfl, id⟩, rfl, rfl, rfl⟩
    · exact Or.inl (World.SameStores.refl w)
  | upload key content =>
    rcases orLost_cases h with rfl | ⟨rfl, -⟩
    · exact Or.inr (Or.inr (Or.inl ⟨key, content, rfl, rfl⟩))
    · exact Or.inl (World.SameStores.refl w')
  | delete key =>
    cases choice <;> cases h
    · exact Or.inr (Or.inr (Or.inr (Or.inl ⟨key, rfl, rfl⟩)))
    · exact Or.inl (World.SameStores.refl w)
  | solve algorithm inputs rawData =>
    cases choice <;> cases h
    · exact Or.inl (World.SameStores.refl w)
    · exact Or.inl (World.SameStores.refl w)
    · exact Or.inr (Or.inr (Or.inr (Or.inr ⟨algorithm, inputs, rawData, _, rfl, rfl⟩)))
  | _ => exact absurd rfl hquiet

/-- Only a commit that does not fail changes the rows. -/
theorem exec_rows {o : Op S K} {choice : Choice S K} {w w' : World S K} {r : Resp S K o}
    (h : exec gid t o choice w = some (r, w')) :
    w.SameRows w' ∨ ∃ write, o = .commit write ∧ choice.Fails = false ∧
      w' = (w.apply t write).release t := by
  rcases exec_stores h with hsame | hcommit | ⟨_, _, -, rfl⟩ | ⟨_, -, rfl⟩ |
    ⟨_, _, _, _, -, rfl⟩
  · exact Or.inl hsame.toSameRows
  · exact Or.inr hcommit
  · exact Or.inl ⟨rfl, rfl, rfl, rfl, rfl, id⟩
  · exact Or.inl ⟨rfl, rfl, rfl, rfl, rfl, id⟩
  · exact Or.inl ⟨rfl, rfl, rfl, rfl, rfl, id⟩

/-- A commit puts at most one end on record: that of a worker or of a request that saves. -/
theorem history_apply (w : World S K) (write : Write S K) :
    (w.apply t write).history = w.history ∨ ∃ row status errorMessage keys,
      w.row = some row ∧ (write = .outcome status errorMessage keys ∨
        write = .save status errorMessage) ∧
      (w.apply t write).history = ⟨t, row.status, status, errorMessage, keys⟩ :: w.history := by
  rcases hrow : w.row with _ | row
  · refine Or.inl ?_
    cases write with
    | insert row => rfl
    | outcome status errorMessage keys => simp only [World.apply, World.settle, hrow]
    | save status errorMessage => simp only [World.apply, World.settle, hrow]
    | delete => simp only [World.apply, World.remove, hrow]
    | deleteKey id => simp only [World.apply, World.removeKey]; split <;> rfl
  · cases write with
    | insert row => exact Or.inl rfl
    | outcome status errorMessage keys =>
      refine Or.inr ⟨row, status, errorMessage, keys, rfl, Or.inl rfl, ?_⟩
      rw [World.apply, settle_eq hrow]
    | save status errorMessage =>
      refine Or.inr ⟨row, status, errorMessage, [], rfl, Or.inr rfl, ?_⟩
      rw [World.apply, settle_eq hrow]
    | delete => simp only [World.apply, World.remove, hrow, true_or]
    | deleteKey id => refine Or.inl ?_; simp only [World.apply, World.removeKey]; split <;> rfl

/-! ### Saving while the row is pending -/

/-- The next call of the thread commits a changed row object. -/
def Saves : Thread (Role S) (Op S K) (Resp S K) Exc → Bool
  | .running _ (.call (.commit (.save ..)) _) => true
  | _ => false

theorem of_saves {thread : Thread (Role S) (Op S K) (Resp S K) Exc} (h : Saves thread = true) :
    ∃ role status errorMessage next,
      thread = .running role (.call (.commit (.save status errorMessage)) next) := by
  unfold Saves at h
  split at h
  · exact ⟨_, _, _, _, rfl⟩
  · cases h

/-- A request that saves the row as failed finds it pending when its commit takes effect. -/
def SavesWhilePending (c : State S K) : Step S K → Prop
  | .act t choice => Saves (c.threads t) = true → choice.Fails = false →
      ∀ row ∈ c.state.row, row.status = .pending
  | .launch .. => True
  | .kill _ => True

instance (c : State S K) : (label : Step S K) → Decidable (SavesWhilePending c label)
  | .act t choice => inferInstanceAs (Decidable (Saves (c.threads t) = true →
      choice.Fails = false → ∀ row ∈ c.state.row, row.status = .pending))
  | .launch .. => isTrue trivial
  | .kill _ => isTrue trivial

variable [Zero K] [Add K]

variable (registry gid) in
/-- Every state of the run satisfies the discipline. -/
abbrev Reached (c : State S K) : Prop := Good (system registry gid) (discipline S K gid) c

omit [Zero K] [Add K] in
theorem launch_rows {role : Role S} {w w' : World S K} (h : launch gid t role w = some w') :
    w'.row = w.row ∧ w'.results = w.results ∧ w'.history = w.history := by
  cases role <;> simp only [launch] at h
  case deliver => split at h <;> cases h; exact ⟨rfl, rfl, rfl⟩
  case startGeneration => split at h <;> cases h; exact ⟨rfl, rfl, rfl⟩
  case startGenerationFromCrm => split at h <;> cases h; exact ⟨rfl, rfl, rfl⟩
  case deleteGeneration => cases h; exact ⟨rfl, rfl, rfl⟩
  case deleteKey => cases h; exact ⟨rfl, rfl, rfl⟩

/-- The status has changed at most once, away from pending. -/
def World.Once (w : World S K) : Prop :=
  w.history = [] ∨ ∃ o, w.history = [o] ∧ o.before = .pending

/-- An end is committed only while none is on record. -/
theorem history_step {c c' : State S K} {label : Step S K} (hgood : Reached gid registry c)
    (hpending : SavesWhilePending c label)
    (hstep : (system registry gid).step c label = some c') :
    c'.state.history = c.state.history ∨
      c.state.history = [] ∧ ∃ o, c'.state.history = [o] ∧ o.before = .pending := by
  rcases Machine.step_cases hstep with ⟨t, role, w, -, -, hlaunch, rfl⟩ |
    ⟨t, choice, role, o, next, r, w, rfl, hrunning, hexec, rfl⟩ | ⟨t, role, rest, -, -, rfl⟩
  · exact Or.inl (launch_rows hlaunch).2.2
  · rcases exec_rows hexec with hsame | ⟨write, rfl, hchoice, rfl⟩
    · exact Or.inl hsame.history
    · rcases history_apply (t := t) c.state write with hsame |
        ⟨row, status, errorMessage, keys, hrow, hwrite, hhistory⟩
      · exact Or.inl hsame
      · -- the row was pending, so this is the first end
        have hrowPending : row.status = .pending := by
          rcases hwrite with rfl | rfl
          · obtain ⟨-, row', hrow', hstatus⟩ := hgood.pre hrunning
            rw [hrow] at hrow'
            cases hrow'
            exact hstatus
          · exact hpending (by rw [hrunning]; rfl) hchoice row hrow
        have hnone := history_of_pending hgood.inv hrow hrowPending
        refine Or.inr ⟨hnone, ⟨t, row.status, status, errorMessage, keys⟩, ?_, hrowPending⟩
        show (c.state.apply t write).history = _
        rw [hhistory, hnone]
  · exact Or.inl rfl

/-- **A generation ends at most once** when nothing is saved over an end. -/
theorem once_of_run {c c' : State S K} (hgood : Reached gid registry c) (honce : c.state.Once)
    (hrun : (system registry gid).Run SavesWhilePending c c') :
    Reached gid registry c' ∧ c'.state.Once ∧ c.state.history <:+ c'.state.history := by
  induction hrun with
  | refl => exact ⟨hgood, honce, List.suffix_rfl⟩
  | tail _ hstep ih =>
    obtain ⟨label, hok, hstep⟩ := hstep
    obtain ⟨hgood', honce', hsuffix⟩ := ih
    refine ⟨good_step system_obeys hgood' hstep, ?_⟩
    rcases history_step hgood' hok hstep with hsame | ⟨hnone, hone⟩
    · rw [World.Once, hsame]
      exact ⟨honce', hsuffix⟩
    · rw [hnone] at hsuffix
      rw [List.suffix_nil.mp hsuffix]
      exact ⟨Or.inr hone, List.nil_suffix⟩

/-! ### What follows from a single end -/

/-- At most one announcement was made, by the thread that committed the end and with its
status. -/
def AtMostOne {X : Type} (tells : X → GenerationStatus → Prop) (history : List (Outcome K))
    (announcements : List (ℕ × X)) : Prop :=
  announcements.length ≤ 1 ∧
    ∀ x ∈ announcements, ∃ o ∈ history, o.thread = x.1 ∧ tells x.2 o.status

omit [Zero K] [Add K] in
theorem Announced.atMostOne {X : Type} {tells : X → GenerationStatus → Prop} {w : World S K}
    {announcements : List (ℕ × X)} (h : Announced tells w.history announcements)
    (honce : w.Once) : AtMostOne tells w.history announcements := by
  refine ⟨?_, h.committed⟩
  rcases announcements with _ | ⟨x, _ | ⟨y, rest⟩⟩
  · exact Nat.zero_le 1
  · exact Nat.le_refl 1
  · -- both were made by the thread of the one end
    obtain ⟨o, ho, hx, -⟩ := h.committed x (List.mem_cons_self ..)
    obtain ⟨o', ho', hy, -⟩ :=
      h.committed y (List.mem_cons_of_mem x (List.mem_cons_self ..))
    have hsame : o = o' := by
      rcases honce with hnil | ⟨o₁, hone, -⟩
      · rw [hnil] at ho
        cases ho
      · rw [hone, List.mem_singleton] at ho ho'
        rw [ho, ho']
    have hne := h.once
    rw [List.map_cons, List.map_cons, List.nodup_cons] at hne
    refine absurd ?_ hne.1
    rw [← hx, hsame, hy]
    exact List.mem_cons_self ..

/-- Only a success owns result rows. -/
theorem results_of_once {w : World S K} (hinv : Inv gid w) (honce : w.Once)
    (hnot : ∀ row, w.row = some row → row.status ≠ .success) : w.results = [] := by
  rcases hrow : w.row with _ | row
  · exact hinv.empty hrow
  · refine List.eq_nil_iff_forall_not_mem.mpr fun key hkey => ?_
    obtain ⟨o, ho, hmem⟩ := hinv.owned key hkey
    rcases honce with hnil | ⟨o₁, hone, -⟩
    · rw [hnil] at ho
      cases ho
    · rw [hone, List.mem_singleton] at ho
      subst ho
      have hcurrent := hinv.current row hrow
      rw [hone] at hcurrent
      have hend := hinv.ends o (by rw [hone]; exact List.mem_singleton.mpr rfl)
      have hfailed : o.status = .failed := by
        have hstatus : o.status ≠ .success := by
          rw [← hcurrent.1]
          exact hnot row hrow
        cases hcase : o.status with
        | pending => exact absurd hcase hend.final
        | success => exact absurd hcase hstatus
        | failed => rfl
      rw [hend.failed hfailed] at hmem
      cases hmem

/-! ### Services to run with -/

/-- Services that accept everything. -/
def plainServices : Services where
  Content := Unit
  Date := Unit
  Inputs := Unit
  AlgoInput := Unit
  RawData := Unit
  Summary := Unit
  Rows := Unit
  Warnings := Unit
  Data := Event
  encode := id
  decode := some
  load _ _ _ := .ok ()
  shape _ := (1, 1)
  withinCap _ := true
  isEmpty _ := false
  measure _ _ := none
  blockers _ := []
  warnings _ := none
  pivot _ _ := .ok ()
  after _ _ := false
  isoformat _ := "2026-01-01"
  implemented _ := true

def plainMetadata : AlgorithmMetadata plainServices where
  name := "brute_force"
  version := "1"
  queue := "generation.brute_force"
  validate _ := .ok ()
  dump _ := ()

/-- A delivery of the message of generation 1. -/
def plainDelivery : Role plainServices :=
  .deliver plainMetadata
    ⟨{ type := "generation.requested", version := 1, generationId := some 1 }, some 1⟩

/-- A result with one key of one consumer. -/
def plainResult (percentage : ℕ) : AlgorithmResult ℕ :=
  ⟨[⟨"key", "", [⟨1, percentage, 0, [⟨"consumer", percentage⟩]⟩]⟩]⟩

/-- Steps of one thread. -/
def acts (t : ℕ) (choices : List (Choice plainServices ℕ)) : List (Step plainServices ℕ) :=
  choices.map (.act t)

end AllocationKeys.Generation
