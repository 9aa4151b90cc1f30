import AllocationKeys.Generation.Runs

/-!
# Terminal generations

A generation that has ended stays as it is, and a failed one owns no result row, along every run
in which `_mark_failed_to_queue` commits only while the row is still pending
(`terminal_of_run`). The save itself does not see to that: it loads the row, changes it and writes
it back without the condition the helpers of the worker have, so a publish that raises although
the broker has the message lets it write over a success (`not_terminal`).
-/

namespace AllocationKeys.Generation

open Algorithms Concurrent Program

variable {S : Services} {K : Type} {gid : ℤ} {t : ℕ}
  {registry : String → Option (AlgorithmMetadata S)}

/-- A row with a final status in the first state has that status and its message in the second,
if it is still there. -/
def World.Stays (w w' : World S K) : Prop :=
  ∀ row row', w.row = some row → row.status ≠ .pending → w'.row = some row' →
    row'.status = row.status ∧ row'.errorMessage = row.errorMessage

def World.FailedOwnsNothing (w : World S K) : Prop :=
  ∀ row, w.row = some row → row.status = .failed → w.results = []

variable [Zero K] [Add K]

theorem inv_empty : Inv gid (World.empty : World S K) where
  lock _ hlock := by cases hlock
  uncreated _ := ⟨rfl, rfl, rfl, rfl⟩
  gone hgone := by cases hgone.1
  queued hqueued := by cases hqueued
  current row hrow := by cases hrow
  ends o ho := by cases ho
  later o ho := by cases ho
  empty _ := rfl
  owned key hkey := by cases hkey
  complete hne := absurd rfl hne
  completions := ⟨fun x hx => (by cases hx), List.nodup_nil⟩
  audits := ⟨fun x hx => (by cases hx), List.nodup_nil⟩
  events := ⟨fun x hx => (by cases hx), List.nodup_nil⟩

theorem reached_empty :
    Reached gid registry (Machine.start (World.empty : World S K)) := good_start inv_empty

/-- With at most one end on record, what is on record when a row has a final status stays. -/
theorem stays_of_once {w w' : World S K} (hinv : Inv gid w) (hinv' : Inv gid w')
    (honce' : w'.Once) (hsuffix : w.history <:+ w'.history) : w.Stays w' := by
  intro row row' hrow hfinal hrow'
  have hcurrent := hinv.current row hrow
  have hcurrent' := hinv'.current row' hrow'
  have hsame : w'.history = w.history := by
    rcases hhistory : w.history with _ | ⟨o, earlier⟩
    · rw [hhistory] at hcurrent
      exact absurd hcurrent.1 hfinal
    · rcases honce' with hnil | ⟨o', hone, -⟩
      · rw [hhistory, hnil] at hsuffix
        exact absurd (List.suffix_nil.mp hsuffix) (by simp)
      · rw [hhistory, hone] at hsuffix
        rw [hone]
        exact (hsuffix.eq_of_length_le (by simp)).symm
  rw [hsame] at hcurrent'
  rcases hhistory : w.history with _ | ⟨o, earlier⟩
  · rw [hhistory] at hcurrent
    exact absurd hcurrent.1 hfinal
  · rw [hhistory] at hcurrent hcurrent'
    exact ⟨hcurrent'.1.trans hcurrent.1.symm, hcurrent'.2.trans hcurrent.2.symm⟩

/-! ### A publish whose acknowledgement is lost -/

def plainRegistry (_ : String) : Option (AlgorithmMetadata plainServices) := some plainMetadata

/-- The request up to a publish that the broker stores but does not acknowledge in time. -/
def lostPublish : List (Step plainServices ℕ) :=
  [.launch 1 (.startGeneration ⟨"generation", "brute_force", none, ()⟩ ⟨none, (), "uuid"⟩ 7)]
    ++ acts 1 [.ok, .ok, .ok, .ok, .ok, .lost "timeout"]

/-- A delivery that saves a success. -/
def successfulDelivery : List (Step plainServices ℕ) :=
  [.launch 2 plainDelivery]
    ++ acts 2 [.ok, .ok, .ok, .result (plainResult 60), .ok, .ok, .ok, .ok, .ok, .ok]

/-- The session of `_mark_failed_to_queue`. -/
def markedAsFailed : List (Step plainServices ℕ) := acts 1 [.ok, .ok, .ok, .ok, .ok]

/-- **A terminal generation stays as it is**, in every run whose saves of a failed publish take
effect while the row is pending. -/
theorem terminal_of_run {c c' : State S K}
    (hrun : (system registry gid).Run SavesWhilePending (Machine.start World.empty) c)
    (hrun' : (system registry gid).Run SavesWhilePending c c') :
    c.state.Stays c'.state ∧ c'.state.FailedOwnsNothing := by
  obtain ⟨hgood, honce, -⟩ := once_of_run reached_empty (Or.inl rfl) hrun
  obtain ⟨hgood', honce', hsuffix⟩ := once_of_run hgood honce hrun'
  refine ⟨stays_of_once hgood.inv hgood'.inv honce' hsuffix, fun row hrow hfailed => ?_⟩
  refine results_of_once hgood'.inv honce' fun row' hrow' hsuccess => ?_
  rw [hrow] at hrow'
  cases hrow'
  rw [hfailed] at hsuccess
  cases hsuccess

/-- The request marks its row as failed before the message is delivered. -/
theorem terminal_of_run_marked :
    ∃ c c' : State plainServices ℕ, (∃ row ∈ c.state.row, row.status = .failed) ∧
      c.state.Stays c'.state ∧ c'.state.FailedOwnsNothing := by
  have hplay : ((system (K := ℕ) plainRegistry 1).play SavesWhilePending
      (lostPublish ++ markedAsFailed) (Machine.start World.empty)).any (fun c =>
        c.state.row.any (fun row => row.status = .failed) &&
          ((system plainRegistry 1).play SavesWhilePending
            (.launch 2 plainDelivery :: acts 2 [.ok, .ok, .ok]) c).isSome) = true := by
    decide +kernel
  obtain ⟨c, hrun, hc⟩ := Machine.exists_of_play hplay
  rw [Bool.and_eq_true, Option.any_eq_true] at hc
  obtain ⟨⟨row, hrow, hfailed⟩, hlater⟩ := hc
  obtain ⟨c', hc'⟩ := Option.isSome_iff_exists.mp hlater
  exact ⟨c, c', ⟨row, hrow, by simpa using hfailed⟩,
    terminal_of_run hrun (Machine.run_of_play hc')⟩

/-- The worker saves a success while the publish is still waiting; the request then writes its
failure over it. -/
theorem not_terminal :
    ¬ ∀ c c' : State plainServices ℕ,
      (system plainRegistry 1).Run (fun _ _ => True) (Machine.start World.empty) c →
      (system plainRegistry 1).Run (fun _ _ => True) c c' →
      c.state.Stays c'.state ∧ c'.state.FailedOwnsNothing := by
  intro hall
  have hplay : ((system (K := ℕ) plainRegistry 1).play (fun _ _ => True)
      (lostPublish ++ successfulDelivery) (Machine.start World.empty)).any (fun c =>
        c.state.row.any (fun row => row.status = .success) &&
          ((system plainRegistry 1).play (fun _ _ => True) markedAsFailed c).any fun c' =>
            c'.state.row.any fun row => row.status = .failed) = true := by
    decide +kernel
  obtain ⟨c, hrun, hc⟩ := Machine.exists_of_play hplay
  rw [Bool.and_eq_true, Option.any_eq_true] at hc
  obtain ⟨⟨row, hrow, hsuccess⟩, hlater⟩ := hc
  obtain ⟨c', hrun', hc'⟩ := Machine.exists_of_play hlater
  obtain ⟨row', hrow', hfailed⟩ := (Option.any_eq_true _ _).mp hc'
  simp only [decide_eq_true_eq] at hsuccess hfailed
  have hstays := (hall c c' hrun hrun').1 row row' hrow (by rw [hsuccess]; simp) hrow'
  rw [hsuccess, hfailed] at hstays
  cases hstays.1

end AllocationKeys.Generation
