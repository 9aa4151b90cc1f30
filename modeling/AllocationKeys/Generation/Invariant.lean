import AllocationKeys.Generation.System
import Mathlib.Data.List.Nodup

/-!
# What every state of a generation satisfies

`Inv` ties the row, the result rows and the object to the record of what was committed and
announced; `Rely` is what a thread may count on while others step; `pre` is what must hold when a
thread acks, naks, deletes the object, commits or tells. `discipline` puts them together, and the
`keeps_…` lemmas show each change of the world to keep them.

`pre` holds the points the pipeline turns on: a worker commits an end only for a row that is
pending and locked, tells of an end only once it has committed it, and acks or deletes only once
the generation is settled.
-/

namespace AllocationKeys.Generation

open Algorithms Concurrent

variable {S : Services} {K : Type}

/-! ### Notions -/

namespace World

/-- The row has a final status, or the user has deleted it. -/
def Settled (w : World S K) : Prop :=
  (∃ row, w.row = some row ∧ row.status ≠ .pending) ∨ w.row = none ∧ w.deletedByUser = true

/-- The object of the row, when it names one, is in the store. -/
def InPlace (w : World S K) : Prop :=
  ∃ row, w.row = some row ∧
    ∀ key, row.fileStorageKey = some key → ∃ content, w.object = some (key, content)

/-- The row is that of the generation, or gone. -/
def Known (model : GenerationModel S) (w : World S K) : Prop :=
  w.created = true ∧ ∀ row, w.row = some row → model.Same row

/-- The row is gone for good. -/
def Gone (w : World S K) : Prop := w.created = true ∧ w.row = none

end World

/-- What the row says is what was committed last. -/
def Current (row : GenerationModel S) : List (Outcome K) → Prop
  | [] => row.status = .pending ∧ row.errorMessage = none
  | o :: _ => row.status = o.status ∧ row.errorMessage = o.errorMessage

/-- Every announcement follows a commit of its thread and tells its status, and a thread makes at
most one. -/
structure Announced {X : Type} (tells : X → GenerationStatus → Prop) (history : List (Outcome K))
    (announcements : List (ℕ × X)) : Prop where
  committed : ∀ x ∈ announcements, ∃ o ∈ history, o.thread = x.1 ∧ tells x.2 o.status
  once : (announcements.map Prod.fst).Nodup

/-- A completion metric, of an algorithm and a status. -/
def tellsMetric (metric : String × String) (status : GenerationStatus) : Prop :=
  metric.2 = status.text

def tellsEvent (event : RealtimeEvent) (status : GenerationStatus) : Prop :=
  event.hint = status.text

theorem Announced.fresh {X : Type} {tells : X → GenerationStatus → Prop}
    {announcements : List (ℕ × X)} (h : Announced tells ([] : List (Outcome K)) announcements)
    (t : ℕ) : t ∉ announcements.map Prod.fst := by
  intro ht
  obtain ⟨x, hx, -⟩ := List.mem_map.mp ht
  obtain ⟨o, ho, -⟩ := h.committed x hx
  cases ho

theorem Announced.grow {X : Type} {tells : X → GenerationStatus → Prop}
    {history : List (Outcome K)} {announcements : List (ℕ × X)}
    (h : Announced tells history announcements) (o : Outcome K) :
    Announced tells (o :: history) announcements := by
  refine ⟨fun x hx => ?_, h.once⟩
  obtain ⟨o', ho', htells⟩ := h.committed x hx
  exact ⟨o', List.mem_cons_of_mem o ho', htells⟩

theorem Announced.cons {X : Type} {tells : X → GenerationStatus → Prop}
    {history : List (Outcome K)} {announcements : List (ℕ × X)}
    (h : Announced tells history announcements) {t : ℕ} {x : X}
    (hcommitted : ∃ o ∈ history, o.thread = t ∧ tells x o.status)
    (hnew : t ∉ announcements.map Prod.fst) :
    Announced tells history ((t, x) :: announcements) := by
  refine ⟨fun y hy => ?_, ?_⟩
  · rcases List.mem_cons.mp hy with rfl | hy
    · exact hcommitted
    · exact h.committed y hy
  · rw [List.map_cons, List.nodup_cons]
    exact ⟨hnew, h.once⟩

/-! ### What threads rely on -/

/-- What thread `t` may rely on while other threads step from `w` to `w'`. -/
structure Rely (t : ℕ) (w w' : World S K) : Prop where
  settled : w.Settled → w'.Settled
  queued : w.queued = true → w'.queued = true
  created : w.created = true → w'.created = true
  gone : w.Gone → w'.Gone
  known : ∀ model, w.Known model → w'.Known model
  locked : w.lock = some t → w'.lock = some t ∧ w'.row = w.row
  history : w.history <:+ w'.history
  solved : w.solved ⊆ w'.solved
  completions : t ∉ w.completions.map Prod.fst → t ∉ w'.completions.map Prod.fst
  audits : t ∉ w.audits.map Prod.fst → t ∉ w'.audits.map Prod.fst
  events : t ∉ w.events.map Prod.fst → t ∉ w'.events.map Prod.fst
  creating : w.creator = some t → w'.creator = some t ∧
    (w.queued = false → w'.queued = false ∧ w'.object = w.object) ∧
    (w.created = false → w'.created = false)

theorem Rely.refl (t : ℕ) (w : World S K) : Rely t w w where
  settled := id
  queued := id
  created := id
  gone := id
  known _ := id
  locked h := ⟨h, rfl⟩
  history := List.suffix_rfl
  solved := List.Subset.refl _
  completions := id
  audits := id
  events := id
  creating h := ⟨h, fun hqueued => ⟨hqueued, rfl⟩, id⟩

theorem Rely.trans {t : ℕ} {w₁ w₂ w₃ : World S K} (h : Rely t w₁ w₂) (h' : Rely t w₂ w₃) :
    Rely t w₁ w₃ where
  settled := h'.settled ∘ h.settled
  queued := h'.queued ∘ h.queued
  created := h'.created ∘ h.created
  gone := h'.gone ∘ h.gone
  known model := h'.known model ∘ h.known model
  locked hlock := by
    obtain ⟨hlock₂, hrow₂⟩ := h.locked hlock
    obtain ⟨hlock₃, hrow₃⟩ := h'.locked hlock₂
    exact ⟨hlock₃, hrow₃.trans hrow₂⟩
  history := h.history.trans h'.history
  solved := List.Subset.trans h.solved h'.solved
  completions := h'.completions ∘ h.completions
  audits := h'.audits ∘ h.audits
  events := h'.events ∘ h.events
  creating hcreator := by
    obtain ⟨hcreator₂, hqueued₂, hcreated₂⟩ := h.creating hcreator
    obtain ⟨hcreator₃, hqueued₃, hcreated₃⟩ := h'.creating hcreator₂
    refine ⟨hcreator₃, fun hqueued => ?_, hcreated₃ ∘ hcreated₂⟩
    obtain ⟨hfalse, hobject⟩ := hqueued₂ hqueued
    obtain ⟨hfalse', hobject'⟩ := hqueued₃ hfalse
    exact ⟨hfalse', hobject'.trans hobject⟩

/-- What must hold when thread `t` makes a call. -/
def pre (t : ℕ) : Op S K → World S K → Prop
  | .commit (.outcome ..), w => w.lock = some t ∧ ∃ row, w.row = some row ∧ row.status = .pending
  | .commit (.save ..), w => w.lock = some t ∧ w.creator = some t
  | .ack, w => w.Settled
  | .nak _, w => w.queued = true
  | .delete _, w => w.Settled ∨ w.queued = false
  | .emit event, w => ∃ o ∈ w.history, o.thread = t ∧ tellsEvent event o.status
  | _, _ => True

/-! ### The invariant -/

variable [Zero K] [Add K]

/-- A committed end: a failure without result rows, or a success with the rows of one result its
thread got. -/
structure Ends (gid : ℤ) (row : Option (GenerationModel S)) (solved : List (ℕ × AlgorithmResult K))
    (o : Outcome K) : Prop where
  final : o.status ≠ .pending
  failed : o.status = .failed → o.keys = []
  success : o.status = .success → o.errorMessage = none ∧ ∃ result, (o.thread, result) ∈ solved ∧
    ∀ r, row = some r → o.keys = resultRows gid r.idCommunity result

structure Inv (gid : ℤ) (w : World S K) : Prop where
  lock : ∀ t, w.lock = some t → w.row ≠ none
  uncreated : w.created = false →
    w.row = none ∧ w.queued = false ∧ w.deletedByUser = false ∧ w.history = []
  gone : w.Gone → w.deletedByUser = true
  queued : w.queued = true → w.Settled ∨ w.InPlace
  current : ∀ row, w.row = some row → Current row w.history
  ends : ∀ o ∈ w.history, Ends gid w.row w.solved o
  later : ∀ o ∈ w.history.dropLast, o.before ≠ .pending
  empty : w.row = none → w.results = []
  owned : ∀ key ∈ w.results, ∃ o ∈ w.history, key.2 ∈ o.keys
  complete : w.row ≠ none → w.keyDeleted = false →
    w.results.map Prod.snd = w.history.reverse.flatMap Outcome.keys
  completions : Announced tellsMetric w.history w.completions
  audits : Announced AuditLogInput.Tells w.history w.audits
  events : Announced tellsEvent w.history w.events

variable (S K) in
/-- What the threads of the system owe each other. -/
def discipline (gid : ℤ) : Discipline (Op S K) (World S K) where
  inv := Inv gid
  rely := Rely
  pre := pre
  rely_refl := Rely.refl
  rely_trans := Rely.trans

end AllocationKeys.Generation
