import Mathlib.Data.List.Basic
import Mathlib.Data.Option.Basic
import Mathlib.Tactic.Common

/-!
# The heartbeat of a message

`_handle_message`, `_in_progress_until_done` and `_send_in_progress` of `worker/dispatcher.py`: two
tasks of one event loop. While `_process` runs, the heartbeat tells the broker that the message is
in progress; before the handler settles the message, it cancels the heartbeat and waits for it.

A task runs alone from one `await` to the next, and which task runs next is open. What `_process`
does is left to the way it ends. A cancellation that was asked for is thrown into a task at the
`await` it stands at, when it runs next. `_process` and what it opened may stand at further `await`s
while it unwinds; nothing in it swallows a cancellation.

* `Orderly`: what holds of the calls made on the message;
* `run_orderly`: it holds in every run, whatever is cancelled, raised or answered;
* `run_beats_after_cancel`: a heartbeat that comes while a cancelled `_process` unwinds.

The same handler, without the heartbeat and with all that `_process` does, is
`Generation.handleMessage`.
-/

namespace AllocationKeys.Worker

/-! ### Tasks and calls -/

/-- How `_process` ends. -/
inductive Exit where
  | returned (storageKey : Option String)
  /-- `_TransientError`. -/
  | transient
  /-- Any other `Exception`. -/
  | failed
  | cancelled
  deriving DecidableEq

/-- The calls on the message. -/
inductive Call where
  | inProgress
  | ack
  | nak
  deriving DecidableEq

inductive Event where
  | call (c : Call)
  /-- The handler enters `_in_progress_until_done`. -/
  | entered
  /-- `_process` ends, and the handler cancels the heartbeat. -/
  | left (exit : Exit)
  /-- A cancellation is thrown into the handler. -/
  | cancelled
  deriving DecidableEq

/-- Where `_handle_message` stands. -/
inductive Handler where
  | created
  | processing
  /-- In a cancelled `_process`. -/
  | unwinding
  /-- At `asyncio.wait({heartbeat})`. -/
  | waiting (exit : Exit)
  /-- At `save_failure`, after an unhandled error. -/
  | savingFailure
  /-- At `ack` or `nak`. -/
  | settling (storageKey : Option String)
  /-- At `_delete_safely`. -/
  | deleting
  | finished
  deriving DecidableEq

/-- Where `_send_in_progress` stands. -/
inductive Heartbeat where
  | absent
  | created
  | sleeping
  /-- At `msg.in_progress()`. -/
  | sending
  | stopped
  deriving DecidableEq

structure State where
  handler : Handler
  /-- A cancellation of the handler is asked for and not yet thrown. -/
  handlerCancelled : Bool
  heartbeat : Heartbeat
  heartbeatCancelled : Bool
  log : List Event
  deriving DecidableEq

def initial : State := ⟨.created, false, .absent, false, []⟩

/-- What the handler meets when it runs on. -/
inductive Answer where
  /-- The message cannot be decoded, or has no generation. -/
  | dropped
  | decoded
  | ends (exit : Exit)
  | succeeds
  | raises
  deriving DecidableEq

/-- Which task runs next. -/
inductive Step where
  /-- The shutdown drain cancels the handler. -/
  | cancel
  | handler (answer : Answer)
  | heartbeat
  deriving DecidableEq

/-! ### Steps -/

def State.emit (s : State) (e : Event) : State := { s with log := s.log ++ [e] }

/-- The `finally` block, up to its `await`. -/
def State.leave (s : State) (exit : Exit) : State :=
  { s.emit (.left exit) with handler := .waiting exit, heartbeatCancelled := true }

/-- After the block: the message is acked or naked by the way `_process` ended. -/
def State.goOn (s : State) : Exit → State
  | .returned storageKey => { s.emit (.call .ack) with handler := .settling storageKey }
  | .transient => { s.emit (.call .nak) with handler := .settling none }
  | .failed => { s with handler := .savingFailure }
  | .cancelled => { s with handler := .finished }

/-- A cancellation is thrown into the handler. -/
def State.throwIn (s : State) : Option State :=
  let thrown := { s.emit .cancelled with handlerCancelled := false }
  match s.handler with
  | .processing | .unwinding => some { thrown with handler := .unwinding }
  | .finished => none
  | _ => some { thrown with handler := .finished }

/-- The handler runs on. -/
def handlerStep (answer : Answer) (s : State) : Option State :=
  if s.handlerCancelled then s.throwIn
  else
    match s.handler, answer with
    | .created, .dropped => some { s.emit (.call .ack) with handler := .settling none }
    | .created, .decoded =>
        some { s.emit .entered with handler := .processing, heartbeat := .created }
    | .processing, .ends exit => some (s.leave exit)
    | .unwinding, .succeeds => some (s.leave .cancelled)
    | .waiting exit, .succeeds =>
        if s.heartbeat = .stopped then some (s.goOn exit) else none
    | .savingFailure, .succeeds => some { s.emit (.call .ack) with handler := .settling none }
    | .savingFailure, .raises => some { s with handler := .finished }
    | .settling (some _), .succeeds => some { s with handler := .deleting }
    | .settling none, .succeeds => some { s with handler := .finished }
    | .settling _, .raises => some { s with handler := .finished }
    | .deleting, .succeeds => some { s with handler := .finished }
    | .deleting, .raises => some { s with handler := .finished }
    | _, _ => none

/-- The heartbeat runs on. An error of `in_progress` is logged and the loop goes on. -/
def heartbeatStep (s : State) : Option State :=
  match s.heartbeat with
  | .absent => none
  | .stopped => none
  | stands =>
      if s.heartbeatCancelled then some { s with heartbeat := .stopped }
      else
        match stands with
        | .sleeping => some { s.emit (.call .inProgress) with heartbeat := .sending }
        | _ => some { s with heartbeat := .sleeping }

def step (s : State) : Step → Option State
  | .cancel => if s.handler = .finished then none else some { s with handlerCancelled := true }
  | .handler answer => handlerStep answer s
  | .heartbeat => heartbeatStep s

/-- The tasks run in some order. -/
def run (steps : List Step) (s : State) : Option State := steps.foldlM step s

/-! ### What the log says -/

/-- An `ack` or a `nak`. -/
def Event.IsSettlement (e : Event) : Prop := e = .call .ack ∨ e = .call .nak

def Event.toCall : Event → Option Call
  | .call c => some c
  | _ => none

/-- The calls on the message and the cancellations of the handler are in order. -/
structure Orderly (log : List Event) : Prop where
  /-- In-progress calls, then at most one `ack` or `nak`, then nothing. -/
  settlement : ∃ k, ∃ last ∈ [[], [Call.ack], [Call.nak]],
    log.filterMap Event.toCall = List.replicate k .inProgress ++ last
  nak : ∀ before after, log = before ++ .call .nak :: after → .left .transient ∈ before
  /-- A handler that is cancelled before it settles the message does not settle it. -/
  cancelled : ∀ before after, log = before ++ .cancelled :: after →
    (∀ e ∈ before, ¬ e.IsSettlement) → ∀ e ∈ after, ¬ e.IsSettlement
  /-- The heartbeat is confined to the block. -/
  beats : ∀ before after, log = before ++ .call .inProgress :: after →
    .entered ∈ before ∧ ∀ exit, .left exit ∉ before

/-- No in-progress call follows a cancellation that comes before the settlement. -/
def QuietAfterCancel (log : List Event) : Prop :=
  ∀ before after, log = before ++ .cancelled :: after → (∀ e ∈ before, ¬ e.IsSettlement) →
    .call .inProgress ∉ after

/-- Which event may come at some point after which. -/
structure MayFollow (e e' : Event) : Prop where
  settled : e.IsSettlement → e' = .cancelled
  cancelled : e = .cancelled → ¬ e'.IsSettlement
  left : ∀ exit, e = .left exit → e' ≠ .call .inProgress
  entered : e' ≠ .entered

/-! ### The invariant -/

/-- The heartbeat makes no further call. -/
def State.Silent (s : State) : Prop :=
  s.heartbeat = .absent ∨ s.heartbeat = .stopped ∨ s.heartbeatCancelled = true

/-- The message is settled, or never will be. -/
def Handler.Settled : Handler → Prop
  | .settling _ | .deleting | .finished => True
  | _ => False

structure Inv (s : State) : Prop where
  ordered : s.log.Pairwise MayFollow
  created : s.handler = .created → s.log = [] ∧ s.heartbeat = .absent
  settled : ∀ e ∈ s.log, e.IsSettlement → s.handler.Settled ∧ s.Silent
  cancelled : .cancelled ∈ s.log →
    s.handler = .unwinding ∨ s.handler = .waiting .cancelled ∨ s.handler.Settled
  left : ∀ exit, .left exit ∈ s.log → s.Silent
  waiting : ∀ exit, s.handler = .waiting exit → .left exit ∈ s.log
  saving : s.handler = .savingFailure → .left .failed ∈ s.log
  nak : .call .nak ∈ s.log → .left .transient ∈ s.log
  entered : s.heartbeat ≠ .absent → .entered ∈ s.log
  beats : .call .inProgress ∈ s.log → .entered ∈ s.log

/-- Before the handler is created there is nothing to say. -/
theorem inv_initial : Inv initial := by
  constructor <;> simp [initial]

/-- A cancellation may come at any time. -/
theorem mayFollow_cancelled (e : Event) : MayFollow e .cancelled := by
  constructor <;> simp [Event.IsSettlement]

/-- A settlement may follow whatever is none and no cancellation. -/
theorem mayFollow_settlement {e e' : Event} (hsettled : ¬ e.IsSettlement) (hne : e ≠ .cancelled)
    (h : e'.IsSettlement) : MayFollow e e' := by
  constructor
  · exact fun h => absurd h hsettled
  · exact fun h => absurd h hne
  · rcases h with rfl | rfl <;> simp
  · rcases h with rfl | rfl <;> simp

/-- The block may be left as long as nothing is settled. -/
theorem mayFollow_left {e : Event} (hsettled : ¬ e.IsSettlement) (exit : Exit) :
    MayFollow e (.left exit) := by
  constructor
  · exact fun h => absurd h hsettled
  all_goals simp [Event.IsSettlement]

/-- A heartbeat may follow while the block is neither left nor settled. -/
theorem mayFollow_inProgress {e : Event} (hsettled : ¬ e.IsSettlement)
    (hleft : ∀ exit, e ≠ .left exit) : MayFollow e (.call .inProgress) := by
  constructor
  · exact fun h => absurd h hsettled
  · simp [Event.IsSettlement]
  · exact fun exit h => absurd h (hleft exit)
  · simp

/-- An event that may follow all the others keeps the log in order. -/
theorem ordered_emit {log : List Event} {e : Event} (h : log.Pairwise MayFollow)
    (he : ∀ x ∈ log, MayFollow x e) : (log ++ [e]).Pairwise MayFollow := by
  rw [List.pairwise_append]
  exact ⟨h, List.pairwise_singleton _ _, fun x hx y hy => List.mem_singleton.mp hy ▸ he x hx⟩

/-- A cancellation thrown into the handler. -/
theorem inv_throwIn {s s' : State} (h : s.throwIn = some s') (hs : Inv s) : Inv s' := by
  rw [State.throwIn] at h
  have hordered := ordered_emit hs.ordered fun x _ => mayFollow_cancelled x
  have hmem : ∀ e, e ∈ s.log ++ [.cancelled] ↔ e ∈ s.log ∨ e = .cancelled := by simp
  have hne : ¬ Event.IsSettlement .cancelled := by simp [Event.IsSettlement]
  split at h
  · cases h
    constructor <;> grind [State.emit, State.Silent, Handler.Settled, Inv]
  · cases h
    constructor <;> grind [State.emit, State.Silent, Handler.Settled, Inv]
  · cases h
  · cases h
    constructor <;> grind [State.emit, State.Silent, Handler.Settled, Inv]

/-- An event that is no settlement and follows what is there. -/
theorem inv_heartbeatStep {s s' : State} (h : heartbeatStep s = some s') (hs : Inv s) :
    Inv s' := by
  rw [heartbeatStep] at h
  split at h
  · cases h
  · cases h
  · -- the loop is running: it sees the flag, or beats once more
    rename_i habsent hstopped
    by_cases hcancel : s.heartbeatCancelled = true
    · rw [if_pos hcancel] at h
      cases h
      have hsilent : State.Silent { s with heartbeat := .stopped } := .inr (.inl rfl)
      exact ⟨hs.ordered, fun h => absurd (hs.created h).2 habsent,
        fun e he hsettled => ⟨(hs.settled e he hsettled).1, hsilent⟩, hs.cancelled,
        fun _ _ => hsilent, hs.waiting, hs.saving, hs.nak, fun _ => hs.entered habsent, hs.beats⟩
    · rw [if_neg hcancel] at h
      -- the heartbeat is neither asked to stop nor stopped, so nothing is settled yet
      have hloud : ¬ s.Silent := by
        rintro (hheartbeat | hheartbeat | hflag)
        · exact habsent hheartbeat
        · exact hstopped hheartbeat
        · exact hcancel hflag
      have hsettled : ∀ x ∈ s.log, ¬ x.IsSettlement := fun x hx hsettlement =>
        hloud (hs.settled x hx hsettlement).2
      have hleft : ∀ x ∈ s.log, ∀ exit, x ≠ .left exit := by
        rintro x hx exit rfl
        exact hloud (hs.left exit hx)
      have hordered := ordered_emit hs.ordered fun x hx =>
        mayFollow_inProgress (hsettled x hx) (hleft x hx)
      have hmem : ∀ e, e ∈ s.log ++ [.call .inProgress] ↔ e ∈ s.log ∨ e = .call .inProgress := by
        simp
      have hne : ¬ Event.IsSettlement (.call .inProgress) := by simp [Event.IsSettlement]
      split at h
      · cases h
        constructor <;> grind [State.emit, State.Silent, Handler.Settled, Inv]
      · cases h
        constructor <;> grind [State.emit, State.Silent, Handler.Settled, Inv]

/-- What is in the log of a handler that has not settled the message. -/
theorem not_settlement {s : State} (hs : Inv s) (h : ¬ s.handler.Settled) :
    ∀ x ∈ s.log, ¬ x.IsSettlement := fun x hx hsettlement => h (hs.settled x hx hsettlement).1

/-- The settlement of the message. -/
theorem inv_settle {s : State} (hs : Inv s) {c : Call} (hc : c = .ack ∨ c = .nak)
    (hsettled : ¬ s.handler.Settled) (hcancelled : .cancelled ∉ s.log) (hsilent : s.Silent)
    (hnak : c = .nak → .left .transient ∈ s.log) (storageKey : Option String) :
    Inv { s.emit (.call c) with handler := .settling storageKey } := by
  have hsettlement : Event.IsSettlement (.call c) := by
    rcases hc with rfl | rfl
    · exact .inl rfl
    · exact .inr rfl
  have hordered := ordered_emit hs.ordered fun x hx =>
    mayFollow_settlement (not_settlement hs hsettled x hx) (fun h => hcancelled (h ▸ hx))
      hsettlement
  have hmem : ∀ e, e ∈ s.log ++ [.call c] ↔ e ∈ s.log ∨ e = .call c := by simp
  constructor <;> grind [State.emit, State.Silent, Handler.Settled, Inv]

/-- The block is left. -/
theorem inv_leave {s : State} (hs : Inv s) {exit : Exit}
    (h : s.handler = .processing ∨ s.handler = .unwinding ∧ exit = .cancelled) :
    Inv (s.leave exit) := by
  have hsettled : ¬ s.handler.Settled := by
    rcases h with h | ⟨h, -⟩
    · rw [h]
      exact id
    · rw [h]
      exact id
  have hordered := ordered_emit hs.ordered fun x hx =>
    mayFollow_left (not_settlement hs hsettled x hx) exit
  have hmem : ∀ e, e ∈ s.log ++ [.left exit] ↔ e ∈ s.log ∨ e = .left exit := by simp
  have hne : ¬ Event.IsSettlement (.left exit) := by simp [Event.IsSettlement]
  have hsilent : (s.leave exit).Silent := .inr (.inr rfl)
  constructor <;> grind [State.emit, State.leave, State.Silent, Handler.Settled, Inv]

/-- The block is entered. -/
theorem inv_enter {s : State} (hs : Inv s) (h : s.handler = .created) :
    Inv { s.emit .entered with handler := .processing, heartbeat := .created } := by
  obtain ⟨hlog, -⟩ := hs.created h
  constructor <;> simp [State.emit, hlog, Event.IsSettlement]

/-- The handler goes on after the block, and calls nothing. -/
theorem inv_move {s : State} (hs : Inv s) {handler : Handler}
    (h : handler.Settled ∨ s.handler = .waiting .failed ∧ handler = .savingFailure) :
    Inv { s with handler := handler } := by
  constructor <;> grind [State.Silent, Handler.Settled, Inv]

/-- The handler goes on after the block. -/
theorem inv_goOn {s : State} (hs : Inv s) {exit : Exit} (h : s.handler = .waiting exit) :
    Inv (s.goOn exit) := by
  have hleft := hs.waiting exit h
  have hsilent := hs.left exit hleft
  have hsettled : ¬ s.handler.Settled := by
    rw [h]
    exact id
  have hcancelled : exit ≠ .cancelled → .cancelled ∉ s.log := by
    intro hexit hmem
    rcases hs.cancelled hmem with hhandler | hhandler | hhandler
    · cases h.symm.trans hhandler
    · cases h.symm.trans hhandler
      exact hexit rfl
    · exact hsettled hhandler
  cases exit with
  | returned storageKey =>
    exact inv_settle hs (.inl rfl) hsettled (hcancelled (by simp)) hsilent (by simp) storageKey
  | transient =>
    exact inv_settle hs (.inr rfl) hsettled (hcancelled (by simp)) hsilent (fun _ => hleft) none
  | failed => exact inv_move hs (.inr ⟨h, rfl⟩)
  | cancelled => exact inv_move hs (.inl trivial)

/-- The handler acks what it could not work on. -/
theorem inv_ackOnly {s : State} (hs : Inv s)
    (h : s.handler = .created ∨ s.handler = .savingFailure) :
    Inv { s.emit (.call .ack) with handler := .settling none } := by
  have hsettled : ¬ s.handler.Settled := by
    rcases h with h | h
    · rw [h]
      exact id
    · rw [h]
      exact id
  have hcancelled : .cancelled ∉ s.log := by
    intro hmem
    rcases h with h | h
    · rw [(hs.created h).1] at hmem
      cases hmem
    · have hhandler := hs.cancelled hmem
      rw [h] at hhandler
      simp [Handler.Settled] at hhandler
  have hsilent : s.Silent := by
    rcases h with h | h
    · exact .inl (hs.created h).2
    · exact hs.left .failed (hs.saving h)
  exact inv_settle hs (.inl rfl) hsettled hcancelled hsilent (by simp) none

/-- A step of the handler keeps the invariant. -/
theorem inv_handlerStep {answer : Answer} {s s' : State} (h : handlerStep answer s = some s')
    (hs : Inv s) : Inv s' := by
  unfold handlerStep at h
  by_cases hcancel : s.handlerCancelled = true
  · rw [if_pos hcancel] at h
    exact inv_throwIn h hs
  rw [if_neg hcancel] at h
  split at h
  case h_1 hhandler =>
    cases h
    exact inv_ackOnly hs (.inl hhandler)
  case h_2 hhandler =>
    cases h
    exact inv_enter hs hhandler
  case h_3 exit hhandler =>
    cases h
    exact inv_leave hs (.inl hhandler)
  case h_4 hhandler =>
    cases h
    exact inv_leave hs (.inr ⟨hhandler, rfl⟩)
  case h_5 exit hhandler =>
    split at h
    · cases h
      exact inv_goOn hs hhandler
    · cases h
  case h_6 hhandler =>
    cases h
    exact inv_ackOnly hs (.inr hhandler)
  case h_13 => cases h
  all_goals
    cases h
    exact inv_move hs (.inl trivial)

/-- **Every step keeps the invariant.** -/
theorem inv_step {s s' : State} {x : Step} (h : step s x = some s') (hs : Inv s) : Inv s' := by
  cases x with
  | cancel =>
    rw [step] at h
    split at h
    · cases h
    · cases h
      exact ⟨hs.ordered, hs.created, hs.settled, hs.cancelled, hs.left, hs.waiting, hs.saving,
        hs.nak, hs.entered, hs.beats⟩
  | handler answer => exact inv_handlerStep h hs
  | heartbeat => exact inv_heartbeatStep h hs

/-- **The invariant holds in every run.** -/
theorem inv_run {steps : List Step} {s s' : State} (h : run steps s = some s') (hs : Inv s) :
    Inv s' := by
  induction steps generalizing s with
  | nil =>
    cases h
    exact hs
  | cons x steps ih =>
    rw [run, List.foldlM_cons] at h
    obtain ⟨next, hnext, hrest⟩ := Option.bind_eq_some_iff.mp h
    exact ih hrest (inv_step hnext hs)

/-! ### Every run is orderly -/

/-- Calls of which only the last may be a settlement. -/
theorem calls_shape {calls : List Call} (h : calls.Pairwise fun c _ => c = .inProgress) :
    ∃ k, ∃ last ∈ [[], [Call.ack], [Call.nak]], calls = List.replicate k .inProgress ++ last := by
  induction calls with
  | nil => exact ⟨0, [], by simp, rfl⟩
  | cons c calls ih =>
    rw [List.pairwise_cons] at h
    obtain ⟨k, last, hlast, heq⟩ := ih h.2
    by_cases hc : c = .inProgress
    · exact ⟨k + 1, last, hlast, by rw [hc, heq]; rfl⟩
    · have hnil : calls = [] := by
        rw [List.eq_nil_iff_forall_not_mem]
        exact fun d hd => hc (h.1 d hd)
      subst hnil
      cases c with
      | inProgress => exact absurd rfl hc
      | ack => exact ⟨0, [.ack], by simp, rfl⟩
      | nak => exact ⟨0, [.nak], by simp, rfl⟩

/-- After a settlement there is no other call. -/
theorem Inv.calls {s : State} (hs : Inv s) :
    (s.log.filterMap Event.toCall).Pairwise fun c _ => c = .inProgress := by
  rw [List.pairwise_filterMap]
  refine hs.ordered.imp fun {e e'} hfollow c hc c' hc' => ?_
  cases e with
  | call d =>
    cases hc
    by_contra hne
    have hsettlement : Event.IsSettlement (.call c) := by
      cases c with
      | inProgress => exact absurd rfl hne
      | ack => exact .inl rfl
      | nak => exact .inr rfl
    rw [hfollow.settled hsettlement] at hc'
    cases hc'
  | _ => cases hc

/-- The log of a state with the invariant is orderly. -/
theorem Inv.orderly {s : State} (hs : Inv s) : Orderly s.log where
  settlement := calls_shape hs.calls
  nak := by
    intro before after hlog
    have hmem := hs.nak (by rw [hlog]; simp)
    have hordered := hs.ordered
    rw [hlog, List.pairwise_append, List.pairwise_cons] at hordered
    rw [hlog, List.mem_append, List.mem_cons] at hmem
    rcases hmem with hbefore | hnak | hafter
    · exact hbefore
    · cases hnak
    · cases (hordered.2.1.1 _ hafter).settled (.inr rfl)
  cancelled := by
    intro before after hlog _ e he
    have hordered := hs.ordered
    rw [hlog, List.pairwise_append, List.pairwise_cons] at hordered
    exact (hordered.2.1.1 e he).cancelled rfl
  beats := by
    intro before after hlog
    have hmem := hs.beats (by rw [hlog]; simp)
    have hordered := hs.ordered
    rw [hlog, List.pairwise_append, List.pairwise_cons] at hordered
    rw [hlog, List.mem_append, List.mem_cons] at hmem
    constructor
    · rcases hmem with hbefore | hcall | hafter
      · exact hbefore
      · cases hcall
      · exact absurd rfl (hordered.2.1.1 _ hafter).entered
    · intro exit hexit
      exact (hordered.2.2 _ hexit _ List.mem_cons_self).left exit rfl rfl

/-- **One settlement, and nothing after it.** -/
theorem run_orderly (steps : List Step) {s : State} (h : run steps initial = some s) :
    Orderly s.log :=
  (inv_run h inv_initial).orderly

/-- A transient failure after one beat. -/
theorem run_orderly_nak :
    Orderly [.entered, .call .inProgress, .left .transient, .call .nak] :=
  run_orderly [.handler .decoded, .heartbeat, .heartbeat, .handler (.ends .transient), .heartbeat,
    .handler .succeeds, .cancel] (s := ⟨.settling none, true, .stopped, true, _⟩) rfl

/-- **A heartbeat that comes after the cancellation.** The cancelled `_process` still unwinds, at an
`await` of what it has to close. -/
theorem run_beats_after_cancel :
    ∃ steps s, run steps initial = some s ∧ ¬ QuietAfterCancel s.log := by
  refine ⟨[.handler .decoded, .heartbeat, .cancel, .handler .succeeds, .heartbeat],
    ⟨.unwinding, false, .sending, false, [.entered, .cancelled, .call .inProgress]⟩, rfl, ?_⟩
  intro hquiet
  refine hquiet [.entered] [.call .inProgress] rfl ?_ List.mem_cons_self
  simp [Event.IsSettlement]

end AllocationKeys.Worker
