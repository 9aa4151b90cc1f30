import AllocationKeys.Generation.Provenance
import AllocationKeys.Realtime.Bus

/-!
# The hints of a generation

The workers of all generations emit their events through one broker. `bus` is this broker with any
number of emissions under way: their publishes interleave, and each can be cancelled.

* `messages_of_run`: every message on the broker is a well formed envelope of an emission that was
  begun, on a channel of its audience;
* `notified_of_run`: what a run of the pipeline emits tells of an end that the emitting thread has
  committed;
* `inbox_of_run`: that reaches the managers of the community whose request created the generation,
  and nobody else.
-/

namespace AllocationKeys.Realtime

open Concurrent Generation Program

/-! ### Emissions under way -/

/-- Threads that emit, over one broker. -/
def bus (settings : Settings) : Machine Emission Op Resp Choice Failure Hub where
  program := emit settings
  launch _ _ hub := some hub
  exec _ := exec
  abort _ hub := hub

/-- What an emission may publish. -/
def MayPublish (e : Emission) : Op → Prop
  | .publish channel body => channel ∈ e.audience.channels ∧ WellFormed e body
  | _ => True

variable {settings : Settings} {e : Emission}

theorem mayPublish_publishAll {body : String} (hbody : WellFormed e body) {channels : List String}
    (h : ∀ channel ∈ channels, channel ∈ e.audience.channels) :
    (publishAll body channels).Calls (MayPublish e) := by
  induction channels with
  | nil => trivial
  | cons channel channels ih =>
    refine Calls.bind (calls_call ⟨h channel (List.mem_cons_self ..), hbody⟩) fun _ => ih ?_
    exact fun c hc => h c (List.mem_cons_of_mem channel hc)

theorem mayPublish_emit (settings : Settings) (e : Emission) :
    (emit settings e).CallsGiven (fun _ _ => True) (MayPublish e) := by
  have hbuild : (buildEnvelope e).Calls (MayPublish e) := by
    unfold buildEnvelope
    split
    · refine Calls.bind (calls_ask trivial) fun id => Calls.bind (calls_ask trivial) fun stamp => ?_
      dsimp only
      split <;> trivial
    · trivial
  unfold emit
  split
  · trivial
  refine CallsGiven.tryCatch (hbuild.given.bind fun built hbuilt => ?_) fun failure => ?_
  · cases built with
    | none => trivial
    | some envelope =>
      have hwell : WellFormed e (compact envelope) := ensures_buildEnvelope _ hbuilt envelope rfl
      exact Calls.given (Calls.bind (calls_call trivial) fun _ =>
        mayPublish_publishAll hwell fun _ h => h)
  · cases failure <;> trivial

/-- Every message is an envelope of one of these emissions. -/
def Genuine (begun : Emission → Prop) (hub : Hub) : Prop :=
  ∀ message ∈ hub, ∃ e, begun e ∧ message.1 ∈ e.audience.channels ∧ WellFormed e message.2

theorem grounded_genuine (begun : Emission → Prop) :
    Machine.Grounded (bus settings) (fun e o => begun e ∧ MayPublish e o) (fun _ _ => True)
      (Genuine begun) where
  launch _ _ hub hub' h hlaunch := by
    cases hlaunch
    exact h
  exec t e o choice r hub hub' h hmay hexec := by
    refine ⟨fun message hmessage => ?_, trivial⟩
    cases o with
    | publish channel body =>
      cases choice <;> cases hexec
      · rcases List.mem_append.mp hmessage with hold | hnew
        · exact h message hold
        · rw [List.mem_singleton] at hnew
          exact ⟨e, hmay.1, hnew ▸ hmay.2.1, hnew ▸ hmay.2.2⟩
      · exact h message hmessage
      · rcases List.mem_append.mp hmessage with hold | hnew
        · exact h message hold
        · rw [List.mem_singleton] at hnew
          exact ⟨e, hmay.1, hnew ▸ hmay.2.1, hnew ▸ hmay.2.2⟩
    | _ => cases choice <;> cases hexec <;> exact h message hmessage
  abort _ _ h := h

/-- Whatever the order of the publishes and the failures, the broker has nothing but envelopes of
the emissions that were begun. -/
theorem messages_of_run {begun : Emission → Prop} {d : Config Emission Op Resp Failure Hub}
    (hrun : (bus settings).Run (fun _ label => ∀ t e, label = .launch t e → begun e)
      (Machine.start []) d) : Genuine begun d.state := by
  refine (Machine.callsGiven_of_run (grounded_genuine begun) (fun _ t e hallowed => ?_) ?_ hrun).1
  · exact (mayPublish_emit settings e).mono fun o ho => ⟨hallowed t e rfl, ho⟩
  · exact fun message hmessage => absurd hmessage List.not_mem_nil

/-! ### The events of the pipeline -/

/-- The arguments that `save_success` and `save_failure` pass on. -/
def Emission.ofEvent (event : RealtimeEvent) : Emission where
  topic := event.topic
  audience := .community event.communityId .manager
  resource := (event.resource.1, some (.int event.resource.2))
  hint := some [("status", .str event.hint)]
  scopeCommunityId := some event.communityId

/-- The community of a request. -/
def requestedCommunity {S : Services} : Role S → Option ℤ
  | .startGeneration _ _ communityId => some communityId
  | .startGenerationFromCrm _ communityId => some communityId
  | _ => none

theorem community_of_requested {S : Services} {registry : String → Option (AlgorithmMetadata S)}
    {request : Role S} {model : GenerationModel S} (h : Requested registry request model) :
    requestedCommunity request = some model.idCommunity := by
  cases request with
  | startGeneration req file communityId =>
    obtain ⟨_, _, -, -, rfl⟩ := h
    rfl
  | startGenerationFromCrm req communityId =>
    obtain ⟨_, _, _, -, -, -, rfl⟩ := h
    rfl
  | _ => exact h.elim

theorem text_injective {status status' : GenerationStatus} (h : status.text = status'.text) :
    status = status' := by
  cases status <;> cases status' <;> first | rfl | exact absurd h (by decide)

/-- An event that is emitted tells of an end that its thread has committed. -/
def Told {S : Services} {K : Type} (t : ℕ) (o : Generation.Op S K) (w : World S K) : Prop :=
  ∀ event, o = .emit event →
    ∃ outcome ∈ w.history, outcome.thread = t ∧ tellsEvent event outcome.status

section Pipeline

variable {S : Services} {K : Type} [Zero K] [Add K] {gid : ℤ}
  {registry : String → Option (AlgorithmMetadata S)} {c : LoggedState S K}
  (hrun : (system registry gid).traced.Run (fun _ _ => True) (Machine.start (World.empty, [])) c)
include hrun

/-- Every event on the log of a run tells of an end that its thread has committed. -/
theorem told_of_run {t : ℕ} {o : Generation.Op S K} {r : Generation.Resp S K o}
    (hcalled : .called t o r ∈ c.state.2) : Told t o c.state.1 := by
  refine Machine.held_of_run system_obeys inv_empty (fun t o w hpre event heq => ?_)
    (fun t t' o w w' hkeeps htold event heq => ?_) hrun hcalled
  · subst heq
    exact hpre
  · obtain ⟨outcome, hmem, htells⟩ := htold event heq
    exact ⟨outcome, (hkeeps.2 (t' + 1) (by omega)).history.subset hmem, htells⟩

/-- The request that creates the generation is behind every event, and the event tells its
community of an end. -/
theorem notified_of_run {t : ℕ} {event : RealtimeEvent}
    (hemitted : .called t (.emit event) () ∈ c.state.2) :
    ∃ t₀ request communityId, ∃ outcome ∈ c.state.1.history, .launched t₀ request ∈ c.state.2 ∧
      requestedCommunity request = some communityId ∧ outcome.thread = t ∧
      event = finished gid communityId outcome.status := by
  obtain ⟨outcome, hmem, hthread, htells⟩ := told_of_run hrun hemitted event rfl
  have hnotified : ∀ request : Role S, (∀ t role, .launched t role ∈ c.state.2 →
      role.creates = true → role = request) → Notified gid registry request event := by
    intro request hrequest
    obtain ⟨_, -, hasks⟩ := asks_of_run hrun hrequest hemitted
    exact hasks
  rcases request_of_run hrun with hnone | ⟨t₀, request, hlaunched, honly⟩
  · -- no request, no event
    obtain ⟨model, status, hrequested, -⟩ := hnotified (.deleteGeneration none)
      fun t₀ role hmem hcreates => by
        rw [hnone t₀ role hmem] at hcreates
        cases hcreates
    exact hrequested.elim
  · obtain ⟨model, status, hrequested, rfl⟩ := hnotified request fun t₁ role hmem hcreates => by
      cases honly _ hmem hcreates
      rfl
    have hstatus : status = outcome.status := text_injective htells
    exact ⟨t₀, request, model.idCommunity, outcome, hmem, hlaunched,
      community_of_requested hrequested, hthread, by rw [hstatus]⟩

/-- **Nobody hears of a generation but the managers of its community**: in every run of the pipeline
and every interleaving of its hints, with every failure, a message that anybody receives is the
envelope of an end of the generation that the emitting thread has committed, on the manager tier of
the community whose request created the generation. -/
theorem inbox_of_run {d : Config Emission Op Resp Failure Hub}
    (hbus : (bus settings).Run (fun _ label => ∀ t e, label = .launch t e →
      ∃ t' event, .called t' (.emit event) () ∈ c.state.2 ∧ e = Emission.ofEvent event)
      (Machine.start []) d)
    {g : Group} {body : String} (hbody : body ∈ inbox g d.state) :
    ∃ t₀ request communityId, ∃ outcome ∈ c.state.1.history, .launched t₀ request ∈ c.state.2 ∧
      requestedCommunity request = some communityId ∧ g = .community communityId .manager ∧
      .called outcome.thread (.emit (finished gid communityId outcome.status)) () ∈ c.state.2 ∧
      WellFormed (Emission.ofEvent (finished gid communityId outcome.status)) body := by
  obtain ⟨message, hmessage, rfl⟩ := List.mem_map.mp hbody
  obtain ⟨hmem, hchannel⟩ := List.mem_filter.mp hmessage
  have hbegun : Genuine (fun e => ∃ t' event, .called t' (.emit event) () ∈ c.state.2 ∧
      e = Emission.ofEvent event) d.state := messages_of_run hbus
  obtain ⟨e, ⟨t', event, hemitted, rfl⟩, haudience, hwell⟩ := hbegun message hmem
  obtain ⟨t₀, request, communityId, outcome, hend, hlaunched, hcommunity, rfl, rfl⟩ :=
    notified_of_run hrun hemitted
  refine ⟨t₀, request, communityId, outcome, hend, hlaunched, hcommunity, ?_, hemitted, hwell⟩
  have hgroup : message.1 = Group.channel (.community communityId .manager) :=
    List.mem_singleton.mp haudience
  exact channel_injective ((of_decide_eq_true hchannel).symm.trans hgroup)

end Pipeline

/-- The entry is this event. -/
def isEvent (event : RealtimeEvent) : LogEntry plainServices ℕ → Bool
  | .called _ (.emit emitted) _ => emitted = event
  | _ => false

/-- The step is a call. -/
def Label.isAct {Role Choice : Type} : Label Role Choice → Bool
  | .act .. => true
  | _ => false

/-- A delivery that saves a success, and its hint. -/
theorem inbox_of_run_success : ∃ (c : LoggedState plainServices ℕ)
    (d : Config Emission Op Resp Failure Hub) (g : Group), ∃ body ∈ inbox g d.state,
    ∃ t₀ request communityId, ∃ outcome ∈ c.state.1.history, .launched t₀ request ∈ c.state.2 ∧
      requestedCommunity request = some communityId ∧ g = .community communityId .manager ∧
      .called outcome.thread (.emit (finished 1 communityId outcome.status)) () ∈ c.state.2 ∧
      WellFormed (Emission.ofEvent (finished 1 communityId outcome.status)) body := by
  have hplay : ((system (K := ℕ) plainRegistry 1).traced.play (fun _ _ => True)
      (lostPublish ++ successfulDelivery ++ acts 2 [.ok, .ok, .ok])
      (Machine.start (World.empty, []))).any (fun c =>
        c.state.2.any (isEvent (finished 1 7 .success))) = true := by decide +kernel
  have hhint : ((bus ⟨true, "redis://realtime"⟩).play (fun _ label => Label.isAct label = true)
      [.act 1 (.text "00"), .act 1 (.text "2026"), .act 1 .ok, .act 1 .ok]
      ⟨[], Function.update (fun _ => .idle) 1 (.running (Emission.ofEvent (finished 1 7 .success))
        (emit ⟨true, "redis://realtime"⟩ (Emission.ofEvent (finished 1 7 .success))))⟩).any
      (fun d => !(inbox (.community 7 .manager) d.state).isEmpty) = true := by decide +kernel
  obtain ⟨c, hrun, hc⟩ := Machine.exists_of_play hplay
  obtain ⟨entry, hentry, hevent⟩ := List.any_eq_true.mp hc
  obtain ⟨d, hbus, hd⟩ := Machine.exists_of_play hhint
  rcases hinbox : inbox (.community 7 .manager) d.state with _ | ⟨body, rest⟩
  · rw [hinbox] at hd
    cases hd
  rcases entry with ⟨t, role⟩ | ⟨t, o, r⟩
  · cases hevent
  · cases o with
    | emit event =>
      have heq : event = finished 1 7 .success := of_decide_eq_true hevent
      have hbody : body ∈ inbox (.community 7 .manager) d.state := hinbox ▸ List.mem_cons_self ..
      have hhints : (bus ⟨true, "redis://realtime"⟩).Run (fun _ label => ∀ t e,
          label = .launch t e → ∃ t' event, .called t' (.emit event) () ∈ c.state.2 ∧
            e = Emission.ofEvent event) (Machine.start []) d := by
        refine Relation.ReflTransGen.head ⟨.launch 1 (Emission.ofEvent event), ?_, rfl⟩ ?_
        · rintro t' e heq'
          cases heq'
          exact ⟨t, event, hentry, rfl⟩
        · rw [heq]
          refine Machine.Run.mono (fun _ label hact t' e hlaunch => ?_) hbus
          subst hlaunch
          cases hact
      exact ⟨c, d, _, body, hbody, inbox_of_run hrun hhints hbody⟩
    | _ => cases hevent

end AllocationKeys.Realtime
