import AllocationKeys.Lib.Json
import AllocationKeys.Lib.Perform

/-!
# Realtime hints

`core/realtime`: the channels a hint is published on, the envelope it is published in, and `emit`,
which publishes it. The state is the messages that the broker has delivered; a publish can fail
before the delivery or after it, and its time can run out.

* `channel_injective`: no two groups of recipients share a channel;
* `performs_emit`: what a run of `emit` delivers, and how it ends;
* `inbox_of_emit`: a subscriber of a channel gets at most one envelope from an emission, one that is
  `WellFormed`, and none unless the audience names the group of the channel.
-/

namespace AllocationKeys.Realtime

open Program

/-! ### Channels -/

inductive Tier where
  | member
  | manager
  deriving DecidableEq

def Tier.value : Tier → String
  | .member => "MEMBER"
  | .manager => "MANAGER"

/-- An integer in an f-string. -/
def decimal (n : ℤ) : String := String.ofList (Json.printInt n)

def userChannel (internalUserId : ℤ) : String := "notify:v1" ++ ":u:" ++ decimal internalUserId

def communityChannel (internalCommunityId : ℤ) (tier : Tier) : String :=
  "notify:v1" ++ ":c:" ++ decimal internalCommunityId ++ ":" ++ tier.value

inductive Audience where
  | user (userId : ℤ)
  | users (userIds : List ℤ)
  | community (communityId : ℤ) (tier : Tier)

def Audience.channels : Audience → List String
  | .user userId => [userChannel userId]
  | .users userIds => userIds.eraseDups.map userChannel
  | .community communityId tier => [communityChannel communityId tier]

/-- Those who may subscribe to one channel. -/
inductive Group where
  | user (id : ℤ)
  | community (id : ℤ) (tier : Tier)
  deriving DecidableEq

def Group.channel : Group → String
  | .user id => userChannel id
  | .community id tier => communityChannel id tier

/-- The groups an audience names. -/
def Audience.groups : Audience → List Group
  | .user userId => [.user userId]
  | .users userIds => userIds.eraseDups.map .user
  | .community communityId tier => [.community communityId tier]

/-- The channels are those of the groups. -/
theorem channels_eq (audience : Audience) :
    audience.channels = audience.groups.map Group.channel := by
  cases audience with
  | user userId => rfl
  | users userIds =>
    simp only [Audience.channels, Audience.groups, List.map_map]
    rfl
  | community communityId tier => rfl

/-- A number that is followed by something else is read back. -/
theorem printInt_append {m n : ℤ} {cs ds : List Char} (hcs : Json.Ends cs) (hds : Json.Ends ds)
    (h : Json.printInt m ++ cs = Json.printInt n ++ ds) : m = n ∧ cs = ds := by
  have hm := Json.scanInt_printInt m hcs
  rw [h, Json.scanInt_printInt n hds] at hm
  cases hm
  exact ⟨rfl, rfl⟩

theorem toList_userChannel (id : ℤ) : (userChannel id).toList =
    ("notify:v1".toList ++ [':', 'u', ':']) ++ Json.printInt id := by
  simp only [userChannel, decimal, String.toList_append, String.toList_ofList]
  rfl

theorem toList_communityChannel (id : ℤ) (tier : Tier) : (communityChannel id tier).toList =
    ("notify:v1".toList ++ [':', 'c', ':']) ++ (Json.printInt id ++ ':' :: tier.value.toList) := by
  simp only [communityChannel, decimal, String.toList_append, String.toList_ofList,
    List.append_assoc]
  rfl

/-- **No two groups share a channel.** -/
theorem channel_injective : Function.Injective Group.channel := by
  have hcolon : ∀ cs, Json.Ends (':' :: cs) := fun cs => Json.ends_cons rfl (by decide)
  have hnil : Json.Ends [] := fun c hc => by cases hc
  have hfamily : ∀ id id' tier, userChannel id ≠ communityChannel id' tier := by
    intro id id' tier h
    have hlist := congrArg String.toList h
    rw [toList_userChannel, toList_communityChannel, List.append_assoc, List.append_assoc,
      List.append_right_inj] at hlist
    cases hlist
  intro g g' h
  cases g with
  | user id =>
    cases g' with
    | user id' =>
      have hlist := congrArg String.toList h
      simp only [Group.channel, toList_userChannel, List.append_right_inj] at hlist
      have hid : Json.printInt id ++ [] = Json.printInt id' ++ [] := by rw [hlist]
      rw [(printInt_append hnil hnil hid).1]
    | community id' tier' => exact (hfamily id id' tier' h).elim
  | community id tier =>
    cases g' with
    | user id' => exact (hfamily id' id tier h.symm).elim
    | community id' tier' =>
      have hlist := congrArg String.toList h
      simp only [Group.channel, toList_communityChannel, List.append_right_inj] at hlist
      obtain ⟨rfl, htier⟩ := printInt_append (hcolon _) (hcolon _) hlist
      have htier : tier = tier' := by
        cases tier <;> cases tier' <;> first | rfl | exact absurd htier (by decide)
      rw [htier]

/-- No channel comes twice. -/
theorem nodup_eraseDups {α : Type} [DecidableEq α] (l : List α) : l.eraseDups.Nodup := by
  induction h : l.length using Nat.strongRecOn generalizing l with
  | _ n ih =>
    cases l with
    | nil => exact List.nodup_nil
    | cons a l =>
      have hlength := List.length_filter_le (fun b => !b == a) l
      rw [List.eraseDups_cons, List.nodup_cons]
      refine ⟨fun hmem => ?_, ih _ ?_ _ rfl⟩
      · have hne := (List.mem_filter.mp (List.mem_eraseDups.mp hmem)).2
        simp at hne
      · rw [← h, List.length_cons]
        omega

/-- An audience names every group once. -/
theorem nodup_groups (audience : Audience) : audience.groups.Nodup := by
  cases audience with
  | user userId => exact List.nodup_singleton _
  | users userIds => exact (nodup_eraseDups userIds).map fun _ _ h => Group.user.inj h
  | community communityId tier => exact List.nodup_singleton _

/-! ### Envelopes -/

/-- `MAX_ENVELOPE_BYTES`. -/
def maxEnvelopeBytes : ℕ := 1024

/-- `TOPICS`. -/
def topics : List String :=
  ["notification.created", "generation.finished", "simulation.finished", "billing_run.finished",
    "session.revoked"]

/-- The second part of a resource. -/
inductive RefId where
  | str (s : String)
  | int (n : ℤ)

/-- `str(ref_id)`. -/
def RefId.text : RefId → String
  | .str s => s
  | .int n => decimal n

/-- The arguments of `emit`. -/
structure Emission where
  topic : String
  audience : Audience
  resource : String × Option RefId
  hint : Option (List (String × Json))
  scopeCommunityId : Option ℤ

/-- `_is_scalar`. -/
def isScalar : Json → Bool
  | .arr _ | .obj _ => false
  | _ => true

/-- What of the contract does not depend on the size. -/
def Emission.accepted (e : Emission) : Bool :=
  topics.contains e.topic && (e.resource.1 != "" && e.resource.2.isSome) &&
    (e.hint.getD []).all fun member => isScalar member.2

/-- The members of an envelope. -/
def Emission.envelope (e : Emission) (refId : RefId) (id stamp : String) : Json :=
  .obj [("v", .int 1), ("id", .str id), ("topic", .str e.topic), ("at", .str stamp),
    ("scope", .obj [("community_id", e.scopeCommunityId.elim .null .int)]),
    ("ref", .obj [("kind", .str e.resource.1), ("id", .str refId.text)]),
    ("hint", .obj (Json.dict (e.hint.getD [])))]

/-- `json.dumps` with `separators=(",", ":")`. -/
def compact (v : Json) : String := String.ofList (Json.print [] v)

/-! ### Publishing -/

structure Settings where
  realtimeEnabled : Bool
  realtimeRedisUrl : String

/-- An error is one of the exceptions, of which a timeout is one, or the cancellation of the task,
which is not. -/
inductive Failure where
  | exception
  | cancelled
  deriving DecidableEq

inductive Op where
  /-- `secrets.token_hex(8)`. -/
  | tokenHex
  /-- `datetime.now(UTC)` in the ISO format. -/
  | now
  /-- `_get_client`. -/
  | getClient
  | publish (channel body : String)
  deriving DecidableEq

@[reducible] def Resp : Op → Type
  | .tokenHex | .now => String
  | .getClient | .publish .. => Except Failure Unit

/-- What the environment makes of a call: a text, a success, or a failure before or after the
message is delivered. -/
inductive Choice where
  | text (s : String)
  | ok
  | fail (e : Failure)
  | lost (e : Failure)
  deriving DecidableEq

abbrev Bus := Program Op Resp Failure

/-- The messages delivered so far, each on a channel. -/
abbrev Hub := List (String × String)

def exec : (o : Op) → Choice → Hub → Option (Resp o × Hub)
  | .tokenHex, .text s, hub => some (s, hub)
  | .now, .text s, hub => some (s, hub)
  | .getClient, .ok, hub => some (.ok (), hub)
  | .getClient, .fail e, hub => some (.error e, hub)
  | .publish channel body, .ok, hub => some (.ok (), hub ++ [(channel, body)])
  | .publish _ _, .fail e, hub => some (.error e, hub)
  | .publish channel body, .lost e, hub => some (.error e, hub ++ [(channel, body)])
  | _, _, _ => none

/-- `build_envelope`: `none` for what violates the contract. -/
def buildEnvelope (e : Emission) : Bus (Option Json) :=
  match e.accepted, e.resource.2 with
  | true, some refId => do
      let id ← ask .tokenHex
      let stamp ← ask .now
      let envelope := e.envelope refId id stamp
      if maxEnvelopeBytes < (compact envelope).utf8ByteSize then pure none
      else pure (some envelope)
  | _, _ => pure none

def getClient : Bus Unit := .call .getClient Program.ofExcept

def publish (channel body : String) : Bus Unit := .call (.publish channel body) Program.ofExcept

/-- The loop over the channels. -/
def publishAll (body : String) : List String → Bus Unit
  | [] => pure ()
  | channel :: channels => do
      publish channel body
      publishAll body channels

/-- Publish a realtime hint. -/
def emit (settings : Settings) (e : Emission) : Bus Unit :=
  if !settings.realtimeEnabled || settings.realtimeRedisUrl = "" then pure ()
  else tryCatch
    (do
      let envelope ← buildEnvelope e
      match envelope with
      | none => pure ()
      | some envelope => do
          let body := compact envelope
          getClient
          publishAll body e.audience.channels)
    fun failure => match failure with
      | .exception => pure ()
      | .cancelled => throw .cancelled

/-! ### What is delivered -/

def Choice.failure : Choice → Option Failure
  | .fail e | .lost e => some e
  | _ => none

/-- The body is an envelope of the emission. -/
structure WellFormed (e : Emission) (body : String) : Prop where
  registered : e.topic ∈ topics
  scalar : ∀ member ∈ e.hint.getD [], isScalar member.2 = true
  size : body.utf8ByteSize ≤ maxEnvelopeBytes
  parsed : ∃ refId id stamp, e.resource.2 = some refId ∧
    Json.parse body.toList = some (e.envelope refId id stamp)

theorem valid_of_scalar {v : Json} (h : isScalar v = true) : v.Valid := by
  cases v with
  | arr items => cases h
  | obj members => cases h
  | _ => trivial

theorem validMembers_of_scalar {members : List (String × Json)}
    (h : ∀ member ∈ members, isScalar member.2 = true) : Json.ValidMembers members := by
  induction members with
  | nil => trivial
  | cons member members ih =>
    rw [Json.ValidMembers]
    exact ⟨valid_of_scalar (h member (List.mem_cons_self ..)),
      ih fun m hm => h m (List.mem_cons_of_mem member hm)⟩

/-- The envelope is valid JSON. -/
theorem valid_envelope {e : Emission} (h : ∀ member ∈ e.hint.getD [], isScalar member.2 = true)
    (refId : RefId) (id stamp : String) : (e.envelope refId id stamp).Valid := by
  obtain ⟨hnodup, hmem⟩ := Json.nodup_dict (e.hint.getD [])
  have hscope : (e.scopeCommunityId.elim .null .int : Json).Valid := by
    cases e.scopeCommunityId <;> trivial
  have hhint : Json.ValidMembers (Json.dict (e.hint.getD [])) :=
    validMembers_of_scalar fun member hmember => h member (hmem member hmember)
  simp only [Emission.envelope, Json.Valid, Json.ValidMembers, hscope, hnodup, hhint, List.map_cons,
    List.map_nil, and_true]
  decide

/-- What is accepted. -/
theorem accepted_iff {e : Emission} : e.accepted = true ↔ e.topic ∈ topics ∧
    (e.resource.1 ≠ "" ∧ e.resource.2.isSome = true) ∧
      ∀ member ∈ e.hint.getD [], isScalar member.2 = true := by
  simp only [Emission.accepted, Bool.and_eq_true, List.contains_iff_mem, bne_iff_ne, ne_eq,
    List.all_eq_true, and_assoc]

variable {e : Emission} {hub : Hub}

/-- Whatever is built is well formed. -/
theorem ensures_buildEnvelope : (buildEnvelope e).Ensures (fun _ _ => True) fun built =>
    ∀ envelope ∈ built, WellFormed e (compact envelope) := by
  have hnone : (pure none : Bus (Option Json)).Ensures (fun _ _ => True) fun built =>
      ∀ envelope ∈ built, WellFormed e (compact envelope) := ensures_ret fun _ h => by cases h
  unfold buildEnvelope
  split
  · rename_i refId haccepted hrefId
    obtain ⟨htopic, -, hscalar⟩ := accepted_iff.mp haccepted
    refine ensures_call fun id _ => ensures_call fun stamp _ => ?_
    show (if maxEnvelopeBytes < (compact (e.envelope refId id stamp)).utf8ByteSize then pure none
      else pure (some (e.envelope refId id stamp)) : Bus (Option Json)).Ensures _ _
    split
    · exact hnone
    · rename_i hsize
      refine ensures_ret fun envelope h => ?_
      cases h
      refine ⟨htopic, hscalar, by omega, refId, id, stamp, hrefId, ?_⟩
      rw [compact, String.toList_ofList]
      exact Json.parse_print (by simp) (valid_envelope hscalar refId id stamp)
  · exact hnone

/-- Building delivers nothing, and cannot fail. -/
theorem ends_buildEnvelope : (buildEnvelope e).Ends exec hub fun _ out hub' => hub' = hub ∧
    ∃ built, out = .ok built := by
  unfold buildEnvelope
  split
  · refine ends_call fun choice id hub₁ hexec => ?_
    cases choice <;> cases hexec
    refine ends_call fun choice stamp hub₂ hexec => ?_
    cases choice <;> cases hexec
    simp only [Program.bind]
    split
    · exact ends_ret ⟨rfl, none, rfl⟩
    · exact ends_ret ⟨rfl, _, rfl⟩
  · exact ends_ret ⟨rfl, none, rfl⟩

/-- The loop delivers on the first channels, and on all of them when nothing fails. -/
theorem ends_publishAll (body : String) (channels : List String) :
    ∀ {hub : Hub}, (publishAll body channels).Ends exec hub fun events out hub' =>
      (∃ n, hub' = hub ++ (channels.take n).map (fun channel => (channel, body)) ∧
        ((∀ event ∈ events, event.2.failure = none) → channels.length ≤ n)) ∧
      (out = .ok () ∨ ∃ failure, out = .error failure ∧
        ∃ event ∈ events, event.2.failure = some failure) := by
  induction channels with
  | nil => exact ends_ret ⟨⟨0, (List.append_nil _).symm, fun _ => Nat.le_refl 0⟩, Or.inl rfl⟩
  | cons channel channels ih =>
    intro hub
    refine ends_call fun choice r hub₁ hexec => ?_
    have hfailed : ∀ failure, choice.failure = some failure → ∃ event ∈
        [((.publish channel body : Op), choice)], event.2.failure = some failure := fun _ h =>
      ⟨_, List.mem_singleton_self _, h⟩
    cases choice <;> cases hexec
    · refine ih.mono fun events out hub' hout => ?_
      obtain ⟨⟨n, rfl, hall⟩, hends⟩ := hout
      refine ⟨⟨n + 1, ?_, fun hevents => ?_⟩, ?_⟩
      · rw [List.take_succ_cons, List.map_cons, List.append_assoc, List.singleton_append]
      · have hlength := hall fun event h => hevents event (List.mem_cons_of_mem _ h)
        rw [List.length_cons]
        omega
      · rcases hends with hok | ⟨failure, herror, event, hevent, hfailure⟩
        · exact Or.inl hok
        · exact Or.inr ⟨failure, herror, event, List.mem_cons_of_mem _ hevent, hfailure⟩
    · rename_i failure
      refine ends_raise ⟨⟨0, (List.append_nil _).symm, fun hevents => ?_⟩,
        Or.inr ⟨failure, rfl, hfailed failure rfl⟩⟩
      cases hevents _ (List.mem_singleton_self _)
    · rename_i failure
      refine ends_raise ⟨⟨1, rfl, fun hevents => ?_⟩, Or.inr ⟨failure, rfl, hfailed failure rfl⟩⟩
      cases hevents _ (List.mem_singleton_self _)

/-- A run of `emit`: nothing is raised but a cancellation, and nothing is delivered but one
envelope, on the first of the channels. -/
structure Emitted (settings : Settings) (e : Emission) (hub : Hub) (events : List (Op × Choice))
    (out : Except Failure Unit) (hub' : Hub) : Prop where
  ends : out = .ok () ∨ out = .error .cancelled ∧
    ∃ event ∈ events, event.2.failure = some .cancelled
  delivered : hub' = hub ∨ (settings.realtimeEnabled = true ∧ settings.realtimeRedisUrl ≠ "") ∧
    ∃ n body, WellFormed e body ∧
      hub' = hub ++ (e.audience.channels.take n).map (fun channel => (channel, body)) ∧
      ((∀ event ∈ events, event.2.failure = none) → e.audience.channels.length ≤ n)

/-- The whole of `emit`. -/
theorem ends_emit (settings : Settings) :
    (emit settings e).Ends exec hub (Emitted settings e hub) := by
  unfold emit
  split
  · -- switched off
    exact ends_ret ⟨Or.inl rfl, Or.inl rfl⟩
  rename_i hon
  simp only [Bool.or_eq_true, Bool.not_eq_true', decide_eq_true_eq, not_or,
    Bool.not_eq_false] at hon
  have hbuild : (buildEnvelope e).Ends exec hub fun events out hub' => hub' = hub ∧
      ∃ built, out = .ok built ∧ ∀ envelope ∈ built, WellFormed e (compact envelope) := by
    intro events out hub' hperforms
    obtain ⟨rfl, built, rfl⟩ := ends_buildEnvelope _ _ _ hperforms
    exact ⟨rfl, built, rfl, ensures_buildEnvelope built hperforms.yields⟩
  refine Ends.tryCatch (hbuild.bind (fun events built hub₁ hbuilt => ?_)
    fun events failure hub₁ hbuilt => ?_)
  · obtain ⟨rfl, built, heq, hwell⟩ := hbuilt
    cases heq
    cases built with
    | none => exact ends_ret ⟨Or.inl rfl, Or.inl rfl⟩
    | some envelope =>
      -- nothing to announce
      refine ends_call fun choice r hub₂ hexec => ?_
      cases choice <;> cases hexec
      · -- a client: the envelope goes to the channels one after the other
        refine (ends_publishAll _ _).mono fun events' out hub' hout => ?_
        obtain ⟨⟨n, rfl, hall⟩, hends⟩ := hout
        have hdelivered : ∀ rest, (∀ event ∈ events ++ (Op.getClient, Choice.ok) :: events' ++ rest,
            event.2.failure = none) → e.audience.channels.length ≤ n := fun rest h =>
          hall fun event hevent => h event (List.mem_append_left _ (List.mem_append_right _
            (List.mem_cons_of_mem _ hevent)))
        rcases hends with rfl | ⟨failure, rfl, event, hevent, hfailure⟩
        · refine ⟨Or.inl rfl, Or.inr ⟨hon, n, _, hwell _ rfl, rfl, fun h => ?_⟩⟩
          exact hdelivered [] (by rwa [List.append_nil])
        · cases failure with
          | exception =>
            -- an exception is logged, and the caller never sees it
            exact ends_ret ⟨Or.inl rfl, Or.inr ⟨hon, n, _, hwell _ rfl, rfl, hdelivered []⟩⟩
          | cancelled =>
            -- a cancellation goes on to the caller
            refine ends_raise ⟨Or.inr ⟨rfl, event, ?_, hfailure⟩,
              Or.inr ⟨hon, n, _, hwell _ rfl, rfl, hdelivered []⟩⟩
            exact List.mem_append_left _ (List.mem_append_right _ (List.mem_cons_of_mem _ hevent))
      · rename_i failure
        refine ends_raise ?_
        cases failure with
        | exception =>
          show (ret () : Bus Unit).Ends exec _ _
          exact ends_ret ⟨Or.inl rfl, Or.inl rfl⟩
        | cancelled =>
          show (raise .cancelled : Bus Unit).Ends exec _ _
          refine ends_raise ⟨Or.inr ⟨rfl, (.getClient, .fail .cancelled), ?_, rfl⟩, Or.inl rfl⟩
          exact List.mem_append_left _ (List.mem_append_right _ (List.mem_singleton_self _))
  · obtain ⟨-, built, heq, -⟩ := hbuilt
    cases heq

/-! ### What a subscriber receives -/

/-- The bodies on the channel of a group. -/
def inbox (g : Group) (hub : Hub) : List String :=
  (hub.filter fun message => message.1 = g.channel).map Prod.snd

/-- What is published later comes later. -/
theorem inbox_append (g : Group) (hub hub' : Hub) :
    inbox g (hub ++ hub') = inbox g hub ++ inbox g hub' := by
  simp only [inbox, List.filter_append, List.map_append]

/-- One body for each group of the audience, and none for the others. -/
theorem inbox_groups (g : Group) (body : String) {groups : List Group} (h : groups.Nodup) :
    inbox g ((groups.map Group.channel).map fun channel => (channel, body)) =
      if g ∈ groups then [body] else [] := by
  induction groups with
  | nil => rfl
  | cons g' groups ih =>
    obtain ⟨hnew, hnodup⟩ := List.nodup_cons.mp h
    have hrest := ih hnodup
    simp only [inbox, List.map_cons] at hrest ⊢
    by_cases hg : g = g'
    · subst hg
      rw [List.filter_cons_of_pos (by simp), List.map_cons, hrest, if_neg hnew,
        if_pos (List.mem_cons_self ..)]
    · have hchannel : ¬ g'.channel = g.channel := fun heq => hg (channel_injective heq).symm
      rw [List.filter_cons_of_neg (by simpa using hchannel), hrest]
      simp only [List.mem_cons, hg, false_or]

/-- **Only those whom the audience names hear of an emission**: whatever the broker does, `emit`
raises nothing but the cancellation of its task; the subscribers of a channel get at most one
message, a well formed envelope, and none when realtime is off or the audience does not name them;
and when nothing fails, the audience gets the same envelope or nothing at all. -/
theorem inbox_of_emit {settings : Settings} {events : List (Op × Choice)}
    {out : Except Failure Unit} {hub' : Hub}
    (h : (emit settings e).Performs exec hub events out hub') :
    (out = .ok () ∨ out = .error .cancelled ∧
      ∃ event ∈ events, event.2.failure = some .cancelled) ∧
    (∀ g, inbox g hub' = inbox g hub ∨ g ∈ e.audience.groups ∧
      (settings.realtimeEnabled = true ∧ settings.realtimeRedisUrl ≠ "") ∧
      ∃ body, WellFormed e body ∧ inbox g hub' = inbox g hub ++ [body]) ∧
    ((∀ event ∈ events, event.2.failure = none) → hub' = hub ∨
      ∃ body, ∀ g ∈ e.audience.groups, inbox g hub' = inbox g hub ++ [body]) := by
  obtain ⟨hends, rfl | ⟨hon, n, body, hwell, rfl, hall⟩⟩ := ends_emit settings events out hub' h
  · exact ⟨hends, fun g => Or.inl rfl, fun _ => Or.inl rfl⟩
  have hinbox : ∀ g, inbox g (hub ++ (e.audience.channels.take n).map fun channel =>
      (channel, body)) = inbox g hub ++ if g ∈ e.audience.groups.take n then [body] else [] := by
    intro g
    rw [inbox_append, channels_eq, ← List.map_take,
      inbox_groups g body ((nodup_groups e.audience).sublist (List.take_sublist ..))]
  refine ⟨hends, fun g => ?_, fun hevents => Or.inr ⟨body, fun g hg => ?_⟩⟩
  · by_cases hg : g ∈ e.audience.groups.take n
    · rw [hinbox, if_pos hg]
      exact Or.inr ⟨List.mem_of_mem_take hg, hon, body, hwell, rfl⟩
    · rw [hinbox, if_neg hg, List.append_nil]
      exact Or.inl rfl
  · have hlength := hall hevents
    rw [channels_eq, List.length_map] at hlength
    rw [hinbox, List.take_of_length_le hlength, if_pos hg]

/-- The hint of a generation, for two users, of which the second is named twice. -/
def exampleEmission : Emission where
  topic := "generation.finished"
  audience := .users [4, 5, 5]
  resource := ("generation", some (.int 1))
  hint := some [("status", .str "success")]
  scopeCommunityId := some 7

/-- The hint reaches the first user, and the broker hangs up on the second. -/
theorem inbox_of_emit_lost : ∃ (events : List (Op × Choice)) (out : Except Failure Unit)
    (hub : Hub),
    hub ≠ [] ∧ (out = .ok () ∨ out = .error .cancelled ∧
      ∃ event ∈ events, event.2.failure = some .cancelled) ∧
    (∀ g, inbox g hub = inbox g [] ∨ g ∈ exampleEmission.audience.groups ∧
      (true = true ∧ "redis://realtime" ≠ "") ∧
      ∃ body, WellFormed exampleEmission body ∧ inbox g hub = inbox g [] ++ [body]) ∧
    ((∀ event ∈ events, event.2.failure = none) → hub = [] ∨
      ∃ body, ∀ g ∈ exampleEmission.audience.groups, inbox g hub = inbox g [] ++ [body]) := by
  have hperform : (perform exec [.text "00", .text "2026", .ok, .ok, .fail .exception]
      (emit ⟨true, "redis://realtime"⟩ exampleEmission) []).any (fun result =>
        !result.2.2.isEmpty) = true := by decide +kernel
  obtain ⟨events, out, hub, hrun, hhub⟩ := exists_of_perform hperform
  exact ⟨events, out, hub, by simpa using hhub, inbox_of_emit hrun⟩

end AllocationKeys.Realtime
