import AllocationKeys.Generation.Published
import AllocationKeys.Lib.Json

/-!
# The events on the queue

`Event` of `core/queue/helper.py`: what `encode` puts into a message and `decode` takes out of it.
The parts of an event are JSON values, since `decode` checks nothing else.

* `decode_encode`: an event comes out as it went in;
* `published_of_run`: with this format, whatever is published is on the queue of the algorithm that
  the one creating request names, and every worker finds in it the generation of that request.
-/

namespace AllocationKeys.Queue

open Generation Concurrent Program

/-! ### The format -/

structure Event where
  type : Json
  data : Json
  version : Json

/-- An event of Python values: the keys of its dictionaries are distinct. -/
structure Event.Valid (e : Event) : Prop where
  type : e.type.Valid
  data : e.data.Valid
  version : e.version.Valid

def Event.encode (e : Event) : List Char :=
  Json.print [' '] (.obj [("type", e.type), ("version", e.version), ("data", e.data)])

/-- `parsed[key]`, of a dictionary that has the key. -/
def member (key : String) : Json → Option Json
  | .obj members => members.lookup key
  | _ => none

/-- `none` where `decode` raises. -/
def Event.decode (raw : List Char) : Option Event := do
  let parsed ← Json.parse raw
  let type ← member "type" parsed
  let version ← member "version" parsed
  let data ← member "data" parsed
  some ⟨type, data, version⟩

/-- The `generation_id` of the data, when it is an integer; a truth value is one. -/
def Event.generationId (e : Event) : Option ℤ :=
  match member "generation_id" e.data with
  | some (.int id) => some id
  | some (.bool b) => some (if b then 1 else 0)
  | _ => none

/-- **An event comes out of the queue as it went in**, in printable ASCII characters. -/
theorem decode_encode {e : Event} (h : e.Valid) :
    Event.decode e.encode = some e ∧ ∀ c ∈ e.encode, Json.Printable c := by
  have hspace : ∀ c ∈ [' '], Json.isSpace c = true := List.all_eq_true.mp rfl
  refine ⟨?_, Json.printable_print (Json.printable_of_all rfl) _⟩
  have hvalid : (Json.obj [("type", e.type), ("version", e.version), ("data", e.data)]).Valid := by
    simp only [Json.Valid, Json.ValidMembers]
    refine ⟨?_, h.type, h.version, h.data, trivial⟩
    show ["type", "version", "data"].Nodup
    decide
  rw [Event.encode, Event.decode, Json.parse_print hspace hvalid]
  rfl

/-- An event with quotes, characters of every plane and nested data. -/
theorem decode_encode_nested :
    let e : Event := ⟨.str "génération \"α\"\n😀", .obj [("generation_id", .int (-7)),
      ("tags", .arr [.null, .bool true, .str "", .arr [], .obj []])], .int 1⟩
    Event.decode e.encode = some e ∧ ∀ c ∈ e.encode, Json.Printable c := by
  refine decode_encode ⟨?_, ?_, ?_⟩
  · simp only [Json.Valid]
  · simp only [Json.Valid, Json.ValidMembers, Json.ValidItems, List.map_cons, List.map_nil,
      List.nodup_nil, and_self, and_true]
    decide
  · simp only [Json.Valid]

/-! ### The events of a generation -/

/-- The event a request sends. -/
def ofGeneration (e : Generation.Event) : Event where
  type := .str e.type
  data := .obj (e.generationId.elim [] fun id => [("generation_id", .int id)])
  version := .int e.version

/-- What a worker looks at. -/
def toGeneration (e : Event) : Generation.Event where
  type := match e.type with
    | .str type => type
    | _ => ""
  version := match e.version with
    | .int version => version
    | _ => 0
  generationId := e.generationId

/-- The services, with messages as they are on the wire. -/
def onWire (S : Services) : Services :=
  { S with
    Data := List Char
    encode := fun e => (ofGeneration e).encode
    decode := fun raw => (Event.decode raw).map toGeneration }

theorem decode_onWire (S : Services) (e : Generation.Event) :
    (onWire S).decode ((onWire S).encode e) = some e := by
  have hvalid : (ofGeneration e).Valid := by
    refine ⟨?_, ?_, ?_⟩
    · simp only [ofGeneration, Json.Valid]
    · cases hid : e.generationId <;>
        simp [ofGeneration, hid, Json.Valid, Json.ValidMembers]
    · simp only [ofGeneration, Json.Valid]
  show (Event.decode (ofGeneration e).encode).map toGeneration = some e
  rw [(decode_encode hvalid).1, Option.map_some]
  obtain ⟨type, version, _ | id⟩ := e <;> rfl

/-! ### What is published -/

/-- **Whatever is published is addressed to its generation**: with the events as they are on the
wire, in every run, with every failure, a message is published by the thread of the one request that
creates the generation and by nobody else, on the queue of the algorithm that the request names, and
every delivery of it is decoded to the generation that the request has inserted. -/
theorem published_of_run {S : Services} {K : Type} [Zero K] [Add K] {gid : ℤ}
    {registry : String → Option (AlgorithmMetadata (onWire S))} {c : LoggedState (onWire S) K}
    (hrun : (system registry gid).traced.Run (fun _ _ => True) (Machine.start (World.empty, [])) c)
    {t : ℕ} {subject : String} {data : List Char} {r : Except Exc Unit}
    (hpublished : .called t (.publish subject data) r ∈ c.state.2) :
    ∃ request, .launched t request ∈ c.state.2 ∧ request.creates = true ∧
      (∀ e ∈ c.state.2, isCreation e = true → e = .launched t request) ∧
      Addressed registry gid request subject data ∧
      ∀ numDelivered, Msg.About (S := onWire S) gid ⟨data, numDelivered⟩ := by
  obtain ⟨request, hlaunched, hcreates, honly, haddressed⟩ := published_by_creator hrun hpublished
  refine ⟨request, hlaunched, hcreates, honly, haddressed, fun numDelivered => ?_⟩
  obtain ⟨name, metadata, event, -, -, -, rfl, hid⟩ := haddressed
  show ((onWire S).decode ((onWire S).encode event)).bind _ = some gid
  rw [decode_onWire]
  exact hid

def wiredMetadata : AlgorithmMetadata (onWire plainServices) where
  name := "brute_force"
  version := "1"
  queue := "optimce.allocation.brute_force"
  validate _ := .ok ()
  dump _ := ()

def isPublished {S : Services} {K : Type} : LogEntry S K → Bool
  | .called _ (.publish ..) _ => true
  | _ => false

/-- A request up to its publish. -/
theorem published_of_run_sent :
    ∃ (c : LoggedState (onWire plainServices) ℕ) (t : ℕ) (subject : String) (data : List Char),
      ∃ request, .launched t request ∈ c.state.2 ∧ request.creates = true ∧
        (∀ e ∈ c.state.2, isCreation e = true → e = .launched t request) ∧
        Addressed (fun _ => some wiredMetadata) 1 request subject data ∧
        ∀ numDelivered, Msg.About (S := onWire plainServices) 1 ⟨data, numDelivered⟩ := by
  have hplay : ((system (K := ℕ) (fun _ => some wiredMetadata) 1).traced.play (fun _ _ => True)
      (.launch 1 (.startGeneration ⟨"generation", "brute_force", none, ()⟩ ⟨none, (), "uuid"⟩ 7)
        :: List.replicate 6 (.act 1 .ok)) (Machine.start (World.empty, []))).any (fun c =>
          c.state.2.any isPublished) = true := by decide +kernel
  obtain ⟨c, hrun, hc⟩ := Machine.exists_of_play hplay
  obtain ⟨e, he, hpublished⟩ := List.any_eq_true.mp hc
  rcases e with ⟨t, role⟩ | ⟨t, o, r⟩
  · cases hpublished
  · cases o with
    | publish subject data => exact ⟨c, t, subject, data, published_of_run hrun he⟩
    | _ => cases hpublished

end AllocationKeys.Queue
