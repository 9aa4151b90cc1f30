import AllocationKeys.Generation.Delivery
import AllocationKeys.Lib.Trace

/-!
# The uploaded file of a generation

The worker owns the uploaded file once the message is queued, and deletes it in one place: after the
ack of a delivery whose `process` returned the key. Two ways lead to an ack without it. A delivery
that no longer finds the row has no key, and the deletion of the row by the user does not delete the
object. And an error that `process` does not classify ends in a handler that marks the row as failed
and acks.

The triples of this file follow a delivery whose steps take neither way: once it has acked, the
deletion has been requested, is its next call, or the storage has reported the object missing.
-/

namespace AllocationKeys.Generation

open Algorithms Concurrent Program

variable {S : Services} {K α : Type} {gid : ℤ} {t : ℕ} {key : String}

/-! ### The log -/

variable (S K) in
abbrev LogEntry : Type := Entry (Role S) (Op S K) (Resp S K)

variable (S K) in
/-- The world with the log of a run. -/
abbrev LoggedWorld : Type := Logged (Role S) (Op S K) (Resp S K) (World S K)

variable (S K) in
abbrev LoggedState : Type := Config (Role S) (Op S K) (Resp S K) Exc (LoggedWorld S K)

/-- The deletion of the object was requested, or the storage has reported it missing. -/
def clears (key : String) : LogEntry S K → Bool
  | .called _ (.delete k) _ => k == key
  | .called _ (.download k) (.error (.objectNotFound _)) => k == key
  | _ => false

def Cleared (key : String) (s : LoggedWorld S K) : Prop := s.2.any (clears key) = true

def isDelivery : LogEntry S K → Bool
  | .launched _ (.deliver ..) => true
  | _ => false

def isCall : LogEntry S K → Bool
  | .called .. => true
  | _ => false

def isAck : LogEntry S K → Bool
  | .called _ .ack (.ok _) => true
  | _ => false

/-- The algorithm has returned a result. -/
def isResult : LogEntry S K → Bool
  | .called _ (.solve ..) (.ok _) => true
  | _ => false

/-- The thread has an entry of this kind. -/
def Has (kind : LogEntry S K → Bool) (t : ℕ) (s : LoggedWorld S K) : Prop :=
  s.2.any (fun e => e.thread == t && kind e) = true

instance (s : LoggedWorld S K) : Decidable (Cleared key s) := inferInstanceAs (Decidable (_ = _))

instance (kind : LogEntry S K → Bool) (s : LoggedWorld S K) : Decidable (Has kind t s) :=
  inferInstanceAs (Decidable (_ = _))

/-! ### Steps -/

/-- The key of an upload. -/
def storageKey (file : UploadFile S) (communityId : ℤ) : String :=
  let fileName := (file.filename.filter (· ≠ "")).getD "uploaded-file"
  s!"allocations/{communityId}/{file.uuid}/{fileName}"

/-- A thread of a run with one upload: the request, deliveries, and deletions by the user. -/
def OneUpload (key : String) : Role S → Prop
  | .startGeneration _ file communityId => storageKey file communityId = key
  | .startGenerationFromCrm .. => False
  | _ => True

instance : (role : Role S) → Decidable (OneUpload key role)
  | .startGeneration .. => inferInstanceAs (Decidable (_ = _))
  | .startGenerationFromCrm .. => isFalse id
  | .deliver .. | .deleteGeneration _ | .deleteKey .. => isTrue trivial

def Choice.Raises : Choice S K → Bool
  | .fail _ | .lost _ => true
  | _ => false

/-- The first read of a delivery goes through. -/
def ReadsSnapshot (t : ℕ) (choice : Choice S K) (s : LoggedWorld S K) : Prop :=
  Has isDelivery t s → ¬ Has isCall t s → choice.Raises = false

def Op.downloads : Op S K → Bool
  | .download _ => true
  | _ => false

/-- The accesses to a database that a delivery makes. -/
def Op.reads : Op S K → Bool
  | .get _ | .updateWherePending .. | .commit _ | .commitCrm _ => true
  | _ => false

/-- What the deletion of the object depends on, until it has been requested: the first read of a
delivery finds the row, no download fails without a class, and until the algorithm has returned its
result no access to a database raises. -/
def Careful (key : String) (t : ℕ) (o : Op S K) (choice : Choice S K) (s : LoggedWorld S K) :
    Prop :=
  Has isDelivery t s → ¬ Cleared key s →
    (¬ Has isCall t s → s.1.row.isSome = true) ∧
    (o.downloads = true → choice.Raises = false) ∧
    (o.reads = true → ¬ Has isResult t s → choice.Raises = false)

instance (o : Op S K) (choice : Choice S K) (s : LoggedWorld S K) :
    Decidable (Careful key t o choice s) :=
  inferInstanceAs (Decidable (_ → _ → _ ∧ _ ∧ _))

/-- The next call of a thread. -/
def nextCall : Thread (Role S) (Op S K) (Resp S K) Exc → Option (Op S K)
  | .running _ (.call o _) => some o
  | _ => none

/-- The runs with one upload. -/
def InScope (key : String) (c : LoggedState S K) : Step S K → Prop
  | .launch _ role => OneUpload key role
  | .act t choice => ReadsSnapshot t choice c.state
  | .kill _ => False

/-- The steps that keep the object in hand. -/
def KeepsInHand (key : String) (c : LoggedState S K) : Step S K → Prop
  | .act t choice => ∀ o ∈ nextCall (c.threads t), Careful key t o choice c.state
  | _ => True

instance (c : LoggedState S K) : (label : Step S K) → Decidable (InScope key c label)
  | .launch _ role => inferInstanceAs (Decidable (OneUpload key role))
  | .act _ _ => inferInstanceAs (Decidable (_ → _ → _))
  | .kill _ => isFalse id

instance (c : LoggedState S K) : (label : Step S K) → Decidable (KeepsInHand key c label)
  | .act _ _ => inferInstanceAs (Decidable (∀ o ∈ nextCall _, _))
  | .launch .. => isTrue trivial
  | .kill _ => isTrue trivial

/-! ### What threads owe each other -/

/-- The row of an upload. -/
structure Keyed (key : String) (row : GenerationModel S) : Prop where
  source : row.source = .file
  fileStorageKey : row.fileStorageKey = some key
  fileName : row.fileName.isSome = true

variable (S K) in
/-- The row has its key, and a thread that has acked has cleared the object or is about to. -/
def cleanup (key : String) : Discipline (Op S K) (LoggedWorld S K) where
  inv s := ∀ row ∈ s.1.row, Keyed key row
  rely t s s' := (∀ e ∈ s.2, e ∈ s'.2) ∧ ∀ e ∈ s'.2, e.thread = t → e ∈ s.2
  pre t o s := Has isAck t s → Cleared key s ∨ o = .delete key
  rely_refl _ _ := ⟨fun _ he => he, fun _ he _ => he⟩
  rely_trans h h' := ⟨fun e he => h'.1 e (h.1 e he), fun e he ht => h.2 e (h'.2 e he ht) ht⟩

/-- The others add no entries of this thread. -/
theorem has_rely {kind : LogEntry S K → Bool} {s s' : LoggedWorld S K}
    (h : (cleanup S K key).rely t s s') : Has kind t s' ↔ Has kind t s := by
  simp only [Has, List.any_eq_true, Bool.and_eq_true, beq_iff_eq]
  constructor
  · rintro ⟨e, he, ht, hkind⟩
    exact ⟨e, h.2 e he ht, ht, hkind⟩
  · rintro ⟨e, he, ht, hkind⟩
    exact ⟨e, h.1 e he, ht, hkind⟩

/-- What is cleared stays cleared, whatever the others do. -/
theorem cleared_rely {s s' : LoggedWorld S K} (h : (cleanup S K key).rely t s s')
    (hcleared : Cleared key s) : Cleared key s' := by
  obtain ⟨e, he, hclears⟩ := List.any_eq_true.mp hcleared
  exact List.any_eq_true.mpr ⟨e, h.1 e he, hclears⟩

/-- A call that inserts no other row. -/
def Op.KeepsKey (key : String) (o : Op S K) : Prop :=
  ∀ row, o = .commit (.insert row) → Keyed key row

/-- A commit keeps the key of the row. -/
theorem keyed_apply {w : World S K} {write : Write S K} (h : ∀ row ∈ w.row, Keyed key row)
    (hinsert : ∀ row, write = .insert row → Keyed key row) :
    ∀ row ∈ (w.apply t write).row, Keyed key row := by
  have hsettle : ∀ status errorMessage keys,
      ∀ row ∈ (w.settle t status errorMessage keys).row, Keyed key row := by
    intro status errorMessage keys row hrow
    cases hold : w.row with
    | none =>
      rw [World.settle, hold] at hrow
      exact h row hrow
    | some old =>
      rw [settle_eq hold] at hrow
      cases hrow
      obtain ⟨hsource, hkey, hname⟩ := h old hold
      exact ⟨hsource, hkey, hname⟩
  intro row hrow
  cases write with
  | insert inserted =>
    cases hrow
    exact hinsert _ rfl
  | outcome status errorMessage keys => exact hsettle _ _ _ row hrow
  | save status errorMessage => exact hsettle _ _ _ row hrow
  | delete =>
    simp only [World.apply, World.remove] at hrow
    split at hrow
    · exact h row hrow
    · cases hrow
  | deleteKey id =>
    simp only [World.apply, World.removeKey] at hrow
    split at hrow <;> exact h row hrow

section System

variable [Zero K] [Add K] {registry : String → Option (AlgorithmMetadata S)}

variable (registry gid key) in
/-- The system of one upload, without the steps that lose the object. -/
noncomputable abbrev careful :
    Machine (Role S) (Op S K) (Resp S K) (Choice S K) Exc (LoggedWorld S K) :=
  (system registry gid).traced.restrict
    (fun t role s => OneUpload key role ∧ ∀ e ∈ s.2, e.thread ≠ t)
    fun t o choice s => ReadsSnapshot t choice s ∧ Careful key t o choice s ∧ o.KeepsKey key

/-- What a call does to the log, and that it keeps what is owed. -/
theorem keeps_exec {o : Op S K} {choice : Choice S K} {r : Resp S K o} {s s' : LoggedWorld S K}
    (hinv : (cleanup S K key).inv s)
    (h : (careful gid key registry).exec t o choice s = some (r, s')) :
    (cleanup S K key).Keeps t s s' ∧ s'.2 = .called t o r :: s.2 ∧
      exec gid t o choice s.1 = some (r, s'.1) ∧ ReadsSnapshot t choice s ∧
      Careful key t o choice s := by
  obtain ⟨hallow, htraced⟩ := Machine.exec_restrict h
  obtain ⟨⟨r', w'⟩, hexec, heq⟩ := Option.map_eq_some_iff.mp htraced
  cases heq
  refine ⟨⟨?_, fun t' ht => ⟨fun e he => List.mem_cons_of_mem _ he, fun e he hthread => ?_⟩⟩, rfl,
    hexec, hallow.1, hallow.2.1⟩
  · show ∀ row ∈ w'.row, Keyed key row
    rcases exec_rows hexec with hsame | ⟨write, rfl, -, rfl⟩
    · rw [hsame.row]
      exact hinv
    · exact keyed_apply hinv fun row hwrite => hallow.2.2 row (by rw [hwrite])
  · refine (List.mem_cons.mp he).resolve_left fun heq => ht ?_
    rw [← hthread, heq]
    rfl

/-! ### Knowledge -/

omit [Zero K] [Add K] in
/-- A call adds its own entry and nothing else. -/
theorem has_called {kind : LogEntry S K → Bool} {o : Op S K} {r : Resp S K o}
    {s s' : LoggedWorld S K} (h : s'.2 = .called t o r :: s.2) :
    Has kind t s' ↔ kind (.called t o r) = true ∨ Has kind t s := by
  simp [Has, h, Entry.thread]

omit [Zero K] [Add K] in
/-- A call clears the object when it is one that does, or the object was cleared before. -/
theorem cleared_called {o : Op S K} {r : Resp S K o} {s s' : LoggedWorld S K}
    (h : s'.2 = .called t o r :: s.2) :
    Cleared key s' ↔ clears key (.called t o r) = true ∨ Cleared key s := by
  simp [Cleared, h]

/-- The thread has not acked, or the object is cleared. -/
def Unacked (key : String) (t : ℕ) (s : LoggedWorld S K) : Prop :=
  Cleared key s ∨ ¬ Has isAck t s

/-- A delivery after its first read, before the algorithm has returned a result. -/
def Unsolved (key : String) (t : ℕ) (s : LoggedWorld S K) : Prop :=
  Cleared key s ∨
    Has isDelivery t s ∧ Has isCall t s ∧ ¬ Has isAck t s ∧ ¬ Has isResult t s

omit [Zero K] [Add K] in
theorem Unsolved.unacked {s : LoggedWorld S K} (h : Unsolved key t s) : Unacked key t s :=
  h.imp_right fun h => h.2.2.1

omit [Zero K] [Add K] in
theorem stable_cleared : (cleanup S K key).Stable t (Cleared key) :=
  fun _ _ hrely _ h => cleared_rely hrely h

omit [Zero K] [Add K] in
theorem stable_unacked : (cleanup S K key).Stable t (Unacked key t) :=
  fun _ _ hrely _ h => h.imp (cleared_rely hrely) fun hack => by rwa [has_rely hrely]

omit [Zero K] [Add K] in
theorem stable_unsolved : (cleanup S K key).Stable t (Unsolved key t) :=
  fun _ _ hrely _ h => h.imp (cleared_rely hrely) fun h => by
    rwa [has_rely hrely, has_rely hrely, has_rely hrely, has_rely hrely]

variable (registry gid key t) in
/-- What a program does in the careful system. -/
abbrev Handles (J : LoggedWorld S K → Prop) (p : Pipeline S K α)
    (post : Except Exc α → LoggedWorld S K → Prop) : Prop :=
  Triple (careful gid key registry) (cleanup S K key) t J p post

omit [Zero K] [Add K] in
theorem isAck_of_ne {o : Op S K} (ho : o ≠ .ack) (r : Resp S K o) :
    isAck (.called t o r : LogEntry S K) = false := by
  cases o <;> first | rfl | exact absurd rfl ho

/-- No call undoes the clearing. -/
theorem callSpec_cleared {o : Op S K} :
    CallSpec (careful gid key registry) (cleanup S K key) t (Cleared key) o
      fun _ => Cleared key where
  stable := stable_cleared
  pre _ _ h := fun _ => Or.inl h
  exec s choice r s' hinv h hexec := by
    obtain ⟨hkeeps, hlog, -⟩ := keeps_exec hinv hexec
    exact ⟨hkeeps, (cleared_called hlog).mpr (Or.inr h)⟩

/-- Only the ack acks. -/
theorem callSpec_unacked {o : Op S K} (ho : o ≠ .ack) :
    CallSpec (careful gid key registry) (cleanup S K key) t (Unacked key t) o
      fun _ => Unacked key t where
  stable := stable_unacked
  pre _ _ h := fun hack => Or.inl (h.resolve_right fun hnot => hnot hack)
  exec s choice r s' hinv h hexec := by
    obtain ⟨hkeeps, hlog, -⟩ := keeps_exec hinv hexec
    refine ⟨hkeeps, h.imp (fun h => (cleared_called hlog).mpr (Or.inr h)) fun hnot => ?_⟩
    rw [has_called hlog, isAck_of_ne ho]
    simpa using hnot

/-- What the careful system answers to a delivery. -/
def Answered : (o : Op S K) → Resp S K o → Prop
  | .get _, r => ∃ a, r = .ok a
  | .updateWherePending .., r => ∃ a, r = .ok a
  | .commit _, r => r = .ok ()
  | .commitCrm _, r => r = .ok ()
  | .download _, r => (∃ a, r = .ok a) ∨ (∃ d, r = .error (.objectNotFound d)) ∨
      ∃ d, r = .error (.transientStorageError d)
  | _, _ => True

omit [Zero K] [Add K] in
/-- Without an error of the environment a call does what it is for. -/
theorem orFail_done {β : Type} {choice : Choice S K} {w w' : World S K} {r : Except Exc β}
    {done : Option (Except Exc β × World S K)} (h : orFail choice w done = some (r, w'))
    (hok : choice.Raises = false) : done = some (r, w') := by
  cases choice with
  | ok => exact h
  | fail detail => cases hok
  | _ => cases h

omit [Zero K] [Add K] in
/-- A read or a download that the environment lets through is answered. -/
theorem answered_of_exec {o : Op S K} {choice : Choice S K} {w w' : World S K} {r : Resp S K o}
    (hreads : o.reads = true ∨ o.downloads = true → choice.Raises = false)
    (h : exec gid t o choice w = some (r, w')) : Answered o r := by
  cases o with
  | get id =>
    have hok := hreads (Or.inl rfl)
    have hdone := orFail_done h hok
    split at hdone <;> cases hdone
    exact ⟨_, rfl⟩
  | updateWherePending id status errorMessage =>
    have hok := hreads (Or.inl rfl)
    have hdone := orFail_done h hok
    repeat' split at hdone
    all_goals cases hdone
    all_goals exact ⟨_, rfl⟩
  | commit write =>
    have hok := hreads (Or.inl rfl)
    cases choice <;> cases h <;> first | rfl | cases hok
  | commitCrm staged =>
    have hok := hreads (Or.inl rfl)
    cases choice <;> cases h <;> first | rfl | cases hok
  | download k =>
    have hok := hreads (Or.inr rfl)
    simp only [exec] at h
    repeat' split at h
    all_goals cases h
    all_goals first
      | exact Or.inl ⟨_, rfl⟩
      | exact Or.inr (Or.inl ⟨_, rfl⟩)
      | exact Or.inr (Or.inr ⟨_, rfl⟩)
      | cases hok
  | _ => trivial

/-- Until the algorithm has returned a result, what a delivery reads is answered. -/
theorem callSpec_unsolved {o : Op S K} (ho : o ≠ .ack)
    (hresult : ∀ r, isResult (.called t o r : LogEntry S K) = false) :
    CallSpec (careful gid key registry) (cleanup S K key) t (Unsolved key t) o
      fun r s => Unsolved key t s ∧ (Cleared key s ∨ Answered o r) where
  stable := stable_unsolved
  pre _ _ h := fun hack => Or.inl (h.unacked.resolve_right fun hnot => hnot hack)
  exec s choice r s' hinv h hexec := by
    obtain ⟨hkeeps, hlog, hworld, -, hcareful⟩ := keeps_exec hinv hexec
    refine ⟨hkeeps, ?_⟩
    by_cases hcleared : Cleared key s
    · have hcleared' := (cleared_called hlog).mpr (Or.inr hcleared)
      exact ⟨Or.inl hcleared', Or.inl hcleared'⟩
    obtain ⟨hdelivery, hcall, hack, hnone⟩ := h.resolve_left hcleared
    obtain ⟨-, hdownloads, hreads⟩ := hcareful hdelivery hcleared
    refine ⟨Or.inr ⟨(has_called hlog).mpr (Or.inr hdelivery), (has_called hlog).mpr (Or.inr hcall),
      ?_, ?_⟩, Or.inr (answered_of_exec (fun hkind => ?_) hworld)⟩
    · rw [has_called hlog, isAck_of_ne ho]
      simpa using hack
    · rw [has_called hlog, hresult]
      simpa using hnone
    · exact hkind.elim (fun hread => hreads hread hnone) hdownloads

/-! ### Programs without a result yet -/

variable (registry gid key t) in
/-- The program does not raise, unless the object is cleared. -/
abbrev Calm (p : Pipeline S K α) : Prop :=
  Handles gid t key registry (Unsolved key t) p fun out s =>
    Unsolved key t s ∧ (Cleared key s ∨ ∃ a, out = .ok a)

theorem calm_ret {a : α} : Calm gid t key registry (pure a : Pipeline S K α) :=
  triple_ret fun _ _ h => ⟨h, Or.inr ⟨a, rfl⟩⟩

/-- Once the object is cleared, nothing more is owed. -/
theorem handles_cleared {p : Pipeline S K α} :
    Handles gid t key registry (Cleared key) p fun _ => Cleared key := by
  induction p with
  | ret a => exact triple_ret fun _ _ h => h
  | raise e => exact triple_raise fun _ _ h => h
  | call o next ih => exact triple_call callSpec_cleared fun r => ih r

/-- A program goes on after one that does not raise. -/
theorem Calm.bind {β : Type} {p : Pipeline S K α} {f : α → Pipeline S K β}
    {post : Except Exc β → LoggedWorld S K → Prop} (hp : Calm gid t key registry p)
    (hf : ∀ a, Handles gid t key registry (Unsolved key t) (f a) post)
    (hcleared : ∀ out s, Cleared key s → post out s) :
    Handles gid t key registry (Unsolved key t) (p >>= f) post := by
  refine Triple.bind hp (fun a => (hf a).weaken fun _ _ h => h.1) fun e s _ h => ?_
  exact hcleared _ s (h.2.resolve_right (by simp))

/-- Calm parts make a calm sequence. -/
theorem Calm.bind_calm {β : Type} {p : Pipeline S K α} {f : α → Pipeline S K β}
    (hp : Calm gid t key registry p) (hf : ∀ a, Calm gid t key registry (f a)) :
    Calm gid t key registry (p >>= f) :=
  hp.bind hf fun _ _ h => ⟨Or.inl h, Or.inl h⟩

/-- A call is calm unless it is the ack or returns the result of the algorithm. -/
theorem calm_ask {o : Op S K} (ho : o ≠ .ack)
    (hresult : ∀ r, isResult (.called t o r : LogEntry S K) = false) :
    Calm gid t key registry (ask o) :=
  triple_ask (callSpec_unsolved ho hresult) fun r _ _ h => ⟨h.1, Or.inr ⟨r, rfl⟩⟩

/-- An access that is answered. -/
theorem calm_call {o : Op S K} {next : Resp S K o → Except Exc α} (ho : o ≠ .ack)
    (hresult : ∀ r, isResult (.called t o r : LogEntry S K) = false)
    (hanswered : ∀ r, Answered o r → ∃ a, next r = .ok a) :
    Calm gid t key registry (.call o fun r => Program.ofExcept (next r)) :=
  triple_call (callSpec_unsolved ho hresult) fun r => triple_ofExcept fun _ _ h =>
    ⟨h.1, h.2.imp_right (hanswered r)⟩

theorem calm_get (id : ℤ) : Calm gid t key registry (get id : Pipeline S K _) :=
  calm_call (by simp) (fun _ => rfl) fun _ h => h

theorem calm_updateWherePending (id : ℤ) (status : GenerationStatus)
    (errorMessage : Option String) :
    Calm gid t key registry (updateWherePending id status errorMessage : Pipeline S K _) :=
  calm_call (by simp) (fun _ => rfl) fun _ h => h

theorem calm_commit (status : GenerationStatus) (errorMessage : Option String)
    (keys : List (AllocationKeyGeneratedModel K)) :
    Calm gid t key registry (commit (.outcome status errorMessage keys) : Pipeline S K _) :=
  calm_call (by simp) (fun _ => rfl) fun _ h => ⟨(), h⟩

theorem calm_commitCrm (staged : List AuditLogInput) :
    Calm gid t key registry (commitCrm staged : Pipeline S K _) :=
  calm_call (by simp) (fun _ => rfl) fun _ h => ⟨(), h⟩

/-- A session with a body that does not raise. -/
theorem calm_withLocalSession {body : Pipeline S K α} (h : Calm gid t key registry body) :
    Calm gid t key registry (withLocalSession body) := by
  refine h.attempt_bind fun out => ?_
  by_cases hout : ∃ a, out = .ok a
  · obtain ⟨a, rfl⟩ := hout
    refine ((calm_ask (o := .close) (by simp) fun _ => rfl).bind_calm fun _ => ?_).weaken
      fun _ _ hs => hs.1
    exact calm_ret
  · exact handles_cleared.mono (fun _ _ hs => hs.2.resolve_right hout)
      fun _ _ _ h => ⟨Or.inl h, Or.inl h⟩

/-- Claiming the outcome neither acks nor solves. -/
theorem calm_claimOutcome (id : ℤ) (status : GenerationStatus) (errorMessage : Option String)
    (keyRows : GenerationModel S → List (AllocationKeyGeneratedModel K)) :
    Calm gid t key registry (claimOutcome id status errorMessage keyRows) := by
  refine calm_withLocalSession ((calm_get id).bind_calm fun row => ?_)
  cases row with
  | none => exact calm_ret
  | some row =>
    refine (calm_updateWherePending id status errorMessage).bind_calm fun rowcount => ?_
    split
    · exact calm_ret
    · refine (calm_commit status errorMessage _).bind_calm fun _ => ?_
      exact (calm_ask (by simp) fun _ => rfl).bind_calm fun _ => calm_ret

/-- Saving the outcome neither acks nor solves. -/
theorem calm_saveOutcome (id : ℤ) (status : GenerationStatus) (errorMessage : Option String)
    (keyRows : GenerationModel S → List (AllocationKeyGeneratedModel K))
    (audit : GenerationModel S → AuditLogInput) :
    Calm gid t key registry (saveOutcome id status errorMessage keyRows audit) := by
  refine (calm_claimOutcome id status errorMessage keyRows).bind_calm fun claimed => ?_
  cases claimed with
  | none => exact calm_ret
  | some row =>
    have hlog : Calm gid t key registry (logAudit (audit row) : Pipeline S K Unit) :=
      (calm_ask (by simp) fun _ => rfl).bind_calm fun _ => calm_commitCrm _
    exact hlog.bind_calm fun _ => calm_ask (by simp) fun _ => rfl

/-- Before a result, recording a failure leaves the object to the key that is returned. -/
theorem handles_failWith (id : ℤ) (errorMessage : String) (storageKey : Option String) :
    Handles gid t key registry (Unsolved key t)
      (failWith id errorMessage storageKey : Pipeline S K Terminal) fun out s =>
        Unsolved key t s ∧ (Cleared key s ∨ out = .ok ⟨storageKey⟩) :=
  (calm_saveOutcome id .failed _ _ _).bind (fun _ => triple_ret fun _ _ h => ⟨h, Or.inr rfl⟩)
    fun _ _ h => ⟨Or.inl h, Or.inl h⟩

/-! ### Processing -/

/-- How `process` ends: with the key, in an error that is retried, or the object is cleared. -/
def Processed (key : String) (t : ℕ) (out : Except Exc Terminal) (s : LoggedWorld S K) : Prop :=
  Unacked key t s ∧ (Cleared key s ∨ out = .ok ⟨some key⟩ ∨ ∃ d, out = .error (.transient d))

omit [Zero K] [Add K] in
/-- Once the object is cleared, nothing is left to do about it. -/
theorem processed_of_cleared {out : Except Exc Terminal} {s : LoggedWorld S K}
    (h : Cleared key s) : Processed key t out s := ⟨Or.inl h, Or.inl h⟩

/-- A failure recorded with the key is a processed message. -/
theorem handles_failWith_key (id : ℤ) (errorMessage : String) :
    Handles gid t key registry (Unsolved key t)
      (failWith id errorMessage (some key) : Pipeline S K Terminal) (Processed key t) :=
  (handles_failWith id errorMessage (some key)).imp fun _ _ _ h =>
    ⟨h.1.unacked, h.2.imp_right Or.inl⟩

/-- A download is answered, by the content, a failure that is retried, or that there is none. -/
theorem handles_download : Handles gid t key registry (Unsolved key t)
    (download key : Pipeline S K S.Content) fun out s => Unsolved key t s ∧
      (Cleared key s ∨ (∃ content, out = .ok content) ∨
        ∃ d, out = .error (.transientStorageError d)) := by
  have hspec : CallSpec (careful gid key registry) (cleanup S K key) t (Unsolved key t)
      (.download key) fun r s => Unsolved key t s ∧ (Cleared key s ∨ Answered (.download key) r) :=
    callSpec_unsolved (by simp) fun _ => rfl
  have hdownload : CallSpec (careful gid key registry) (cleanup S K key) t (Unsolved key t)
      (.download key) fun r s => Unsolved key t s ∧ (Cleared key s ∨ (∃ content, r = .ok content) ∨
        ∃ d, r = .error (.transientStorageError d)) := by
    refine ⟨hspec.stable, hspec.pre, fun s choice r s' hinv h hexec => ?_⟩
    obtain ⟨hkeeps, hunsolved, hanswered⟩ := hspec.exec s choice r s' hinv h hexec
    refine ⟨hkeeps, hunsolved, ?_⟩
    rcases hanswered with hcleared | hok | ⟨d, rfl⟩ | hretried
    · exact Or.inl hcleared
    · exact Or.inr (Or.inl hok)
    · obtain ⟨-, hlog, -⟩ := keeps_exec hinv hexec
      refine Or.inl ((cleared_called hlog).mpr (Or.inl ?_))
      simp [clears]
    · exact Or.inr (Or.inr hretried)
  exact triple_call hdownload fun r => triple_ofExcept fun _ _ h => h

/-- How loading ends: with the data, with the key, in an error that is retried, or the object is
cleared. -/
def LoadedOr (key : String) (t : ℕ) (out : Except Exc (Except Terminal S.RawData))
    (s : LoggedWorld S K) : Prop :=
  Unsolved key t s ∧ (Cleared key s ∨ (∃ rawData, out = .ok (.ok rawData)) ∨
    out = .ok (.error ⟨some key⟩) ∨ ∃ d, out = .error (.transient d))

/-- A failure while loading is a processed message. -/
theorem handles_failLoading (id : ℤ) (errorMessage : String) :
    Handles gid t key registry (Unsolved key t)
      (Except.error <$> failWith id errorMessage (some key) :
        Pipeline S K (Except Terminal S.RawData)) (LoadedOr key t) := by
  refine (handles_failWith id errorMessage (some key)).map (fun a s _ h => ?_) fun e s _ h => ?_
  · refine ⟨h.1, h.2.imp_right fun heq => ?_⟩
    cases heq
    exact Or.inr (Or.inl rfl)
  · exact ⟨h.1, Or.inl (h.2.resolve_right (by simp))⟩

/-- Loading reads the object of this key, so a missing object is reported missing. -/
theorem handles_loadFromFile {snapshot : GenerationSnapshot S} {fileName : String}
    (hkey : snapshot.fileStorageKey = some key) (hname : snapshot.fileName = some fileName) :
    Handles gid t key registry (Unsolved key t) (loadFromFile snapshot : Pipeline S K _)
      (LoadedOr key t) := by
  unfold loadFromFile
  rw [hkey, hname]
  refine handles_download.attempt_bind fun content => ?_
  have hlost : ∀ {p : Pipeline S K (Except Terminal S.RawData)},
      (¬ (∃ c, content = .ok c) ∧ ¬ ∃ d, content = .error (.transientStorageError d)) →
      Handles gid t key registry (fun s => Unsolved key t s ∧ (Cleared key s ∨
        (∃ c, content = .ok c) ∨ ∃ d, content = .error (.transientStorageError d))) p
        (LoadedOr key t) := fun hnot =>
    handles_cleared.mono (fun _ _ h => h.2.resolve_right (by rintro (h | h) <;> simp_all))
      fun _ _ _ h => ⟨Or.inl h, Or.inl h⟩
  split
  · exact hlost (by simp)
  · exact triple_raise fun _ _ h => ⟨h.1, Or.inr (Or.inr (Or.inr ⟨_, rfl⟩))⟩
  · rename_i e hmissing hretried
    refine hlost ⟨by simp, ?_⟩
    rintro ⟨d, heq⟩
    cases heq
    exact hretried _ rfl
  · split
    · exact triple_ret fun _ _ h => ⟨h.1, Or.inr (Or.inl ⟨_, rfl⟩)⟩
    · exact (handles_failLoading _ _).weaken fun _ _ h => h.1
    · exact (handles_failLoading _ _).weaken fun _ _ h => h.1

/-- The algorithm returns a result or raises. -/
def Ran (key : String) (t : ℕ) (out : Except Exc (AlgorithmResult K)) (s : LoggedWorld S K) :
    Prop :=
  match out with
  | .ok _ => Unacked key t s
  | .error _ => Unsolved key t s

/-- An algorithm either returns a result or leaves the message unsolved. -/
theorem handles_runAlgorithm (algorithm : String) (inputs : S.AlgoInput) (rawData : S.RawData) :
    Handles gid t key registry (Unsolved key t)
      (runAlgorithm algorithm inputs rawData : Pipeline S K _) (Ran key t) := by
  have hsolve : CallSpec (careful gid key registry) (cleanup S K key) t (Unsolved key t)
      (.solve algorithm inputs rawData) (Ran key t) := by
    have hspec : CallSpec (careful gid key registry) (cleanup S K key) t (Unacked key t)
        (.solve algorithm inputs rawData) fun _ => Unacked key t := callSpec_unacked (by simp)
    refine ⟨stable_unsolved, fun s hinv h => hspec.pre s hinv h.unacked,
      fun s choice r s' hinv h hexec => ?_⟩
    obtain ⟨hkeeps, hunacked⟩ := hspec.exec s choice r s' hinv h.unacked hexec
    refine ⟨hkeeps, ?_⟩
    cases r with
    | ok result => exact hunacked
    | error e =>
      obtain ⟨-, hlog, -⟩ := keeps_exec hinv hexec
      refine h.imp (fun hcleared => (cleared_called hlog).mpr (Or.inr hcleared)) fun h => ?_
      rw [has_called hlog, has_called hlog, has_called hlog, has_called hlog]
      exact ⟨Or.inr h.1, Or.inr h.2.1, by simpa [isAck] using h.2.2.1,
        by simpa [isResult] using h.2.2.2⟩
  refine Triple.tryCatch (triple_call hsolve fun r => triple_ofExcept fun _ _ h => h)
    (fun a s _ h => h) fun e => ?_
  split <;> exact triple_raise fun _ _ h => h

/-- A program that does not ack. -/
theorem handles_unacked {p : Pipeline S K α} (h : p.Calls (· ≠ .ack)) :
    Handles gid t key registry (Unacked key t) p fun _ => Unacked key t := by
  induction p with
  | ret a => exact triple_ret fun _ _ h => h
  | raise e => exact triple_raise fun _ _ h => h
  | call o next ih => exact triple_call (callSpec_unacked h.1) fun r => ih r (h.2 r)

/-- From the data on, the message is processed. -/
theorem handles_solveAndSave (algorithm : String) (id : ℤ) (numDelivered : Option ℕ)
    (inputs : S.AlgoInput) (rawData : S.RawData) :
    Handles gid t key registry (Unsolved key t)
      (solveAndSave algorithm id numDelivered (some key) inputs rawData : Pipeline S K Terminal)
      (Processed key t) := by
  have hmetric : ∀ metric, Calm gid t key registry (addMetric metric : Pipeline S K Unit) :=
    fun metric => calm_ask (by simp) fun _ => rfl
  refine (handles_runAlgorithm algorithm inputs rawData).attempt_bind fun result => ?_
  split
  · refine (hmetric _).bind (fun _ => ?_) fun _ _ h => processed_of_cleared h
    unfold afterSolverCrash
    split
    · exact handles_failWith_key _ _
    · split
      · exact triple_raise fun _ _ h => ⟨h.unacked, Or.inr (Or.inr ⟨_, rfl⟩)⟩
      · exact handles_failWith_key _ _
  · refine (hmetric _).bind (fun _ => ?_) fun _ _ h => processed_of_cleared h
    exact handles_failWith_key _ _
  · have hcalls : ∀ result : AlgorithmResult K,
        (saveSuccess id result : Pipeline S K Unit).Calls (· ≠ .ack) :=
      fun result => (calls_saveOutcome ..).mono fun o ho hack => by rw [hack] at ho; exact ho
    have hask : Handles gid t key registry (Unacked key t)
        (addMetric (.generationDuration algorithm "success") : Pipeline S K Unit)
        fun out s => Unacked key t s ∧ ∃ u, out = .ok u :=
      triple_ask (callSpec_unacked (by simp)) fun r _ _ h => ⟨h, r, rfl⟩
    refine Triple.bind hask (fun _ => ?_) fun e s _ h => absurd h.2 (by simp)
    refine ((handles_unacked (hcalls _)).weaken fun _ _ h => h.1).attempt_bind fun saved => ?_
    split
    · exact triple_raise fun _ _ h => ⟨h, Or.inr (Or.inr ⟨_, rfl⟩)⟩
    · exact triple_ret fun _ _ h => ⟨h, Or.inr (Or.inl rfl)⟩

/-! ### A delivery -/

/-- A delivery that has made no call yet. -/
def Fresh (key : String) (t : ℕ) (s : LoggedWorld S K) : Prop :=
  Cleared key s ∨
    Has isDelivery t s ∧ ¬ Has isCall t s ∧ ¬ Has isAck t s ∧ ¬ Has isResult t s

/-- The first read finds the row of the upload. -/
theorem handles_snapshot : Handles gid t key registry (Fresh key t)
    (snapshotGeneration gid : Pipeline S K _) fun out s => Unsolved key t s ∧ (Cleared key s ∨
      ∃ row, Keyed key row ∧ out = .ok (some (GenerationSnapshot.ofRow gid row))) := by
  have hget : CallSpec (careful gid key registry) (cleanup S K key) t (Fresh key t) (.get gid)
      fun r s => Unsolved key t s ∧
        (Cleared key s ∨ ∃ row, Keyed key row ∧ r = .ok (some row)) := by
    refine ⟨fun s s' hrely _ h => h.imp (cleared_rely hrely) fun h => ?_,
      fun s _ h hack => Or.inl (h.resolve_right fun hnot => hnot.2.2.1 hack),
      fun s choice r s' hinv h hexec => ?_⟩
    · rwa [has_rely hrely, has_rely hrely, has_rely hrely, has_rely hrely]
    obtain ⟨hkeeps, hlog, hworld, hreads, hcareful⟩ := keeps_exec hinv hexec
    refine ⟨hkeeps, ?_⟩
    -- the object may be gone before the row is read
    by_cases hcleared : Cleared key s
    · have hcleared' := (cleared_called hlog).mpr (Or.inr hcleared)
      exact ⟨Or.inl hcleared', Or.inl hcleared'⟩
    obtain ⟨hdelivery, hcall, hack, hnone⟩ := h.resolve_left hcleared
    refine ⟨Or.inr ⟨(has_called hlog).mpr (Or.inr hdelivery), (has_called hlog).mpr (Or.inl rfl),
      ?_, ?_⟩, Or.inr ?_⟩
    · rw [has_called hlog, isAck_of_ne (by simp)]
      simpa using hack
    · rw [has_called hlog]
      simpa [isResult] using hnone
    · -- else the row is there, with the key of the object
      obtain ⟨row, hrow⟩ := Option.isSome_iff_exists.mp ((hcareful hdelivery hcleared).1 hcall)
      have hdone := orFail_done hworld (hreads hdelivery hcall)
      rw [if_pos rfl] at hdone
      obtain ⟨rfl, -⟩ := Prod.mk.inj (Option.some.inj hdone)
      exact ⟨row, hinv row hrow, by rw [hrow]⟩
  have hbody : Handles gid t key registry (Fresh key t)
      (do let row ← get gid; pure (row.map (GenerationSnapshot.ofRow gid)) : Pipeline S K _)
      fun out s => Unsolved key t s ∧ (Cleared key s ∨
        ∃ row, Keyed key row ∧ out = .ok (some (GenerationSnapshot.ofRow gid row))) := by
    refine triple_call hget fun r => ?_
    cases r with
    | error e => exact triple_raise fun _ _ h => ⟨h.1, h.2.imp_right (by simp)⟩
    | ok found =>
      refine triple_ret fun _ _ h => ⟨h.1, h.2.imp_right ?_⟩
      rintro ⟨row, hkeyed, heq⟩
      cases heq
      exact ⟨row, hkeyed, rfl⟩
  refine hbody.attempt_bind fun out => ?_
  by_cases hout : ∃ row, Keyed key row ∧ out = .ok (some (GenerationSnapshot.ofRow gid row))
  · obtain ⟨row, hkeyed, rfl⟩ := hout
    refine ((calm_ask (o := .close) (by simp) fun _ => rfl).bind (fun _ => ?_)
      fun _ _ h => ⟨Or.inl h, Or.inl h⟩).weaken fun _ _ hs => hs.1
    exact triple_ret fun _ _ h => ⟨h, Or.inr ⟨row, hkeyed, rfl⟩⟩
  · exact handles_cleared.mono (fun _ _ hs => hs.2.resolve_right hout)
      fun _ _ _ h => ⟨Or.inl h, Or.inl h⟩

/-- From the start of the delivery, the message is processed. -/
theorem handles_process (metadata : AlgorithmMetadata S) (numDelivered : Option ℕ) :
    Handles gid t key registry (Fresh key t)
      (process metadata gid numDelivered : Pipeline S K Terminal) (Processed key t) := by
  refine Triple.bind handles_snapshot (fun snapshot => ?_) fun e s _ h =>
    processed_of_cleared (h.2.resolve_right (by simp))
  by_cases hsnapshot : ∃ row, Keyed key row ∧ snapshot = some (GenerationSnapshot.ofRow gid row)
  swap
  · refine handles_cleared.mono (fun _ _ hs => hs.2.resolve_right ?_)
      fun _ _ _ h => processed_of_cleared h
    rintro ⟨row, hkeyed, heq⟩
    exact hsnapshot ⟨row, hkeyed, Except.ok.inj heq⟩
  obtain ⟨row, ⟨hsource, hkey, hname⟩, rfl⟩ := hsnapshot
  obtain ⟨fileName, hname⟩ := Option.isSome_iff_exists.mp hname
  refine Triple.weaken (K := Unsolved key t) ?_ fun _ _ h => h.1
  -- from here on the snapshot has the key of the object, and each failure passes it on
  have hsnapshotKey : (GenerationSnapshot.ofRow gid row).fileStorageKey = some key := hkey
  dsimp only
  rw [hsnapshotKey]
  split
  · exact triple_ret fun _ _ h => ⟨h.unacked, Or.inr (Or.inl rfl)⟩
  split
  · exact handles_failWith_key _ _
  have hload : Handles gid t key registry (Unsolved key t)
      (loadRawData (GenerationSnapshot.ofRow gid row) : Pipeline S K _) (LoadedOr key t) := by
    have hfile : (GenerationSnapshot.ofRow gid row).source = .file := hsource
    unfold loadRawData
    rw [hfile]
    exact handles_loadFromFile hkey hname
  refine Triple.bind hload (fun loaded => ?_) fun e s _ h => ⟨h.1.unacked, ?_⟩
  · split
    · rename_i terminal
      refine triple_ret fun _ _ h => ⟨h.1.unacked, h.2.imp_right fun h => Or.inl ?_⟩
      rcases h with ⟨_, heq⟩ | heq | ⟨_, heq⟩ <;> cases heq
      rfl
    · refine Triple.weaken (K := Unsolved key t) ?_ fun _ _ h => h.1
      split
      · exact handles_failWith_key _ _
      · split
        · exact handles_failWith_key _ _
        · split
          · exact handles_solveAndSave _ _ _ _ _
          · exact handles_failWith_key _ _
  · -- what the load raises ends in a nak
    refine h.2.imp_right fun h => Or.inr ?_
    rcases h with ⟨_, heq⟩ | heq | ⟨d, heq⟩ <;> cases heq
    exact ⟨d, rfl⟩

/-- A thread that has acked has cleared the object. -/
def AcksCleared (key : String) (t : ℕ) (s : LoggedWorld S K) : Prop := Has isAck t s → Cleared key s

omit [Zero K] [Add K] in
theorem Unacked.acksCleared {s : LoggedWorld S K} (h : Unacked key t s) : AcksCleared key t s :=
  fun hack => h.resolve_right fun hnot => hnot hack

/-- The ack, and then the deletion. -/
theorem handles_ackThenDelete : Handles gid t key registry (Unacked key t)
    (do ack; deleteSafely key : Pipeline S K Unit) fun _ => AcksCleared key t := by
  have hack : CallSpec (careful gid key registry) (cleanup S K key) t (Unacked key t) .ack
      fun r s => r = .ok () ∨ Unacked key t s := by
    refine ⟨stable_unacked, fun s _ h hack => Or.inl (h.acksCleared hack),
      fun s choice r s' hinv h hexec => ?_⟩
    obtain ⟨hkeeps, hlog, -⟩ := keeps_exec hinv hexec
    refine ⟨hkeeps, ?_⟩
    cases r with
    | ok u => exact Or.inl rfl
    | error e =>
      refine Or.inr (h.imp (fun h => (cleared_called hlog).mpr (Or.inr h)) fun hnot => ?_)
      rw [has_called hlog]
      simpa [isAck] using hnot
  have hdelete : CallSpec (careful gid key registry) (cleanup S K key) t (fun _ => True)
      (.delete key) fun _ => Cleared key :=
    ⟨fun _ _ _ _ _ => trivial, fun _ _ _ _ => Or.inr rfl, fun s choice r s' hinv _ hexec => by
      obtain ⟨hkeeps, hlog, -⟩ := keeps_exec hinv hexec
      exact ⟨hkeeps, (cleared_called hlog).mpr (Or.inl (by simp [clears]))⟩⟩
  refine triple_call hack fun r => ?_
  cases r with
  | error e =>
    exact triple_raise fun _ _ h => (h.resolve_left (by simp)).acksCleared
  | ok u => exact (triple_ask hdelete fun _ _ _ h _ => h).weaken fun _ _ _ => trivial

/-- A delivery that has acked has cleared the object, or will do so next. -/
theorem handles_handleMessage (metadata : AlgorithmMetadata S) {msg : Msg S} (h : msg.About gid) :
    Handles gid t key registry (Fresh key t) (handleMessage metadata msg : Pipeline S K Unit)
      fun _ => AcksCleared key t := by
  obtain ⟨event, hevent, hid⟩ := Option.bind_eq_some_iff.mp h
  unfold handleMessage
  rw [hevent]
  dsimp only
  rw [hid]
  refine (handles_process metadata msg.numDelivered).attempt_bind fun outcome => ?_
  by_cases hcleared : outcome = .ok ⟨some key⟩ ∨ ∃ d, outcome = .error (.transient d)
  swap
  · exact handles_cleared.mono (fun _ _ h => h.2.resolve_right hcleared) fun _ _ _ h _ => h
  refine Triple.weaken (K := Unacked key t) ?_ fun _ _ h => h.1
  rcases hcleared with rfl | ⟨d, rfl⟩
  · exact handles_ackThenDelete
  · refine (handles_unacked (Calls.bind (calls_call (by simp)) fun _ => ?_)).imp
      fun _ _ _ h => h.acksCleared
    exact calls_ask (by simp)

/-! ### Requests -/

/-- The calls of a request: it does not ack, and inserts only the row of the upload. -/
def Op.OfRequest (key : String) (o : Op S K) : Prop := o ≠ .ack ∧ o.KeepsKey key

omit [Zero K] [Add K] in
theorem ofRequest_of_ofQueueing {id : ℤ} {o : Op S K} (h : o.OfQueueing id) : o.OfRequest key := by
  refine ⟨?_, ?_⟩
  · rintro rfl
    exact h
  · rintro row rfl
    exact h.elim

omit [Zero K] [Add K] in
theorem ofRequest_of_ofDeletion {o : Op S K} (h : o.OfDeletion) : o.OfRequest key := by
  refine ⟨?_, ?_⟩
  · rintro rfl
    exact h
  · rintro row rfl
    exact h.elim

omit [Zero K] [Add K] in
/-- No call of a worker changes the key. -/
theorem keepsKey_of_ofWorker {o : Op S K} (h : o.OfWorker) : o.KeepsKey key := by
  rintro row rfl
  exact h.elim

omit [Zero K] [Add K] in
theorem ofRequest_of_ne {o : Op S K} (hack : o ≠ .ack) (hcommit : ∀ write, o ≠ .commit write) :
    o.OfRequest key :=
  ⟨hack, fun _ heq => absurd heq (hcommit _)⟩

omit [Zero K] [Add K] in
/-- The request stores rows with this key only. -/
theorem calls_createGeneration {row : GenerationModel S} (h : Keyed key row) :
    (createGeneration row : Pipeline S K ℤ).Calls (Op.OfRequest key) := by
  refine Calls.bind (calls_call (ofRequest_of_ne (by simp) (by simp))) fun id => ?_
  refine Calls.bind (calls_call ⟨by simp, fun row' heq => ?_⟩) fun _ => trivial
  cases heq
  exact h

omit [Zero K] [Add K] in
/-- A request with this file makes only the calls of its own upload. -/
theorem calls_startGeneration (registry : String → Option (AlgorithmMetadata S))
    (req : GenerateRequest S) (file : UploadFile S) (communityId : ℤ) :
    (startGeneration registry req file communityId : Pipeline S K ℤ).Calls
      (Op.OfRequest (storageKey file communityId)) := by
  unfold startGeneration
  split
  · trivial
  split
  · trivial
  dsimp only
  split
  · trivial
  split
  · trivial
  split
  · trivial
  have hother : ∀ o : Op S K, o ≠ .ack → (∀ write, o ≠ .commit write) →
      o.OfRequest (storageKey file communityId) := fun o => ofRequest_of_ne
  refine Calls.bind (Calls.attempt (calls_call (hother _ (by simp) (by simp)))) fun uploaded => ?_
  cases uploaded with
  | error e => trivial
  | ok u =>
    refine Calls.bind (Calls.attempt (calls_createGeneration ⟨rfl, rfl, rfl⟩)) fun created => ?_
    cases created with
    | error e => exact Calls.bind (calls_ask (hother _ (by simp) (by simp))) fun _ => trivial
    | ok id =>
      refine Calls.bind (calls_ask (hother _ (by simp) (by simp))) fun _ => ?_
      refine Calls.bind (calls_ask (hother _ (by simp) (by simp))) fun _ => ?_
      exact calls_queueGeneration (fun _ => ofRequest_of_ofQueueing) _
        (calls_ask (hother _ (by simp) (by simp)))

/-- The calls of a role in a run with one upload. -/
def Role.Owes (key : String) : Role S → Op S K → Prop
  | .deliver .. => Op.KeepsKey key
  | _ => Op.OfRequest key

/-- Every role makes only the calls it owes to the key. -/
theorem calls_role {role : Role S} (h : OneUpload key role) :
    (program (K := K) registry gid role).Calls (role.Owes key) := by
  have hclose : Op.OfRequest (S := S) (K := K) key .close := ofRequest_of_ne (by simp) (by simp)
  cases role with
  | deliver metadata msg =>
    exact (calls_handleMessage metadata msg).mono fun _ => keepsKey_of_ofWorker
  | startGeneration req file communityId =>
    have hkey : storageKey file communityId = key := h
    subst hkey
    exact calls_withLocalSession hclose ((calls_startGeneration ..).bind fun _ => trivial)
  | startGenerationFromCrm => exact h.elim
  | deleteGeneration scope =>
    exact calls_withLocalSession hclose
      ((calls_deleteGeneration gid scope).mono fun _ => ofRequest_of_ofDeletion)
  | deleteKey idKey scope =>
    exact calls_withLocalSession hclose
      ((calls_deleteKey idKey scope).mono fun _ => ofRequest_of_ofDeletion)

end System

end AllocationKeys.Generation
