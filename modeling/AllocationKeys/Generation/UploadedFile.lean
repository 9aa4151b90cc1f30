import AllocationKeys.Generation.Cleanup

/-!
# No uploaded file outlives its generation

In every run of one upload whose steps keep the object in hand, a delivery that has acked has asked
for the deletion of the object, is about to, or the storage has reported the object missing
(`acked_cleared`). A user who deletes the generation before it is delivered takes the key with the
row, and the object stays (`acked_not_cleared`).
-/

namespace AllocationKeys.Generation

open Algorithms Concurrent Program

variable {S : Services} {K : Type} {gid : ℤ} {t : ℕ} {key : String}
  {registry : String → Option (AlgorithmMetadata S)}

/-! ### The threads of the careful system -/

theorem row_launch {role : Role S} {w w' : World S K} (h : launch gid t role w = some w') :
    w'.row = w.row := by
  cases role <;> simp only [launch] at h
  case deliver | startGeneration | startGenerationFromCrm => split at h <;> cases h; rfl
  case deleteGeneration | deleteKey => cases h; rfl

theorem about_of_launch {metadata : AlgorithmMetadata S} {msg : Msg S} {w w' : World S K}
    (h : launch gid t (.deliver metadata msg) w = some w') : msg.About gid := by
  simp only [launch] at h
  split at h
  · exact And.right ‹_›
  · cases h

/-- A thread that has only been launched. -/
theorem has_launched {kind : LogEntry S K → Bool} {role : Role S} {s : LoggedWorld S K}
    {w : World S K} (hnew : ∀ e ∈ s.2, e.thread ≠ t) :
    Has kind t (w, .launched t role :: s.2) ↔ kind (.launched t role) = true := by
  have hold : ¬ Has kind t s := by
    rintro h
    obtain ⟨e, he, hkind⟩ := List.any_eq_true.mp h
    exact hnew e he (by simpa using (Bool.and_eq_true_iff.mp hkind).1)
  simp only [Has, List.any_cons, Entry.thread, beq_self_eq_true, Bool.true_and, Bool.or_eq_true]
  exact or_iff_left hold

variable [Zero K] [Add K]

theorem careful_obeys : ObeysTo (careful gid key registry) (cleanup S K key)
    fun _ t _ s => AcksCleared key t s where
  launch t role s s' hinv h := by
    obtain ⟨⟨hrole, hnew⟩, htraced⟩ := Machine.launch_restrict h
    obtain ⟨w', hlaunch, rfl⟩ := Option.map_eq_some_iff.mp htraced
    have hkeeps : (cleanup S K key).Keeps t s (w', .launched t role :: s.2) := by
      refine ⟨?_, fun t' ht => ⟨fun e he => List.mem_cons_of_mem _ he, fun e he hthread => ?_⟩⟩
      · show ∀ row ∈ w'.row, Keyed key row
        rw [row_launch hlaunch]
        exact hinv
      · refine (List.mem_cons.mp he).resolve_left fun heq => ht ?_
        rw [← hthread, heq]
        rfl
    refine ⟨hkeeps, ?_⟩
    have hrequest : (∀ o : Op S K, role.Owes key o → o ≠ .ack) →
        Safe (careful gid key registry) (cleanup S K key) t (fun _ => AcksCleared key t)
          (program registry gid role) (w', .launched t role :: s.2) := by
      intro hack
      refine (handles_unacked ((calls_role hrole).mono hack)).imp
        (fun _ _ _ h => h.acksCleared) _ hkeeps.1 (Or.inr ?_)
      rw [has_launched hnew]
      simp [isAck]
    cases role with
    | deliver metadata msg =>
      have hdeliver : launch gid t (.deliver metadata msg) s.1 = some w' := hlaunch
      refine handles_handleMessage metadata (about_of_launch hdeliver) _ hkeeps.1 (Or.inr ?_)
      simp only [has_launched hnew]
      exact ⟨rfl, by simp [isCall], by simp [isAck], by simp [isResult]⟩
    | _ => exact hrequest fun o ho => ho.1
  abort t s hinv :=
    ⟨hinv, fun _ _ => ⟨fun _ he => he, fun _ he _ => he⟩⟩

/-! ### The runs of one upload -/

/-- The steps that this file is about. -/
def Keeping (key : String) (c : LoggedState S K) (label : Step S K) : Prop :=
  InScope key c label ∧ KeepsInHand key c label

instance (c : LoggedState S K) (label : Step S K) : Decidable (Keeping key c label) :=
  inferInstanceAs (Decidable (_ ∧ _))

theorem run_careful {c : LoggedState S K}
    (hrun : (system registry gid).traced.Run (Keeping key) (Machine.start (World.empty, [])) c) :
    (careful gid key registry).Run (Keeping key) (Machine.start (World.empty, [])) c := by
  refine Machine.run_restrict (fun c t role hrun hok hidle => ⟨hok.1, fun e he ht => ?_⟩)
    (fun c t choice role o next hrun hok hrunning => ⟨hok.1, hok.2 o ?_, ?_⟩) hrun
  · exact Machine.not_idle_of_run hrun he (by rw [ht]; exact hidle)
  · rw [hrunning]
    rfl
  · have hcalls : (Program.call o next).Calls (role.Owes key) :=
      Machine.calls_of_run (fun _ _ _ hok => calls_role hok.1) hrun t role _ hrunning
    have howes : role.Owes key o := hcalls.1
    cases role with
    | deliver metadata msg => exact howes
    | _ => exact howes.2

/-- The next call of the thread deletes the object. -/
def deletesNext (key : String) : Thread (Role S) (Op S K) (Resp S K) Exc → Bool
  | .running _ (.call (.delete k) _) => k == key
  | _ => false

/-- **A file whose generation is not deleted under its deliveries is cleared**: in every run of one
upload, with any deliveries and deletions, whose steps keep the object in hand, a thread that has
acked has cleared the object or makes that its next call. -/
theorem acked_cleared {c : LoggedState S K}
    (hrun : (system registry gid).traced.Run (Keeping key) (Machine.start (World.empty, [])) c)
    (hack : Has isAck t c.state) :
    Cleared key c.state ∨ deletesNext key (c.threads t) = true := by
  have hgood : GoodTo (careful gid key registry) (cleanup S K key)
      (fun _ t _ s => AcksCleared key t s) c :=
    good_of_run careful_obeys (good_start fun _ hrow => by cases hrow) (run_careful hrun)
  have hkilled : c.threads t ≠ .killed :=
    Machine.not_killed_of_run (fun _ _ hok => hok.1) hrun
  have hidle : c.threads t ≠ .idle := by
    obtain ⟨e, he, hkind⟩ := List.any_eq_true.mp hack
    have ht : e.thread = t := by simpa using (Bool.and_eq_true_iff.mp hkind).1
    rw [← ht]
    exact Machine.not_idle_of_run hrun he
  cases hthread : c.threads t with
  | idle => exact absurd hthread hidle
  | killed => exact absurd hthread hkilled
  | running role rest =>
    have hended : ∀ out s, (cleanup S K key).rely t s c.state →
        Safe (careful gid key registry) (cleanup S K key) t (fun _ => AcksCleared key t)
          (Program.ofExcept out : Pipeline S K Unit) s → Cleared key c.state := by
      intro out s hrely hsafe
      have hends : AcksCleared key t s := by cases out <;> exact hsafe
      exact cleared_rely hrely (hends ((has_rely hrely).mp hack))
    cases rest with
    | ret a =>
      obtain ⟨s, hrely, hsafe⟩ := hgood.safe t role _ hthread
      exact Or.inl (hended (.ok a) s hrely hsafe)
    | raise e =>
      obtain ⟨s, hrely, hsafe⟩ := hgood.safe t role _ hthread
      exact Or.inl (hended (.error e) s hrely hsafe)
    | call o next =>
      rcases hgood.pre hthread hack with hcleared | rfl
      · exact Or.inl hcleared
      · exact Or.inr (beq_self_eq_true key)

/-! ### Plays -/

/-- The request that uploads the object, through to its end. -/
def queuedUpload : List (Step plainServices ℕ) :=
  [.launch 1 (.startGeneration ⟨"generation", "brute_force", none, ()⟩ ⟨none, (), "uuid"⟩ 7)]
    ++ acts 1 [.ok, .ok, .ok, .ok, .ok, .ok, .ok]

/-- The key of that object. -/
def uploadedKey : String := "allocations/7/uuid/uploaded-file"

/-- The user deletes the generation before it is delivered. -/
def deletedBeforeDelivery : List (Step plainServices ℕ) :=
  [.launch 3 (.deleteGeneration (some 7))] ++ acts 3 [.ok, .ok, .ok, .ok, .ok]
    ++ [.launch 2 plainDelivery] ++ acts 2 [.ok, .ok, .ok]

/-- The download fails in a way that the storage client does not classify. -/
def refusedDownload : List (Step plainServices ℕ) :=
  [.launch 2 plainDelivery]
    ++ acts 2 [.ok, .ok, .fail "403", .ok, .ok, .ok, .ok, .ok, .ok, .ok, .ok, .ok]

/-- The algorithm fails, and so does the first call that marks the row as failed. -/
def unsavedFailure : List (Step plainServices ℕ) :=
  [.launch 2 plainDelivery]
    ++ acts 2 ([.ok, .ok, .ok, .fail "no optimum", .ok, .fail "connection refused"]
      ++ [.ok, .ok, .ok, .ok, .ok, .ok, .ok, .ok, .ok, .ok])

/-- The thread has acked. -/
def hasAcked (t : ℕ) (c : LoggedState plainServices ℕ) : Bool := decide (Has isAck t c.state)

/-- The thread has acked, and the object is not cleared, now or by its next call. -/
def leavesObject (key : String) (t : ℕ) (c : LoggedState plainServices ℕ) : Bool :=
  hasAcked t c && !decide (Cleared key c.state ∨ deletesNext key (c.threads t) = true)

example : ((system (K := ℕ) plainRegistry 1).traced.play (InScope uploadedKey)
    (queuedUpload ++ refusedDownload) (Machine.start (World.empty, []))).any
      (leavesObject uploadedKey 2) = true := by decide +kernel

example : ((system (K := ℕ) plainRegistry 1).traced.play (InScope uploadedKey)
    (queuedUpload ++ unsavedFailure) (Machine.start (World.empty, []))).any
      (leavesObject uploadedKey 2) = true := by decide +kernel

/-- A delivery that succeeds: the object is deleted after the ack. -/
theorem acked_cleared_success : ∃ c : LoggedState plainServices ℕ, Has isAck 2 c.state ∧
    (Cleared uploadedKey c.state ∨ deletesNext uploadedKey (c.threads 2) = true) := by
  have hplay : ((system (K := ℕ) plainRegistry 1).traced.play (Keeping uploadedKey)
      (queuedUpload ++ successfulDelivery ++ acts 2 [.ok, .ok, .ok, .ok, .ok])
      (Machine.start (World.empty, []))).any (hasAcked 2) = true := by decide +kernel
  obtain ⟨c, hrun, hacked⟩ := Machine.exists_of_play hplay
  have hack : Has isAck 2 c.state := of_decide_eq_true hacked
  exact ⟨c, hack, acked_cleared hrun hack⟩

/-- The row is deleted while it is pending, the delivery finds no key and acks. -/
theorem acked_not_cleared : ¬ ∀ (c : LoggedState plainServices ℕ) (t : ℕ),
    (system plainRegistry 1).traced.Run (InScope uploadedKey) (Machine.start (World.empty, [])) c →
      Has isAck t c.state →
        Cleared uploadedKey c.state ∨ deletesNext uploadedKey (c.threads t) = true := by
  have hplay : ((system (K := ℕ) plainRegistry 1).traced.play (InScope uploadedKey)
      (queuedUpload ++ deletedBeforeDelivery) (Machine.start (World.empty, []))).any
        (leavesObject uploadedKey 2) = true := by decide +kernel
  obtain ⟨c, hrun, hleaves⟩ := Machine.exists_of_play hplay
  obtain ⟨hacked, hnot⟩ := Bool.and_eq_true_iff.mp hleaves
  intro hclaim
  have hcleared := hclaim c 2 hrun (of_decide_eq_true hacked)
  rw [decide_eq_true hcleared] at hnot
  cases hnot

end AllocationKeys.Generation
