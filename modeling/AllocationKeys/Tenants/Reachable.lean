import AllocationKeys.Tenants.Replies
import AllocationKeys.Generation.Terminal

/-!
# Runs of requests and completions

The databases after any sequence of requests, of any communities, and of deliveries and completions
of the worker, from empty local tables. Every row has the community of the generation it descends
from there, and so every request stays within its community (`reachable_isolated`).
-/

namespace AllocationKeys.Tenants

open Algorithms Generation Program

variable {S : Services} {K : Type} {scope : Option ℤ} {db db' : Databases S K}

/-- The databases as a request or a delivery finds them: its sessions are new. -/
def Databases.opened (db : Databases S K) : Databases S K :=
  { db with flushed := none, stagedCrm := none, stagedAudits := [] }

theorem sound_opened (h : db.Sound) : db.opened.Sound where
  ids_nodup := h.ids_nodup
  ids_lt := h.ids_lt
  descends := h.descends
  fresh := h.fresh
  key_generation := h.key_generation
  crm_fresh := h.crm_fresh
  staged_fresh _ hrows := nomatch hrows

/-- Nothing has been generated yet; the CRM has keys of its own. -/
structure Databases.Initial (db : Databases S K) : Prop where
  generations : db.generations = []
  roots : db.keys.roots = []
  nodes : db.keys.nodes = []
  leaves : db.keys.leaves = []
  crm : db.crm.Fresh
  stagedCrm : db.stagedCrm = none

theorem Databases.Initial.sound (h : db.Initial) : db.Sound where
  ids_nodup := by simp [h.generations]
  ids_lt := by simp [h.generations]
  descends := ⟨by simp [h.roots], by simp [h.nodes], by simp [h.nodes], by simp [h.leaves]⟩
  fresh := ⟨by simp [h.roots], by simp [h.nodes], by simp [h.leaves]⟩
  key_generation := by simp [h.roots]
  crm_fresh := h.crm
  staged_fresh := by simp [h.stagedCrm]

/-- The databases with new sessions. -/
theorem guarded_opened (h : db.Sound) : Guarded scope db db.opened where
  sound := sound_opened h
  outside := rfl
  flushed _ hid := nomatch hid
  staged _ hrows := nomatch hrows

/-! ### Ancestry -/

/-- The generation a key row descends from has this community. -/
def Databases.DescendsFrom (db : Databases S K) (key : Row ℤ ℤ (KeyColumns K)) (community : ℤ) :
    Prop :=
  ∃ generation ∈ db.generations, generation.1 = key.parent ∧ generation.2.idCommunity = community

/-- Every key, iteration and consumer row has the community of the generation it descends from. -/
structure Databases.Ancestry (db : Databases S K) : Prop where
  key : ∀ key ∈ db.keys.roots, db.DescendsFrom key key.owner
  iteration : ∀ iteration ∈ db.keys.nodes, ∃ key ∈ db.keys.roots, key.id = iteration.parent ∧
    db.DescendsFrom key iteration.owner
  consumer : ∀ consumer ∈ db.keys.leaves, ∃ iteration ∈ db.keys.nodes,
    iteration.id = consumer.parent ∧ ∃ key ∈ db.keys.roots, key.id = iteration.parent ∧
      db.DescendsFrom key consumer.owner
  generation_ids : (db.generations.map Prod.fst).Nodup
  key_ids : (db.keys.roots.map Row.id).Nodup
  iteration_ids : (db.keys.nodes.map Row.id).Nodup

theorem Databases.Sound.ancestry (h : db.Sound) : db.Ancestry where
  key := h.key_generation
  iteration iteration hiteration := by
    obtain ⟨key, hkey, hid, howner⟩ := h.descends.node_root iteration hiteration
    exact ⟨key, hkey, hid, howner ▸ h.key_generation key hkey⟩
  consumer consumer hconsumer := by
    obtain ⟨iteration, hiteration, hid, howner⟩ := h.descends.leaf_node consumer hconsumer
    obtain ⟨key, hkey, hkeyId, hkeyOwner⟩ := h.descends.node_root iteration hiteration
    refine ⟨iteration, hiteration, hid, key, hkey, hkeyId, ?_⟩
    rw [← howner, ← hkeyOwner]
    exact h.key_generation key hkey
  generation_ids := h.ids_nodup
  key_ids := h.descends.roots_nodup
  iteration_ids := h.descends.nodes_nodup

/-! ### The rows a request sees -/

/-- A request without a community sees no rows. -/
theorem sameRows_none (db₁ db₂ : Databases S K) : SameRows none db₁ db₂ where
  generations := by simp [own]
  keys := by simp [Rows.restrict, own]
  crm := by simp [crmContents, own]

theorem Agree.of_sameRows {db₁ db₂ : Databases S K} (h : SameRows scope db₁ db₂)
    (h₁ : db₁.Sound) (h₂ : db₂.Sound) : Agree scope db₁.opened db₂.opened :=
  ⟨⟨h.generations, h.keys, h.crm⟩, sound_opened h₁, sound_opened h₂, rfl, h.crm⟩

theorem rows_of_outside_none (h : db'.outside none = db.outside none) :
    db'.generations = db.generations ∧ db'.keys.toRows = db.keys.toRows ∧
      db'.crm.toRows = db.crm.toRows := by
  have hforeign : ∀ community, foreign none community = true := fun _ => rfl
  have hall : ∀ db : Databases S K,
      db.outside none = (db.generations, db.keys.toRows, db.crm.toRows) := by
    intro db
    rw [Databases.outside, Rows.restrict_eq_self hforeign, Rows.restrict_eq_self hforeign]
    simp [hforeign]
  rw [hall, hall] at h
  simpa using h

/-! ### Runs -/

section Runs

variable [Zero K] [Add K] (text : TextRules) (registry : String → Option (AlgorithmMetadata S))

/-- What a request, a delivery or a completion makes of the databases. -/
inductive Happens (db db' : Databases S K) : Prop where
  | request (scope : Option ℤ) (request : Request S) {events out}
      (hrun : (request.serve text registry scope).Performs (exec text) db.opened events out db')
  | delivery (metadata : AlgorithmMetadata S) (msg : Msg S) {events out}
      (hrun : (handleMessage metadata msg).Performs execPipeline db.opened events out db')
  | success (id : ℤ) (result : AlgorithmResult K) {events out}
      (hrun : (saveSuccess id result).Performs execPipeline db.opened events out db')
  | failure (id : ℤ) (errorMessage : String) {events out}
      (hrun : (saveFailure id errorMessage).Performs execPipeline db.opened events out db')

inductive Reachable : Databases S K → Prop where
  | initial {db : Databases S K} (h : db.Initial) : Reachable db
  | step {db db' : Databases S K} (h : Reachable db) (hstep : Happens text registry db db') :
      Reachable db'

variable {text registry}

theorem sound_happens (h : db.Sound) (hstep : Happens text registry db db') : db'.Sound := by
  have hopened := sound_opened h
  cases hstep with
  | request scope request hrun =>
    exact (requestKeeps_serve registry request _ (guarded_opened h) _ _ _ hrun).sound
  | delivery metadata msg hrun => exact keepsSound_handleMessage metadata msg _ hopened _ _ _ hrun
  | success id result hrun => exact keepsSound_saveSuccess id result _ hopened _ _ _ hrun
  | failure id errorMessage hrun =>
    exact keepsSound_saveFailure id errorMessage _ hopened _ _ _ hrun

theorem sound_reachable (h : Reachable text registry db) : db.Sound := by
  induction h with
  | initial h => exact h.sound
  | step _ hstep ih => exact sound_happens ih hstep

/-! ### Isolation -/

/-- **Every row has the community of the generation it descends from, and a request stays within
its community**: it leaves the rows of the others as they are, and does the same on any databases
with the same rows of its own. The ids of new generations come from a sequence that all communities
share. -/
theorem reachable_isolated (h : Reachable text registry db) :
    db.Ancestry ∧ ∀ (scope : Option ℤ) (request : Request S) events out db',
      (request.serve text registry scope).Performs (exec text) db.opened events out db' →
        db'.outside scope = db.outside scope ∧
        (scope = none → db'.generations = db.generations ∧ db'.keys.toRows = db.keys.toRows ∧
          db'.crm.toRows = db.crm.toRows) ∧
        ∀ db₂ : Databases S K, Reachable text registry db₂ →
          (scope.isSome → SameRows scope db db₂) →
          (scope.isSome → request.Creates → db.nextGenerationId = db₂.nextGenerationId) →
            (∃ events₂ db₂', (request.serve text registry scope).Performs (exec text) db₂.opened
              events₂ out db₂' ∧ events₂.map Prod.snd = events.map Prod.snd) ∧
            ∀ events₂ out₂ db₂', (request.serve text registry scope).Performs (exec text)
              db₂.opened events₂ out₂ db₂' → events₂.map Prod.snd = events.map Prod.snd →
                out₂ = out ∧ SameRows scope db' db₂' := by
  have hsound := sound_reachable h
  refine ⟨hsound.ancestry, fun scope request events out db' hrun => ?_⟩
  have houtside : db'.outside scope = db.outside scope :=
    (requestKeeps_serve registry request _ (guarded_opened hsound) _ _ _ hrun).outside
  refine ⟨houtside, fun hnone => ?_, fun db₂ h₂ hsame hnext => ?_⟩
  · rw [hnone] at houtside
    exact rows_of_outside_none houtside
  have hrows : SameRows scope db db₂ := by
    cases scope with
    | none => exact sameRows_none db db₂
    | some community => exact hsame rfl
  have hagree : Agree scope db.opened db₂.opened := .of_sameRows hrows hsound (sound_reachable h₂)
  obtain ⟨events₂, out₂, db₂', hrun₂, hchoices, halike⟩ :=
    mirrors_serve registry request hagree hnext events out db' hrun
  obtain ⟨rfl, hagree'⟩ := eq_of_alike halike
  refine ⟨⟨events₂, db₂', hrun₂, hchoices⟩, fun events₃ out₃ db₃' hrun₃ hchoices₃ => ?_⟩
  obtain ⟨-, rfl, rfl⟩ := performs_unique hrun₃ hrun₂ (hchoices₃.trans hchoices.symm)
  exact ⟨rfl, hagree'.toSameRows⟩

end Runs

/-! ### An id guessed by another community -/

def plainText : TextRules := ⟨fun _ _ => true, fun _ _ => .eq, fun _ => none⟩

def emptyDatabases : Databases plainServices ℕ where
  generations := []
  nextGenerationId := 1
  keys := ⟨⟨[], [], []⟩, 0, 0, 0⟩
  crm := ⟨⟨[], [], []⟩, 0, 0, 0⟩
  audits := []
  objects := []
  flushed := none
  stagedCrm := none
  stagedAudits := []

theorem initial_emptyDatabases : emptyDatabases.Initial :=
  ⟨rfl, rfl, rfl, rfl,
    ⟨by simp [emptyDatabases], by simp [emptyDatabases], by simp [emptyDatabases]⟩, rfl⟩

/-- A generation of community 2. -/
def startOfOther : RequestProgram plainServices ℕ (Response ℕ) :=
  (Request.startGeneration ⟨"generation", "brute_force", none, ()⟩ ⟨none, (), "uuid"⟩).serve
    plainText plainRegistry (some 2)

/-- Community 1 deletes generation 1. -/
def deletionByOther : RequestProgram plainServices ℕ (Response ℕ) :=
  (Request.deleteGeneration 1).serve plainText plainRegistry (some 1)

/-- Community 1 deletes a generation of community 2, and that is as if it were not there. -/
theorem reachable_isolated_guessed : ∃ (db db' : Databases plainServices ℕ) (events events₂ : List
    (RequestOp plainServices ℕ × Choice plainServices ℕ)) (out : Except Exc (Response ℕ))
    (db₂' : Databases plainServices ℕ), db.generations ≠ [] ∧
      deletionByOther.Performs (exec plainText) db.opened events out db' ∧
      db'.outside (some 1) = db.outside (some 1) ∧
      deletionByOther.Performs (exec plainText) emptyDatabases.opened events₂ out db₂' ∧
      SameRows (some 1) db' db₂' := by
  have hplay : (perform (exec plainText) [.ok, .ok, .ok, .ok, .ok, .ok, .ok, .ok] startOfOther
      emptyDatabases.opened).any (fun run =>
        !run.2.2.generations.isEmpty &&
        run.2.2.generations.all (fun entry => entry.2.idCommunity == 2) &&
        run.2.2.keys.roots.isEmpty && run.2.2.keys.nodes.isEmpty && run.2.2.keys.leaves.isEmpty &&
        run.2.2.crm.roots.isEmpty &&
        (perform (exec plainText) [.ok, .ok, .ok]
          deletionByOther run.2.2.opened).isSome) = true := by
    decide +kernel
  obtain ⟨_, _, db, hstart, htest⟩ := exists_of_perform hplay
  simp only [Bool.and_eq_true, Bool.not_eq_true', List.isEmpty_iff, List.isEmpty_eq_false_iff,
    List.all_eq_true, beq_iff_eq, Option.isSome_iff_exists] at htest
  obtain ⟨⟨⟨⟨⟨⟨hne, hother⟩, hroots⟩, hnodes⟩, hleaves⟩, hcrm⟩,
    ⟨events, out, db'⟩, hdelete⟩ := htest
  have hempty : Reachable plainText plainRegistry emptyDatabases := .initial initial_emptyDatabases
  have hreach : Reachable plainText plainRegistry db := hempty.step (.request _ _ hstart)
  have hsame : SameRows (some 1) db emptyDatabases := by
    refine ⟨?_, ?_, ?_⟩
    · rw [List.filter_eq_nil_iff.mpr fun entry hentry => by simp [own, hother entry hentry]]
      rfl
    · rw [Rows.restrict, hroots, hnodes, hleaves]
      rfl
    · rw [crmContents, Rows.contents, hcrm]
      rfl
  have hrun := performs_of_perform hdelete
  obtain ⟨houtside, -, hlike⟩ :=
    (reachable_isolated hreach).2 (some 1) (.deleteGeneration 1) _ _ _ hrun
  obtain ⟨⟨events₂, db₂', hrun₂, hchoices⟩, hunique⟩ :=
    hlike _ hempty (fun _ => hsame) fun _ hcreates => hcreates.elim
  exact ⟨db, db', events, events₂, out, db₂', hne, hrun, houtside, hrun₂,
    (hunique _ _ _ hrun₂ hchoices).2⟩

end AllocationKeys.Tenants
