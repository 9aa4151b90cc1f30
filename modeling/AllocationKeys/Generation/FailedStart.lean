import AllocationKeys.Generation.Terminal
import AllocationKeys.Lib.Perform

/-!
# What a failed start leaves behind

`start_generation` alone, with every combination of its steps failing. The row, the message and the
object live in three systems, and the compensation is itself made of steps that can fail: when one
of `_mark_failed_to_queue` does, its exception leaves the handler before the object is deleted.

`start_leavesNothing_iff` is the exact condition: no step of `_mark_failed_to_queue` fails, and the
commit of the row does not take effect and fail. `start_leaves_object` is a run that breaks it.
-/

namespace AllocationKeys.Generation

open Algorithms Program

variable {S : Services} {K : Type} {gid : ℤ} {t : ℕ}

/-! ### What is promised -/

/-- A request that raised after its upload has left no object and no pending row. -/
def CleanedUp (events : List (Op S K × Choice S K)) (w : World S K) : Prop :=
  (∃ key content, (.upload key content, .ok) ∈ events) →
    w.object = none ∧ ∀ row ∈ w.row, row.status = .failed

/-- A request that returned has stored the object, committed its row as pending and published the
event, in this order. -/
def Queued (events : List (Op S K × Choice S K)) (w : World S K) : Prop :=
  ∃ key content row subject data,
    [(.upload key content, .ok), (.commit (.insert row), .ok), (.publish subject data, .ok)].Sublist
        events ∧
      row.status = .pending ∧ row.fileStorageKey = some key ∧ w.row = some row ∧
      w.object = some (key, content) ∧ w.queued = true

def LeavesNothing (events : List (Op S K × Choice S K)) (out : Except Exc ℤ) (w : World S K) :
    Prop :=
  match out with
  | .ok _ => Queued events w
  | .error _ => CleanedUp events w

/-- A step that keeps the request from cleaning up: one of `_mark_failed_to_queue` that fails, or
a commit of the row that takes effect and fails. -/
def Slips : Op S K × Choice S K → Prop
  | (.commit (.insert _), .lost _) => True
  | (.get _, choice) => choice ≠ .ok
  | (.flushUpdate _, choice) => choice ≠ .ok
  | (.commit (.save ..), choice) => choice ≠ .ok
  | (.commitCrm _, choice) => choice ≠ .ok
  | _ => False

/-! ### One call -/

section Calls

variable {w : World S K}

/-- A call that went through, with what it did, or failed. -/
def OneCall {α : Type} (o : Op S K) (events : List (Op S K × Choice S K)) (out : Except Exc α)
    (done failed : Prop) : Prop :=
  (events = [(o, .ok)] ∧ done) ∨
    (∃ choice, choice ≠ .ok ∧ events = [(o, choice)]) ∧ (∃ e, out = .error e) ∧ failed

/-- A call that may fail: it is done, or nothing is. -/
theorem oneCall_orFail {α : Type} {o : Op S K} {choice : Choice S K} {out : Except Exc α}
    {w' : World S K} {done : Option (Except Exc α × World S K)}
    (h : orFail choice w done = some (out, w')) :
    OneCall o [(o, choice)] out (done = some (out, w')) (w' = w) := by
  cases choice with
  | ok => exact Or.inl ⟨rfl, h⟩
  | fail detail =>
    cases h
    exact Or.inr ⟨⟨_, by simp, rfl⟩, ⟨_, rfl⟩, rfl⟩
  | _ => cases h

/-- A commit may fail, or be done and its answer lost. -/
theorem oneCall_orLost {o : Op S K} {choice : Choice S K} {out : Except Exc Unit}
    {failed done w' : World S K} (h : orLost choice failed done = some (out, w')) :
    OneCall o [(o, choice)] out (out = .ok () ∧ w' = done)
      ((w' = failed ∧ ∃ detail, choice = .fail detail) ∨
        w' = done ∧ ∃ detail, choice = .lost detail) := by
  cases choice with
  | ok => cases h; exact Or.inl ⟨rfl, rfl, rfl⟩
  | fail detail =>
    cases h
    exact Or.inr ⟨⟨_, by simp, rfl⟩, ⟨_, rfl⟩, Or.inl ⟨rfl, detail, rfl⟩⟩
  | lost detail =>
    cases h
    exact Or.inr ⟨⟨_, by simp, rfl⟩, ⟨_, rfl⟩, Or.inr ⟨rfl, detail, rfl⟩⟩
  | _ => cases h

theorem ends_get : (get gid).Ends (exec gid t) w fun events out w' =>
    OneCall (.get gid) events out (out = .ok w.row ∧ w' = w) (w' = w) := by
  refine ends_callExcept fun choice r w' hexec => ?_
  rcases oneCall_orFail (o := .get gid) hexec with ⟨hevents, hdone⟩ | hfailed
  · rw [if_pos rfl] at hdone
    cases hdone
    exact Or.inl ⟨hevents, rfl, rfl⟩
  · exact Or.inr hfailed

/-- The row is locked until the commit. -/
theorem ends_flushUpdate {row : GenerationModel S} (hrow : w.row = some row) :
    (flushUpdate gid).Ends (exec gid t) w fun events out w' =>
      OneCall (.flushUpdate gid) events out (out = .ok () ∧ w' = { w with lock := some t })
        (w' = w) := by
  refine ends_callExcept fun choice r w' hexec => ?_
  rcases oneCall_orFail (o := .flushUpdate gid) hexec with ⟨hevents, hdone⟩ | hfailed
  · rw [hrow] at hdone
    split at hdone
    · cases hdone
      exact Or.inl ⟨hevents, rfl, by rw [← hrow]⟩
    · cases hdone
  · exact Or.inr hfailed

/-- The three ways a local commit ends. -/
theorem ends_commit (write : Write S K) : (commit write).Ends (exec gid t) w fun events out w' =>
    OneCall (.commit write) events out (out = .ok () ∧ w' = (w.apply t write).release t)
      ((w' = w.release t ∧ ∃ detail, events = [(.commit write, .fail detail)]) ∨
        w' = (w.apply t write).release t ∧ ∃ detail, events = [(.commit write, .lost detail)]) := by
  refine ends_callExcept fun choice r w' hexec => ?_
  rcases oneCall_orLost (o := .commit write) hexec with hdone | ⟨hevents, herror, hworld⟩
  · exact Or.inl hdone
  · refine Or.inr ⟨hevents, herror, hworld.imp ?_ ?_⟩
    · rintro ⟨hw', detail, rfl⟩
      exact ⟨hw', detail, rfl⟩
    · rintro ⟨hw', detail, rfl⟩
      exact ⟨hw', detail, rfl⟩

/-- A commit of the CRM session touches neither the object nor the row. -/
theorem ends_commitCrm (staged : List AuditLogInput) :
    (commitCrm staged).Ends (exec gid t) w fun events out w' =>
      w'.object = w.object ∧ w'.row = w.row ∧
        OneCall (.commitCrm staged) events out (out = .ok ()) True := by
  refine ends_callExcept fun choice r w' hexec => ?_
  rcases oneCall_orLost (o := .commitCrm staged) hexec with ⟨hevents, hout, rfl⟩ |
    ⟨hevents, herror, ⟨rfl, -⟩ | ⟨rfl, -⟩⟩
  · exact ⟨rfl, rfl, Or.inl ⟨hevents, hout⟩⟩
  · exact ⟨rfl, rfl, Or.inr ⟨hevents, herror, trivial⟩⟩
  · exact ⟨rfl, rfl, Or.inr ⟨hevents, herror, trivial⟩⟩

/-- The calls that return whatever happens and concern neither the row nor the object. -/
theorem ends_aside {α : Type} {o : Op S K} {p : Pipeline S K α}
    {out : Resp S K o → α} (hp : p = .call o fun r => .ret (out r))
    (hexec : ∀ choice r w', exec gid t o choice w = some (r, w') →
      w'.object = w.object ∧ w'.row = w.row ∧ w'.queued = w.queued) :
    p.Ends (exec gid t) w fun events result w' => (∃ choice, events = [(o, choice)]) ∧
      (∃ a, result = .ok a) ∧ w'.object = w.object ∧ w'.row = w.row ∧ w'.queued = w.queued := by
  rw [hp]
  exact ends_call fun choice r w' h => ends_ret ⟨⟨choice, rfl⟩, ⟨_, rfl⟩, hexec choice r w' h⟩

/-- A session ends as its body does, with the lock given back. -/
theorem ends_withLocalSession {α : Type} {body : Pipeline S K α}
    {post : List (Op S K × Choice S K) → Except Exc α → World S K → Prop}
    (h : body.Ends (exec gid t) w fun events out w' =>
      ∀ choice, post (events ++ [(.close, choice)]) out (w'.release t)) :
    (withLocalSession body).Ends (exec gid t) w post := by
  have hattempt : body.attempt.Ends (exec gid t) w fun events result w' => ∃ out,
      result = .ok out ∧ ∀ choice, post (events ++ [(.close, choice)]) out (w'.release t) :=
    Ends.attempt (h.mono fun events out w' hout => ⟨out, rfl, hout⟩)
  refine hattempt.bind (fun events out w₁ hout => ?_) fun events e w₁ hout => ?_
  · obtain ⟨_, heq, hpost⟩ := hout
    cases heq
    refine ends_call fun choice r w₂ hexec => ?_
    cases hexec
    exact ends_ofExcept (hpost choice)
  · obtain ⟨_, heq, -⟩ := hout
    cases heq

end Calls

/-! ### Marking the row -/

section Mark

variable {w : World S K} {row : GenerationModel S} {α β : Type}

/-- How a part of `_mark_failed_to_queue` ends: with what it does, when none of its steps fails, or
raising; the object stays as it was. -/
def Marks (w : World S K) (done : α → World S K → Prop) (events : List (Op S K × Choice S K))
    (out : Except Exc α) (w' : World S K) : Prop :=
  w'.object = w.object ∧ (∀ event ∈ events, ∀ key content, event.1 ≠ .upload key content) ∧
    (((∀ event ∈ events, ¬ Slips event) ∧ ∃ a, out = .ok a ∧ done a w') ∨
      ((∃ event ∈ events, Slips event) ∧ ∃ e, out = .error e))

/-- The row, if it is still there, is failed. -/
def World.NotPending (w : World S K) : Prop := ∀ row ∈ w.row, row.status = .failed

/-- A single call of the marking: it slips exactly when it is not answered well. -/
theorem marks_oneCall {o : Op S K} {events : List (Op S K × Choice S K)} {out : Except Exc α}
    {w' : World S K} {done : α → World S K → Prop} {failed : Prop}
    (h : OneCall o events out (∃ a, out = .ok a ∧ done a w') failed)
    (hobject : w'.object = w.object) (hslips : ∀ choice, Slips (o, choice) ↔ choice ≠ .ok)
    (hupload : ∀ key content, o ≠ .upload key content) : Marks w done events out w' := by
  rcases h with ⟨rfl, hdone⟩ | ⟨⟨choice, hchoice, rfl⟩, herror, -⟩
  · refine ⟨hobject, by simpa using hupload, Or.inl ⟨?_, hdone⟩⟩
    simp [hslips]
  · exact ⟨hobject, by simpa using hupload,
      Or.inr ⟨⟨_, List.mem_singleton_self _, (hslips choice).mpr hchoice⟩, herror⟩⟩

theorem marks_get (hrow : w.row = some row) :
    (get gid).Ends (exec gid t) w (Marks w fun found w' => found = some row ∧ w' = w) := by
  refine ends_get.mono fun events out w' h => marks_oneCall (h.imp_left fun h => ⟨h.1, ?_⟩) ?_
    (fun _ => Iff.rfl) (by simp)
  · exact ⟨some row, by rw [h.2.1, hrow], rfl, h.2.2⟩
  · rcases h with ⟨-, -, rfl⟩ | ⟨-, -, rfl⟩ <;> rfl

theorem marks_flushUpdate (hrow : w.row = some row) :
    (flushUpdate gid).Ends (exec gid t) w (Marks w fun _ w' => w'.row = some row) := by
  refine (ends_flushUpdate hrow).mono fun events out w' h =>
    marks_oneCall (h.imp_left fun h => ⟨h.1, (), h.2.1, ?_⟩) ?_ (fun _ => Iff.rfl) (by simp)
  · rw [h.2.2]
    exact hrow
  · rcases h with ⟨-, -, rfl⟩ | ⟨-, -, rfl⟩ <;> rfl

/-- A commit that answers well has stored the failure; so has one whose answer is lost. -/
theorem marks_commit (hrow : w.row = some row) (message : Option String) :
    (commit (.save .failed message)).Ends (exec gid t) w (Marks w fun _ w' => w'.NotPending) := by
  have hobject : (w.apply t (.save .failed message)).object = w.object := by
    simp [World.apply, World.settle, hrow]
  refine (ends_commit _).mono fun events out w' h =>
    marks_oneCall (h.imp_left fun h => ⟨h.1, (), h.2.1, ?_⟩) ?_ (fun _ => Iff.rfl) (by simp)
  · rw [h.2.2]
    simp [World.apply, World.settle, World.release, World.NotPending, hrow]
  · rcases h with ⟨-, -, rfl⟩ | ⟨-, -, ⟨rfl, -⟩ | ⟨rfl, -⟩⟩
    · exact hobject
    · rfl
    · exact hobject

theorem marks_commitCrm (staged : List AuditLogInput) :
    (commitCrm staged).Ends (exec gid t) w (Marks w fun _ w' => w'.row = w.row) :=
  (ends_commitCrm staged).mono fun _ _ _ h =>
    marks_oneCall (h.2.2.imp_left fun hdone => ⟨hdone.1, (), hdone.2, h.2.1⟩) h.1
      (fun _ => Iff.rfl) (by simp)

/-- A call that touches neither the object nor the row is no slip. -/
theorem marks_aside {o : Op S K} {p : Pipeline S K α} {result : Resp S K o → α}
    (hp : p = .call o fun r => .ret (result r))
    (hexec : ∀ choice r w', exec gid t o choice w = some (r, w') →
      w'.object = w.object ∧ w'.row = w.row ∧ w'.queued = w.queued)
    (hslips : ∀ choice, ¬ Slips (o, choice)) (hupload : ∀ key content, o ≠ .upload key content) :
    p.Ends (exec gid t) w (Marks w fun _ w' => w'.row = w.row) := by
  refine (ends_aside hp hexec).mono fun events out w' h => ?_
  obtain ⟨⟨choice, rfl⟩, ⟨a, rfl⟩, hobject, hrow, -⟩ := h
  exact ⟨hobject, by simpa using hupload, Or.inl ⟨by simpa using hslips choice, a, rfl, hrow⟩⟩

theorem marks_ret {a : α} {done : α → World S K → Prop} (h : done a w) :
    (.ret a : Pipeline S K α).Ends (exec gid t) w (Marks w done) :=
  ends_ret ⟨rfl, by simp, Or.inl ⟨by simp, a, rfl, h⟩⟩

/-- One part after another: a failed step of either makes the whole raise. -/
theorem marks_bind {p : Pipeline S K α} {f : α → Pipeline S K β} {mid : α → World S K → Prop}
    {done : β → World S K → Prop} (hp : p.Ends (exec gid t) w (Marks w mid))
    (hf : ∀ a w', mid a w' → (f a).Ends (exec gid t) w' (Marks w' done)) :
    (p >>= f).Ends (exec gid t) w (Marks w done) := by
  refine hp.bind (fun earlier a w₁ hfirst => ?_) fun events e w₁ hfirst => ?_
  · obtain ⟨hobject, huploads, ⟨hnone, a', ha, hmid⟩ | ⟨-, e, he⟩⟩ := hfirst
    · cases ha
      refine (hf a w₁ hmid).mono fun events out w' hrest => ?_
      obtain ⟨hobject', huploads', hends⟩ := hrest
      refine ⟨hobject'.trans hobject, fun event hevent => ?_, hends.imp ?_ ?_⟩
      · exact (List.mem_append.mp hevent).elim (huploads event) (huploads' event)
      · rintro ⟨hnone', hdone⟩
        exact ⟨fun event hevent => (List.mem_append.mp hevent).elim (hnone event) (hnone' event),
          hdone⟩
      · rintro ⟨⟨event, hevent, hslips⟩, herror⟩
        exact ⟨⟨event, List.mem_append_right earlier hevent, hslips⟩, herror⟩
    · cases he
  · obtain ⟨hobject, huploads, ⟨-, a, ha, -⟩ | ⟨hslips, -⟩⟩ := hfirst
    · cases ha
    · exact ⟨hobject, huploads, Or.inr ⟨hslips, e, rfl⟩⟩

/-- Closing the session changes nothing of this. -/
theorem marks_session {body : Pipeline S K α} {done : α → World S K → Prop}
    (h : body.Ends (exec gid t) w (Marks w done))
    (hdone : ∀ a w', done a w' → done a (w'.release t)) :
    (withLocalSession body).Ends (exec gid t) w (Marks w done) := by
  refine ends_withLocalSession (h.mono fun events out w' h choice => ?_)
  obtain ⟨hobject, huploads, hends⟩ := h
  have hclose : ∀ event ∈ [((.close : Op S K), choice)],
      (∀ key content, event.1 ≠ .upload key content) ∧ ¬ Slips event := by
    intro event hevent
    rw [List.mem_singleton.mp hevent]
    exact ⟨by simp, fun h => h⟩
  refine ⟨hobject, fun event hevent => ?_, hends.imp ?_ ?_⟩
  · exact (List.mem_append.mp hevent).elim (huploads event) fun hmem => (hclose event hmem).1
  · rintro ⟨hnone, a, hout, ha⟩
    exact ⟨fun event hevent =>
      (List.mem_append.mp hevent).elim (hnone event) fun hmem => (hclose event hmem).2,
      a, hout, hdone a w' ha⟩
  · rintro ⟨⟨event, hevent, hslips⟩, herror⟩
    exact ⟨⟨event, List.mem_append_left _ hevent, hslips⟩, herror⟩

/-- Without a slip the row is stored as failed. -/
theorem marks_saveFailedToQueue (hrow : w.row = some row) (reason : String) :
    (saveFailedToQueue gid reason).Ends (exec gid t) w
      (Marks w fun marked w' => marked = some row ∧ w'.NotPending) := by
  refine marks_session (marks_bind (marks_get hrow) ?_) fun _ _ h => h
  rintro found w' ⟨rfl, rfl⟩
  refine marks_bind (marks_flushUpdate hrow) fun _ w₁ hrow₁ => ?_
  refine marks_bind (marks_commit hrow₁ _) fun _ w₂ hmarked => ?_
  refine marks_bind (marks_aside rfl (fun choice r w' h => ?_) (fun _ h => h) (by simp))
    fun _ w₃ hrow₃ => marks_ret ⟨rfl, fun row' hrow' => hmarked row' ?_⟩
  · cases h
    exact ⟨rfl, rfl, rfl⟩
  · rwa [hrow₃] at hrow'

/-- The whole of `_mark_failed_to_queue`. -/
theorem marks_markFailedToQueue (hrow : w.row = some row) (reason : String) :
    (markFailedToQueue gid reason).Ends (exec gid t) w (Marks w fun _ w' => w'.NotPending) := by
  refine marks_bind (marks_saveFailedToQueue hrow reason) ?_
  rintro marked w₁ ⟨rfl, hmarked⟩
  refine marks_bind (marks_aside rfl (fun choice r w' h => ?_) (fun _ h => h) (by simp))
    fun staged w₂ hrow₂ => ?_
  · cases choice <;> cases h <;> exact ⟨rfl, rfl, rfl⟩
  · refine (marks_commitCrm _).mono fun events out w' h => ?_
    obtain ⟨hobject, huploads, hends⟩ := h
    refine ⟨hobject, huploads, hends.imp_left ?_⟩
    rintro ⟨hnone, a, hout, hrow₃⟩
    refine ⟨hnone, a, hout, fun row' hrow' => hmarked row' ?_⟩
    rwa [hrow₃, hrow₂] at hrow'

end Mark

/-! ### The request -/

section Request

variable {w : World S K} {row : GenerationModel S} {key : String} {content : S.Content}

/-- The object is deleted whenever that is asked for. -/
def DeletesGoThrough (events : List (Op S K × Choice S K)) : Prop :=
  ∀ key choice, (.delete key, choice) ∈ events → choice = .ok

/-- An upload that answers well has stored the object. -/
theorem ends_upload : (upload key content).Ends (exec gid t) w fun events out w' =>
    w'.row = w.row ∧ OneCall (.upload key content) events out
      (out = .ok () ∧ w'.object = some (key, content)) True := by
  refine ends_callExcept fun choice r w' hexec => ?_
  rcases oneCall_orLost (o := .upload key content) hexec with ⟨hevents, hout, rfl⟩ |
    ⟨hevents, herror, ⟨rfl, -⟩ | ⟨rfl, -⟩⟩
  · exact ⟨rfl, Or.inl ⟨hevents, hout, rfl⟩⟩
  · exact ⟨rfl, Or.inr ⟨hevents, herror, trivial⟩⟩
  · exact ⟨rfl, Or.inr ⟨hevents, herror, trivial⟩⟩

/-- A publish that answers well has queued the message. -/
theorem ends_publish (subject : String) (data : S.Data) :
    (publish subject data).Ends (exec gid t) w fun events out w' =>
      w'.row = w.row ∧ w'.object = w.object ∧
        OneCall (.publish subject data) events out (out = .ok () ∧ w'.queued = true) True := by
  refine ends_callExcept fun choice r w' hexec => ?_
  rcases oneCall_orLost (o := .publish subject data) hexec with ⟨hevents, hout, rfl⟩ |
    ⟨hevents, herror, ⟨rfl, -⟩ | ⟨rfl, -⟩⟩
  · exact ⟨rfl, rfl, Or.inl ⟨hevents, hout, rfl⟩⟩
  · exact ⟨rfl, rfl, Or.inr ⟨hevents, herror, trivial⟩⟩
  · exact ⟨rfl, rfl, Or.inr ⟨hevents, herror, trivial⟩⟩

/-- Deleting the object, which is gone when the call goes through. -/
theorem ends_bestEffortDelete (hobject : w.object = some (key, content)) :
    (bestEffortDelete key).Ends (exec gid t) w fun events out w' => ∃ choice,
      events = [(.delete key, choice)] ∧ out = .ok () ∧ w'.row = w.row ∧
        (choice = .ok → w'.object = none) := by
  refine ends_ask fun choice r w' hexec => ?_
  cases choice with
  | ok =>
    cases hexec
    refine ⟨.ok, rfl, rfl, rfl, fun _ => ?_⟩
    show w.object.filter (fun stored => stored.1 != key) = none
    rw [hobject]
    simp [Option.filter]
  | fail detail =>
    cases hexec
    exact ⟨.fail detail, rfl, rfl, rfl, fun h => by cases h⟩
  | _ => cases hexec

theorem ends_flushInsert (row : GenerationModel S) :
    (flushInsert row).Ends (exec gid t) w fun events out w' =>
      w' = w ∧ OneCall (.flushInsert row) events out (out = .ok gid) True := by
  refine ends_callExcept fun choice r w' hexec => ?_
  rcases oneCall_orFail (o := .flushInsert row) hexec with ⟨hevents, hdone⟩ |
    ⟨hevents, herror, rfl⟩
  · cases hdone
    exact ⟨rfl, Or.inl ⟨hevents, rfl⟩⟩
  · exact ⟨rfl, Or.inr ⟨hevents, herror, trivial⟩⟩

variable (gid) in
/-- How creating the row ends: committed; or raising, without the row unless its commit took
effect. -/
def Creates (w : World S K) (row : GenerationModel S) (events : List (Op S K × Choice S K))
    (out : Except Exc ℤ) (w' : World S K) : Prop :=
  w'.object = w.object ∧ (∀ event ∈ events, ∀ key content, event.1 ≠ .upload key content) ∧
    ((out = .ok gid ∧ events = [(.flushInsert row, .ok), (.commit (.insert row), .ok)] ∧
        w'.row = some row) ∨
      (∃ e, out = .error e) ∧
        (((∀ event ∈ events, ¬ Slips event) ∧ w'.row = w.row) ∨
          ((∃ event ∈ events, Slips event) ∧ w'.row = some row)))

/-- The row is created, or there is none. -/
theorem ends_createGeneration (row : GenerationModel S) :
    (createGeneration row).Ends (exec gid t) w (Creates gid w row) := by
  refine (ends_flushInsert row).bind (fun events id w₁ hflush => ?_) fun events e w₁ hflush => ?_
  · obtain ⟨rfl, ⟨rfl, hid⟩ | ⟨-, ⟨e, he⟩, -⟩⟩ := hflush
    · cases hid
      refine (ends_commit (.insert row)).bind (fun events out w₂ hcommit => ?_)
        fun events e w₂ hcommit => ?_
      · rcases hcommit with ⟨rfl, -, rfl⟩ | ⟨-, ⟨e, he⟩, -⟩
        · exact ends_ret ⟨rfl, by simp, Or.inl ⟨rfl, rfl, rfl⟩⟩
        · cases he
      · rcases hcommit with ⟨-, he, -⟩ | ⟨-, -, ⟨rfl, detail, rfl⟩ | ⟨rfl, detail, rfl⟩⟩
        · cases he
        · exact ⟨rfl, by simp, Or.inr ⟨⟨e, rfl⟩, Or.inl ⟨by simp [Slips], rfl⟩⟩⟩
        · exact ⟨rfl, by simp, Or.inr ⟨⟨e, rfl⟩, Or.inr ⟨⟨(.commit (.insert row), .lost detail),
            by simp, trivial⟩, rfl⟩⟩⟩
    · cases he
  · obtain ⟨rfl, ⟨-, he⟩ | ⟨⟨choice, hchoice, rfl⟩, -, -⟩⟩ := hflush
    · cases he
    · exact ⟨rfl, by simp, Or.inr ⟨⟨e, rfl⟩, Or.inl ⟨by simp [Slips], rfl⟩⟩⟩

/-- How queueing ends: with the message published; or raising, with the row failed and the object
deleted unless marking the row failed itself. -/
def Queues (w : World S K) (events : List (Op S K × Choice S K)) (out : Except Exc ℤ)
    (w' : World S K) : Prop :=
  (∀ event ∈ events, ∀ key content, event.1 ≠ .upload key content) ∧
    (((∃ id, out = .ok id) ∧ (∃ subject data, (.publish subject data, .ok) ∈ events) ∧
        (∀ event ∈ events, ¬ Slips event) ∧ w'.row = w.row ∧ w'.object = w.object ∧
        w'.queued = true) ∨
      (∃ e, out = .error e) ∧
        (((∀ event ∈ events, ¬ Slips event) ∧ w'.NotPending ∧
            (DeletesGoThrough events → w'.object = none)) ∨
          ((∃ event ∈ events, Slips event) ∧ w'.object = w.object)))

/-- A step aside before the queueing. -/
theorem Queues.cons {w₁ w' : World S K} {events : List (Op S K × Choice S K)}
    {out : Except Exc ℤ} {event : Op S K × Choice S K} (h : Queues w₁ events out w')
    (hrow : w₁.row = w.row) (hobject : w₁.object = w.object)
    (hupload : ∀ key content, event.1 ≠ .upload key content) (hslips : ¬ Slips event) :
    Queues w (event :: events) out w' := by
  obtain ⟨huploads, hends⟩ := h
  rw [hrow, hobject] at hends
  refine ⟨List.forall_mem_cons.mpr ⟨hupload, huploads⟩, hends.imp ?_ (And.imp_right (Or.imp ?_ ?_))⟩
  · rintro ⟨hout, ⟨subject, data, hmem⟩, hnone, hworld⟩
    exact ⟨hout, ⟨subject, data, List.mem_cons_of_mem _ hmem⟩,
      List.forall_mem_cons.mpr ⟨hslips, hnone⟩, hworld⟩
  · rintro ⟨hnone, hnotPending, hgone⟩
    exact ⟨List.forall_mem_cons.mpr ⟨hslips, hnone⟩, hnotPending, fun hdeletes =>
      hgone fun key choice hmem => hdeletes key choice (List.mem_cons_of_mem _ hmem)⟩
  · rintro ⟨⟨slip, hmem, hslip⟩, hkept⟩
    exact ⟨⟨slip, List.mem_cons_of_mem _ hmem, hslip⟩, hkept⟩

/-- The handler of a publish that raised. -/
theorem ends_compensation (hrow : w.row = some row) (hobject : w.object = some (key, content))
    (reason : String) (e : Exc) :
    (do markFailedToQueue gid reason
        bestEffortDelete key
        throw e : Pipeline S K ℤ).Ends (exec gid t) w (Queues w) := by
  refine (marks_markFailedToQueue hrow reason).bind (fun marking a w₁ hmarked => ?_)
    fun marking e' w₁ hmarked => ?_
  · obtain ⟨hkept, huploads, ⟨hnone, -, -, hnotPending⟩ | ⟨-, e', he'⟩⟩ := hmarked
    · refine (ends_bestEffortDelete (hkept.trans hobject)).bind
        (fun deleting _ w₂ hdelete => ends_raise ?_) fun deleting e' w₂ hdelete => ?_
      · obtain ⟨choice, rfl, -, hrow₂, hgone⟩ := hdelete
        rw [List.append_nil]
        refine ⟨?_, Or.inr ⟨⟨e, rfl⟩, Or.inl ⟨?_, ?_, fun hdeletes => hgone ?_⟩⟩⟩
        · exact List.forall_mem_append.mpr ⟨huploads, by simp⟩
        · exact List.forall_mem_append.mpr ⟨hnone, by simp [Slips]⟩
        · intro row' hrow'
          exact hnotPending row' (by rwa [hrow₂] at hrow')
        · exact hdeletes key choice (by simp)
      · obtain ⟨_, -, he, -⟩ := hdelete
        cases he
    · cases he'
  · obtain ⟨hkept, huploads, ⟨-, a, ha, -⟩ | ⟨hslip, -⟩⟩ := hmarked
    · cases ha
    · exact ⟨huploads, Or.inr ⟨⟨e', rfl⟩, Or.inr ⟨hslip, hkept⟩⟩⟩

/-- From the created row on: queued, or marked as failed and the object deleted. -/
theorem ends_queueGeneration (metadata : AlgorithmMetadata S) (hrow : w.row = some row)
    (hobject : w.object = some (key, content)) :
    (queueGeneration metadata gid (bestEffortDelete key)).Ends (exec gid t) w (Queues w) := by
  let event : Event :=
    { type := "generation.requested", version := 1, generationId := some gid }
  have hattempt : (publish metadata.queue (S.encode event)).attempt.Ends (exec gid t) w
      fun events result w₁ => ∃ out, result = .ok out ∧ w₁.row = w.row ∧ w₁.object = w.object ∧
        OneCall (.publish metadata.queue (S.encode event)) events out
          (out = .ok () ∧ w₁.queued = true) True :=
    Ends.attempt ((ends_publish _ _).mono fun events out w₁ h => ⟨out, rfl, h⟩)
  refine hattempt.bind (fun events out w₁ hpublish => ?_) fun events e w₁ hpublish => ?_
  · obtain ⟨_, heq, hrow₁, hobject₁, ⟨rfl, rfl, hqueued⟩ | ⟨⟨choice, hchoice, rfl⟩, ⟨e, rfl⟩, -⟩⟩ :=
      hpublish
    · cases heq
      exact ends_ret ⟨by simp, Or.inl ⟨⟨gid, rfl⟩, ⟨metadata.queue, S.encode event, by simp⟩,
        by simp [Slips], hrow₁, hobject₁, hqueued⟩⟩
    · cases heq
      exact (ends_compensation (hrow₁.trans hrow) (hobject₁.trans hobject) e.str _).mono
        fun events out w' h => h.cons hrow₁ hobject₁ (by simp) fun h => h
  · obtain ⟨_, heq, -⟩ := hpublish
    cases heq

/-- A metric or an audit entry before the queueing. -/
theorem ends_beforeQueueing {α : Type} {o : Op S K} {p : Pipeline S K α} {f : α → Pipeline S K ℤ}
    {result : Resp S K o → α} (hp : p = .call o fun r => .ret (result r))
    (hexec : ∀ choice r w', exec gid t o choice w = some (r, w') →
      w'.object = w.object ∧ w'.row = w.row ∧ w'.queued = w.queued)
    (hslips : ∀ choice, ¬ Slips (o, choice)) (hupload : ∀ key content, o ≠ .upload key content)
    (hf : ∀ a w₁, w₁.row = w.row → w₁.object = w.object →
      (f a).Ends (exec gid t) w₁ (Queues w₁)) :
    (p >>= f).Ends (exec gid t) w (Queues w) := by
  refine (ends_aside hp hexec).bind (fun events a w₁ h => ?_) fun events e w₁ h => ?_
  · obtain ⟨⟨choice, rfl⟩, -, hobject, hrow, -⟩ := h
    exact (hf a w₁ hrow hobject).mono fun events out w' hq =>
      hq.cons hrow hobject hupload (hslips choice)
  · obtain ⟨-, ⟨a, ha⟩, -⟩ := h
    cases ha

/-- The promise, for a run in which the object is deleted when that is asked for. -/
def Promised (events : List (Op S K × Choice S K)) (out : Except Exc ℤ) (w' : World S K) : Prop :=
  DeletesGoThrough events → (LeavesNothing events out w' ↔ ∀ event ∈ events, ¬ Slips event)

/-- A run without a slip that leaves nothing is as promised. -/
theorem promised_of_leavesNothing {events : List (Op S K × Choice S K)} {out : Except Exc ℤ}
    {w' : World S K} (h : DeletesGoThrough events → LeavesNothing events out w')
    (hnone : ∀ event ∈ events, ¬ Slips event) : Promised events out w' :=
  fun hdeletes => ⟨fun _ => hnone, fun _ => h hdeletes⟩

/-- A run with a slip that leaves something is the exception. -/
theorem promised_of_slip {events : List (Op S K × Choice S K)} {out : Except Exc ℤ}
    {w' : World S K} (h : DeletesGoThrough events → ¬ LeavesNothing events out w')
    (hslip : ∃ event ∈ events, Slips event) : Promised events out w' := by
  obtain ⟨event, hmem, hslip⟩ := hslip
  exact fun hdeletes =>
    ⟨fun hleaves => absurd hleaves (h hdeletes), fun hnone => absurd hslip (hnone event hmem)⟩

/-- Queueing, after the upload and the commit of the row. -/
theorem promised_of_queues {w₁ w' : World S K} {events : List (Op S K × Choice S K)}
    {out : Except Exc ℤ} (hpending : row.status = .pending) (hkey : row.fileStorageKey = some key)
    (hrow : w₁.row = some row) (hobject : w₁.object = some (key, content))
    (h : Queues w₁ events out w') :
    Promised ((.upload key content, .ok) ::
      ([(.flushInsert row, .ok), (.commit (.insert row), .ok)] ++ events)) out w' := by
  have hslips : (∀ event ∈ (.upload key content, .ok) ::
      ([(.flushInsert row, .ok), (.commit (.insert row), .ok)] ++ events), ¬ Slips event) ↔
      ∀ event ∈ events, ¬ Slips event := by
    simp [Slips]
  obtain ⟨-, ⟨⟨id, rfl⟩, ⟨subject, data, hmem⟩, hnone, hrow', hobject', hqueued⟩ |
    ⟨⟨e, rfl⟩, ⟨hnone, hnotPending, hgone⟩ | ⟨⟨event, hmem, hslip⟩, hkept⟩⟩⟩ := h
  · refine promised_of_leavesNothing (fun _ => ?_) (hslips.mpr hnone)
    refine ⟨key, content, row, subject, data, ?_, hpending, hkey, hrow'.trans hrow,
      hobject'.trans hobject, hqueued⟩
    exact (((List.singleton_sublist.mpr hmem).cons_cons _).cons _).cons_cons _
  · refine promised_of_leavesNothing (fun hdeletes _ => ⟨hgone fun k choice hmem => ?_, ?_⟩)
      (hslips.mpr hnone)
    · exact hdeletes k choice (by simp [hmem])
    · exact hnotPending
  · refine promised_of_slip (fun _ hclean => ?_) ⟨event, by simp [hmem], hslip⟩
    obtain ⟨hobject', -⟩ := hclean ⟨key, content, by simp⟩
    rw [hkept, hobject] at hobject'
    cases hobject'

/-- Deleting the object after the row could not be created. -/
theorem promised_of_delete {w₁ w' : World S K} {creating : List (Op S K × Choice S K)}
    {choice : Choice S K} {e : Exc} (hpending : row.status = .pending)
    (hends : ((∀ event ∈ creating, ¬ Slips event) ∧ w₁.row = none) ∨
      ((∃ event ∈ creating, Slips event) ∧ w₁.row = some row))
    (hrow : w'.row = w₁.row) (hgone : choice = .ok → w'.object = none) :
    Promised ((.upload key content, .ok) :: (creating ++ [(.delete key, choice)]))
      (.error e) w' := by
  rcases hends with ⟨hnone, hempty⟩ | ⟨⟨event, hmem, hslip⟩, hstays⟩
  · refine promised_of_leavesNothing (fun hdeletes _ => ⟨hgone ?_, ?_⟩) ?_
    · exact hdeletes key choice (by simp)
    · simp [hrow, hempty]
    · refine List.forall_mem_cons.mpr ⟨fun h => h, List.forall_mem_append.mpr ⟨hnone, ?_⟩⟩
      simp [Slips]
  · refine promised_of_slip (fun _ hclean => ?_) ⟨event, by simp [hmem], hslip⟩
    obtain ⟨-, hfailed⟩ := hclean ⟨key, content, by simp⟩
    have hrow' := hfailed row (by rw [hrow, hstays]; rfl)
    rw [hpending] at hrow'
    cases hrow'

/-- The row and what follows it, after the upload. -/
theorem ends_afterUpload {rest : ℤ → Pipeline S K ℤ} (hpending : row.status = .pending)
    (hkey : row.fileStorageKey = some key) (hrow : w.row = none)
    (hobject : w.object = some (key, content))
    (hrest : ∀ w₁ : World S K, w₁.row = some row → w₁.object = some (key, content) →
      (rest gid).Ends (exec gid t) w₁ (Queues w₁)) :
    ((createGeneration row).attempt >>= fun created => match created with
      | .error e => do
          bestEffortDelete key
          throw e
      | .ok generationId => rest generationId).Ends (exec gid t) w fun events out w' =>
        Promised ((.upload key content, .ok) :: events) out w' := by
  have hattempt : (createGeneration row).attempt.Ends (exec gid t) w fun events result w₁ =>
      ∃ out, result = .ok out ∧ Creates gid w row events out w₁ :=
    Ends.attempt ((ends_createGeneration row).mono fun events out w₁ h => ⟨out, rfl, h⟩)
  refine hattempt.bind (fun creating result w₁ hcreate => ?_) fun events e w₁ hcreate => ?_
  · obtain ⟨out, heq, hkept, -, ⟨rfl, rfl, hcreated⟩ | ⟨⟨e, rfl⟩, hends⟩⟩ := hcreate
    · cases heq
      have hobject₁ := hkept.trans hobject
      exact (hrest w₁ hcreated hobject₁).mono fun events out w' h =>
        promised_of_queues hpending hkey hcreated hobject₁ h
    · cases heq
      rw [hrow] at hends
      refine (ends_bestEffortDelete (hkept.trans hobject)).bind
        (fun deleting _ w₂ hdelete => ends_raise ?_) fun deleting e' w₂ hdelete => ?_
      · obtain ⟨choice, rfl, -, hrow₂, hgone⟩ := hdelete
        rw [List.append_nil]
        exact promised_of_delete hpending hends hrow₂ hgone
      · obtain ⟨_, -, he, -⟩ := hdelete
        cases he
  · obtain ⟨_, heq, -⟩ := hcreate
    cases heq

/-- From the upload on. -/
theorem ends_uploadAndQueue (metadata : AlgorithmMetadata S) (req : GenerateRequest S)
    (file : UploadFile S) (communityId : ℤ) (validatedInputs : S.AlgoInput) (fileName : String)
    (hrow : w.row = none) :
    (uploadAndQueue metadata req file communityId validatedInputs fileName).Ends (exec gid t) w
      Promised := by
  have hupload : ∀ key, (upload key file.content).attempt.Ends (exec gid t) w
      fun events result w₁ => ∃ out, result = .ok out ∧ w₁.row = w.row ∧
        OneCall (.upload key file.content) events out
          (out = .ok () ∧ w₁.object = some (key, file.content)) True :=
    fun key => Ends.attempt (ends_upload.mono fun events out w₁ h => ⟨out, rfl, h⟩)
  refine (hupload _).bind (fun uploading result w₁ h => ?_) fun events e w₁ h => ?_
  · obtain ⟨_, heq, hrow₁, ⟨rfl, rfl, hobject⟩ | ⟨⟨choice, hchoice, rfl⟩, ⟨e, rfl⟩, -⟩⟩ := h
    · cases heq
      refine ends_afterUpload rfl rfl (hrow₁.trans hrow) hobject fun w₂ hrow₂ hobject₂ => ?_
      refine ends_beforeQueueing rfl (fun choice r w' h => ?_) (fun _ h => h) (by simp)
        fun _ w₃ hrow₃ hobject₃ => ?_
      · cases h
        exact ⟨rfl, rfl, rfl⟩
      refine ends_beforeQueueing rfl (fun choice r w' h => ?_) (fun _ h => h) (by simp)
        fun _ w₄ hrow₄ hobject₄ => ?_
      · cases choice <;> cases h <;> exact ⟨rfl, rfl, rfl⟩
      exact ends_queueGeneration metadata (hrow₄.trans (hrow₃.trans hrow₂))
        (hobject₄.trans (hobject₃.trans hobject₂))
    · cases heq
      refine ends_raise (promised_of_leavesNothing (fun _ => ?_) (by simp [Slips]))
      rintro ⟨key, content, hmem⟩
      simp only [List.append_nil, List.mem_singleton, Prod.mk.injEq] at hmem
      exact absurd hmem.2.symm hchoice
  · obtain ⟨_, heq, -⟩ := h
    cases heq

/-- The whole request: it leaves something exactly when a step of the marking slips. -/
theorem ends_startGeneration (registry : String → Option (AlgorithmMetadata S))
    (req : GenerateRequest S) (file : UploadFile S) (communityId : ℤ) (hrow : w.row = none) :
    (startGeneration registry req file communityId).Ends (exec gid t) w Promised := by
  have hraise : ∀ e : Exc, (raise e : Pipeline S K ℤ).Ends (exec gid t) w Promised := fun e =>
    ends_raise (promised_of_leavesNothing (fun _ ⟨_, _, hmem⟩ => nomatch hmem) (by simp))
  unfold startGeneration
  cases hreg : registry req.algorithmName with
  | none => exact hraise _
  | some metadata =>
    cases hvalidate : metadata.validate req.inputs with
    | error detail => simp only [hvalidate]; exact hraise _
    | ok validatedInputs =>
      simp only [hvalidate]
      split
      · exact hraise _
      split
      · exact hraise _
      split
      · exact hraise _
      exact ends_uploadAndQueue metadata req file communityId validatedInputs _ hrow

end Request

/-! ### The whole request -/

/-- **A failed start leaves nothing behind, unless marking the row failed fails**: in a request
whose deletions go through, the promise is kept exactly when no step slips. -/
theorem start_leavesNothing_iff {registry : String → Option (AlgorithmMetadata S)}
    {req : GenerateRequest S} {file : UploadFile S} {communityId : ℤ} {w w' : World S K}
    {events : List (Op S K × Choice S K)} {out : Except Exc ℤ} (hrow : w.row = none)
    (hrun : (startGeneration registry req file communityId).Performs (exec gid t) w events out w')
    (hdeletes : DeletesGoThrough events) :
    LeavesNothing events out w' ↔ ∀ event ∈ events, ¬ Slips event :=
  ends_startGeneration registry req file communityId hrow events out w' hrun hdeletes

/-- A request on an empty database. -/
def plainStart : Pipeline plainServices ℕ ℤ :=
  startGeneration plainRegistry ⟨"generation", "brute_force", none, ()⟩ ⟨none, (), "uuid"⟩ 1

/-- A deletion that goes through, or another call. -/
def notLeft : Op plainServices ℕ × Choice plainServices ℕ → Bool
  | (.delete _, .ok) => true
  | (.delete _, _) => false
  | _ => true

theorem deletesGoThrough_of_all {events : List (Op plainServices ℕ × Choice plainServices ℕ)}
    (h : events.all notLeft = true) : DeletesGoThrough events := by
  intro key choice hmem
  have hnot := List.all_eq_true.mp h _ hmem
  cases choice <;> first | rfl | cases hnot

/-- The publish fails, the row is marked as failed and the object deleted. -/
theorem start_leavesNothing_iff_unpublished :
    ∃ events out w', plainStart.Performs (exec 1 0) World.empty events out w' ∧
      (LeavesNothing events out w' ↔ ∀ event ∈ events, ¬ Slips event) := by
  have hplay : (perform (exec 1 0) [.ok, .ok, .ok, .ok, .ok, .fail "no responders", .ok, .ok, .ok,
      .ok, .ok, .ok, .ok, .ok] plainStart World.empty).any
        (fun run => run.1.all notLeft) = true := by
    decide +kernel
  obtain ⟨events, out, w', hrun, hall⟩ := exists_of_perform hplay
  exact ⟨events, out, w', hrun, start_leavesNothing_iff rfl hrun (deletesGoThrough_of_all hall)⟩

/-- The publish fails, the row is marked as failed, and then the audit entry cannot be committed:
the object stays. -/
theorem start_leaves_object :
    ¬ ∀ events out w', plainStart.Performs (exec 1 0) World.empty events out w' →
      DeletesGoThrough events → LeavesNothing events out w' := by
  have hplay : (perform (exec 1 0) [.ok, .ok, .ok, .ok, .ok, .fail "no responders", .ok, .ok, .ok,
      .ok, .ok, .ok, .fail "connection refused"] plainStart World.empty).any (fun run =>
        run.1.all notLeft && run.1.any (fun event => event matches (.upload .., .ok)) &&
          (run.2.1 matches .error _) && run.2.2.object.isSome) = true := by
    decide +kernel
  obtain ⟨events, out, w', hrun, htest⟩ := exists_of_perform hplay
  simp only [Bool.and_eq_true, List.any_eq_true] at htest
  obtain ⟨⟨⟨hall, event, hmem, hupload⟩, hout⟩, hobject⟩ := htest
  intro hpromise
  have hleaves := hpromise events out w' hrun (deletesGoThrough_of_all hall)
  split at hout <;> try cases hout
  split at hupload <;> try cases hupload
  obtain ⟨hgone, -⟩ := hleaves ⟨_, _, hmem⟩
  rw [hgone] at hobject
  cases hobject

end AllocationKeys.Generation
