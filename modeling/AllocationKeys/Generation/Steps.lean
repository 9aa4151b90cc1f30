import AllocationKeys.Generation.Invariant

/-!
# What the changes of the world keep

One lemma for each change a call makes: the invariant holds after it, and the other threads can
rely on what they knew. The commits of an end (`keeps_settle`) and of a deletion (`keeps_remove`)
need the lock on the row, which nobody else can then hold.
-/

namespace AllocationKeys.Generation

open Algorithms Concurrent

variable {S : Services} {K : Type} {gid : ℤ} {t : ℕ} {w : World S K}

/-! ### The lock -/

/-- A release is nothing to the others. -/
theorem rely_release (t : ℕ) {t' : ℕ} (ht : t' ≠ t) (w : World S K) : Rely t' w (w.release t) :=
  { Rely.refl t' w with
    locked := fun hlock => ⟨by
      show (if w.lock = some t then none else w.lock) = some t'
      rw [hlock, if_neg]
      rintro ⟨⟩
      exact ht rfl, rfl⟩ }

/-- A lock that was free is nothing to the others. -/
theorem rely_hold (hfree : w.Free t) {t' : ℕ} (ht : t' ≠ t) :
    Rely t' w { w with lock := some t } :=
  { Rely.refl t' w with
    locked := fun hlock => by
      rcases hfree with hnone | hsome
      · rw [hnone] at hlock
        cases hlock
      · rw [hsome] at hlock
        cases hlock
        exact absurd rfl ht }

variable [Zero K] [Add K]

theorem keeps_refl (h : Inv gid w) : (discipline S K gid).Keeps t w w :=
  ⟨h, fun t' _ => Rely.refl t' w⟩

theorem keeps_trans {w₁ w₂ w₃ : World S K} (h : (discipline S K gid).Keeps t w₁ w₂)
    (h' : (discipline S K gid).Keeps t w₂ w₃) : (discipline S K gid).Keeps t w₁ w₃ :=
  ⟨h'.1, fun t' ht => (h.2 t' ht).trans (h'.2 t' ht)⟩

/-- A transaction may end at any time. -/
theorem keeps_release (t : ℕ) (h : Inv gid w) : (discipline S K gid).Keeps t w (w.release t) := by
  refine ⟨{ h with lock := fun t' hlock => ?_ }, fun t' ht => rely_release t ht w⟩
  have hlock : (if w.lock = some t then none else w.lock) = some t' := hlock
  split at hlock
  · cases hlock
  · exact h.lock t' hlock

/-- A free lock may be taken. -/
theorem keeps_hold (h : Inv gid w) (hfree : w.Free t) (hrow : w.row ≠ none) :
    (discipline S K gid).Keeps t w { w with lock := some t } :=
  ⟨{ h with lock := fun _ _ => hrow }, fun _ ht => rely_hold hfree ht⟩

/-! ### Announcements -/

/-- What thread `t` has to say of a commit it made. -/
def Flipped (t : ℕ) (status : GenerationStatus) (w : World S K) : Prop :=
  ∃ o ∈ w.history, o.thread = t ∧ o.status = status

/-- The metric of the thread that ended the generation. -/
theorem keeps_complete (h : Inv gid w) {status : GenerationStatus} (hflipped : Flipped t status w)
    (hnew : t ∉ w.completions.map Prod.fst) (algorithm : String) :
    (discipline S K gid).Keeps t w
      { w with completions := (t, algorithm, status.text) :: w.completions } := by
  obtain ⟨o, ho, hthread, rfl⟩ := hflipped
  refine ⟨{ h with completions := h.completions.cons ⟨o, ho, hthread, rfl⟩ hnew }, fun t' ht => ?_⟩
  exact { Rely.refl t' w with
    completions := fun hnot => by
      rw [List.map_cons, List.mem_cons]
      exact not_or.mpr ⟨ht, hnot⟩ }

/-- Its event. -/
theorem keeps_emit (h : Inv gid w) {status : GenerationStatus} (hflipped : Flipped t status w)
    (hnew : t ∉ w.events.map Prod.fst) {event : RealtimeEvent} (hevent : event.hint = status.text) :
    (discipline S K gid).Keeps t w { w with events := (t, event) :: w.events } := by
  obtain ⟨o, ho, hthread, rfl⟩ := hflipped
  refine ⟨{ h with events := h.events.cons ⟨o, ho, hthread, hevent⟩ hnew }, fun t' ht => ?_⟩
  exact { Rely.refl t' w with
    events := fun hnot => by
      rw [List.map_cons, List.mem_cons]
      exact not_or.mpr ⟨ht, hnot⟩ }

/-- Its audit entry. -/
theorem keeps_audit (h : Inv gid w) {status : GenerationStatus} (hflipped : Flipped t status w)
    (hnew : t ∉ w.audits.map Prod.fst) {entry : AuditLogInput} (hentry : entry.Tells status) :
    (discipline S K gid).Keeps t w { w with audits := (t, entry) :: w.audits } := by
  obtain ⟨o, ho, hthread, rfl⟩ := hflipped
  refine ⟨{ h with audits := h.audits.cons ⟨o, ho, hthread, hentry⟩ hnew }, fun t' ht => ?_⟩
  exact { Rely.refl t' w with
    audits := fun hnot => by
      rw [List.map_cons, List.mem_cons]
      exact not_or.mpr ⟨ht, hnot⟩ }

/-- A result of the algorithm may be noted at any time. -/
theorem keeps_solved (h : Inv gid w) (result : AlgorithmResult K) :
    (discipline S K gid).Keeps t w { w with solved := (t, result) :: w.solved } := by
  refine ⟨{ h with ends := fun o ho => ?_ }, fun t' _ => ?_⟩
  · obtain ⟨hfinal, hfailed, hsuccess⟩ := h.ends o ho
    refine ⟨hfinal, hfailed, fun hstatus => ?_⟩
    obtain ⟨hmessage, result', hmem, hkeys⟩ := hsuccess hstatus
    exact ⟨hmessage, result', List.mem_cons_of_mem _ hmem, hkeys⟩
  · exact { Rely.refl t' w with solved := List.subset_cons_self _ _ }

/-! ### The object and the message -/

/-- The creator may upload before the message is queued. -/
theorem keeps_upload (h : Inv gid w) (hqueued : w.queued = false) (hcreator : w.creator = some t)
    (object : Option (String × S.Content)) :
    (discipline S K gid).Keeps t w { w with object := object } := by
  refine ⟨{ h with queued := fun htrue => ?_ }, fun t' ht => ?_⟩
  · have htrue : w.queued = true := htrue
    rw [hqueued] at htrue
    cases htrue
  · refine { Rely.refl t' w with creating := fun hcreator' => ?_ }
    rw [hcreator] at hcreator'
    cases hcreator'
    exact absurd rfl ht

/-- Of a settled generation the object may go. -/
theorem keeps_delete (h : Inv gid w) (hsettled : w.Settled)
    (hqueued : w.queued = true ∨ w.creator = some t) (object : Option (String × S.Content)) :
    (discipline S K gid).Keeps t w { w with object := object } := by
  refine ⟨{ h with queued := fun _ => Or.inl hsettled }, fun t' ht => ?_⟩
  refine { Rely.refl t' w with creating := fun hcreator' => ?_ }
  rcases hqueued with htrue | hcreator
  · refine ⟨hcreator', fun hfalse => ?_, id⟩
    rw [htrue] at hfalse
    cases hfalse
  · rw [hcreator] at hcreator'
    cases hcreator'
    exact absurd rfl ht

/-- It may queue the message once the row and its object are in place. -/
theorem keeps_enqueue (h : Inv gid w) (hcreated : w.created = true)
    (hplace : w.Settled ∨ w.InPlace) (hcreator : w.creator = some t) :
    (discipline S K gid).Keeps t w { w with queued := true } := by
  refine ⟨{ h with uncreated := fun hfalse => ?_, queued := fun _ => hplace }, fun t' ht => ?_⟩
  · have hfalse : w.created = false := hfalse
    rw [hcreated] at hfalse
    cases hfalse
  · refine { Rely.refl t' w with queued := fun _ => rfl, creating := fun hcreator' => ?_ }
    rw [hcreator] at hcreator'
    cases hcreator'
    exact absurd rfl ht

/-! ### The row -/

/-- A generation is created by one request. -/
theorem keeps_claimCreation (h : Inv gid w) (hcreator : w.creator = none) :
    (discipline S K gid).Keeps t w { w with creator := some t } := by
  refine ⟨{ h with }, fun t' _ => ?_⟩
  refine { Rely.refl t' w with creating := fun hcreator' => ?_ }
  rw [hcreator] at hcreator'
  cases hcreator'

omit [Zero K] [Add K] in
/-- A status is no change of what a generation is of. -/
theorem GenerationModel.Same.update {model row : GenerationModel S} (h : model.Same row)
    (status : GenerationStatus) (errorMessage : Option String) :
    model.Same { row with status := status, errorMessage := errorMessage } := by
  rw [GenerationModel.Same] at h ⊢
  rw [h]

/-- Nor of how it has ended. -/
theorem Ends.update {row : GenerationModel S} {solved : List (ℕ × AlgorithmResult K)}
    {o : Outcome K} (h : Ends gid (some row) solved o) (status : GenerationStatus)
    (errorMessage : Option String) :
    Ends gid (some { row with status := status, errorMessage := errorMessage }) solved o := by
  refine ⟨h.final, h.failed, fun hsuccess => ?_⟩
  obtain ⟨hmessage, result, hmem, hkeys⟩ := h.success hsuccess
  refine ⟨hmessage, result, hmem, fun row' hrow' => ?_⟩
  cases hrow'
  exact hkeys row rfl

omit [Zero K] [Add K] in
/-- The world after an outcome. -/
theorem settle_eq {w : World S K} {row : GenerationModel S} (hrow : w.row = some row)
    (status : GenerationStatus) (errorMessage : Option String)
    (keys : List (AllocationKeyGeneratedModel K)) :
    w.settle t status errorMessage keys =
      { w with
        row := some { row with status := status, errorMessage := errorMessage }
        results := w.results ++ keys.mapIdx fun i key => (w.nextKeyId + i, key)
        nextKeyId := w.nextKeyId + keys.length
        history := ⟨t, row.status, status, errorMessage, keys⟩ :: w.history } := by
  rw [World.settle, hrow]

/-- Only a locked row changes its status, to a final one, with the result rows that go with it. -/
theorem keeps_settle (h : Inv gid w) (hlock : w.lock = some t) {row : GenerationModel S}
    (hrow : w.row = some row) {status : GenerationStatus} {errorMessage : Option String}
    {keys : List (AllocationKeyGeneratedModel K)}
    (hends : Ends gid w.row w.solved ⟨t, row.status, status, errorMessage, keys⟩) :
    (discipline S K gid).Keeps t w (w.settle t status errorMessage keys) := by
  -- a row that is there was created
  have hcreated : w.created = true := by
    by_contra hfalse
    have hnone := (h.uncreated (Bool.not_eq_true _ ▸ hfalse)).1
    rw [hrow] at hnone
    cases hnone
  rw [settle_eq hrow]
  have hsettled : World.Settled
      { w with
        row := some { row with status := status, errorMessage := errorMessage }
        results := w.results ++ keys.mapIdx fun i key => (w.nextKeyId + i, key)
        nextKeyId := w.nextKeyId + keys.length
        history := ⟨t, row.status, status, errorMessage, keys⟩ :: w.history } :=
    Or.inl ⟨_, rfl, hends.final⟩
  constructor
  · refine
      { lock := fun _ _ => by simp
        uncreated := fun hfalse => ?_
        gone := fun hgone => ?_
        queued := fun _ => Or.inl hsettled
        current := fun row' hrow' => ?_
        ends := fun o ho => ?_
        later := fun o ho => ?_
        empty := fun hnone => ?_
        owned := fun key hkey => ?_
        complete := fun _ hkept => ?_
        completions := h.completions.grow _
        audits := h.audits.grow _
        events := h.events.grow _ }
    · -- before the creation there is no row, so no outcome is written
      have hfalse : w.created = false := hfalse
      rw [hcreated] at hfalse
      cases hfalse
    · cases hgone.2
    · cases hrow'
      exact ⟨rfl, rfl⟩
    · -- the new end, and the earlier ones with the row as it is now
      have hends' : Ends gid (some row) w.solved o := by
        rw [← hrow]
        rcases List.mem_cons.mp ho with rfl | ho
        · exact hends
        · exact h.ends o ho
      exact hends'.update status errorMessage
    · -- an earlier end left a final status
      rcases hhistory : w.history with _ | ⟨last, earlier⟩
      · rw [hhistory] at ho
        cases ho
      · rw [hhistory, List.dropLast_cons_cons] at ho
        rcases List.mem_cons.mp ho with rfl | ho
        · have hcurrent := h.current row hrow
          rw [hhistory] at hcurrent
          show row.status ≠ .pending
          rw [hcurrent.1]
          exact (h.ends last (by rw [hhistory]; exact List.mem_cons_self ..)).final
        · exact h.later o (by rw [hhistory]; exact ho)
    · cases hnone
    · -- a new row of a key is of this end, an old one of the end it was of
      rcases List.mem_append.mp hkey with hkey | hkey
      · obtain ⟨o, ho, hmem⟩ := h.owned key hkey
        exact ⟨o, List.mem_cons_of_mem _ ho, hmem⟩
      · obtain ⟨i, hi, rfl⟩ := List.mem_mapIdx.mp hkey
        exact ⟨_, List.mem_cons_self .., List.getElem_mem hi⟩
    · -- as long as the user deletes nothing, the rows are those of all ends
      have hcomplete := h.complete (by rw [hrow]; simp) hkept
      have hkeys : (keys.mapIdx fun i key => (w.nextKeyId + i, key)).map Prod.snd = keys := by
        apply List.ext_getElem <;> simp
      rw [List.map_append, hcomplete, hkeys, List.reverse_cons, List.flatMap_append]
      simp
  · -- what the other threads rely on: none of them holds the lock
    intro t' ht
    exact
      { settled := fun _ => hsettled
        queued := id
        created := id
        gone := fun hgone => by rw [World.Gone, hrow] at hgone; cases hgone.2
        known := fun model hknown => ⟨hknown.1, fun row' hrow' => by
          cases hrow'
          exact (hknown.2 row hrow).update status errorMessage⟩
        locked := fun hlock' => by rw [hlock] at hlock'; cases hlock'; exact absurd rfl ht
        history := List.suffix_cons _ _
        solved := List.Subset.refl _
        completions := id
        audits := id
        events := id
        creating := fun hcreator => ⟨hcreator, fun hfalse => ⟨hfalse, rfl⟩, id⟩ }

/-- The user's deletion. -/
theorem keeps_remove (h : Inv gid w) (hlock : w.lock = some t ∨ w.row = none) :
    (discipline S K gid).Keeps t w (World.release t w.remove) := by
  -- without a row there is nothing to delete
  rcases hrow : w.row with _ | row
  · rw [World.remove, hrow]
    exact keeps_release t h
  have hlock : w.lock = some t := by
    rcases hlock with hlock | hnone
    · exact hlock
    · rw [hrow] at hnone
      cases hnone
  have hcreated : w.created = true := by
    by_contra hfalse
    have hnone := (h.uncreated (Bool.not_eq_true _ ▸ hfalse)).1
    rw [hrow] at hnone
    cases hnone
  have hremove : World.release t w.remove =
      { w with row := none, results := [], deletedByUser := true, lock := none } := by
    rw [World.remove, hrow]
    simp only [World.release, hlock, if_true]
  rw [hremove]
  constructor
  · refine
      { lock := fun t' hlock' => by cases hlock'
        uncreated := fun hfalse => ?_
        gone := fun _ => rfl
        queued := fun _ => Or.inl (Or.inr ⟨rfl, rfl⟩)
        current := fun row' hrow' => by cases hrow'
        ends := fun o ho => ?_
        later := h.later
        empty := fun _ => rfl
        owned := fun key hkey => by cases hkey
        complete := fun hne => absurd rfl hne
        completions := h.completions
        audits := h.audits
        events := h.events }
    · have hfalse : w.created = false := hfalse
      rw [hcreated] at hfalse
      cases hfalse
    · -- the ends remain, and there is no row they speak of
      obtain ⟨hfinal, hfailed, hsuccess⟩ := h.ends o ho
      refine ⟨hfinal, hfailed, fun hstatus => ?_⟩
      obtain ⟨hmessage, result, hmem, -⟩ := hsuccess hstatus
      exact ⟨hmessage, result, hmem, fun row' hrow' => by cases hrow'⟩
  · -- what the other threads rely on
    intro t' ht
    exact
      { settled := fun _ => Or.inr ⟨rfl, rfl⟩
        queued := id
        created := id
        gone := fun _ => ⟨hcreated, rfl⟩
        known := fun model hknown => ⟨hknown.1, fun row' hrow' => by cases hrow'⟩
        locked := fun hlock' => by rw [hlock] at hlock'; cases hlock'; exact absurd rfl ht
        history := List.suffix_rfl
        solved := List.Subset.refl _
        completions := id
        audits := id
        events := id
        creating := fun hcreator => ⟨hcreator, fun hfalse => ⟨hfalse, rfl⟩, id⟩ }

/-- The user's deletion of a key. -/
theorem keeps_removeKey (h : Inv gid w) (id_ : ℕ) :
    (discipline S K gid).Keeps t w (w.removeKey id_) := by
  rw [World.removeKey]
  split
  · refine ⟨{ h with
      empty := fun hnone => ?_
      owned := fun key hkey => h.owned key (List.mem_of_mem_filter hkey)
      complete := fun _ hkept => by cases hkept }, fun t' _ => { Rely.refl t' w with }⟩
    show w.results.filter _ = []
    rw [h.empty hnone, List.filter_nil]
  · exact keeps_refl h

/-- The commit of a new generation. -/
theorem keeps_insert (h : Inv gid w) (hcreated : w.created = false) (hcreator : w.creator = some t)
    {row : GenerationModel S} (hpending : row.status = .pending)
    (hmessage : row.errorMessage = none) :
    (discipline S K gid).Keeps t w { w with row := some row, created := true } := by
  -- nothing has happened yet to a row that is not created
  obtain ⟨hrow, hqueued, hdeleted, hhistory⟩ := h.uncreated hcreated
  constructor
  · refine { h with
      lock := fun _ _ => by simp
      uncreated := fun hfalse => by cases hfalse
      gone := fun hgone => by cases hgone.2
      queued := fun htrue => ?_
      current := fun row' hrow' => ?_
      ends := fun o ho => ?_
      empty := fun hnone => by cases hnone
      complete := fun _ hkept => ?_ }
    · have htrue : w.queued = true := htrue
      rw [hqueued] at htrue
      cases htrue
    · cases hrow'
      show Current row w.history
      rw [hhistory]
      exact ⟨hpending, hmessage⟩
    · have ho : o ∈ w.history := ho
      rw [hhistory] at ho
      cases ho
    · show w.results.map Prod.snd = w.history.reverse.flatMap Outcome.keys
      rw [h.empty hrow, hhistory]
      rfl
  · -- no other thread knows the row
    intro t' ht
    refine { Rely.refl t' w with
      settled := fun hsettled => ?_
      created := fun _ => rfl
      gone := fun hgone => ?_
      known := fun model hknown => ?_
      locked := fun hlock => absurd hrow (h.lock t' hlock)
      creating := fun hcreator' => ?_ }
    · rcases hsettled with ⟨row', hrow', -⟩ | ⟨-, htrue⟩
      · rw [hrow] at hrow'
        cases hrow'
      · rw [hdeleted] at htrue
        cases htrue
    · have hfalse := hgone.1
      rw [hcreated] at hfalse
      cases hfalse
    · have hfalse := hknown.1
      rw [hcreated] at hfalse
      cases hfalse
    · rw [hcreator] at hcreator'
      cases hcreator'
      exact absurd rfl ht

end AllocationKeys.Generation
