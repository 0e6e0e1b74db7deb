import Feather.Async.System
import Feather.Sync.Record

/-!
# Pushing the records of a package

`_push` splits the records into chunks and hands each to an operation of its own.  They answer in
any order; their callbacks share the accumulators, the dispatch group and the flag
`completionHandlerCalled`.

The callback of every operation that succeeds calls the completion handler itself.  The
notification, which reports everything, is registered only while none has succeeded.
-/

namespace Feather.Sync

open Async List Group

/-- The chunks cut off one after another, at most `fuel` of them. -/
def chunksAux {α : Type} (distance : ℕ) : ℕ → List α → List (List α)
  | 0, _ => []
  | _ + 1, [] => []
  | fuel + 1, x :: l =>
    (x :: l).take distance :: chunksAux distance fuel ((x :: l).drop distance)

/-- `chunks(withDistance:)`.  There are no more chunks than elements. -/
def chunks {α : Type} (distance : ℕ) (l : List α) : List (List α) :=
  chunksAux distance l.length l

section

variable {α : Type} {distance : ℕ}

theorem length_drop_le (hd : 0 < distance) {fuel : ℕ} {x : α} {l : List α}
    (h : (x :: l).length ≤ fuel + 1) : ((x :: l).drop distance).length ≤ fuel := by
  rw [length_drop]
  omega

theorem flatten_chunksAux (hd : 0 < distance) (fuel : ℕ) (l : List α) (h : l.length ≤ fuel) :
    (chunksAux distance fuel l).flatten = l := by
  induction fuel generalizing l with
  | zero =>
    rw [length_eq_zero_iff.1 (Nat.le_zero.1 h)]
    rfl
  | succ fuel ih =>
    cases l with
    | nil => rfl
    | cons x l =>
      rw [chunksAux, flatten_cons, ih _ (length_drop_le hd h), take_append_drop]

theorem flatten_chunks (hd : 0 < distance) (l : List α) : (chunks distance l).flatten = l :=
  flatten_chunksAux hd l.length l le_rfl

end

variable {ε : Type}

/-- The error of an operation, with those of the single records. -/
structure OperationError (ε : Type) where
  error : ε
  partialErrorsByItemID : Option (List (RecordID × ε))

/-- What `modifyRecordsCompletionBlock` is called with. -/
structure Response (ε : Type) where
  savedRecords : Option (List Record)
  deletedRecordIDs : Option (List RecordID)
  error : Option (OperationError ε)

namespace Response

/-- There was no error. -/
def succeeded (r : Response ε) : Bool := r.error.isNone

/-- The records that the operation saved. -/
def saved (r : Response ε) : List Record := r.savedRecords.getD []

/-- The failures of single records. -/
def partialErrors (r : Response ε) : List (RecordID × ε) :=
  (r.error.bind OperationError.partialErrorsByItemID).getD []

/-- The failure of the whole operation. -/
def completeErrors (r : Response ε) : List ε :=
  match r.error with
  | some ⟨error, none⟩ => [error]
  | _ => []

/-- Single failures are those of records of the chunk. -/
def answers (r : Response ε) (chunk : List Record) : Bool :=
  r.partialErrors.all fun p => (chunk.map Record.recordID).contains p.1

end Response

/-- The arguments of `PushCompletionHandler`. -/
structure PushCompletion (ε : Type) where
  savedRecords : List Record
  saveFailures : Option (List (Record × ε))
  deletedRecordIDs : List RecordID
  completeFailures : Option (List ε)

/-- An operation that has answered. -/
structure Finished (ε : Type) where
  chunk : List Record
  response : Response ε

/-- What is seen of a push. -/
inductive Observation (ε : Type)
  | finished (f : Finished ε)
  | called (completion : PushCompletion ε)

/-- A push, with the variables of its callbacks. -/
structure Push (ε : Type) where
  recordsMap : Dictionary RecordID Record
  unsubmitted : List (List Record)
  inFlight : List (List Record)
  loopDone : Bool
  grp : Group
  allSuccessfulSaves : List Record
  allFailedSaves : List (Record × ε)
  allSuccessfulDeletions : List RecordID
  completeFailures : List ε
  completionHandlerCalled : Bool
  history : List (Observation ε)

/-- What happens to a push. -/
inductive PushEvent (ε : Type)
  /-- The loop hands the next chunk to an operation. -/
  | submit
  /-- The operation number `k` of those that have not answered answers. -/
  | completed (k : ℕ) (response : Response ε)
  /-- The loop is over and `completionHandlerCalled` is looked at. -/
  | check
  /-- The notification of the group runs. -/
  | notify

namespace Push

/-- The state when the loop of `_push` begins. -/
def start (records : List Record) : Push ε where
  recordsMap := Dictionary.withPairs (records.map fun r => (r.recordID, r))
  unsubmitted := chunks 100 records
  inFlight := []
  loopDone := false
  grp := new
  allSuccessfulSaves := []
  allFailedSaves := []
  allSuccessfulDeletions := []
  completeFailures := []
  completionHandlerCalled := false
  history := []

/-- The handler is called. -/
def completionHandler (completion : PushCompletion ε) (p : Push ε) : Push ε :=
  { p with history := p.history ++ [.called completion] }

/-- The failed saves that are reported: those of records that were to be pushed. -/
def failedSaves (recordsMap : Dictionary RecordID Record) (errors : List (RecordID × ε)) :
    List (Record × ε) :=
  errors.filterMap fun x => (recordsMap.lookup x.1).map fun record => (record, x.2)

/-- The callback of the operation for a chunk. -/
def modifyRecordsCompletionBlock (response : Response ε) (p : Push ε) : Push ε :=
  match response.error with
  | none =>
    let saved := { p with
      allSuccessfulSaves := p.allSuccessfulSaves ++ response.savedRecords.getD []
      allSuccessfulDeletions := p.allSuccessfulDeletions ++ response.deletedRecordIDs.getD [] }
    let called := saved.completionHandler
      ⟨response.savedRecords.getD [], none, response.deletedRecordIDs.getD [], none⟩
    { called with completionHandlerCalled := true, grp := called.grp.leave }
  | some err =>
    match err.partialErrorsByItemID with
    | some errors =>
      -- the records that this operation did save are not looked at
      { p with
        allFailedSaves := p.allFailedSaves ++ failedSaves p.recordsMap errors
        grp := p.grp.leave }
    | none =>
      { p with
        completeFailures := p.completeFailures ++ [err.error]
        grp := p.grp.leave }

/-- The block given to the notification of the group. -/
def total (p : Push ε) : PushCompletion ε where
  savedRecords := p.allSuccessfulSaves
  saveFailures := some p.allFailedSaves
  deletedRecordIDs := p.allSuccessfulDeletions
  completeFailures := if p.completeFailures = [] then none else some p.completeFailures

/-- One event. -/
def step : PushEvent ε → Push ε → Option (Push ε)
  | .submit, p =>
    match p.unsubmitted with
    | [] => none
    | chunk :: rest => some { p with
        unsubmitted := rest
        inFlight := p.inFlight ++ [chunk]
        grp := p.grp.enter }
  | .completed k response, p =>
    match p.inFlight[k]? with
    | none => none
    | some chunk =>
      if response.answers chunk then
        some (modifyRecordsCompletionBlock response { p with
          inFlight := p.inFlight.eraseIdx k
          history := p.history ++ [.finished ⟨chunk, response⟩] })
      else
        none
  | .check, p =>
    if p.unsubmitted = [] ∧ p.loopDone = false then
      some { p with
        loopDone := true
        grp := if p.completionHandlerCalled then p.grp else p.grp.await }
    else
      none
  | .notify, p =>
    if p.grp.ready then
      some ({ p with grp := p.grp.notify }.completionHandler p.total)
    else
      none

/-! ### What a callback does -/

/-- What the callback of a successful operation hands to the completion handler. -/
def direct (response : Response ε) : PushCompletion ε :=
  ⟨response.saved, none, response.deletedRecordIDs.getD [], none⟩

/-- What the callback adds to the successful saves. -/
def reportedSaves (response : Response ε) : List Record :=
  if response.succeeded then response.saved else []

def reportedCalls (response : Response ε) : List (Observation ε) :=
  if response.succeeded then [.called (direct response)] else []

/-- The three branches of the callback as one equation. -/
theorem modifyRecordsCompletionBlock_eq (response : Response ε) (p : Push ε) :
    modifyRecordsCompletionBlock response p = { p with
      allSuccessfulSaves := p.allSuccessfulSaves ++ reportedSaves response
      allFailedSaves := p.allFailedSaves ++ failedSaves p.recordsMap response.partialErrors
      allSuccessfulDeletions := p.allSuccessfulDeletions ++
        if response.succeeded then response.deletedRecordIDs.getD [] else []
      completeFailures := p.completeFailures ++ response.completeErrors
      completionHandlerCalled := p.completionHandlerCalled || response.succeeded
      grp := p.grp.leave
      history := p.history ++ reportedCalls response } := by
  obtain ⟨saved, deleted, error⟩ := response
  rcases error with _ | ⟨error, _ | errors⟩ <;>
    simp [modifyRecordsCompletionBlock, reportedSaves, reportedCalls, direct, completionHandler,
      Response.succeeded, Response.saved, Response.partialErrors, Response.completeErrors,
      failedSaves]

/-! ### A whole push -/

end Push

namespace PushEvent

def response? : PushEvent ε → Option (Response ε)
  | completed _ response => some response
  | _ => none

/-- The loop is over. -/
def isCheck : PushEvent ε → Bool
  | check => true
  | _ => false

/-- An operation answers that it has succeeded. -/
def succeeds (e : PushEvent ε) : Bool := e.response?.any Response.succeeded

end PushEvent

/-- The answers of the operations, in the order in which they arrive. -/
def responses (schedule : List (PushEvent ε)) : List (Response ε) :=
  schedule.filterMap PushEvent.response?

/-- Some operation has succeeded before the loop is over. -/
def successBeforeCheck : List (PushEvent ε) → Bool
  | [] => false
  | e :: rest => !e.isCheck && (e.succeeds || successBeforeCheck rest)

theorem responses_concat (past : List (PushEvent ε)) (e : PushEvent ε) :
    responses (past ++ [e]) = responses past ++ e.response?.toList := by
  unfold responses
  cases h : e.response? <;> simp [h]

attribute [local simp] PushEvent.isCheck PushEvent.succeeds PushEvent.response?

theorem successBeforeCheck_concat (past : List (PushEvent ε)) (e : PushEvent ε) :
    successBeforeCheck (past ++ [e]) =
      (successBeforeCheck past || (!past.any PushEvent.isCheck && e.succeeds)) := by
  induction past with
  | nil => cases e <;> simp [successBeforeCheck]
  | cons e' past ih =>
    rw [cons_append, successBeforeCheck, successBeforeCheck, ih, any_cons]
    cases e'.isCheck <;> simp [Bool.or_assoc]

theorem successBeforeCheck_eq_any {past : List (PushEvent ε)}
    (h : past.any PushEvent.isCheck = false) :
    successBeforeCheck past = (responses past).any Response.succeeded := by
  induction past with
  | nil => rfl
  | cons e past ih =>
    rw [any_cons, Bool.or_eq_false_iff] at h
    rw [successBeforeCheck, ih h.2, h.1]
    cases e <;> simp [responses]

namespace Push

/-- The invariant of a push after the events `past`, with the answers `done`. -/
structure Tracks (records : List Record) (past : List (PushEvent ε)) (done : List (Finished ε))
    (p : Push ε) : Prop where
  recordsMap : p.recordsMap = (start records : Push ε).recordsMap
  answered : done.map Finished.response = responses past
  answers : ∀ f ∈ done, f.response.answers f.chunk
  split : (done.map Finished.chunk ++ p.inFlight ++ p.unsubmitted).Perm (chunks 100 records)
  saves : p.allSuccessfulSaves = done.flatMap fun f => reportedSaves f.response
  failures : p.allFailedSaves =
    failedSaves p.recordsMap (done.flatMap fun f => f.response.partialErrors)
  completeFailures : p.completeFailures = done.flatMap fun f => f.response.completeErrors
  called : p.completionHandlerCalled = done.any fun f => f.response.succeeded
  entered : p.grp.entered = p.grp.left + p.inFlight.length
  history : p.history =
    (done.flatMap fun f => .finished f :: reportedCalls f.response) ++
      if p.grp.notified then [.called p.total] else []
  loopDone : p.loopDone = past.any PushEvent.isCheck
  submitted : p.loopDone = true → p.unsubmitted = []
  awaited : p.grp.awaited = (p.loopDone && !successBeforeCheck past)
  notified : p.grp.notified = true → p.grp.awaited = true ∧ p.inFlight = []

theorem tracks_start (records : List Record) :
    Tracks records [] [] (start records : Push ε) where
  recordsMap := rfl
  answered := rfl
  answers := by simp
  split := List.Perm.refl _
  saves := rfl
  failures := rfl
  completeFailures := rfl
  called := rfl
  entered := rfl
  history := rfl
  loopDone := rfl
  submitted := by simp [start]
  awaited := rfl
  notified := by simp [start, new]

section

variable {records : List Record} {past : List (PushEvent ε)} {done : List (Finished ε)}
  {p p' : Push ε}

theorem step_submit (h : step .submit p = some p') :
    ∃ chunk rest, p.unsubmitted = chunk :: rest ∧ p' = { p with
      unsubmitted := rest
      inFlight := p.inFlight ++ [chunk]
      grp := p.grp.enter } := by
  simp only [step] at h
  split at h
  · cases h
  · next chunk rest hu => exact ⟨chunk, rest, hu, (Option.some.inj h).symm⟩

theorem step_completed {k : ℕ} {response : Response ε} (h : step (.completed k response) p = some p') :
    ∃ chunk, p.inFlight[k]? = some chunk ∧ response.answers chunk ∧
      p' = modifyRecordsCompletionBlock response { p with
        inFlight := p.inFlight.eraseIdx k
        history := p.history ++ [.finished ⟨chunk, response⟩] } := by
  simp only [step] at h
  split at h
  · cases h
  · next chunk hk =>
    split at h
    · next ha => exact ⟨chunk, hk, ha, (Option.some.inj h).symm⟩
    · cases h

theorem step_check (h : step .check p = some p') :
    (p.unsubmitted = [] ∧ p.loopDone = false) ∧ p' = { p with
      loopDone := true
      grp := if p.completionHandlerCalled then p.grp else p.grp.await } := by
  simp only [step] at h
  split at h
  · next hc => exact ⟨hc, (Option.some.inj h).symm⟩
  · cases h

theorem step_notify (h : step .notify p = some p') :
    p.grp.ready ∧ p' = { p with grp := p.grp.notify }.completionHandler p.total := by
  simp only [step] at h
  split at h
  · next hr => exact ⟨hr, (Option.some.inj h).symm⟩
  · cases h

theorem Tracks.loop_of_unsubmitted (h : Tracks records past done p) (hu : p.unsubmitted ≠ []) :
    p.loopDone = false := by
  by_contra hl
  exact hu (h.submitted (by simpa using hl))

theorem Tracks.notified_false (h : Tracks records past done p) (hl : p.loopDone = false) :
    p.grp.notified = false := by
  by_contra hn
  have hawa := (h.notified (by simpa using hn)).1
  rw [h.awaited, hl] at hawa
  cases hawa

theorem Tracks.submit (h : Tracks records past done p) (hstep : step .submit p = some p') :
    Tracks records (past ++ [.submit]) done p' := by
  obtain ⟨chunk, rest, hu, rfl⟩ := step_submit hstep
  have hl := h.loop_of_unsubmitted (by simp [hu])
  have hn := h.notified_false hl
  exact { h with
    answered := by rw [h.answered, responses_concat]; simp
    split := by simpa [hu] using h.split
    entered := by
      have := h.entered
      simp only [enter, length_append, length_singleton]
      omega
    loopDone := by rw [h.loopDone]; simp
    submitted := by simp [hl]
    awaited := by
      rw [successBeforeCheck_concat]
      simpa [enter] using h.awaited
    notified := by simp [enter, hn] }

theorem Tracks.notified_false_of_inFlight (h : Tracks records past done p)
    (hf : p.inFlight ≠ []) : p.grp.notified = false := by
  by_contra hn
  exact hf (h.notified (by simpa using hn)).2

theorem Tracks.completed (h : Tracks records past done p) {k : ℕ} {response : Response ε}
    (hstep : step (.completed k response) p = some p') :
    ∃ chunk, Tracks records (past ++ [.completed k response]) (done ++ [⟨chunk, response⟩]) p' := by
  obtain ⟨chunk, hk, ha, rfl⟩ := step_completed hstep
  obtain ⟨hlt, hget⟩ := List.getElem?_eq_some_iff.1 hk
  have hn := h.notified_false_of_inFlight (ne_nil_of_length_pos (by omega))
  refine ⟨chunk, ?_⟩
  rw [modifyRecordsCompletionBlock_eq]
  exact { h with
    answered := by rw [map_append, h.answered, responses_concat]; rfl
    answers := by
      intro f hf
      rcases mem_append.1 hf with hf | hf
      · exact h.answers f hf
      · rw [mem_singleton.1 hf]
        exact ha
    split := by
      have hperm : (chunk :: p.inFlight.eraseIdx k).Perm p.inFlight :=
        hget ▸ getElem_cons_eraseIdx_perm hlt
      refine List.Perm.trans ?_ h.split
      simpa using (hperm.append_right p.unsubmitted).append_left (done.map Finished.chunk)
    saves := by simp [h.saves]
    failures := by simp [h.failures, failedSaves]
    completeFailures := by simp [h.completeFailures]
    called := by simp [h.called]
    entered := by
      have := h.entered
      simp only [leave, length_eraseIdx, hlt, if_true]
      omega
    history := by simp [h.history, hn, leave]
    loopDone := by rw [h.loopDone]; simp
    awaited := by
      rw [successBeforeCheck_concat, ← h.loopDone]
      have := h.awaited
      cases hl : p.loopDone <;> simp [hl] at this ⊢ <;> exact this
    notified := by simp [leave, hn] }

theorem Tracks.called_eq (h : Tracks records past done p) :
    p.completionHandlerCalled = (responses past).any Response.succeeded := by
  rw [h.called, ← h.answered, any_map]
  rfl

theorem Tracks.check (h : Tracks records past done p) (hstep : step .check p = some p') :
    Tracks records (past ++ [.check]) done p' := by
  obtain ⟨⟨hu, hl⟩, rfl⟩ := step_check hstep
  have hn := h.notified_false hl
  have hpast : past.any PushEvent.isCheck = false := h.loopDone ▸ hl
  have hcal : p.completionHandlerCalled = successBeforeCheck past := by
    rw [h.called_eq, successBeforeCheck_eq_any hpast]
  have hgrp : ∀ b : Bool, (if b then p.grp else p.grp.await) = { p.grp with awaited := !b } := by
    intro b
    have hawa := h.awaited
    rw [hl] at hawa
    cases b
    · rfl
    · show p.grp = { p.grp with awaited := false }
      rw [Bool.false_and] at hawa
      rw [← hawa]
  rw [hgrp]
  exact { h with
    answered := by rw [h.answered, responses_concat]; simp
    loopDone := by simp
    submitted := fun _ => hu
    awaited := by
      rw [successBeforeCheck_concat, hcal]
      simp
    notified := by simp [hn] }

theorem Tracks.notify (h : Tracks records past done p) (hstep : step .notify p = some p') :
    Tracks records (past ++ [.notify]) done p' := by
  obtain ⟨hrdy, rfl⟩ := step_notify hstep
  simp only [ready, Bool.and_eq_true, Bool.not_eq_true', decide_eq_true_eq] at hrdy
  obtain ⟨⟨hawa, hn⟩, hbal⟩ := hrdy
  have hemp : p.inFlight = [] := by
    have := h.entered
    exact length_eq_zero_iff.1 (by omega)
  exact { h with
    answered := by rw [h.answered, responses_concat]; simp
    history := by
      have hhis := h.history
      rw [hn, if_neg Bool.false_ne_true, append_nil] at hhis
      show p.history ++ [.called p.total] = _ ++ [.called p.total]
      rw [hhis]
    loopDone := by rw [completionHandler, h.loopDone]; simp
    awaited := by
      rw [successBeforeCheck_concat]
      simpa [completionHandler, notify] using h.awaited
    notified := fun _ => ⟨hawa, hemp⟩ }

/-- Every push that has taken the events `past` is tracked by its finished operations. -/
theorem exists_tracks (hrun : run step past (start records) = some p) :
    ∃ done, Tracks records past done p := by
  refine run_snoc (P := fun past p => ∃ done, Tracks records past done p) ?_
    ⟨[], tracks_start records⟩ hrun
  rintro past e s s' ⟨done, h⟩ hstep
  cases e with
  | submit => exact ⟨done, h.submit hstep⟩
  | completed k response =>
    obtain ⟨chunk, h'⟩ := h.completed hstep
    exact ⟨_, h'⟩
  | check => exact ⟨done, h.check hstep⟩
  | notify => exact ⟨done, h.notify hstep⟩

end

end Push

end Feather.Sync
