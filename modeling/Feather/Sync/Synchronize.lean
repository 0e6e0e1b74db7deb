import Feather.Sync.Push

/-!
# Completing a push and a synchronization

`Push.Correct`: the completion handler was called once, after every operation had answered, with all
saved records and all failures.  `ReportsOnce` is the condition on the answers and their order under
which this is so, for every complete run (`Push.correct_iff`).  `Synchronize` is the run of
`synchronize` around the push.
-/

namespace Feather.Sync

open Async List Observation

variable {ε : Type}

/-! ### What is observed of a push -/

namespace Observation

def finished? : Observation ε → Option (Finished ε)
  | finished f => some f
  | called _ => none

def called? : Observation ε → Option (PushCompletion ε)
  | finished _ => none
  | called completion => some completion

end Observation

namespace Push

/-- What is observed of operations that answer one after another. -/
def observations (done : List (Finished ε)) : List (Observation ε) :=
  done.flatMap fun f => .finished f :: reportedCalls f.response

theorem observations_concat (done : List (Finished ε)) (f : Finished ε) :
    observations (done ++ [f]) = observations done ++ .finished f :: reportedCalls f.response := by
  simp [observations]

attribute [local simp] reportedCalls

theorem finished?_observations (done : List (Finished ε)) :
    (observations done).filterMap finished? = done := by
  induction done using reverseRecOn with
  | nil => rfl
  | append_singleton done f ih =>
    rw [observations_concat, filterMap_append, ih]
    cases h : f.response.succeeded <;> simp [finished?]

theorem finished?_map (done : List (Finished ε)) :
    (done.map finished).filterMap finished? = done := by
  rw [filterMap_map]
  exact filterMap_some

theorem called?_map (done : List (Finished ε)) :
    (done.map finished).filterMap called? = [] := by
  rw [filterMap_map]
  exact filterMap_eq_nil_iff.2 fun _ _ => rfl

theorem called?_observations (done : List (Finished ε)) :
    (observations done).filterMap called? =
      (done.filter fun f => f.response.succeeded).map fun f => direct f.response := by
  induction done using reverseRecOn with
  | nil => rfl
  | append_singleton done f ih =>
    rw [observations_concat, filterMap_append, ih]
    cases h : f.response.succeeded <;>
      simp [h, called?, filterMap_cons]

theorem observations_eq_map_iff {done done' : List (Finished ε)} :
    observations done = done'.map finished ↔
      done' = done ∧ ∀ f ∈ done, f.response.succeeded = false := by
  constructor
  · intro h
    have hdone : done = done' := by
      rw [← finished?_observations done, h, finished?_map]
    have hcal := called?_observations done
    rw [h, called?_map] at hcal
    refine ⟨hdone.symm, fun f hf => ?_⟩
    have := filter_eq_nil_iff.1 (map_eq_nil_iff.1 hcal.symm) f hf
    simpa using this
  · rintro ⟨rfl, h⟩
    rw [map_eq_flatMap]
    refine flatMap_congr fun f hf => ?_
    simp [h f hf]

theorem succeeded_last {earlier : List (Finished ε)} {last : Finished ε}
    {before : List (Observation ε)} {c : PushCompletion ε}
    (h : observations (earlier ++ [last]) = before ++ [.called c]) :
    last.response.succeeded = true := by
  by_contra hlast
  have hend := congrArg getLast? h
  rw [observations_concat] at hend
  simp [hlast] at hend

theorem observations_eq_map_concat_iff {done done' : List (Finished ε)} {c : PushCompletion ε} :
    observations done = done'.map finished ++ [.called c] ↔
      done' = done ∧ ∃ earlier last, done = earlier ++ [last] ∧ last.response.succeeded ∧
        c = direct last.response ∧ ∀ f ∈ earlier, f.response.succeeded = false := by
  constructor
  · intro h
    have hdone : done = done' := by
      rw [← finished?_observations done, h, filterMap_append, finished?_map]
      simp [finished?]
    refine ⟨hdone.symm, ?_⟩
    induction done using reverseRecOn with
    | nil => simp [observations] at h
    | append_singleton earlier last =>
      have hlast := succeeded_last h
      have hcal := called?_observations (earlier ++ [last])
      rw [h, filterMap_append, called?_map] at hcal
      simp only [called?, filterMap_cons, filterMap_nil,
        filter_append, map_append] at hcal
      simp only [hlast, filter_cons_of_pos] at hcal
      rw [← nil_append [c]] at hcal
      obtain ⟨hear, hc⟩ := append_inj' hcal rfl
      refine ⟨earlier, last, rfl, hlast, by simpa using hc, fun f hf => ?_⟩
      have := filter_eq_nil_iff.1 (map_eq_nil_iff.1 hear.symm) f hf
      simpa using this
  · rintro ⟨rfl, earlier, last, rfl, hlast, rfl, hear⟩
    rw [observations_concat, observations_eq_map_iff.2 ⟨rfl, hear⟩]
    simp [hlast]

/-! ### Correct completion -/

/-- The completion handler is told everything that the operations have answered. -/
structure Reports (done : List (Finished ε)) (c : PushCompletion ε) : Prop where
  saves : c.savedRecords.Perm (done.flatMap fun f => f.response.saved)
  failures : ((c.saveFailures.getD []).map fun x => (x.1.recordID, x.2)).Perm
    (done.flatMap fun f => f.response.partialErrors)
  completeFailures : (c.completeFailures.getD []).Perm
    (done.flatMap fun f => f.response.completeErrors)

/-- The completion handler was called once, after all operations had answered, and was told
everything. -/
def Correct (records : List Record) (p : Push ε) : Prop :=
  ∃ done c, p.history = done.map .finished ++ [.called c] ∧
    (done.map Finished.chunk).Perm (chunks 100 records) ∧ Reports done c

end Push

/-- Nothing was saved. -/
def Response.SavesNothing (r : Response ε) : Prop :=
  r.succeeded = false ∧ r.saved = []

/-- Nothing was saved and nothing has failed. -/
def Response.SaysNothing (r : Response ε) : Prop :=
  r.SavesNothing ∧ r.partialErrors = [] ∧ r.completeErrors = []

/-- No operation saves anything, or only the one that answers last, before the loop is over, and the
others have nothing to report. -/
def ReportsOnce (schedule : List (PushEvent ε)) : Prop :=
  (∀ r ∈ responses schedule, r.SavesNothing) ∨
    ∃ earlier last, responses schedule = earlier ++ [last] ∧ last.succeeded ∧
      successBeforeCheck schedule ∧ ∀ r ∈ earlier, r.SaysNothing

namespace Push

section

variable {records : List Record} {past : List (PushEvent ε)} {done : List (Finished ε)}
  {p : Push ε}

theorem Tracks.quiescent (h : Tracks records past done p) (hq : Quiescent step p) :
    p.unsubmitted = [] ∧ p.inFlight = [] ∧ p.grp.notified = !successBeforeCheck past := by
  have hsub := hq .submit
  have hcom := hq (.completed 0 ⟨none, none, none⟩)
  have hche := hq .check
  have hnoti := hq .notify
  have hu : p.unsubmitted = [] := by
    cases hu : p.unsubmitted with
    | nil => rfl
    | cons chunk rest => simp [step, hu] at hsub
  have hf : p.inFlight = [] := by
    cases hf : p.inFlight with
    | nil => rfl
    | cons chunk rest => simp [step, hf, Response.answers, Response.partialErrors] at hcom
  have hl : p.loopDone = true := by
    by_contra hl
    simp [step, hu, hl] at hche
  have hawa : p.grp.awaited = !successBeforeCheck past := by
    rw [h.awaited, hl, Bool.true_and]
  refine ⟨hu, hf, ?_⟩
  rw [← hawa]
  cases hn : p.grp.notified with
  | true => exact (h.notified hn).1.symm
  | false =>
    have hetd := h.entered
    rw [hf, length_nil, Nat.add_zero] at hetd
    cases ha : p.grp.awaited with
    | false => rfl
    | true => simp [step, Group.ready, ha, hn, hetd] at hnoti

theorem Tracks.chunks_of_quiescent (h : Tracks records past done p) (hq : Quiescent step p) :
    (done.map Finished.chunk).Perm (chunks 100 records) := by
  obtain ⟨hu, hf, -⟩ := h.quiescent hq
  have hperm := h.split
  rwa [hu, hf, append_nil, append_nil] at hperm

/-- Each record that is said to have failed is among those to be pushed. -/
theorem Tracks.lookup_partialErrors (h : Tracks records past done p) {x : RecordID × ε}
    (hx : x ∈ done.flatMap fun f => f.response.partialErrors) :
    ∃ record, p.recordsMap.lookup x.1 = some record ∧ record.recordID = x.1 := by
  obtain ⟨f, hf, hxf⟩ := mem_flatMap.1 hx
  have hans := all_eq_true.1 (h.answers f hf) x hxf
  obtain ⟨r, hr, hid⟩ := mem_map.1 (contains_iff_mem.1 hans)
  have hchu : f.chunk ∈ chunks 100 records := by
    refine h.split.subset ?_
    simp only [append_assoc, mem_append, mem_map]
    exact .inl ⟨f, hf, rfl⟩
  have hrec : r ∈ records := by
    rw [← flatten_chunks (by decide : 0 < 100) records]
    exact mem_flatten.2 ⟨f.chunk, hchu, hr⟩
  rw [h.recordsMap]
  have hkey : x.1 ∈ (records.map fun r => (r.recordID, r)).map Prod.fst := by
    rw [map_map]
    exact mem_map.2 ⟨r, hrec, hid⟩
  obtain ⟨record, hlk⟩ := Dictionary.exists_lookup_withPairs hkey
  refine ⟨record, hlk, ?_⟩
  obtain ⟨r', -, hr'⟩ := mem_map.1 (Dictionary.mem_of_lookup_withPairs hlk)
  obtain ⟨hid', rfl⟩ := Prod.mk.inj hr'
  exact hid'

theorem map_failedSaves {recordsMap : Dictionary RecordID Record} {errors : List (RecordID × ε)}
    (h : ∀ x ∈ errors, ∃ record, recordsMap.lookup x.1 = some record ∧ record.recordID = x.1) :
    ((failedSaves recordsMap errors).map fun x => (x.1.recordID, x.2)) = errors := by
  induction errors with
  | nil => rfl
  | cons x errors ih =>
    obtain ⟨record, hlk, hid⟩ := h x (by simp)
    have hrest := ih fun y hy => h y (by simp [hy])
    simp only [failedSaves] at hrest ⊢
    simp [hlk, hid, hrest]

theorem Tracks.reports_total_iff (h : Tracks records past done p)
    (hnone : ∀ f ∈ done, f.response.succeeded = false) :
    Reports done p.total ↔ ∀ f ∈ done, f.response.saved = [] := by
  have hsav : p.total.savedRecords = [] := by
    show p.allSuccessfulSaves = []
    rw [h.saves]
    exact flatMap_eq_nil_iff.2 fun f hf => by simp [reportedSaves, hnone f hf]
  constructor
  · intro hrep
    have hperm := hrep.saves
    rw [hsav] at hperm
    exact flatMap_eq_nil_iff.1 hperm.nil_eq.symm
  · intro hnot
    refine ⟨?_, ?_, ?_⟩
    · rw [hsav, flatMap_eq_nil_iff.2 hnot]
    · show (p.allFailedSaves.map _).Perm _
      rw [h.failures, map_failedSaves fun x hx => h.lookup_partialErrors hx]
    · have : p.total.completeFailures.getD [] = p.completeFailures := by
        unfold total
        split
        · next hc => exact hc.symm
        · rfl
      rw [this, h.completeFailures]

/-- What the callback of a successful operation reports, where it is the last to answer. -/
theorem reports_direct_iff {earlier : List (Finished ε)} {last : Finished ε}
    (hlast : last.response.succeeded = true)
    (hear : ∀ f ∈ earlier, f.response.succeeded = false) :
    Reports (earlier ++ [last]) (direct last.response) ↔
      ∀ f ∈ earlier, f.response.SaysNothing := by
  have herr : last.response.error = none := by simpa [Response.succeeded] using hlast
  have hlas : last.response.partialErrors = [] := by simp [Response.partialErrors, herr]
  have hla : last.response.completeErrors = [] := by simp [Response.completeErrors, herr]
  constructor
  · rintro ⟨hsav, hfai, hcom⟩
    simp only [direct, flatMap_append] at hsav hfai hcom
    have hlen := hsav.length_eq
    simp only [length_append, flatMap_cons] at hlen
    have hnone := flatMap_eq_nil_iff.1 (length_eq_zero_iff.1 (by omega :
      (earlier.flatMap fun f => f.response.saved).length = 0))
    have hpar := flatMap_eq_nil_iff.1 (append_eq_nil_iff.1 hfai.nil_eq.symm).1
    have hwho := flatMap_eq_nil_iff.1 (append_eq_nil_iff.1 hcom.nil_eq.symm).1
    exact fun f hf => ⟨⟨hear f hf, hnone f hf⟩, hpar f hf, hwho f hf⟩
  · intro h
    have hsa := flatMap_eq_nil_iff.2 fun f hf => (h f hf).1.2
    have hpar := flatMap_eq_nil_iff.2 fun f hf => (h f hf).2.1
    have hwho := flatMap_eq_nil_iff.2 fun f hf => (h f hf).2.2
    constructor
    · simp [direct, hsa]
    · simp [direct, hpar, hlas]
    · simp [direct, hwho, hla]

theorem exists_succeeded (h : successBeforeCheck past = true) :
    ∃ r ∈ responses past, r.succeeded = true := by
  induction past with
  | nil => cases h
  | cons e past ih =>
    simp only [successBeforeCheck, Bool.and_eq_true, Bool.or_eq_true] at h
    rcases h.2 with he | hrest
    · cases e with
      | completed k r => exact ⟨r, by simp [responses, PushEvent.response?], he⟩
      | _ => cases he
    · obtain ⟨r, hr, hsuc⟩ := ih hrest
      refine ⟨r, ?_, hsuc⟩
      unfold responses at hr ⊢
      rw [filterMap_cons]
      split
      · exact hr
      · exact mem_cons_of_mem _ hr

/-- With the notification registered, the push is right if no operation has saved anything. -/
theorem Tracks.correct_iff_of_notified (h : Tracks records past done p) (hq : Quiescent step p)
    (hn : p.grp.notified = true) :
    Correct records p ↔ ∀ r ∈ responses past, r.SavesNothing := by
  have hhis : p.history = observations done ++ [.called p.total] := by
    rw [h.history, hn]
    rfl
  rw [← h.answered, forall_mem_map]
  constructor
  · rintro ⟨done', c, hdone', -, hrep⟩
    rw [hhis] at hdone'
    obtain ⟨hobs, hc⟩ := append_inj' hdone' rfl
    obtain ⟨rfl, hnone⟩ := observations_eq_map_iff.1 hobs
    obtain rfl : p.total = c := by simpa using hc
    have hnot := (h.reports_total_iff hnone).1 hrep
    exact fun f hf => ⟨hnone f hf, hnot f hf⟩
  · intro hnot
    have hnone : ∀ f ∈ done, f.response.succeeded = false := fun f hf => (hnot f hf).1
    refine ⟨done, p.total, ?_, h.chunks_of_quiescent hq, ?_⟩
    · rw [hhis, observations_eq_map_iff.2 ⟨rfl, hnone⟩]
    · exact (h.reports_total_iff hnone).2 fun f hf => (hnot f hf).2

/-- Without it, if the last operation to answer is the only one with something to report. -/
theorem Tracks.correct_iff_of_not_notified (h : Tracks records past done p)
    (hq : Quiescent step p) (hn : p.grp.notified = false) :
    Correct records p ↔ ∃ earlier last, responses past = earlier ++ [last] ∧ last.succeeded ∧
      ∀ r ∈ earlier, r.SaysNothing := by
  have hhis : p.history = observations done := by
    rw [h.history, hn, if_neg Bool.false_ne_true, append_nil]
    rfl
  constructor
  · rintro ⟨done', c, hdone', -, hrep⟩
    rw [hhis] at hdone'
    obtain ⟨rfl, earlier, last, rfl, hlast, rfl, hear⟩ := observations_eq_map_concat_iff.1 hdone'
    have hnot := (reports_direct_iff hlast hear).1 hrep
    refine ⟨earlier.map Finished.response, last.response, ?_, hlast, ?_⟩
    · rw [← h.answered, map_append]
      rfl
    · rw [forall_mem_map]
      exact hnot
  · rintro ⟨earlier, last, hrsp, hlast, hnot⟩
    rw [← h.answered] at hrsp
    obtain ⟨earlier, last', rfl, rfl, hlast'⟩ := map_eq_append_iff.1 hrsp
    obtain ⟨last, rfl, rfl⟩ := map_eq_singleton_iff.1 hlast'
    rw [forall_mem_map] at hnot
    have hear : ∀ f ∈ earlier, f.response.succeeded = false := fun f hf => (hnot f hf).1.1
    refine ⟨earlier ++ [last], direct last.response, ?_, h.chunks_of_quiescent hq, ?_⟩
    · rw [hhis]
      exact observations_eq_map_concat_iff.2 ⟨rfl, earlier, last, rfl, hlast, rfl, hear⟩
    · exact (reports_direct_iff hlast hear).2 hnot

/-- A complete push calls its completion handler as it should exactly if the answers and their order
are of one of the two kinds of `ReportsOnce`. -/
theorem correct_iff (hrun : run step past (start records) = some p) (hq : Quiescent step p) :
    Correct records p ↔ ReportsOnce past := by
  obtain ⟨done, h⟩ := exists_tracks hrun
  have hn := (h.quiescent hq).2.2
  unfold ReportsOnce
  cases hs : successBeforeCheck past with
  | false =>
    rw [hs] at hn
    rw [h.correct_iff_of_notified hq hn]
    simp
  | true =>
    rw [hs] at hn
    rw [h.correct_iff_of_not_notified hq hn]
    obtain ⟨r, hr, hsuc⟩ := exists_succeeded hs
    constructor
    · rintro ⟨earlier, last, hrsp, hlast, hnot⟩
      exact .inr ⟨earlier, last, hrsp, hlast, rfl, hnot⟩
    · rintro (hnot | ⟨earlier, last, hrsp, hlast, -, hnot⟩)
      · have := (hnot r hr).1
        rw [hsuc] at this
        cases this
      · exact ⟨earlier, last, hrsp, hlast, hnot⟩

end

end Push

/-! ### The synchronization around the push -/

/-- The errors that `synchronize` hands over. -/
inductive SyncError (ε : Type)
  | underlyingError (error : ε)
  | compoundError (errors : List ε)

/-- How far a synchronization has come. -/
inductive Phase (ε : Type)
  | pulling
  /-- The pull went well; the user and the zones are looked up and the objects serialized. -/
  | preparing
  | pushing (records : List Record) (p : Push ε)
  | ended

/-- A synchronization. -/
structure Synchronize (ε : Type) where
  phase : Phase ε
  /-- Calls of `ensureDatabasePackageMetadataExists` that have not answered. -/
  metadataRequests : ℕ
  /-- What the completion handler was called with. -/
  completions : List (List (SyncError ε))

/-- The callbacks of a synchronization. -/
inductive SyncEvent (ε : Type)
  | pulled (errors : List (SyncError ε))
  | prepared (records : Except ε (List Record))
  | push (e : PushEvent ε)
  | metadataSaved (result : Except ε Unit)

def SyncEvent.push? : SyncEvent ε → Option (PushEvent ε)
  | push e => some e
  | _ => none

variable {past : List (SyncEvent ε)} {s s' : Synchronize ε}

namespace Synchronize

/-- `synchronize` was called. -/
def start : Synchronize ε := ⟨.pulling, 0, []⟩

/-- The handler is called. -/
def completionHandler (errors : List (SyncError ε)) (s : Synchronize ε) : Synchronize ε :=
  { s with completions := s.completions ++ [errors] }

/-- The closure that `synchronize` hands to `push` as its completion handler. -/
def pushCompleted (c : PushCompletion ε) (s : Synchronize ε) : Synchronize ε :=
  let errors := c.completeFailures.toList.map .compoundError ++
    (c.saveFailures.getD []).map fun x => .underlyingError x.2
  if errors.isEmpty then { s with metadataRequests := s.metadataRequests + 1 }
  else s.completionHandler errors

def calls (p : Push ε) : List (PushCompletion ε) :=
  p.history.filterMap called?

/-- One event. -/
def step : SyncEvent ε → Synchronize ε → Option (Synchronize ε)
  | .pulled errors, s =>
    match s.phase with
    | .pulling =>
      if errors.isEmpty then some { s with phase := .preparing }
      else some ({ s with phase := .ended }.completionHandler errors)
    | _ => none
  | .prepared records, s =>
    match s.phase, records with
    | .preparing, .ok records => some { s with phase := .pushing records (Push.start records) }
    | .preparing, .error e =>
      some ({ s with phase := .ended }.completionHandler [.underlyingError e])
    | _, _ => none
  | .push e, s =>
    match s.phase with
    | .pushing records p =>
      (p.step e).map fun p' =>
        ((calls p').drop (calls p).length).foldl (fun s c => s.pushCompleted c)
          { s with phase := .pushing records p' }
    | _ => none
  | .metadataSaved result, s =>
    match s.metadataRequests, result with
    | 0, _ => none
    | n + 1, .ok _ => some ({ s with metadataRequests := n }.completionHandler [])
    | n + 1, .error e =>
      some ({ s with metadataRequests := n }.completionHandler [.underlyingError e])

/-- Handler calls made, and those that are still to come from the requests for the metadata. -/
def accountedFor (s : Synchronize ε) : ℕ :=
  s.completions.length + s.metadataRequests

theorem accountedFor_foldl (cs : List (PushCompletion ε)) (s : Synchronize ε) :
    (cs.foldl (fun s c => s.pushCompleted c) s).accountedFor = s.accountedFor + cs.length ∧
      (cs.foldl (fun s c => s.pushCompleted c) s).phase = s.phase := by
  induction cs generalizing s with
  | nil => simp
  | cons c cs ih =>
    have hstep : (s.pushCompleted c).accountedFor = s.accountedFor + 1 ∧
        (s.pushCompleted c).phase = s.phase := by
      unfold pushCompleted
      dsimp only
      split
      · exact ⟨by simp only [accountedFor]; omega, rfl⟩
      · exact ⟨by simp only [accountedFor, completionHandler, length_append,
          length_singleton]; omega, rfl⟩
    rw [foldl_cons, (ih _).1, (ih _).2, hstep.2, length_cons]
    exact ⟨by omega, rfl⟩

theorem calls_eq_append {e : PushEvent ε} {p p' : Push ε} (h : p.step e = some p') :
    calls p' = calls p ++ (calls p').drop (calls p).length := by
  suffices hext : ∃ new, p'.history = p.history ++ new by
    obtain ⟨new, hnew⟩ := hext
    simp [calls, hnew]
  cases e with
  | submit =>
    obtain ⟨chunk, rest, -, rfl⟩ := Push.step_submit h
    exact ⟨[], by simp⟩
  | completed k response =>
    obtain ⟨chunk, -, -, rfl⟩ := Push.step_completed h
    rw [Push.modifyRecordsCompletionBlock_eq]
    exact ⟨_, append_assoc ..⟩
  | check =>
    obtain ⟨-, rfl⟩ := Push.step_check h
    exact ⟨[], by simp⟩
  | notify =>
    obtain ⟨-, rfl⟩ := Push.step_notify h
    exact ⟨_, rfl⟩

def pushEvents (schedule : List (SyncEvent ε)) : List (PushEvent ε) :=
  schedule.filterMap SyncEvent.push?

/-- The push has taken the push events, and each call of its handler is accounted for. -/
def Tracks (past : List (SyncEvent ε)) (s : Synchronize ε) : Prop :=
  match s.phase with
  | .pulling => s.accountedFor = 0 ∧ pushEvents past = []
  | .preparing => s.accountedFor = 0 ∧ pushEvents past = []
  | .pushing records p => s.accountedFor = (calls p).length ∧
      run Push.step (pushEvents past) (Push.start records) = some p
  | .ended => s.accountedFor = 1 ∧ pushEvents past = []

attribute [local simp] SyncEvent.push?

attribute [local simp] pushEvents

theorem Tracks.pulled (h : Tracks past s) {errors : List (SyncError ε)}
    (hstep : step (.pulled errors) s = some s') : Tracks (past ++ [.pulled errors]) s' := by
  have hpush : pushEvents (past ++ [.pulled errors]) = pushEvents past := by
    simp
  unfold Tracks at h
  simp only [step] at hstep
  split at hstep
  · next hph =>
    rw [hph] at h
    split at hstep
    · cases hstep
      exact ⟨h.1, hpush.trans h.2⟩
    · cases hstep
      refine ⟨?_, hpush.trans h.2⟩
      have := h.1
      simp only [accountedFor, completionHandler, length_append, length_singleton] at this ⊢
      omega
  · cases hstep

theorem Tracks.prepared (h : Tracks past s) {records : Except ε (List Record)}
    (hstep : step (.prepared records) s = some s') : Tracks (past ++ [.prepared records]) s' := by
  have hpush : pushEvents (past ++ [.prepared records]) = pushEvents past := by
    simp
  unfold Tracks at h
  simp only [step] at hstep
  split at hstep
  · next records' hph =>
    rw [hph] at h
    cases hstep
    refine ⟨h.1, ?_⟩
    rw [hpush, h.2]
    rfl
  · next e hph =>
    rw [hph] at h
    cases hstep
    refine ⟨?_, hpush.trans h.2⟩
    have := h.1
    simp only [accountedFor, completionHandler, length_append, length_singleton] at this ⊢
    omega
  · cases hstep

theorem Tracks.push (h : Tracks past s) {e : PushEvent ε} (hstep : step (.push e) s = some s') :
    Tracks (past ++ [.push e]) s' := by
  unfold Tracks at h
  simp only [step] at hstep
  split at hstep
  · next records p hph =>
    rw [hph] at h
    obtain ⟨p', hp', rfl⟩ := Option.map_eq_some_iff.1 hstep
    obtain ⟨hcnt, hph'⟩ := accountedFor_foldl ((calls p').drop (calls p).length)
      { s with phase := .pushing records p' }
    have hcal := congrArg length (calls_eq_append hp')
    unfold Tracks
    rw [hph']
    refine ⟨?_, ?_⟩
    · have hsame : ({ s with phase := .pushing records p' } : Synchronize ε).accountedFor =
          s.accountedFor := rfl
      rw [hcnt, hsame, h.1, hcal, length_append]
    · have : pushEvents (past ++ [.push e]) = pushEvents past ++ [e] := by
        simp
      rw [this, run_concat_eq_some]
      exact ⟨p, h.2, hp'⟩
  · cases hstep

theorem Tracks.metadataSaved (h : Tracks past s) {result : Except ε Unit}
    (hstep : step (.metadataSaved result) s = some s') :
    Tracks (past ++ [.metadataSaved result]) s' := by
  have hpush : pushEvents (past ++ [.metadataSaved result]) = pushEvents past := by
    simp
  -- a request for the metadata becomes a call of the handler
  have hkeep : s'.phase = s.phase ∧ s'.accountedFor = s.accountedFor := by
    simp only [step] at hstep
    split at hstep
    · cases hstep
    all_goals
      next n hn =>
      cases hstep
      refine ⟨rfl, ?_⟩
      simp only [accountedFor, completionHandler, length_append, length_singleton]
      omega
  unfold Tracks at h ⊢
  rw [hkeep.1, hkeep.2, hpush]
  exact h

theorem tracks_of_run {schedule : List (SyncEvent ε)} (hrun : run step schedule start = some s) :
    Tracks schedule s := by
  have hst : Tracks [] (start : Synchronize ε) := ⟨rfl, rfl⟩
  refine run_snoc (P := Tracks) ?_ hst hrun
  intro past e s s' h hstep
  cases e with
  | pulled errors => exact h.pulled hstep
  | prepared records => exact h.prepared hstep
  | push e => exact h.push hstep
  | metadataSaved result => exact h.metadataSaved hstep

theorem metadataRequests_of_quiescent (hq : Quiescent step s) : s.metadataRequests = 0 := by
  have hmet := hq (.metadataSaved (.ok ()))
  cases hn : s.metadataRequests with
  | zero => rfl
  | succ n => simp [step, hn] at hmet

/-- In a complete synchronization nothing is left to do but for a push that is complete. -/
theorem phase_of_quiescent (hq : Quiescent step s) :
    s.phase = .ended ∨ ∃ records p, s.phase = .pushing records p ∧ Quiescent Push.step p := by
  cases hph : s.phase with
  | pulling =>
    have := hq (.pulled [])
    simp [step, hph] at this
  | preparing =>
    have := hq (.prepared (.ok []))
    simp [step, hph] at this
  | ended => exact .inl rfl
  | pushing records p =>
    refine .inr ⟨records, p, rfl, fun e => ?_⟩
    have := hq (.push e)
    simpa [step, hph] using this

/-- A complete synchronization is completed as it should be, exactly if the answers of the push
operations are as `ReportsOnce` says. -/
theorem completes_iff (schedule : List (SyncEvent ε)) (s : Synchronize ε)
    (hrun : run step schedule start = some s) (hq : Quiescent step s) :
    ((∀ records p, s.phase = .pushing records p → p.Correct records) ∧ s.completions.length = 1) ↔
      ReportsOnce (pushEvents schedule) := by
  have h := tracks_of_run hrun
  have hreq := metadataRequests_of_quiescent hq
  unfold Tracks at h
  simp only [accountedFor, hreq, Nat.add_zero] at h
  obtain hph | ⟨records, p, hph, hqp⟩ := phase_of_quiescent hq
  · rw [hph] at h ⊢
    rw [h.1, h.2]
    simp [ReportsOnce, responses]
  · rw [hph] at h ⊢
    rw [← Push.correct_iff h.2 hqp, h.1]
    constructor
    · rintro ⟨hcor, -⟩
      exact hcor records p rfl
    · intro hcor
      refine ⟨?_, ?_⟩
      · rintro records' p' heq
        cases heq
        exact hcor
      · obtain ⟨done, c, hhis, -⟩ := hcor
        unfold calls
        rw [hhis, filterMap_append, Push.called?_map]
        rfl

def someRecord : Record :=
  ⟨"MPContributor", ⟨"MPContributor:1", ⟨"MPContributor-zone", "_owner"⟩⟩, none, ∅⟩

/-- One record, whose operation fails. -/
def failedChunk : List (SyncEvent String) :=
  [.pulled [], .prepared (.ok [someRecord]), .push .submit, .push .check,
    .push (.completed 0 ⟨none, none, some ⟨"no network", none⟩⟩), .push .notify]

theorem failedChunk_completes : ∃ s p, run step failedChunk start = some s ∧ Quiescent step s ∧
    s.phase = .pushing [someRecord] p ∧ p.Correct [someRecord] ∧ s.completions.length = 1 := by
  obtain ⟨s, hrun⟩ : ∃ s, run step failedChunk start = some s := ⟨_, rfl⟩
  have hq : Quiescent step s := by
    cases hrun
    rintro (_ | _ | (_ | _ | _ | _) | _) <;> rfl
  have h := (completes_iff failedChunk s hrun hq).2 (.inl fun r hr => ?_)
  · obtain ⟨p, hp⟩ : ∃ p, s.phase = .pushing [someRecord] p := by
      cases hrun
      exact ⟨_, rfl⟩
    exact ⟨s, p, hrun, hq, hp, h.1 _ p hp, h.2⟩
  · obtain rfl : ⟨none, none, some ⟨"no network", none⟩⟩ = r := by
      simpa [failedChunk, responses, PushEvent.response?] using hr
    exact ⟨rfl, rfl⟩

/-- One record, saved after the loop is over. -/
def savedAfterLoop : List (SyncEvent String) :=
  [.pulled [], .prepared (.ok [someRecord]), .push .submit, .push .check,
    .push (.completed 0 ⟨some [someRecord], some [], none⟩), .push .notify,
    .metadataSaved (.ok ()), .metadataSaved (.ok ())]

/-- The completion handler is called by the callback of the operation and by the notification. -/
theorem savedAfterLoop_completes_twice : ∃ s, run step savedAfterLoop start = some s ∧
    Quiescent step s ∧ s.completions.length = 2 ∧
    ∃ p, s.phase = .pushing [someRecord] p ∧ (calls p).length = 2 ∧ ¬p.Correct [someRecord] := by
  refine ⟨_, rfl, ?_, rfl, _, rfl, rfl, ?_⟩
  · rintro (_ | _ | (_ | _ | _ | _) | _) <;> rfl
  · rintro ⟨done, c, hhis, -⟩
    have := congrArg (fun h => (h.filterMap called?).length) hhis
    simp only [filterMap_append, Push.called?_map] at this
    cases this

end Synchronize

end Feather.Sync
