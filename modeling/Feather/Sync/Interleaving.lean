import Feather.Sync.Pull
import Feather.Sync.Synchronize

/-!
# Whatever the order of the answers

What holds of a push, a synchronization and a pull however the callbacks of their operations
interleave.
-/

namespace Feather.Sync

open Async List

variable {ε τ : Type}

/-! ### The records of a push -/

/-- No record is lost or handed out twice: those of the operations that have answered, those in
flight and those to come are the given ones.  What is said to have failed was to be pushed. -/
theorem push_keeps_records (records : List Record) (schedule : List (PushEvent ε)) :
    Throughout Push.step (fun p =>
      ((p.history.filterMap Observation.finished?).map Finished.chunk ++ p.inFlight ++
        p.unsubmitted).flatten.Perm records ∧
      ∀ x ∈ p.allFailedSaves, x.1 ∈ records) schedule (Push.start records) := by
  refine throughout_of_run fun past p hrun => ?_
  obtain ⟨done, h⟩ := Push.exists_tracks hrun
  have hdone : p.history.filterMap Observation.finished? = done := by
    rw [h.history, filterMap_append]
    have hobs := Push.finished?_observations done
    unfold Push.observations at hobs
    rw [hobs]
    split <;> simp [Observation.finished?]
  refine ⟨?_, fun x hx => ?_⟩
  · have hflat := h.split.flatten
    rwa [flatten_chunks (by decide), ← hdone] at hflat
  · rw [h.failures, h.recordsMap] at hx
    obtain ⟨y, -, hy⟩ := mem_filterMap.1 hx
    obtain ⟨record, hlk, rfl⟩ := Option.map_eq_some_iff.1 hy
    obtain ⟨r, hr, heq⟩ := mem_map.1 (Dictionary.mem_of_lookup_withPairs hlk)
    obtain ⟨-, rfl⟩ := Prod.mk.inj heq
    exact hr

/-! ### A synchronization -/

namespace Push

/-- The events that are still to come, at most. -/
def pending (p : Push ε) : ℕ :=
  2 * p.unsubmitted.length + p.inFlight.length + (!p.loopDone).toNat + (!p.grp.notified).toNat

theorem pending_lt {e : PushEvent ε} {p p' : Push ε} (h : step e p = some p') :
    p'.pending < p.pending := by
  cases e with
  | submit =>
    obtain ⟨chunk, rest, hu, rfl⟩ := step_submit h
    simp only [pending, hu, length_cons, length_append, length_nil, Group.enter]
    omega
  | completed k response =>
    obtain ⟨chunk, hk, -, rfl⟩ := step_completed h
    obtain ⟨hlt, -⟩ := List.getElem?_eq_some_iff.1 hk
    rw [modifyRecordsCompletionBlock_eq]
    simp only [pending, length_eraseIdx_of_lt hlt, Group.leave]
    omega
  | check =>
    obtain ⟨⟨-, hl⟩, rfl⟩ := step_check h
    simp only [pending, hl]
    split <;> simp [Group.await]
  | notify =>
    obtain ⟨hr, rfl⟩ := step_notify h
    simp only [Group.ready, Bool.and_eq_true, Bool.not_eq_true'] at hr
    simp [pending, completionHandler, Group.notify, hr.1.2]

end Push

namespace Synchronize

/-- How far the phase is from the end, with what is still to come in it. -/
def distance : Phase ε → ℕ × ℕ
  | .pulling => (3, 0)
  | .preparing => (2, 0)
  | .pushing _ p => (1, p.pending)
  | .ended => (0, 0)

/-- A step brings the phase nearer to its end, or leaves it and answers a request. -/
theorem distance_lt {e : SyncEvent ε} {s s' : Synchronize ε} (h : step e s = some s') :
    toLex (distance s'.phase) < toLex (distance s.phase) ∨
      s'.phase = s.phase ∧ s'.metadataRequests < s.metadataRequests := by
  cases e with
  | pulled errors =>
    simp only [step] at h
    split at h
    · next hph =>
      refine .inl (Prod.Lex.toLex_lt_toLex.2 (.inl ?_))
      split at h <;> cases h <;> simp [hph, distance, completionHandler]
    · cases h
  | prepared records =>
    refine .inl (Prod.Lex.toLex_lt_toLex.2 (.inl ?_))
    simp only [step] at h
    split at h <;> cases h <;> simp [*, distance, completionHandler]
  | push e =>
    simp only [step] at h
    split at h
    · next records p hph =>
      obtain ⟨p', hp', rfl⟩ := Option.map_eq_some_iff.1 h
      left
      rw [(accountedFor_foldl _ _).2, hph]
      exact Prod.Lex.toLex_lt_toLex.2 (.inr ⟨rfl, Push.pending_lt hp'⟩)
    · cases h
  | metadataSaved result =>
    simp only [step] at h
    split at h
    · cases h
    all_goals
      next hn =>
      cases h
      exact .inr ⟨rfl, by simp [completionHandler, hn]⟩

/-- However the server answers, a synchronization comes to an end, once the pull has called back. -/
theorem synchronize_ends :
    WellFounded fun s' s : Synchronize ε => ∃ e, step e s = some s' := by
  let rest (s : Synchronize ε) : (ℕ ×ₗ ℕ) ×ₗ ℕ :=
    toLex (toLex (distance s.phase), s.metadataRequests)
  refine Subrelation.wf ?_ (InvImage.wf rest wellFounded_lt)
  rintro s' s ⟨e, h⟩
  refine Prod.Lex.toLex_lt_toLex.2 ?_
  obtain hlt | ⟨hph, hreq⟩ := distance_lt h
  · exact .inl hlt
  · exact .inr ⟨by rw [hph], hreq⟩

/-- A complete synchronization has called its completion handler once for each push operation that
succeeded, and once more if none had before the loop was over; so it was called. -/
theorem length_completions (schedule : List (SyncEvent ε)) (s : Synchronize ε)
    (hrun : run step schedule start = some s) (hq : Quiescent step s) :
    s.completions.length = (responses (pushEvents schedule)).countP Response.succeeded +
        (!successBeforeCheck (pushEvents schedule)).toNat ∧
      s.completions ≠ [] := by
  have hlength : s.completions.length =
      (responses (pushEvents schedule)).countP Response.succeeded +
        (!successBeforeCheck (pushEvents schedule)).toNat := by
    have h := tracks_of_run hrun
    have hreq := metadataRequests_of_quiescent hq
    unfold Tracks at h
    simp only [accountedFor, hreq, Nat.add_zero] at h
    obtain hph | ⟨records, p, hph, hqp⟩ := phase_of_quiescent hq
    · rw [hph] at h
      rw [h.1, h.2]
      rfl
    · rw [hph] at h
      obtain ⟨done, ht⟩ := Push.exists_tracks h.2
      have hobs := Push.called?_observations done
      unfold Push.observations at hobs
      rw [h.1, calls, ht.history, filterMap_append, hobs, (ht.quiescent hqp).2.2, ← ht.answered]
      rw [countP_map, countP_eq_length_filter, length_append, length_map]
      cases successBeforeCheck (pushEvents schedule) <;> rfl
  refine ⟨hlength, fun hnil => ?_⟩
  -- with no call of the notification there was a success
  rw [hnil, length_nil] at hlength
  cases hs : successBeforeCheck (pushEvents schedule) with
  | false => simp [hs] at hlength
  | true =>
    obtain ⟨r, hr, hsuc⟩ := Push.exists_succeeded hs
    have := countP_pos_iff.2 ⟨r, hr, hsuc⟩
    omega

theorem length_completions_savedAfterLoop : ∃ s, run step savedAfterLoop start = some s ∧
    s.completions.length = 2 := by
  refine ⟨_, rfl, (length_completions savedAfterLoop _ rfl ?_).1⟩
  rintro (_ | _ | (_ | _ | _ | _) | _) <;> rfl

end Synchronize

/-! ### The zones of a pull -/

namespace Pull

variable {zones : Except ε (List (Zone ε τ))} {p p' : Pull ε τ} {z z' : ZonePull ε τ} {i : ℕ}

/-- The pull of a zone ends in one state only. -/
theorem eq_of_finished {zone : Zone ε τ} (h : ZonePull.Reached zone z)
    (h' : ZonePull.Reached zone z') (hf : z.finished) (hf' : z'.finished) : z = z' := by
  cases h with
  | new => cases hf.1
  | failed hens =>
    cases h' with
    | new => cases hf'.1
    | failed => rfl
    | after hens' => simp [hens'] at hens
  | after hens n hpages =>
    cases h' with
    | new => cases hf'.1
    | failed hens' => simp [hens] at hens'
    | after hens' m hpages' =>
      have hn := hf.2
      have hm := hf'.2
      rw [(ZonePull.after_spec hens n).2.2] at hn
      rw [(ZonePull.after_spec hens m).2.2] at hm
      obtain hlt | rfl | hlt := lt_trichotomy n m
      · have := (hpages' n hlt).1
        omega
      · rfl
      · have := (hpages m hlt).1
        omega

/-- Two complete pulls of the same zones in which no cast fails have asked for the same pages with
the same tokens, and each zone has had the same calls of its handlers. -/
theorem pull_confluent (zones : Except ε (List (Zone ε τ))) (schedule schedule' : List PullEvent)
    (hrun : run (step zones) schedule start = some p) (hq : Quiescent (step zones) p)
    (htr : p.trapped = false) (hrun' : run (step zones) schedule' start = some p')
    (hq' : Quiescent (step zones) p') (htr' : p'.trapped = false) : p.zones = p'.zones := by
  have ht : Tracks zones p := run_invariant (fun _ _ _ => tracks_of_step) tracks_start hrun
  have ht' : Tracks zones p' := run_invariant (fun _ _ _ => tracks_of_step) tracks_start hrun'
  obtain ⟨hens, hfin, -⟩ := finished_of_quiescent htr hq
  obtain ⟨hens', hfin', -⟩ := finished_of_quiescent htr' hq'
  have hmap := (ht.zones hens).trans (ht'.zones hens').symm
  have hlen := congrArg length hmap
  rw [length_map, length_map] at hlen
  refine ext_getElem hlen fun i hi hi' => ?_
  have hzone : p.zones[i].zone = p'.zones[i].zone := by
    have := congrArg (·[i]?) hmap
    simpa [hi, hi'] using this
  exact eq_of_finished (ht.reached _ (getElem_mem hi)) (hzone ▸ ht'.reached _ (getElem_mem hi'))
    (hfin _ (getElem_mem hi)) (hfin' _ (getElem_mem hi'))

/-- Two zones that cannot be ensured. -/
def failingZones : Except String (List (Zone String ℕ)) :=
  .ok [{ twoPages with ensureError := some "a" }, { twoPages with ensureError := some "b" }]

def ensuring (i j : ℕ) : List PullEvent :=
  [.ensured, .await, .zoneEnsured i, .zoneEnsured j, .notify]

/-- The errors are collected in another order. -/
theorem pull_confluent_failing :
    ∃ p p', run (step failingZones) (ensuring 0 1) start = some p ∧
      run (step failingZones) (ensuring 1 0) start = some p' ∧
      p.errors = [.underlyingError "a", .underlyingError "b"] ∧
      p'.errors = [.underlyingError "b", .underlyingError "a"] ∧ p.zones = p'.zones := by
  refine ⟨_, _, rfl, rfl, rfl, rfl,
    pull_confluent failingZones (ensuring 0 1) (ensuring 1 0) rfl ?_ rfl rfl ?_ rfl⟩ <;>
    rintro (_ | _ | (_ | _ | i) | (_ | _ | i) | _) <;> rfl

end Pull

end Feather.Sync
