import Feather.Async.System
import Feather.Sync.Record

/-!
# Pulling the changes of the record zones

`pull` of `CloudKitSyncService.swift`.  The changes of each zone come in pages, one operation for
each; its callback starts the next one, and at the end calls a handler of the zone, which leaves the
group.
-/

namespace Feather.Sync

open Async List Group

variable {ε τ : Type}
variable {i : ℕ}

/-! ### One zone -/

/-- `CloudKitSyncService.Error`, as far as a pull uses it. -/
inductive PullError (ε : Type)
  | underlyingError (e : ε)
  | missingServerChangeToken (zoneID : ZoneID)
  | noRecordToDeleteWithID (recordID : RecordID)

/-- A call of the completion handler of a zone or of its error handler.  No change is reported as
failed: the cast of the error fails. -/
inductive PullCall (ε : Type)
  | completion (failedDeletions : List RecordID)
  | error (e : PullError ε)

/-- What the handlers given by `pull` add to its errors. -/
def PullCall.errors : PullCall ε → List (PullError ε)
  | completion failedDeletions => failedDeletions.map .noRecordToDeleteWithID
  | error e => [e]

/-- What a fetch operation delivers. -/
structure Page (ε τ : Type) where
  /-- The changed records are deserialized without an error. -/
  applies : Bool
  /-- The deleted records without a record in the repository or an object in the package. -/
  failedDeletions : List RecordID
  moreComing : Bool
  error : Option ε
  serverChangeToken : Option τ
  /-- The error of writing the state after the page. -/
  serializeError : Option ε

namespace Page

/-- The fetch has failed. -/
def fails (page : Page ε τ) : Bool := page.error.isSome || page.serverChangeToken.isNone

/-- After the page the pull of its zone is to stop. -/
def stops (page : Page ε τ) : Bool :=
  page.fails || page.serializeError.isSome || !page.moreComing

end Page

/-- A zone, with the answers to the requests for it. -/
structure Zone (ε τ : Type) where
  zoneID : ZoneID
  /-- The token that the state has for the zone. -/
  serverChangeToken : Option τ
  /-- The error of `ensureRecordZonesExist` for the zone. -/
  ensureError : Option ε
  page : ℕ → Page ε τ

/-- The pull of one record zone. -/
structure ZonePull (ε τ : Type) where
  zone : Zone ε τ
  /-- `ensureRecordZonesExist` has called back. -/
  started : Bool
  /-- `op.moreComing` of the first operation, when it has finished. -/
  moreComing : Option Bool
  /-- `previousServerChangeToken` of each operation. -/
  requests : List (Option τ)
  answered : ℕ
  failedDeletions : List RecordID
  calls : List (PullCall ε)

namespace ZonePull

/-- The pull of a zone before `ensureRecordZonesExist` has called back. -/
def new (zone : Zone ε τ) : ZonePull ε τ := ⟨zone, false, none, [], 0, [], []⟩

/-- A handler is called. -/
def call (c : PullCall ε) (z : ZonePull ε τ) : ZonePull ε τ := { z with calls := z.calls ++ [c] }

/-- The callbacks of `ensureRecordZonesExist`: `_pull`, or the error handler. -/
def start (z : ZonePull ε τ) : ZonePull ε τ :=
  match z.zone.ensureError with
  | some e => ({ z with started := true } : ZonePull ε τ).call (.error (.underlyingError e))
  | none => { z with started := true, requests := [z.zone.serverChangeToken] }

/-- An operation for the next page is added to the queue. -/
def request (token : τ) (z : ZonePull ε τ) : ZonePull ε τ :=
  { z with requests := z.requests ++ [some token] }

/-- The state is written, and the completion handler is called if nothing more is coming. -/
def finish (page : Page ε τ) (more : Bool) (z : ZonePull ε τ) : ZonePull ε τ :=
  match page.serializeError with
  | some e => z.call (.error (.underlyingError e))
  | none => if more then z else z.call (.completion z.failedDeletions)

/-- `fetchRecordChangesCompletion`, where `op` is the first operation. -/
def fetchRecordChangesCompletion (page : Page ε τ) (more : Bool) (z : ZonePull ε τ) :
    ZonePull ε τ :=
  match page.error, page.serverChangeToken with
  | some e, _ => z.call (.error (.underlyingError e))
  | none, none => z.call (.error (.missingServerChangeToken z.zone.zoneID))
  | none, some token => finish page more (if more then z.request token else z)

/-- An operation delivers its page. -/
def answer (page : Page ε τ) (z : ZonePull ε τ) : ZonePull ε τ :=
  let more := z.moreComing.getD page.moreComing
  fetchRecordChangesCompletion page more
    { z with
      moreComing := some more
      answered := z.answered + 1
      failedDeletions := z.failedDeletions ++ page.failedDeletions }

/-- The pull of a zone after its first pages. -/
def after (zone : Zone ε τ) : ℕ → ZonePull ε τ
  | 0 => (new zone).start
  | n + 1 => (after zone n).answer (zone.page n)

/-- All operations of the zone have answered. -/
def finished (z : ZonePull ε τ) : Prop := z.started ∧ z.requests.length ≤ z.answered

/-- The requests for the pages of a zone in their order, each with the token of the one before. -/
def expectedRequests (zone : Zone ε τ) : ℕ → List (Option τ)
  | 0 => [zone.serverChangeToken]
  | n + 1 => expectedRequests zone n ++ [(zone.page n).serverChangeToken]

/-- The first page after which the pull is to stop. -/
def FirstStop (zone : Zone ε τ) (k : ℕ) : Prop :=
  (zone.page k).stops ∧ ∀ i < k, (zone.page i).stops = false

/-- Each page up to the one at which to stop was requested once and in order, all have answered, and
one handler was called once. -/
def Exact (z : ZonePull ε τ) : Prop :=
  z.calls.length = 1 ∧
    (z.zone.ensureError.isSome ∧ z.requests = [] ∨
      z.zone.ensureError = none ∧ ∃ k, FirstStop z.zone k ∧ z.requests = expectedRequests z.zone k ∧
        z.answered = k + 1)

/-- The page is a failed fetch, or the first page with nothing more coming. -/
def StopsAt (zone : Zone ε τ) (k : ℕ) : Prop :=
  zone.ensureError.isSome ∨
    FirstStop zone k ∧ (∀ i ≤ k, (zone.page i).applies) ∧
      ((zone.page k).fails ∨ k = 0 ∧ (zone.page 0).moreComing = false)

/-! ### The pages of a zone -/

variable {zone : Zone ε τ} {k n : ℕ}

theorem answer_spec (page : Page ε τ) (z : ZonePull ε τ) :
    (z.answer page).zone = z.zone ∧ (z.answer page).started = z.started ∧
      (z.answer page).answered = z.answered + 1 ∧
      (z.answer page).moreComing = some (z.moreComing.getD page.moreComing) := by
  unfold answer fetchRecordChangesCompletion finish
  simp only
  split
  · exact ⟨rfl, rfl, rfl, rfl⟩
  · exact ⟨rfl, rfl, rfl, rfl⟩
  · split <;> split <;> exact ⟨rfl, rfl, rfl, rfl⟩

/-- After a failed fetch the error handler is called, and no page is requested. -/
theorem answer_of_fails {page : Page ε τ} (h : page.fails) (z : ZonePull ε τ) :
    (z.answer page).requests = z.requests ∧
      (z.answer page).calls.length = z.calls.length + 1 := by
  unfold answer fetchRecordChangesCompletion
  split
  · exact ⟨rfl, length_append⟩
  · exact ⟨rfl, length_append⟩
  · next herr htok => simp [Page.fails, herr, htok] at h

/-- After any other page the next one is requested if the first operation had more coming; a handler
is called if not, and if the state cannot be written. -/
theorem answer_of_not_fails {page : Page ε τ} (h : page.fails = false) (z : ZonePull ε τ) :
    (z.answer page).requests = z.requests ++
        (if z.moreComing.getD page.moreComing then [page.serverChangeToken] else []) ∧
      (z.answer page).calls.length = z.calls.length +
        (if page.serializeError.isSome || !z.moreComing.getD page.moreComing then 1 else 0) := by
  unfold answer fetchRecordChangesCompletion finish
  split
  · next e herr => simp [Page.fails, herr] at h
  · next herr htok => simp [Page.fails, htok] at h
  · next token herr htok =>
    generalize z.moreComing.getD page.moreComing = more
    cases more <;> cases hser : page.serializeError <;> simp [call, request, htok]

theorem length_expectedRequests (zone : Zone ε τ) (n : ℕ) :
    (expectedRequests zone n).length = n + 1 := by
  induction n with
  | zero => rfl
  | succ n ih => rw [expectedRequests, length_append, ih, length_singleton]

theorem after_zero (hens : zone.ensureError = none) :
    after zone 0 = ⟨zone, true, none, [zone.serverChangeToken], 0, [], []⟩ := by
  simp [after, start, new, hens]

/-- As long as no page was one to stop at, the pages are requested and no handler is called. -/
theorem after_of_not_stops (hens : zone.ensureError = none)
    (h : ∀ i < n, (zone.page i).stops = false) :
    (after zone n).requests = expectedRequests zone n ∧ (after zone n).calls = [] ∧
      ∀ b, (after zone n).moreComing.getD b = if n = 0 then b else true := by
  induction n with
  | zero =>
    rw [after_zero hens]
    exact ⟨rfl, rfl, fun _ => rfl⟩
  | succ n ih =>
    obtain ⟨hreq, hcal, hmore⟩ := ih fun i hi => h i (by omega)
    have hstp := h n (by omega)
    simp only [Page.stops, Bool.or_eq_false_iff, Bool.not_eq_false'] at hstp
    obtain ⟨⟨hfls, hser⟩, hcom⟩ := hstp
    have hmore' : (after zone n).moreComing.getD (zone.page n).moreComing = true := by
      rw [hmore, hcom, ite_self]
    obtain ⟨hans, hlen⟩ := answer_of_not_fails hfls (after zone n)
    obtain ⟨-, -, -, hcap⟩ := answer_spec (zone.page n) (after zone n)
    rw [hmore', if_pos rfl] at hans
    rw [hmore', hser, hcal] at hlen
    refine ⟨?_, length_eq_zero_iff.1 hlen, fun b => ?_⟩
    · rw [after, hans, hreq, expectedRequests]
    · rw [after, hcap, hmore', Option.getD_some, if_neg n.succ_ne_zero]

/-- At the first page to stop at, the pull stops if it should, or requests another. -/
theorem after_of_firstStop (hens : zone.ensureError = none) (h : FirstStop zone k) :
    if (zone.page k).fails ∨ k = 0 ∧ (zone.page 0).moreComing = false then
      (after zone (k + 1)).requests = expectedRequests zone k ∧
        (after zone (k + 1)).calls.length = 1
    else (after zone (k + 1)).requests.length = k + 2 := by
  obtain ⟨hreq, hcal, hmore⟩ := after_of_not_stops hens h.2
  by_cases hfls : (zone.page k).fails
  · obtain ⟨hans, hlen⟩ := answer_of_fails hfls (after zone k)
    rw [if_pos (.inl hfls), after, hans, hlen, hreq, hcal]
    exact ⟨rfl, rfl⟩
  · rw [Bool.not_eq_true] at hfls
    obtain ⟨hans, hlen⟩ := answer_of_not_fails hfls (after zone k)
    rw [hmore] at hans hlen
    split
    · next hstop =>
      obtain ⟨rfl, hcom⟩ := hstop.resolve_left (by simp [hfls])
      simp only [if_true, hcom, Bool.not_false, Bool.or_true, hcal] at hans hlen
      rw [after, hans, hreq]
      exact ⟨rfl, hlen⟩
    · next hstop =>
      have haga : (if k = 0 then (zone.page k).moreComing else true) = true := by
        by_cases hk : k = 0
        · subst hk
          by_contra hcom
          exact hstop (.inr ⟨rfl, by simpa using hcom⟩)
        · rw [if_neg hk]
      rw [haga, if_pos rfl] at hans
      rw [after, hans, length_append, hreq, length_expectedRequests, length_singleton]

theorem after_spec (hens : zone.ensureError = none) (n : ℕ) :
    (after zone n).zone = zone ∧ (after zone n).started = true ∧ (after zone n).answered = n := by
  induction n with
  | zero =>
    rw [after_zero hens]
    exact ⟨rfl, rfl, rfl⟩
  | succ n ih =>
    obtain ⟨hzone, hstd, hand, -⟩ := answer_spec (zone.page n) (after zone n)
    rw [after, hzone, hstd, hand, ih.2.2]
    exact ⟨ih.1, ih.2.1, rfl⟩

/-! ### What the pull of a zone can reach -/

/-- The states of the pull of a zone. -/
inductive Reached (zone : Zone ε τ) : ZonePull ε τ → Prop
  | new : Reached zone (new zone)
  | failed (h : zone.ensureError.isSome) : Reached zone (ZonePull.new zone).start
  | after (h : zone.ensureError = none) (n : ℕ)
    (hpages : ∀ m < n, m < (after zone m).requests.length ∧ (zone.page m).applies) :
    Reached zone (ZonePull.after zone n)

variable {z : ZonePull ε τ}

theorem Reached.zone_eq (h : Reached zone z) : z.zone = zone := by
  cases h with
  | new => rfl
  | failed hens =>
    unfold start
    split <;> rfl
  | after hens n => exact (after_spec hens n).1

theorem started_start (z : ZonePull ε τ) : z.start.started = true := by
  unfold start
  split <;> rfl

theorem answered_start (z : ZonePull ε τ) : z.start.answered = z.answered := by
  unfold start
  split <;> rfl

theorem Reached.start (h : Reached zone z) (hstd : z.started = false) : Reached zone z.start := by
  cases h with
  | new =>
    cases hens : zone.ensureError with
    | none => exact .after hens 0 fun m hm => absurd hm m.not_lt_zero
    | some e => exact .failed (by rw [hens, Option.isSome_some])
  | failed hens =>
    rw [started_start] at hstd
    cases hstd
  | after hens n =>
    rw [(after_spec hens n).2.1] at hstd
    cases hstd

theorem requests_of_ensureError (h : zone.ensureError.isSome) :
    (new zone).start.requests = [] ∧ (new zone).start.calls.length = 1 := by
  obtain ⟨e, he⟩ := Option.isSome_iff_exists.1 h
  simp only [ZonePull.start, new, he]
  exact ⟨rfl, rfl⟩

theorem Reached.answer (h : Reached zone z) (hlt : z.answered < z.requests.length)
    (happ : (zone.page z.answered).applies) : Reached zone (z.answer (zone.page z.answered)) := by
  cases h with
  | new => exact absurd hlt (Nat.not_lt_zero _)
  | failed hens =>
    rw [(requests_of_ensureError hens).1] at hlt
    exact absurd hlt (Nat.not_lt_zero _)
  | after hens n hpgs =>
    rw [(after_spec hens n).2.2] at hlt happ ⊢
    refine Reached.after hens (n + 1) fun m hm => ?_
    rcases Nat.lt_succ_iff_lt_or_eq.1 hm with hm | rfl
    · exact hpgs m hm
    · exact ⟨hlt, happ⟩

/-- A zone that stops where it should is asked for the pages up to there, which are applied. -/
theorem Reached.le_of_stopsAt (h : Reached zone z) (hstp : StopsAt zone k)
    (hlt : z.answered < z.requests.length) :
    z.answered ≤ k ∧ (zone.page z.answered).applies := by
  cases h with
  | new => exact absurd hlt (Nat.not_lt_zero _)
  | failed hens =>
    rw [(requests_of_ensureError hens).1] at hlt
    exact absurd hlt (Nat.not_lt_zero _)
  | after hens n hpgs =>
    rcases hstp with hens' | ⟨hfst, happ, hstop⟩
    · rw [hens] at hens'
      cases hens'
    have hlast := after_of_firstStop hens hfst
    rw [if_pos hstop] at hlast
    rw [(after_spec hens n).2.2] at hlt ⊢
    have hle : n ≤ k := by
      by_contra hgt
      have hnot : ¬k + 1 < (ZonePull.after zone (k + 1)).requests.length := by
        rw [hlast.1, length_expectedRequests]
        omega
      by_cases heq : n = k + 1
      · exact hnot (heq ▸ hlt)
      · exact hnot (hpgs (k + 1) (by omega)).1
    exact ⟨hle, happ n hle⟩

/-- When all its operations have answered, it has stopped where it should. -/
theorem Reached.exact_of_stopsAt (h : Reached zone z) (hstp : StopsAt zone k)
    (hfin : z.finished) : z.Exact := by
  unfold Exact
  rw [h.zone_eq]
  cases h with
  | new => cases hfin.1
  | failed hens =>
    obtain ⟨hreq, hcal⟩ := requests_of_ensureError hens
    exact ⟨hcal, .inl ⟨hens, hreq⟩⟩
  | after hens n hpgs =>
    rcases hstp with hens' | ⟨hfst, happ, hstop⟩
    · rw [hens] at hens'
      cases hens'
    have hlast := after_of_firstStop hens hfst
    rw [if_pos hstop] at hlast
    have hand := (after_spec hens n).2.2
    have hle := hfin.2
    obtain rfl : n = k + 1 := by
      rcases Nat.lt_trichotomy n (k + 1) with hlt | heq | hgt
      · have hreq := (after_of_not_stops (n := n) hens fun i hi => hfst.2 i (by omega)).1
        rw [hreq, length_expectedRequests] at hle
        omega
      · exact heq
      · have hmore := (hpgs (k + 1) hgt).1
        rw [hlast.1, length_expectedRequests] at hmore
        omega
    exact ⟨hlast.2, .inr ⟨hens, k, hfst, hlast.1, hand⟩⟩

/-- A zone that has stopped as it should has stopped at such a page. -/
theorem Reached.exists_stopsAt (h : Reached zone z) (hxct : z.Exact) : ∃ k, StopsAt zone k := by
  obtain ⟨-, hcas⟩ := hxct
  rw [h.zone_eq] at hcas
  rcases hcas with ⟨hens, -⟩ | ⟨hens, k, hfst, hreq, hand⟩
  · exact ⟨0, .inl hens⟩
  · cases h with
    | new => cases hand
    | failed hens' =>
      rw [hens] at hens'
      cases hens'
    | after _ n hpgs =>
      rw [(after_spec hens n).2.2] at hand
      subst hand
      have hlast := after_of_firstStop hens hfst
      refine ⟨k, .inr ⟨hfst, fun i hi => (hpgs i (by omega)).2, ?_⟩⟩
      by_contra hstop
      rw [if_neg hstop, hreq, length_expectedRequests] at hlast
      omega

end ZonePull

/-! ### All zones -/

/-- `pull` -/
structure Pull (ε τ : Type) where
  /-- `ensureRecordZonesExist` has called back. -/
  ensured : Bool
  zones : List (ZonePull ε τ)
  grp : Group
  errors : List (PullError ε)
  /-- What the completion handler was called with, each time. -/
  completions : List (List (PullError ε))
  /-- The cast of an error has failed, which ends the program. -/
  trapped : Bool

/-- The callbacks of a pull. -/
inductive PullEvent
  | ensured
  /-- The notification of the group is registered. -/
  | await
  | zoneEnsured (i : ℕ)
  | answered (i : ℕ)
  | notify

variable {event : PullEvent} {z : ZonePull ε τ}

namespace Pull

/-- The zones that `ensureRecordZonesExist` gives. -/
def zonesOf : Except ε (List (Zone ε τ)) → List (Zone ε τ)
  | .ok zones => zones
  | .error _ => []

/-- `pull` was called. -/
def start : Pull ε τ := ⟨false, [], new.enter, [], [], false⟩

/-- A change of one zone; the handlers that it calls append to the errors and leave the group. -/
def change (i : ℕ) (z z' : ZonePull ε τ) (p : Pull ε τ) : Pull ε τ :=
  { p with
    zones := p.zones.set i z'
    grp := { p.grp with left := p.grp.left + (z'.calls.length - z.calls.length) }
    errors := p.errors ++ (z'.calls.drop z.calls.length).flatMap PullCall.errors }

/-- The callbacks of `ensureRecordZonesExist`. -/
def ensure (zones : Except ε (List (Zone ε τ))) (p : Pull ε τ) : Pull ε τ :=
  match zones with
  | .ok zones =>
    { p with
      ensured := true
      zones := zones.map ZonePull.new
      grp := leave { p.grp with entered := p.grp.entered + zones.length } }
  | .error e =>
    { p with ensured := true, errors := p.errors ++ [.underlyingError e], grp := p.grp.leave }

/-- An operation of a zone delivers its page. -/
def answer (i : ℕ) (z : ZonePull ε τ) (p : Pull ε τ) : Pull ε τ :=
  if (z.zone.page z.answered).applies then p.change i z (z.answer (z.zone.page z.answered))
  else { p with trapped := true }

/-- One event. -/
def step (zones : Except ε (List (Zone ε τ))) (event : PullEvent) (p : Pull ε τ) :
    Option (Pull ε τ) :=
  if p.trapped then none
  else match event with
    | .ensured => if p.ensured then none else some (p.ensure zones)
    | .await => if p.grp.awaited then none else some { p with grp := p.grp.await }
    | .zoneEnsured i =>
      match p.zones[i]? with
      | some z => if z.started then none else some (p.change i z z.start)
      | none => none
    | .answered i =>
      match p.zones[i]? with
      | some z => if z.answered < z.requests.length then some (p.answer i z) else none
      | none => none
    | .notify =>
      if p.grp.ready then
        some { p with grp := p.grp.notify, completions := p.completions ++ [p.errors] }
      else none

/-- Every run comes to an end; then each zone has stopped as it should, the group was entered and
left equally often, and the completion handler was called once. -/
def Completes (zones : Except ε (List (Zone ε τ))) : Prop :=
  (∃ bound, ∀ schedule p, run (step zones) schedule start = some p → schedule.length ≤ bound) ∧
    ∀ schedule p, run (step zones) schedule start = some p → Quiescent (step zones) p →
      (∀ z ∈ p.zones, z.Exact) ∧ p.grp.entered = p.grp.left ∧ p.completions.length = 1

section

variable {zones : Except ε (List (Zone ε τ))} {p p' : Pull ε τ}

/-! ### What a step does -/

/-- The invariant of a pull. -/
structure Tracks (zones : Except ε (List (Zone ε τ))) (p : Pull ε τ) : Prop where
  waiting : p.ensured = false → p.zones = [] ∧ p.grp.entered = 1 ∧ p.grp.left = 0 ∧ p.trapped = false
  zones : p.ensured = true → p.zones.map ZonePull.zone = zonesOf zones
  reached : ∀ z ∈ p.zones, ZonePull.Reached z.zone z
  entered : p.ensured = true → p.grp.entered = p.zones.length + 1
  left : p.ensured = true → p.grp.left = (p.zones.map fun z => z.calls.length).sum + 1
  completions : p.completions.length = p.grp.notified.toNat

theorem step_cases (h : step zones event p = some p') :
    p.trapped = false ∧ (p.ensured = false ∧ p' = p.ensure zones ∨
      p.grp.awaited = false ∧ p' = { p with grp := p.grp.await } ∨
      (∃ i z, p.zones[i]? = some z ∧ z.started = false ∧ p' = p.change i z z.start) ∨
      (∃ i z, p.zones[i]? = some z ∧ z.answered < z.requests.length ∧ p' = p.answer i z) ∨
      p.grp.ready ∧
        p' = { p with grp := p.grp.notify, completions := p.completions ++ [p.errors] }) := by
  unfold step at h
  split at h
  · cases h
  · next htr =>
    refine ⟨by simpa using htr, ?_⟩
    cases event with
    | ensured =>
      simp only at h
      split at h
      · cases h
      · next hens =>
        cases h
        exact .inl ⟨by simpa using hens, rfl⟩
    | await =>
      simp only at h
      split at h
      · cases h
      · next hawa =>
        cases h
        exact .inr (.inl ⟨by simpa using hawa, rfl⟩)
    | zoneEnsured i =>
      simp only at h
      split at h
      · next z hz =>
        split at h
        · cases h
        · next hstd =>
          cases h
          exact .inr (.inr (.inl ⟨i, z, hz, by simpa using hstd, rfl⟩))
      · cases h
    | answered i =>
      simp only at h
      split at h
      · next z hz =>
        split at h
        · next hlt =>
          cases h
          exact .inr (.inr (.inr (.inl ⟨i, z, hz, hlt, rfl⟩)))
        · cases h
      · cases h
    | notify =>
      simp only at h
      split at h
      · next hrdy =>
        cases h
        exact .inr (.inr (.inr (.inr ⟨hrdy, rfl⟩)))
      · cases h

theorem sum_map_set {α : Type} (f : α → ℕ) {l : List α} {a : α} (h : l[i]? = some a) (b : α) :
    ((l.set i b).map f).sum + f a = (l.map f).sum + f b := by
  induction l generalizing i with
  | nil => cases h
  | cons x l ih =>
    cases i with
    | zero =>
      cases h
      simp only [set_cons_zero, map_cons, sum_cons]
      omega
    | succ i =>
      have hrest := ih h
      simp only [set_cons_succ, map_cons, sum_cons]
      omega

/-! ### The invariant -/

theorem tracks_start : Tracks zones (start : Pull ε τ) where
  waiting _ := ⟨rfl, rfl, rfl, rfl⟩
  zones h := by cases h
  reached z hz := by cases hz
  entered h := by cases h
  left h := by cases h
  completions := rfl

theorem Tracks.ensured (h : Tracks zones p) (hz : z ∈ p.zones) : p.ensured = true := by
  by_contra hensured
  rw [(h.waiting (by simpa using hensured)).1] at hz
  cases hz

theorem Tracks.zone_mem (h : Tracks zones p) (hz : z ∈ p.zones) : z.zone ∈ zonesOf zones := by
  rw [← h.zones (h.ensured hz)]
  exact mem_map_of_mem hz

theorem Tracks.change (h : Tracks zones p) {z' : ZonePull ε τ} (hz : p.zones[i]? = some z)
    (hzone : z'.zone = z.zone) (hrea : ZonePull.Reached z'.zone z')
    (hcal : z.calls.length ≤ z'.calls.length) : Tracks zones (p.change i z z') := by
  have hne := h.ensured (mem_of_getElem? hz)
  refine ⟨fun hwai => ?_, fun _ => ?_, fun y hy => ?_, fun _ => ?_, fun _ => ?_, h.completions⟩
  · cases hne.symm.trans hwai
  · rw [← h.zones hne]
    refine ext_getElem? fun j => ?_
    simp only [Pull.change, getElem?_map, getElem?_set]
    split
    · next heq =>
      subst heq
      rw [hz]
      obtain ⟨hlt, -⟩ := List.getElem?_eq_some_iff.1 hz
      simp [hlt, hzone]
    · rfl
  · rcases mem_or_eq_of_mem_set hy with hy | rfl
    · exact h.reached y hy
    · exact hrea
  · show p.grp.entered = (p.zones.set i z').length + 1
    rw [length_set, h.entered hne]
  · show p.grp.left + (z'.calls.length - z.calls.length) = _
    have hsum := sum_map_set (fun z => z.calls.length) hz z'
    have hleft := h.left hne
    simp only [Pull.change]
    omega

theorem Tracks.start_zone (h : Tracks zones p) (hz : p.zones[i]? = some z)
    (hstd : z.started = false) : Tracks zones (p.change i z z.start) := by
  have hrea := h.reached z (mem_of_getElem? hz)
  have hst := hrea.start hstd
  have hzone := hst.zone_eq
  refine h.change hz hzone (hzone.symm ▸ hst) ?_
  unfold ZonePull.start
  split
  · simp [ZonePull.call]
  · exact le_rfl

theorem length_calls_le (page : Page ε τ) (z : ZonePull ε τ) :
    z.calls.length ≤ (z.answer page).calls.length := by
  cases hfls : page.fails with
  | true =>
    rw [(ZonePull.answer_of_fails hfls z).2]
    exact Nat.le_succ _
  | false =>
    rw [(ZonePull.answer_of_not_fails hfls z).2]
    exact Nat.le_add_right _ _

theorem Tracks.answer (h : Tracks zones p) (hz : p.zones[i]? = some z)
    (hlt : z.answered < z.requests.length) : Tracks zones (p.answer i z) := by
  have hrea := h.reached z (mem_of_getElem? hz)
  unfold Pull.answer
  split
  · next happ =>
    have hans := hrea.answer hlt happ
    have hzone := hans.zone_eq
    exact h.change hz hzone (hzone.symm ▸ hans) (length_calls_le _ z)
  · refine ⟨fun hwai => ?_, h.zones, h.reached, h.entered, h.left, h.completions⟩
    rw [(h.waiting hwai).1] at hz
    cases hz

attribute [local simp] Pull.ensure

attribute [local simp] leave

theorem Tracks.ensure (h : Tracks zones p) (hens : p.ensured = false) :
    Tracks zones (p.ensure zones) := by
  obtain ⟨hzon, hetd, hleft, -⟩ := h.waiting hens
  cases zones with
  | ok zones =>
    refine ⟨fun hwai => (by cases hwai), fun _ => ?_, fun z hz => ?_, fun _ => ?_, fun _ => ?_,
      h.completions⟩
    · simp
      exact map_id _
    · obtain ⟨zone, -, rfl⟩ := mem_map.1 hz
      exact .new
    · simp
      omega
    · simp [hleft]
      rw [sum_eq_zero]
      intro n hn
      obtain ⟨zone, -, rfl⟩ := mem_map.1 hn
      rfl
  | error e =>
    refine ⟨fun hwai => (by cases hwai), fun _ => ?_, fun z hz => ?_, fun _ => ?_, fun _ => ?_,
      h.completions⟩
    · simp [hzon, zonesOf]
    · exact h.reached z hz
    · simp [hetd, hzon]
    · simp [hleft, hzon]

theorem tracks_of_step (h : Tracks zones p) (hstep : step zones event p = some p') :
    Tracks zones p' := by
  obtain ⟨-, ⟨hens, rfl⟩ | ⟨-, rfl⟩ | ⟨i, z, hz, hstd, rfl⟩ | ⟨i, z, hz, hlt, rfl⟩ |
    ⟨hrdy, rfl⟩⟩ := step_cases hstep
  · exact h.ensure hens
  · exact ⟨h.waiting, h.zones, h.reached, h.entered, h.left, h.completions⟩
  · exact h.start_zone hz hstd
  · exact h.answer hz hlt
  · refine ⟨h.waiting, h.zones, h.reached, h.entered, h.left, ?_⟩
    simp only [ready, Bool.and_eq_true, Bool.not_eq_true'] at hrdy
    rw [length_append, h.completions, hrdy.1.2]
    rfl

theorem tracks_of_run {schedule : List PullEvent} (hrun : run (step zones) schedule start = some p) :
    Tracks zones p :=
  run_invariant (P := Tracks zones) (fun _ _ _ => tracks_of_step) tracks_start hrun

/-! ### The end of a run -/

/-- When nothing can happen any more, all operations have answered, and the notification has run if
the group is balanced. -/
theorem finished_of_quiescent (htr : p.trapped = false)
    (hq : Quiescent (step zones) p) :
    p.ensured = true ∧ (∀ z ∈ p.zones, z.finished) ∧
      (p.grp.entered = p.grp.left → p.grp.notified = true) := by
  have hens : p.ensured = true := by
    by_contra hens
    have := hq .ensured
    simp [step, htr, hens] at this
  have hawa : p.grp.awaited = true := by
    by_contra hawa
    have := hq .await
    simp [step, htr, hawa] at this
  refine ⟨hens, fun z hz => ?_, fun hbal => ?_⟩
  · obtain ⟨i, hi⟩ := getElem?_of_mem hz
    constructor
    · by_contra hstarted
      have := hq (.zoneEnsured i)
      simp [step, htr, hi, hstarted] at this
    · by_contra hlt
      have := hq (.answered i)
      simp [step, htr, hi, not_le.1 hlt] at this
  · by_contra hnotified
    have := hq .notify
    simp [step, htr, ready, hawa, hnotified, hbal] at this

/-- A trap leaves an operation whose page was not taken. -/
theorem exists_unanswered {schedule : List PullEvent}
    (hrun : run (step zones) schedule start = some p) (htr : p.trapped = true) :
    ∃ z ∈ p.zones, z.answered < z.requests.length := by
  have hinv : p.trapped = true → ∃ z ∈ p.zones, z.answered < z.requests.length := by
    refine run_invariant (P := fun p : Pull ε τ => p.trapped = true →
      ∃ z ∈ p.zones, z.answered < z.requests.length) ?_ (fun h => by cases h) hrun
    intro event p p' _ hstep htr
    obtain ⟨hnot, ⟨-, rfl⟩ | ⟨-, rfl⟩ | ⟨i, z, hz, -, rfl⟩ | ⟨i, z, hz, hlt, rfl⟩ | ⟨-, rfl⟩⟩ :=
      step_cases hstep
    · cases zones <;> cases hnot.symm.trans htr
    · cases hnot.symm.trans htr
    · cases hnot.symm.trans htr
    · unfold answer at htr ⊢
      split at htr
      · cases hnot.symm.trans htr
      · next happ =>
        rw [if_neg happ]
        exact ⟨z, mem_of_getElem? hz, hlt⟩
    · cases hnot.symm.trans htr
  exact hinv htr

/-- The events that are still to come from the zone, at most. -/
def remaining (limit : Zone ε τ → ℕ) (z : ZonePull ε τ) : ℕ :=
  (!z.started).toNat + (limit z.zone + 1 - z.answered)

/-- The events that are still to come, at most. -/
def pending (zones : Except ε (List (Zone ε τ))) (limit : Zone ε τ → ℕ) (p : Pull ε τ) : ℕ :=
  (if p.ensured then (p.zones.map (remaining limit)).sum
    else ((zonesOf zones).map fun zone => limit zone + 2).sum + 1) +
    (!p.grp.awaited).toNat + (!p.grp.notified).toNat

theorem pending_change {limit : Zone ε τ → ℕ} {z' : ZonePull ε τ} (hens : p.ensured = true)
    (hz : p.zones[i]? = some z) (hlt : remaining limit z' < remaining limit z) :
    (p.change i z z').pending zones limit < p.pending zones limit := by
  have hsum := sum_map_set (remaining limit) hz z'
  simp only [pending, change, hens, if_true]
  omega

/-- Where every zone stops as it should, each event is one of those still to come. -/
theorem pending_lt {limit : Zone ε τ → ℕ}
    (hlim : ∀ zone ∈ zonesOf zones, ZonePull.StopsAt zone (limit zone)) (h : Tracks zones p)
    (hstep : step zones event p = some p') :
    p'.trapped = false ∧ p'.pending zones limit < p.pending zones limit := by
  obtain ⟨hnot, ⟨hens, rfl⟩ | ⟨hawa, rfl⟩ | ⟨i, z, hz, hstd, rfl⟩ | ⟨i, z, hz, hlt, rfl⟩ |
    ⟨hrdy, rfl⟩⟩ := step_cases hstep
  · obtain ⟨hzon, -⟩ := h.waiting hens
    cases zones with
    | ok zones =>
      refine ⟨hnot, ?_⟩
      have hsum : (zones.map ZonePull.new).map (remaining limit) =
          zones.map fun zone => limit zone + 2 := by
        rw [map_map]
        refine map_congr_left fun zone _ => ?_
        simp only [Function.comp_apply, remaining, ZonePull.new, Bool.not_false, Bool.toNat_true]
        omega
      simp only [pending, ensure, hens, zonesOf, hsum, leave, if_true, Bool.false_eq_true,
        if_false]
      omega
    | error e =>
      refine ⟨hnot, ?_⟩
      simp [pending, ensure, hens, hzon]
  · refine ⟨hnot, ?_⟩
    simp [pending, await, hawa]
  · have hmem := mem_of_getElem? hz
    have hzone := ((h.reached z hmem).start hstd).zone_eq
    refine ⟨hnot, pending_change (h.ensured hmem) hz ?_⟩
    simp only [remaining, ZonePull.started_start, hstd, hzone, ZonePull.answered_start]
    simp
  · have hmem := mem_of_getElem? hz
    obtain ⟨hle, happ⟩ :=
      (h.reached z hmem).le_of_stopsAt (hlim z.zone (h.zone_mem hmem)) hlt
    obtain ⟨hzone, hstd, hand, -⟩ := ZonePull.answer_spec (z.zone.page z.answered) z
    rw [answer, if_pos happ]
    refine ⟨hnot, pending_change (h.ensured hmem) hz ?_⟩
    simp only [remaining, hzone, hstd]
    omega
  · refine ⟨hnot, ?_⟩
    simp only [ready, Bool.and_eq_true, Bool.not_eq_true'] at hrdy
    simp [pending, notify, hrdy.1.2]

/-- Where the pull completes, each zone has a page at which it stops as it should. -/
theorem exists_stopsAt_of_completes (h : Completes zones) :
    ∀ zone ∈ zonesOf zones, ∃ k, ZonePull.StopsAt zone k := by
  obtain ⟨⟨bound, hbd⟩, hend⟩ := h
  obtain ⟨schedule, p, hrun, hq⟩ := exists_run_quiescent hbd
  have htrk := tracks_of_run hrun
  obtain ⟨hxct, -⟩ := hend schedule p hrun hq
  -- An operation is left over after a trap, and an exact zone has none.
  have htr : p.trapped = false := by
    by_contra htr
    obtain ⟨z, hz, hlt⟩ := exists_unanswered hrun (by simpa using htr)
    obtain ⟨-, ⟨-, hreq⟩ | ⟨-, k, -, hreq, hand⟩⟩ := hxct z hz
    · rw [hreq] at hlt
      exact absurd hlt (Nat.not_lt_zero _)
    · rw [hreq, hand, ZonePull.length_expectedRequests] at hlt
      exact absurd hlt (lt_irrefl _)
  obtain ⟨hens, -⟩ := finished_of_quiescent htr hq
  intro zone hzone
  rw [← htrk.zones hens] at hzone
  obtain ⟨z, hz, rfl⟩ := mem_map.1 hzone
  exact (htrk.reached z hz).exists_stopsAt (hxct z hz)

theorem completes_of_stopsAt (h : ∀ zone ∈ zonesOf zones, ∃ k, ZonePull.StopsAt zone k) :
    Completes zones := by
  choose! limit hlimit using h
  have hstep (event : PullEvent) (p p' : Pull ε τ) (hp : Tracks zones p ∧ p.trapped = false)
      (hstep : step zones event p = some p') :
      (Tracks zones p' ∧ p'.trapped = false) ∧ p'.pending zones limit < p.pending zones limit := by
    obtain ⟨htr, hlt⟩ := pending_lt hlimit hp.1 hstep
    exact ⟨⟨tracks_of_step hp.1 hstep, htr⟩, hlt⟩
  refine ⟨⟨start.pending zones limit, fun schedule p hrun => ?_⟩, fun schedule p hrun hq => ?_⟩
  · have hlen := length_le_of_measure hstep ⟨tracks_start, rfl⟩ hrun
    omega
  · obtain ⟨htrk, htr⟩ := run_invariant
      (P := fun p => Tracks zones p ∧ p.trapped = false)
      (fun event p p' hp h => (hstep event p p' hp h).1) ⟨tracks_start, rfl⟩ hrun
    obtain ⟨hens, hfin, hntf⟩ := finished_of_quiescent htr hq
    have hxct : ∀ z ∈ p.zones, z.Exact := fun z hz =>
      (htrk.reached z hz).exact_of_stopsAt (hlimit z.zone (htrk.zone_mem hz)) (hfin z hz)
    have hbal : p.grp.entered = p.grp.left := by
      rw [htrk.entered hens, htrk.left hens, map_congr_left fun z hz => (hxct z hz).1]
      simp
    refine ⟨hxct, hbal, ?_⟩
    rw [htrk.completions, hntf hbal]
    rfl

/-- A pull completes if and only if each zone fails to be ensured, or stops as it should. -/
theorem completes_iff_stopsAt (zones : Except ε (List (Zone ε τ))) :
    Completes zones ↔ ∀ zone ∈ zonesOf zones, ∃ k, ZonePull.StopsAt zone k :=
  ⟨exists_stopsAt_of_completes, completes_of_stopsAt⟩

end

/-- A zone whose changes come in two pages. -/
def twoPages : Zone String ℕ where
  zoneID := ⟨"MPNote", "owner"⟩
  serverChangeToken := none
  ensureError := none
  page n := ⟨true, [], n == 0, none, some n, none⟩

/-- After the second page a third is requested. -/
theorem twoPages_not_completes : ¬Completes (.ok [twoPages]) := by
  intro h
  obtain ⟨k, hens | ⟨⟨hstp, hbef⟩, -, hfls | ⟨rfl, hcom⟩⟩⟩ :=
    exists_stopsAt_of_completes h twoPages (mem_singleton_self _)
  · cases hens
  · cases hfls
  · cases hcom

end Pull

end Feather.Sync
