import Feather.Async.System

/-!
# Loading the bundled database

`loadBundledDatabaseResources:` of `MPManagedObjectsController.m` copies a database out of the
bundle, replicates it and remembers its checksum in the metadata.  It waits until the handler of the
replication (`processUpdatedBundledDataLoadReplication:`) clears the flag that it has set.
-/

namespace Feather.Controllers

open Async

variable {χ : Type}

/-- What is known of a bundled resource: the flag and the digests. -/
structure Loading (χ : Type) where
  /-- `_loadingBundledDatabaseResources` -/
  loading : Bool
  memory : Option χ
  persisted : Option χ
  replicated : Option χ
  deriving DecidableEq

/-- How a replication stops, and what `save:` returns if the handler gets there. -/
structure Ending where
  failed : Bool
  saves : Bool
  deriving DecidableEq

/-- What `loadBundledDatabaseResources` meets with. -/
structure BundleCall (χ : Type) where
  /-- The digest of the file `bundledResourceDatabaseName`, `none` without a name. -/
  resource : Option χ
  temporaryPaths : Bool
  copiesBundle : Bool
  /-- `none` if there are no attachments to copy. -/
  copiesAttachments : Option Bool
  purges : Bool
  starts : Bool
  ending : Ending
  deriving DecidableEq

/-- `processUpdatedBundledDataLoadReplication:` for a replication that has stopped. -/
def processUpdatedReplication (ending : Ending) (s : Loading χ) : Loading χ :=
  if ending.failed then { s with loading := false }
  else { s with persisted := if ending.saves then s.memory else s.persisted, loading := false }

/-- A previous version is purged, whether or not all of it can be. -/
def purge (s : Loading χ) : Loading χ := if s.memory.isSome then { s with replicated := none } else s

/-- What the replication itself does to the database. -/
def replicate (md5 : χ) (ending : Ending) (s : Loading χ) : Loading χ :=
  if ending.failed then s else { s with replicated := some md5 }

@[simp] theorem purge_loading (s : Loading χ) : (purge s).loading = s.loading := by
  rw [purge]
  split_ifs <;> rfl

@[simp] theorem purge_memory (s : Loading χ) : (purge s).memory = s.memory := by
  rw [purge]
  split_ifs <;> rfl

@[simp] theorem purge_persisted (s : Loading χ) : (purge s).persisted = s.persisted := by
  rw [purge]
  split_ifs <;> rfl

theorem processUpdatedReplication_loading (ending : Ending) (s : Loading χ) :
    (processUpdatedReplication ending s).loading = false := by
  rw [processUpdatedReplication]
  split_ifs <;> rfl

theorem processUpdatedReplication_replicate {ending : Ending} (hfai : ending.failed = false)
    (md5 : χ) (s : Loading χ) :
    processUpdatedReplication ending (replicate md5 ending s) =
      ⟨false, s.memory, if ending.saves then s.memory else s.persisted, some md5⟩ := by
  rw [processUpdatedReplication, replicate, hfai]
  rfl

section

variable [DecidableEq χ]

/-- `loadBundledDatabaseResources:`, with what it returns; `none` where its assertion fails. -/
def load (c : BundleCall χ) (s : Loading χ) : Option (Bool × Loading χ) :=
  if s.loading then none
  else
    let s := { s with loading := true }
    match c.resource with
    | none => some (true, s)
    | some md5 =>
      if c.temporaryPaths = false then some (false, s)
      -- this version already loaded
      else if s.memory = some md5 then some (true, s)
      else if c.copiesBundle = false ∨ c.copiesAttachments = some false then some (false, s)
      else if s.memory.isSome ∧ c.purges = false then some (false, purge s)
      else if c.starts = false then some (false, purge s)
      else
        -- the run loop runs until the handler has been called
        let s := processUpdatedReplication c.ending (replicate md5 c.ending (purge s))
        some (true, { s with memory := some md5 })

/-- The call gets as far as a replication of the bundle with this checksum. -/
structure Started (c : BundleCall χ) (s : Loading χ) (md5 : χ) : Prop where
  resource : c.resource = some md5
  temporaryPaths : c.temporaryPaths = true
  new : s.memory ≠ some md5
  copiesBundle : c.copiesBundle = true
  copiesAttachments : c.copiesAttachments ≠ some false
  purges : s.memory.isSome → c.purges = true
  starts : c.starts = true

/-- What a call should leave. -/
structure LoadedCorrectly (c : BundleCall χ) (s : Loading χ) (answer : Bool) (after : Loading χ) :
    Prop where
  complete : ∀ md5, answer = true → c.resource = some md5 → after.replicated = some md5
  failed : ∀ md5, Started c s md5 → c.ending.failed = true →
    after.memory ≠ some md5 ∧ after.persisted ≠ some md5
  persists : ∀ md5, Started c s md5 → c.ending.failed = false → after.persisted = some md5
  clear : after.loading = false

/-- The call passes its assertion and leaves what it should. -/
def Correct (c : BundleCall χ) (s : Loading χ) : Prop :=
  ∃ answer after, load c s = some (answer, after) ∧ LoadedCorrectly c s answer after

section

variable {c : BundleCall χ} {s after : Loading χ} {answer : Bool} {md5 : χ}

theorem load_of_loading (hloa : s.loading = true) : load c s = none := by
  rw [load, if_pos hloa]

/-- A call that starts a replication returns `YES` with the checksum in memory. -/
theorem load_of_started (hloa : s.loading = false) (h : Started c s md5) :
    ∃ after, load c s = some (true, after) ∧ after.loading = false ∧ after.memory = some md5 ∧
      (c.ending.failed = false → after.replicated = some md5 ∧
        after.persisted = if c.ending.saves then s.memory else s.persisted) := by
  obtain ⟨hrsc, hpat, hnew, hbun, hatt, hpur, hsts⟩ := h
  have hpu : ¬(s.memory.isSome = true ∧ c.purges = false) := by
    rintro ⟨hsome, hfls⟩
    rw [hpur hsome] at hfls
    cases hfls
  rw [load]
  simp only [hloa, hrsc, hpat, hnew, hbun, hatt, hsts, hpu]
  refine ⟨_, rfl, processUpdatedReplication_loading _ _, rfl, fun hfai => ?_⟩
  rw [processUpdatedReplication_replicate hfai, purge_memory, purge_persisted]
  exact ⟨rfl, rfl⟩

/-- Every exit before the replication leaves the flag set. -/
theorem loading_of_not_started (hnot : ∀ md5, ¬Started c s md5) (h : load c s = some (answer, after)) :
    after.loading = true := by
  cases hrsc : c.resource with
  | none =>
    simp only [load, hrsc] at h
    split_ifs at h
    cases h
    rfl
  | some md5 =>
    simp only [load, hrsc] at h
    split_ifs at h with hloa hpat hnew hcop hpur hsts
    · cases h
      rfl
    · cases h
      rfl
    · cases h
      rfl
    · cases h
      exact purge_loading _
    · cases h
      exact purge_loading _
    · rw [not_or] at hcop
      refine absurd ⟨hrsc, ?_, hnew, ?_, hcop.2, fun hsome => ?_, ?_⟩ (hnot md5)
      · simpa using hpat
      · simpa using hcop.1
      · simpa [hsome] using hpur
      · simpa using hsts

/-- A call is correct if its replication succeeds and a failing save leaves the saved checksum. -/
theorem correct_iff : Correct c s ↔ s.loading = false ∧
    ∃ md5, Started c s md5 ∧ c.ending.failed = false ∧ c.ending.saves = false ∧
      s.persisted = some md5 := by
  constructor
  · rintro ⟨answer, after, hload, hcor⟩
    have hloa : s.loading = false := by
      by_contra hloa
      rw [load_of_loading (by simpa using hloa)] at hload
      cases hload
    refine ⟨hloa, ?_⟩
    by_cases hstd : ∃ md5, Started c s md5
    · obtain ⟨md5, hstd⟩ := hstd
      obtain ⟨after', hload', -, hmem, hsuc⟩ := load_of_started hloa hstd
      rw [hload] at hload'
      cases hload'
      have hfai : c.ending.failed = false := by
        by_contra hfai
        exact (hcor.failed md5 hstd (by simpa using hfai)).1 hmem
      obtain ⟨-, hper⟩ := hsuc hfai
      rw [hcor.persists md5 hstd hfai] at hper
      cases hsav : c.ending.saves with
      | true =>
        rw [hsav] at hper
        exact absurd hper.symm hstd.new
      | false =>
        rw [hsav] at hper
        exact ⟨md5, hstd, hfai, rfl, hper.symm⟩
    · have hset := loading_of_not_started (not_exists.1 hstd) hload
      rw [hcor.clear] at hset
      cases hset
  · rintro ⟨hloa, md5, hstd, hfai, hsav, hper⟩
    obtain ⟨after, hload, hclr, -, hsuc⟩ := load_of_started hloa hstd
    obtain ⟨hrep, haft⟩ := hsuc hfai
    rw [hsav, if_neg Bool.false_ne_true, hper] at haft
    have huni {md5' : χ} (hrsc : c.resource = some md5') : md5' = md5 := by
      rw [hstd.resource] at hrsc
      exact (Option.some.inj hrsc).symm
    refine ⟨true, after, hload, fun md5' _ hrsc => ?_, fun md5' _ htrue => ?_,
      fun md5' hstd' _ => ?_, hclr⟩
    · rw [huni hrsc, hrep]
    · rw [hfai] at htrue
      cases htrue
    · rw [huni hstd'.resource, haft]

end

/-! ### Runs -/

/-- A call; the handler called by the replication after that; a save of the metadata by other code;
a new start of the application. -/
inductive LoadEvent (χ : Type) where
  | call (c : BundleCall χ)
  | progress (ending : Ending)
  | save
  | restart

/-- One event. -/
def LoadEvent.step : LoadEvent χ → Loading χ → Option (Loading χ)
  | .call c, s => (load c s).map Prod.snd
  | .progress ending, s => some (processUpdatedReplication ending s)
  | .save, s => some { s with persisted := s.memory }
  | .restart, s => some { s with loading := false, memory := s.persisted }

/-- The application is launched, with the metadata as saved. -/
def launch (persisted replicated : Option χ) : Loading χ := ⟨false, persisted, persisted, replicated⟩

/-- Every call of the schedule passes its assertion and leaves what it should. -/
def LoadsCorrectly (start : Loading χ) (schedule : List (LoadEvent χ)) : Prop :=
  ∀ past c s, past ++ [.call c] <+: schedule → run LoadEvent.step past start = some s → Correct c s

/-- No call is on its way, and the metadata are as saved. -/
def Fresh (s : Loading χ) : Prop := s.loading = false ∧ s.memory = s.persisted

theorem Fresh.not_correct {c : BundleCall χ} {s : Loading χ} (h : Fresh s) : ¬Correct c s := by
  intro hcor
  obtain ⟨-, md5, hstd, -, -, hper⟩ := correct_iff.1 hcor
  exact hstd.new (h.2.trans hper)

theorem Fresh.step {e : LoadEvent χ} {s : Loading χ} (h : Fresh s) (hcall : ∀ c, e ≠ .call c) :
    ∃ s', e.step s = some s' ∧ Fresh s' := by
  cases e with
  | call c => exact absurd rfl (hcall c)
  | progress ending =>
    refine ⟨_, rfl, ?_⟩
    rw [processUpdatedReplication]
    split_ifs
    · exact ⟨rfl, h.2⟩
    · exact ⟨rfl, rfl⟩
    · exact ⟨rfl, h.2⟩
  | save => exact ⟨_, rfl, h.1, rfl⟩
  | restart => exact ⟨_, rfl, rfl, rfl⟩

theorem exists_first_call {schedule : List (LoadEvent χ)} {start : Loading χ} {c : BundleCall χ}
    (hfr : Fresh start) (hmem : .call c ∈ schedule) :
    ∃ past c' s, past ++ [.call c'] <+: schedule ∧ run LoadEvent.step past start = some s ∧
      Fresh s := by
  induction schedule generalizing start with
  | nil => exact absurd hmem List.not_mem_nil
  | cons e rest ih =>
    by_cases hcall : ∃ c', e = .call c'
    · obtain ⟨c', rfl⟩ := hcall
      exact ⟨[], c', start, ⟨rest, rfl⟩, rfl, hfr⟩
    · obtain ⟨s, hstep, hs⟩ := hfr.step (not_exists.1 hcall)
      have hrest : .call c ∈ rest :=
        (List.mem_cons.1 hmem).resolve_left fun heq => hcall ⟨c, heq.symm⟩
      obtain ⟨past, c', s', hpast, hrun, hs'⟩ := ih hs hrest
      refine ⟨e :: past, c', s', ?_, run_cons_eq_some.2 ⟨s, hstep, hrun⟩, hs'⟩
      exact (List.prefix_cons_inj e).2 hpast

/-- Only a run without a call is correct: the first call leaves the flag set, or the checksum of a
failed replication, or a checksum in memory only. -/
theorem loadsCorrectly_iff (persisted replicated : Option χ) (schedule : List (LoadEvent χ)) :
    LoadsCorrectly (launch persisted replicated) schedule ↔ ∀ c, .call c ∉ schedule := by
  constructor
  · intro h c hmem
    have hfr : Fresh (launch persisted replicated) := ⟨rfl, rfl⟩
    obtain ⟨past, c', s, hpast, hrun, hs⟩ := exists_first_call hfr hmem
    exact hs.not_correct (h past c' s hpast hrun)
  · intro h past c s hpast _
    exact absurd (hpast.subset (by simp)) (h c)

/-- A replication fails: the call returns `YES`, and a later one takes the bundle for loaded. -/
theorem not_loadsCorrectly_failing :
    load ⟨some "md5", true, true, none, true, true, ⟨true, true⟩⟩ (launch none none) =
        some (true, ⟨false, some "md5", none, none⟩) ∧
      load ⟨some "md5", true, true, none, true, true, ⟨false, true⟩⟩
        ⟨false, some "md5", none, none⟩ = some (true, ⟨true, some "md5", none, none⟩) ∧
      ¬LoadsCorrectly (launch none none)
        [.call ⟨some "md5", true, true, none, true, true, ⟨true, true⟩⟩] := by
  refine ⟨by decide, by decide, fun h => ?_⟩
  have hcor := h [] _ _ (List.prefix_refl _) rfl
  exact Fresh.not_correct ⟨rfl, rfl⟩ hcor

end

end Feather.Controllers
