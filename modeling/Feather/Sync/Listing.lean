import Feather.Async.System
import Feather.Sync.Record

/-!
# The list of the packages on the server

`_availableDatabasePackages` of `CloudKitDatabasePackageListingService.swift`.  The list of the last
fetch is updated by the changes that the server reports.  No fetch starts with a token, so the
records that are there are reported, and never a deletion.
-/

namespace Feather.Sync

open Async List Record

variable {records : List Record} {i : ℕ}

/-- `DatabasePackageMetadata` -/
structure DatabasePackageMetadata where
  recordID : RecordID
  title : Option String
  changeTag : Option String
  deriving DecidableEq

namespace DatabasePackageMetadata

/-- The entry for a record; a title that is not a text is none. -/
def ofRecord (record : Record) : DatabasePackageMetadata where
  recordID := record.recordID
  title :=
    match record.object "title" with
    | some (.value (.value (.string title))) => some title
    | _ => none
  changeTag := record.recordChangeTag

end DatabasePackageMetadata

abbrev PackageList := List DatabasePackageMetadata

namespace PackageList

/-- The first entry with an identifier is removed. -/
def removing (recordID : RecordID) (packages : PackageList) : PackageList :=
  packages.eraseP fun package => package.recordID = recordID

/-- A record was changed. -/
def recordChanged (record : Record) (packages : PackageList) : PackageList :=
  packages.removing record.recordID ++ [.ofRecord record]

/-- Only the names are compared. -/
def recordWithIDWasDeleted (recordID : RecordID) (packages : PackageList) : PackageList :=
  packages.eraseP fun package => package.recordID.recordName = recordID.recordName

/-- A change is reported. -/
def report (packages : PackageList) : ServerChange → PackageList
  | .changed record => packages.recordChanged record
  | .deleted recordID => packages.recordWithIDWasDeleted recordID

/-! ### A report of all records -/

theorem map_removing (recordID : RecordID) (packages : PackageList) :
    (packages.removing recordID).map DatabasePackageMetadata.recordID =
      (packages.map DatabasePackageMetadata.recordID).erase recordID := by
  induction packages with
  | nil => rfl
  | cons package packages ih =>
    unfold removing at ih ⊢
    by_cases heq : package.recordID = recordID
    · simp [heq]
    · simp [heq, ih]

/-- What is left of a list when each record has replaced its entry. -/
def leftover (records : List Record) (packages : PackageList) : PackageList :=
  records.foldl (fun packages record => packages.removing record.recordID) packages

theorem map_leftover (records : List Record) (packages : PackageList) :
    (packages.leftover records).map DatabasePackageMetadata.recordID =
      (packages.map DatabasePackageMetadata.recordID).diff (records.map recordID) := by
  induction records generalizing packages with
  | nil => rfl
  | cons record records ih =>
    rw [leftover, foldl_cons, ← leftover, ih, map_removing, map_cons, diff_cons]

theorem removing_append {recordID : RecordID} {entries : PackageList}
    (h : ∀ package ∈ entries, package.recordID ≠ recordID) (packages : PackageList) :
    (packages ++ entries).removing recordID = packages.removing recordID ++ entries := by
  unfold removing
  by_cases hmem : ∃ package ∈ packages, package.recordID = recordID
  · obtain ⟨package, hpkg, heq⟩ := hmem
    exact eraseP_append_left (by simpa using heq) entries hpkg
  · have hnot : ∀ package ∈ packages, ¬decide (package.recordID = recordID) = true := by
      intro package hpkg heq
      exact hmem ⟨package, hpkg, by simpa using heq⟩
    have hnot' : ∀ package ∈ entries, ¬decide (package.recordID = recordID) = true := by
      intro package hpkg heq
      exact h package hpkg (by simpa using heq)
    rw [eraseP_append_right _ hnot, eraseP_of_forall_not hnot, eraseP_of_forall_not hnot']

/-- Reported records come behind what is left of the list. -/
theorem foldl_recordChanged (hnd : (records.map recordID).Nodup) {done : List Record}
    (hdone : ∀ r ∈ done, r.recordID ∉ records.map recordID) (packages : PackageList) :
    records.foldl (fun packages record => packages.recordChanged record)
        (packages ++ done.map .ofRecord) =
      packages.leftover records ++ (done ++ records).map .ofRecord := by
  induction records generalizing packages done with
  | nil => simp [leftover]
  | cons record records ih =>
    rw [map_cons, nodup_cons] at hnd
    have hots : ∀ package ∈ done.map DatabasePackageMetadata.ofRecord,
        package.recordID ≠ record.recordID := by
      intro package hpkg heq
      obtain ⟨r, hr, rfl⟩ := mem_map.1 hpkg
      exact hdone r hr (mem_cons.2 (.inl heq))
    have hdone' : ∀ r ∈ done ++ [record], r.recordID ∉ records.map recordID := by
      intro r hr
      rcases mem_append.1 hr with hr | hr
      · exact fun hmem => hdone r hr (mem_cons_of_mem _ hmem)
      · rw [mem_singleton.1 hr]
        exact hnd.1
    have hstep : recordChanged record (packages ++ done.map .ofRecord) =
        packages.removing record.recordID ++ (done ++ [record]).map .ofRecord := by
      rw [recordChanged, removing_append hots, map_append, append_assoc]
      rfl
    rw [foldl_cons, hstep, ih hnd.2 hdone', leftover, leftover, foldl_cons,
      append_assoc, singleton_append]

theorem leftover_eq_nil_iff (hnd : (records.map recordID).Nodup)
    (packages : PackageList) :
    packages.leftover records = [] ↔
      (packages.map DatabasePackageMetadata.recordID).Nodup ∧
        ∀ package ∈ packages, package.recordID ∈ records.map recordID := by
  rw [← map_eq_nil_iff (f := DatabasePackageMetadata.recordID), map_leftover]
  constructor
  · intro h
    have hcnt (recordID : RecordID) :
        (packages.map DatabasePackageMetadata.recordID).count recordID ≤
          (records.map Record.recordID).count recordID := by
      have hdiff := congrArg (count recordID) h
      rw [count_diff, count_nil] at hdiff
      omega
    refine ⟨nodup_iff_count_le_one.2 fun recordID => ?_, fun package hpkg => ?_⟩
    · exact (hcnt recordID).trans (nodup_iff_count_le_one.1 hnd recordID)
    · refine count_pos_iff.1 (lt_of_lt_of_le ?_ (hcnt package.recordID))
      exact count_pos_iff.2 (mem_map_of_mem hpkg)
  · rintro ⟨hids, hmem⟩
    rw [eq_nil_iff_forall_not_mem]
    intro recordID hrec
    obtain ⟨hid, hnot⟩ := (hids.mem_sdiff_iff).1 hrec
    obtain ⟨package, hpkg, rfl⟩ := mem_map.1 hid
    exact hnot (hmem package hpkg)

end PackageList

/-- The record of a change that is not a deletion. -/
def ServerChange.record? : ServerChange → Option Record
  | .changed record => some record
  | .deleted _ => none

/-- A report of all records is one of them in some order. -/
theorem exists_map_changed {changes : List ServerChange} (h : changes.Perm (records.map .changed)) :
    ∃ reported : List Record, changes = reported.map .changed ∧ reported.Perm records := by
  refine ⟨changes.filterMap ServerChange.record?, ?_, ?_⟩
  · have hall : ∀ change ∈ changes, ∃ record, change = .changed record := by
      intro change hchg
      obtain ⟨record, -, rfl⟩ := mem_map.1 (h.mem_iff.1 hchg)
      exact ⟨record, rfl⟩
    clear h
    induction changes with
    | nil => rfl
    | cons change changes ih =>
      obtain ⟨record, rfl⟩ := hall change mem_cons_self
      have hrest := ih fun change hchg => hall change (mem_cons_of_mem _ hchg)
      show _ = ServerChange.changed record :: (changes.filterMap ServerChange.record?).map .changed
      rw [← hrest]
  · have hrcs : (records.map ServerChange.changed).filterMap ServerChange.record? = records := by
      rw [filterMap_map]
      exact filterMap_some
    rw [← hrcs]
    exact h.filterMap _

/-- After a report of all records, the list has one entry for each exactly if it had entries of
these only, one for each at most. -/
theorem PackageList.perm_report_iff {changes : List ServerChange}
    (h : changes.Perm (records.map .changed)) (hnd : (records.map recordID).Nodup)
    (packages : PackageList) :
    (changes.foldl PackageList.report packages).Perm (records.map .ofRecord) ↔
      (packages.map DatabasePackageMetadata.recordID).Nodup ∧
        ∀ package ∈ packages, package.recordID ∈ records.map recordID := by
  obtain ⟨reported, rfl, hrep⟩ := exists_map_changed h
  have hids := hrep.map recordID
  have hnodup' := hids.nodup_iff.2 hnd
  have hfold : (reported.map ServerChange.changed).foldl PackageList.report packages =
      packages.leftover reported ++ reported.map .ofRecord := by
    have hnone : ∀ r ∈ ([] : List Record), r.recordID ∉ reported.map recordID :=
      fun r hr => by cases hr
    have hchd := PackageList.foldl_recordChanged hnodup' hnone packages
    rw [map_nil, append_nil, nil_append] at hchd
    rw [foldl_map, ← hchd]
    rfl
  have hperm := hrep.map DatabasePackageMetadata.ofRecord
  have hleft := PackageList.leftover_eq_nil_iff hnodup' packages
  simp only [hids.mem_iff] at hleft
  rw [hfold, ← hleft]
  constructor
  · intro hlist
    have hlen := (hlist.trans hperm.symm).length_eq
    rw [length_append] at hlen
    exact length_eq_zero_iff.1 (by omega)
  · intro hnil
    rw [hnil]
    exact hperm

/-- What an operation reports. -/
structure ListingPage where
  changes : List ServerChange
  moreComing : Bool
  /-- The operation has failed. -/
  error : Bool
  /-- The list cannot be written after it. -/
  serializeError : Bool

/-- The last answer to a fetch. -/
def ListingPage.isLast (page : ListingPage) : Bool := page.error || !page.moreComing

/-- A call of `_availableDatabasePackages`, with its variables. -/
structure ListingFetch where
  packages : PackageList
  /-- `op.moreComing` of the first operation, when it has finished. -/
  moreComing : Option Bool
  /-- An operation is on its way. -/
  waiting : Bool
  /-- What the completion handler was called with, each time. -/
  completions : List PackageList
  /-- How often the error handler was called. -/
  errors : ℕ

/-- `CloudKitDatabasePackageListingService`, and the records on the server. -/
structure ListingService where
  server : List Record
  packageList : Option PackageList
  /-- The list in the file, if there is one that can be read. -/
  file : Option PackageList
  fetches : List ListingFetch

/-- What happens to the server and to a listing. -/
inductive ListingEvent
  /-- A record is added to the server or updated. -/
  | put (record : Record)
  | delete (recordID : RecordID)
  | fetch
  | answer (i : ℕ) (page : ListingPage)
  | restart

namespace ListingService

/-- The service when the program starts for the first time. -/
def launch (file : Option PackageList) : ListingService := ⟨[], none, file, []⟩

def put (record : Record) (s : ListingService) : ListingService :=
  { s with server := s.server.filter (fun r => r.recordID ≠ record.recordID) ++ [record] }

def delete (recordID : RecordID) (s : ListingService) : ListingService :=
  { s with server := s.server.filter fun r => r.recordID ≠ recordID }

/-- The list with which a fetch starts. -/
def fetch (s : ListingService) : ListingService :=
  let packageList := s.packageList.or s.file
  { s with packageList, fetches := s.fetches ++ [⟨packageList.getD [], none, true, [], 0⟩] }

/-- The first operation reports the records on the server, if nothing more is coming. -/
def Reports (page : ListingPage) (f : ListingFetch) (s : ListingService) : Prop :=
  f.waiting ∧ (f.moreComing = none → page.isLast → page.error = false →
    page.changes.Perm (s.server.map .changed))

instance (page : ListingPage) (f : ListingFetch) (s : ListingService) :
    Decidable (Reports page f s) :=
  inferInstanceAs (Decidable (_ ∧ _))

/-- The list of a fetch is stored. -/
def store (packages : PackageList) (s : ListingService) : ListingService :=
  { s with packageList := some packages, file := some packages }

def withFetch (i : ℕ) (f : ListingFetch) (s : ListingService) : ListingService :=
  { s with fetches := s.fetches.set i f }

/-- The callbacks of an operation, the last with the first operation. -/
def answer (i : ℕ) (page : ListingPage) (f : ListingFetch) (s : ListingService) : ListingService :=
  let packages := page.changes.foldl PackageList.report f.packages
  let more := f.moreComing.getD page.moreComing
  let f := { f with packages, moreComing := some more, waiting := false }
  if page.error then s.withFetch i { f with errors := f.errors + 1 }
  else if more then s.withFetch i { f with waiting := true }
  else if page.serializeError then s.withFetch i { f with errors := f.errors + 1 }
  else (s.store packages).withFetch i { f with completions := f.completions ++ [packages] }

/-- One event. -/
def step (event : ListingEvent) (s : ListingService) : Option ListingService :=
  match event with
  | .put record => some (s.put record)
  | .delete recordID => some (s.delete recordID)
  | .fetch => some s.fetch
  | .answer i page =>
    match s.fetches[i]? with
    | some f => if s.Reports page f then some (s.answer i page f) else none
    | none => none
  | .restart => some { s with packageList := none, fetches := [] }

/-! ### What is asked of a run -/

variable (file : Option PackageList)

/-- After the events `past` an operation answers. -/
structure Answers (past : List ListingEvent) (s : ListingService) (i : ℕ) (page : ListingPage)
    (f : ListingFetch) : Prop where
  reached : run step past (launch file) = some s
  fetch : s.fetches[i]? = some f
  reports : s.Reports page f

/-- After the last answer its completion handler was called once, with the list of the service, one
entry for each record on the server; before, it was not called. -/
def Lists (page : ListingPage) (f : ListingFetch) (s : ListingService) : Prop :=
  if page.isLast then
    f.waiting = false ∧ ∃ packages, f.completions = [packages] ∧ s.packageList = some packages ∧
      packages.Perm (s.server.map .ofRecord)
  else f.completions = []

/-- Each answer leaves the right list. -/
def ListsExactly (schedule : List ListingEvent) : Prop :=
  ∀ past s i page f s' f', past ++ [.answer i page] <+: schedule → Answers file past s i page f →
    step (.answer i page) s = some s' → s'.fetches[i]? = some f' → Lists page f' s'

/-- The last answer is also the first, nothing fails, and the list at the start has entries of
records on the server, one for each at most. -/
def Fresh (page : ListingPage) (f : ListingFetch) (s : ListingService) : Prop :=
  page.isLast → f.moreComing = none ∧ page.error = false ∧ page.serializeError = false ∧
    (f.packages.map DatabasePackageMetadata.recordID).Nodup ∧
    ∀ package ∈ f.packages, package.recordID ∈ s.server.map recordID

/-- Each answer is as `Fresh` asks. -/
def EachFresh (schedule : List ListingEvent) : Prop :=
  ∀ past s i page f, past ++ [.answer i page] <+: schedule → Answers file past s i page f →
    Fresh page f s

/-! ### What a step does -/

section

variable {file} {event : ListingEvent} {s s' : ListingService} {page : ListingPage} {f : ListingFetch}

/-- The records have different identifiers; a waiting fetch has not called its completion handler,
and more was coming at its first answer. -/
structure Regular (s : ListingService) : Prop where
  nodup : (s.server.map recordID).Nodup
  waiting : ∀ f ∈ s.fetches, f.waiting → f.completions = [] ∧ f.moreComing ≠ some false

theorem answer_cases (i : ℕ) (page : ListingPage) (f : ListingFetch) (s : ListingService) :
    ∃ f', (s.answer i page f).fetches = s.fetches.set i f' ∧
      (s.answer i page f).server = s.server ∧
      (page.error = true ∧ f'.waiting = false ∧ f'.completions = f.completions ∨
        page.error = false ∧ f.moreComing.getD page.moreComing = true ∧ f'.waiting = true ∧
          f'.moreComing = some true ∧ f'.completions = f.completions ∨
        page.error = false ∧ f.moreComing.getD page.moreComing = false ∧
          page.serializeError = true ∧ f'.waiting = false ∧ f'.completions = f.completions ∨
        page.error = false ∧ f.moreComing.getD page.moreComing = false ∧
          page.serializeError = false ∧ f'.waiting = false ∧
          f'.completions = f.completions ++ [page.changes.foldl PackageList.report f.packages] ∧
          (s.answer i page f).packageList =
            some (page.changes.foldl PackageList.report f.packages)) := by
  unfold answer
  simp only
  split
  · next herr => exact ⟨_, rfl, rfl, .inl ⟨herr, rfl, rfl⟩⟩
  · next herr =>
    rw [Bool.not_eq_true] at herr
    split
    · next hmore =>
      exact ⟨_, rfl, rfl, .inr (.inl ⟨herr, hmore, rfl, congrArg some hmore, rfl⟩)⟩
    · next hmore =>
      rw [Bool.not_eq_true] at hmore
      split
      · next hser =>
        exact ⟨_, rfl, rfl, .inr (.inr (.inl ⟨herr, hmore, hser, rfl, rfl⟩))⟩
      · next hser =>
        rw [Bool.not_eq_true] at hser
        exact ⟨_, rfl, rfl, .inr (.inr (.inr ⟨herr, hmore, hser, rfl, rfl, rfl⟩))⟩

theorem Regular.answer (h : Regular s) (hf : s.fetches[i]? = some f) (hrep : s.Reports page f) :
    Regular (s.answer i page f) := by
  obtain ⟨f', hfet, hser, hcas⟩ := answer_cases i page f s
  refine ⟨hser ▸ h.nodup, fun g hg hwai => ?_⟩
  rw [hfet] at hg
  rcases mem_or_eq_of_mem_set hg with hg | rfl
  · exact h.waiting g hg hwai
  · obtain ⟨hbef, -⟩ := h.waiting f (mem_of_getElem? hf) hrep.1
    rcases hcas with ⟨-, hnot, -⟩ | ⟨-, -, -, hmore, hcom⟩ | ⟨-, -, -, hnot, -⟩ |
      ⟨-, -, -, hnot, -⟩
    · cases hnot.symm.trans hwai
    · rw [hcom, hmore]
      exact ⟨hbef, by simp⟩
    · cases hnot.symm.trans hwai
    · cases hnot.symm.trans hwai

theorem nodup_filter (h : (records.map recordID).Nodup) (q : Record → Bool) :
    ((records.filter q).map recordID).Nodup :=
  (filter_sublist.map _).nodup h

theorem regular_of_step (h : Regular s) (hstep : step event s = some s') : Regular s' := by
  cases event with
  | put record =>
    cases hstep
    refine ⟨?_, h.waiting⟩
    rw [put, map_append, map_singleton, nodup_append]
    refine ⟨nodup_filter h.nodup _, nodup_singleton _, ?_⟩
    rintro _ hmem _ hsin rfl
    obtain ⟨r, hr, heq⟩ := mem_map.1 hmem
    rw [mem_singleton] at hsin
    have hne := (mem_filter.1 hr).2
    rw [heq, hsin] at hne
    simp at hne
  | delete recordID =>
    cases hstep
    exact ⟨nodup_filter h.nodup _, h.waiting⟩
  | fetch =>
    cases hstep
    refine ⟨h.nodup, fun f hf hwai => ?_⟩
    rcases mem_append.1 hf with hf | hf
    · exact h.waiting f hf hwai
    · rw [mem_singleton.1 hf]
      exact ⟨rfl, by simp⟩
  | answer i page =>
    simp only [step] at hstep
    split at hstep
    · next f hf =>
      split at hstep
      · next hrep =>
        cases hstep
        exact h.answer hf hrep
      · cases hstep
    · cases hstep
  | restart =>
    cases hstep
    exact ⟨h.nodup, fun f hf => by cases hf⟩

theorem regular_launch (file : Option PackageList) : Regular (launch file) where
  nodup := nodup_nil
  waiting f hf := by cases hf

theorem regular_of_run {past : List ListingEvent} (hrun : run step past (launch file) = some s) :
    Regular s :=
  run_invariant (P := Regular) (fun _ _ _ => regular_of_step) (regular_launch file) hrun

/-! ### One answer -/

/-- After an answer the service lists what it should exactly if the answer was a fresh one. -/
theorem lists_answer_iff (h : Regular s) (hf : s.fetches[i]? = some f)
    (hrep : s.Reports page f) :
    (∀ f', (s.answer i page f).fetches[i]? = some f' → Lists page f' (s.answer i page f)) ↔
      Fresh page f s := by
  obtain ⟨f', hfet, hser, hcas⟩ := answer_cases i page f s
  obtain ⟨hbef, hcap⟩ := h.waiting f (mem_of_getElem? hf) hrep.1
  obtain ⟨hlt, -⟩ := List.getElem?_eq_some_iff.1 hf
  rw [hfet, getElem?_set_self hlt]
  simp only [Option.some.injEq, forall_eq']
  -- without more coming at the first answer, this is the first one and also the last
  have honly (hmore : f.moreComing.getD page.moreComing = false) :
      f.moreComing = none ∧ page.moreComing = false := by
    cases hfst : f.moreComing with
    | none => exact ⟨rfl, by rwa [hfst] at hmore⟩
    | some more =>
      rw [hfst] at hmore
      cases hmore
      exact absurd hfst hcap
  unfold Lists Fresh
  rw [hser]
  rcases hcas with ⟨herr, -, hcom⟩ | ⟨herr, hmore, hwai, -, hcom⟩ |
    ⟨herr, hmore, hserialize, -, hcom⟩ |
    ⟨herr, hmore, hserialize, hwai, hcom, hlist⟩
  · simp [herr, hcom, hbef]
  · cases hco : page.moreComing with
    | true => simp [ListingPage.isLast, herr, hco, hcom, hbef]
    | false =>
      have hfst : f.moreComing ≠ none := by
        intro hnone
        rw [hnone, hco] at hmore
        cases hmore
      simp [ListingPage.isLast, hco, hwai, hfst]
  · obtain ⟨-, hco⟩ := honly hmore
    simp [hcom, hbef, hserialize]
  · obtain ⟨hfst, hco⟩ := honly hmore
    have hlast : page.isLast = true := by simp [ListingPage.isLast, hco]
    have hperm := PackageList.perm_report_iff (hrep.2 hfst hlast herr) h.nodup f.packages
    rw [if_pos hlast, hcom, hbef, hlist]
    constructor
    · rintro ⟨-, packages, heq, -, hpac⟩ -
      cases heq
      exact ⟨hfst, herr, hserialize, hperm.1 hpac⟩
    · intro hfr
      obtain ⟨-, -, -, hent⟩ := hfr hlast
      exact ⟨hwai, _, rfl, rfl, hperm.2 hent⟩

theorem step_answer (hf : s.fetches[i]? = some f) (hrep : s.Reports page f) :
    step (.answer i page) s = some (s.answer i page f) := by
  simp [step, hf, if_pos hrep]

/-- The service lists what it should if and only if each last answer is a fresh one. -/
theorem listsExactly_iff (file : Option PackageList) (schedule : List ListingEvent) :
    ListsExactly file schedule ↔ EachFresh file schedule := by
  constructor
  · intro h past s i page f hpast hans
    refine (lists_answer_iff (regular_of_run hans.reached) hans.fetch hans.reports).1 ?_
    intro f' hf'
    exact h past s i page f _ f' hpast hans (step_answer hans.fetch hans.reports) hf'
  · intro h past s i page f s' f' hpast hans hstep hf'
    rw [step_answer hans.fetch hans.reports] at hstep
    cases hstep
    exact (lists_answer_iff (regular_of_run hans.reached) hans.fetch hans.reports).2
      (h past s i page f hpast hans) f' hf'

end

/-- A record of a package. -/
def testMetadata : Record :=
  ⟨"DatabasePackageMetadata", ⟨"package", ⟨"DatabasePackageMetadata", "owner"⟩⟩, none, ∅⟩

/-- A package is listed, deleted on the server, and listed again: its entry is still there. -/
theorem not_listsExactly_deleted :
    ¬ListsExactly none
      [.put testMetadata, .fetch, .answer 0 ⟨[.changed testMetadata], false, false, false⟩,
        .delete testMetadata.recordID, .fetch, .answer 1 ⟨[], false, false, false⟩] := by
  intro h
  have hfst : Answers none [.put testMetadata, .fetch] _ 0
      ⟨[.changed testMetadata], false, false, false⟩ _ :=
    ⟨rfl, rfl, rfl, fun _ _ _ => List.Perm.refl _⟩
  have hlis := run_concat_eq_some.2 ⟨_, hfst.reached, step_answer hfst.fetch hfst.reports⟩
  have hdld := run_concat_eq_some.2
    ⟨_, run_concat_eq_some.2 ⟨_, hlis, (rfl : step (.delete testMetadata.recordID) _ = _)⟩,
      (rfl : step .fetch _ = _)⟩
  have hsnd : Answers none _ _ 1 ⟨[], false, false, false⟩ _ :=
    ⟨hdld, rfl, rfl, fun _ _ _ => List.Perm.nil⟩
  obtain ⟨-, packages, hcom, -, hperm⟩ := h _ _ 1 _ _ _ _ ⟨[], rfl⟩ hsnd
    (step_answer hsnd.fetch hsnd.reports) rfl
  cases hcom
  cases hperm.length_eq

end ListingService

end Feather.Sync
