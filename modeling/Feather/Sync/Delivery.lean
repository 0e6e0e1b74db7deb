import Feather.Async.System
import Feather.Sync.Fields
import Feather.Sync.Pull

/-!
# The delivery of changes, and the tokens

`_pull` of `CloudKitSyncService.swift` along whole runs.  The server has a log of changes for each
zone, and a token is a position in it: an operation delivers the changes from there on, one callback
for each, and its completion stores the token of where it has come to.
-/

namespace Feather.Sync

open Async Program List
open Feather.Embedding

variable {i : ℕ} {deletes : Bool} {file : Option JSON}

/-- `CKFetchRecordChangesOperation`, with the variables that its callbacks have captured. -/
structure Fetch where
  zoneID : ZoneID
  previousServerChangeToken : Option ℕ
  /-- How many changes it has delivered. -/
  delivered : ℕ
  /-- `op.moreComing` of the first operation, when it has finished. -/
  moreComing : Option Bool
  deletionFails : List RecordID

/-- The position of the next change. -/
def Fetch.position (op : Fetch) : ℕ := op.previousServerChangeToken.getD 0 + op.delivered

/-- What an operation completes with. -/
inductive Answer (ε : Type)
  | failed (e : PullError ε)
  /-- The token of the position that was reached; writing the state with it may fail. -/
  | token (moreComing : Bool) (serializeError : Option ε)

/-- What does not change in a run. -/
structure Setting where
  env : Environment
  controllers : Controllers
  archiving : Archiving ℕ
  /-- The changes of a zone in the order in which they are delivered. -/
  log : ZoneID → ℕ → ServerChange

/-- The times of the records are dates, other than those of the saves. -/
def Setting.HasTimes (x : Setting) : Prop :=
  ∀ zoneID n record, x.log zoneID n = .changed record → Timed x.controllers 0 record

/-- `CloudKitSyncService`, with the package that it synchronizes. -/
structure SyncService (ε : Type) where
  package : PackageController
  repository : RecordRepository
  state : CloudKitState ℕ
  /-- The file that the state was written to. -/
  file : Option JSON
  operations : List Fetch
  calls : List (PullCall ε)
  /-- The program has ended at an error. -/
  trapped : Bool

/-- The records of `repository` are in `repository'` too, and each is under its own identifier. -/
def Enlarges (repository repository' : RecordRepository) : Prop :=
  (∀ id ∈ repository.keys, id ∈ repository'.keys) ∧ ∀ x ∈ repository'.entries, x.2.recordID = x.1

instance (repository repository' : RecordRepository) : Decidable (Enlarges repository repository') :=
  inferInstanceAs (Decidable (_ ∧ _))

/-- What happens to the service. -/
inductive ServiceEvent (ε : Type)
  /-- `_pull` of a zone -/
  | pull (zoneID : ZoneID)
  /-- An operation delivers a change; the database may fail to delete a document. -/
  | deliver (i : ℕ) (deletes : Bool)
  | complete (i : ℕ) (answer : Answer ε)
  /-- A push serializes objects, and leaves this repository. -/
  | push (repository : RecordRepository)
  /-- The package is changed locally. -/
  | edit (package : PackageController)
  | restart

namespace PackageController

/-- `object(withIdentifier:)`, if it is an object of the package itself. -/
def ownObject (env : Environment) (c : Controllers) (name : String) (s : PackageController) :
    Except DeserializerError (Option ManagedObject) :=
  match managedObjectClass env name with
  | none => .error (.raised .unexpectedID)
  | some className => .ok (if c.hasController className then s.objects.object name else none)

/-- The package after `delete()` of an object. -/
def without (name : String) (s : PackageController) : PackageController :=
  { s with objects := s.objects.filter fun o => o.documentID ≠ name }

theorem object_without (name : String) (s : PackageController) :
    (s.without name).objects.object name = none := by
  simp [without, Package.object]

/-- No object of the package is deleted. -/
def Present (s : PackageController) : Prop := ∀ o ∈ s.objects, o.document.isSome

/-- The object has the values of a record, but for the time of the update, which saving sets. -/
def HasRecord (env : Environment) (record : Record) (o : ManagedObject) : Prop :=
  ∀ key field, record.object key = some field → key ≠ "updatedAt" →
    ∃ cache, decode env (env.runtime.classOfProperty o.className key) key field o.cache =
      .ok (o.values.lookup key, cache)

/-- The object that a record is for has its values after it, and no unsaved changes; one of the
package may have them if the record has no fields. -/
def HasApplied (env : Environment) (c : Controllers) (record : Record) (s s' : PackageController) :
    Prop :=
  ∃ className t o, managedObjectClass env record.recordID.recordName = some className ∧
    s.target c className record.recordID.recordName = some t ∧ o ∈ s'.objects ∧
    o.documentID = t.documentID ∧ HasRecord env record o ∧
    (o.needsSave = false ∨ record.fields.entries = [] ∧ t ∈ s.objects)

/-- The fields of a record can be set on an object. -/
def CanSet (env : Environment) (c : Controllers) (record : Record) (tick : ℕ) (t : ManagedObject)
    (as : List Assignment) : Prop :=
  ∃ cache, decodeAll env c t.className (record.fields.entries.zipIdx tick) t.cache =
    some (as, cache) ∧ KeepsType as t.contents

/-- The class of the name of a record has a controller, and its fields can be set. -/
def Accepts (env : Environment) (c : Controllers) (record : Record) (s : PackageController) : Prop :=
  ∃ className, managedObjectClass env record.recordID.recordName = some className ∧
    c.hasController className = true ∧
    ∀ t ∈ s.target c className record.recordID.recordName, ∃ as, CanSet env c record s.tick t as

/-- There is an object for a record, not in the shared package, its fields can be set, and they are
there and saved already, or the last change is saved. -/
def CanApply (env : Environment) (c : Controllers) (record : Record) (s : PackageController) : Prop :=
  ∃ className, managedObjectClass env record.recordID.recordName = some className ∧
    c.hasController className = true ∧
    ∃ t ∈ s.target c className record.recordID.recordName, ∃ as, CanSet env c record s.tick t as ∧
      (as = [] ∧ t ∈ s.objects ∨ t.contents.Has as ∨ SavedLast as t.contents.lookup)

section

variable {env : Environment} {c : Controllers} {record : Record} {s s₁ : PackageController}
  {className name : String} {t o : ManagedObject} {as : List Assignment}

attribute [local simp] Except.toBool

theorem document_refreshFields (fields : List TimedField) (hdoc : o.document.isSome) :
    (refreshFields env c fields o).1.document.isSome := by
  induction fields generalizing o with
  | nil => exact hdoc
  | cons x fields ih =>
    rw [refreshFields]
    split
    · exact hdoc
    · next o₁ hfst =>
      obtain ⟨v, cache, -, href, -⟩ := refreshField_eq_ok hfst hdoc
      exact ih href.document

theorem WithTarget.present (h : WithTarget c className name s t s₁) (hs : s.Present) :
    s₁.Present ∧ t ∈ s₁.objects := by
  cases h with
  | own ht => exact ⟨hs, mem_of_find?_eq_some ht⟩
  | new hnone ht =>
    refine ⟨fun o ho => ?_, mem_append_right _ (mem_singleton_self t)⟩
    rcases mem_append.1 ho with ho | ho
    · exact hs o ho
    · rw [mem_singleton.1 ho, ht]
      rfl

theorem present_deserialize (hs : s.Present) (record : Record) :
    (s.deserialize env c record).1.Present := by
  obtain ⟨-, e, hdes⟩ | ⟨className, -, -, ⟨-, hdes⟩ | ⟨t, s₁, -, hwith, hdes⟩⟩ :=
    deserialize_cases env c record s
  · rw [hdes]
    exact hs
  · rw [hdes]
    exact hs
  · obtain ⟨hs₁, ht⟩ := hwith.present hs
    rw [hdes]
    intro o ho
    obtain ⟨x, hx, rfl⟩ := mem_map.1 ho
    split
    · exact document_refreshFields _ (hs₁ t ht)
    · exact hs₁ x hx

/-- A record is deserialized without an error exactly if it is accepted. -/
theorem isOk_deserialize_iff (hs : s.Present) :
    (s.deserialize env c record).2.isOk ↔ Accepts env c record s := by
  obtain ⟨hnot, e, hdes⟩ | ⟨className, hcls, hctl, ⟨hnone, hdes⟩ | ⟨t, s₁, htgt, hwith, hdes⟩⟩ :=
    deserialize_cases env c record s
  · rw [hdes]
    refine iff_of_false (by simp) ?_
    rintro ⟨className, hcls, hctl, -⟩
    cases hctl.symm.trans (hnot className hcls)
  · rw [hdes]
    refine iff_of_true rfl ⟨className, hcls, hctl, fun t ht => ?_⟩
    cases hnone.symm.trans ht
  · obtain ⟨hs₁, ht⟩ := hwith.present hs
    rw [hdes]
    have hset := exists_refreshFields_iff env c (hs₁ t ht)
      (nodup_keys_zipIdx record s.tick)
    have hok : Accepts env c record s ↔
        ∃ o, refreshFields env c (record.fields.entries.zipIdx s.tick) t = (o, .ok ()) := by
      refine Iff.trans ⟨?_, fun h => ⟨className, hcls, hctl, fun t' ht' => ?_⟩⟩ hset.symm
      · rintro ⟨className', hcls', -, h⟩
        cases hcls.symm.trans hcls'
        exact h t htgt
      · cases htgt.symm.trans ht'
        exact h
    rw [hok]
    obtain ⟨o, res⟩ := refreshFields env c (record.fields.entries.zipIdx s.tick) t
    cases res with
    | error e => simp [Except.map]
    | ok => simp [Except.map]

/-- A record that is accepted is applied exactly if it can be. -/
theorem hasApplied_iff (hs : s.Present) (htimed : Timed c 0 record) (hacc : Accepts env c record s) :
    HasApplied env c record s (s.deserialize env c record).1 ↔ CanApply env c record s := by
  obtain ⟨className, hcls, hctl, hset⟩ := hacc
  obtain ⟨hnot, -⟩ | ⟨className', hcls', -, ⟨hnone, -⟩ | ⟨t, s₁, htgt, hwith, hdes⟩⟩ :=
    deserialize_cases env c record s
  · cases hctl.symm.trans (hnot className hcls)
  · cases hcls.symm.trans hcls'
    refine iff_of_false ?_ ?_
    · rintro ⟨className', t, o, hcls', htgt, -⟩
      cases hcls.symm.trans hcls'
      cases hnone.symm.trans htgt
    · rintro ⟨className', hcls', -, t, htgt, -⟩
      cases hcls.symm.trans hcls'
      cases hnone.symm.trans htgt
  cases hcls.symm.trans hcls'
  obtain ⟨hs₁, ht⟩ := hwith.present hs
  obtain ⟨as, cache, hdec, hkeep⟩ := hset t htgt
  have hnodup := nodup_keys_zipIdx record s.tick
  obtain ⟨t', hrfr⟩ := (exists_refreshFields_iff env c (hs₁ t ht) hnodup).2 ⟨as, cache, hdec, hkeep⟩
  obtain ⟨as', cache', hdec', href⟩ := refreshed_of_refreshFields hrfr (hs₁ t ht)
  cases hdec.symm.trans hdec'
  have hfun : Functional as := functional_of_nodup (by rwa [keys_decodeAll hdec])
  have hdat : Dated as := dated_of_decodeAll 0 hdec fun x hx =>
    ⟨Nat.zero_le _, record, htimed, fst_mem_of_mem_zipIdx hx⟩
  have hclean := Contents.needsSave_setAll_iff (x := t.contents) hfun hdat
  rw [← href.contents] at hclean
  have hnil : as = [] ↔ record.fields.entries = [] := by
    rw [← map_eq_nil_iff (f := Assignment.key), keys_decodeAll hdec, map_eq_nil_iff, zipIdx_eq_nil_iff]
  rw [hdes, hrfr]
  constructor
  · rintro ⟨className', t₀, o, hcls', htgt', ho, hid, -, hsaved⟩
    cases hcls.symm.trans hcls'
    cases htgt.symm.trans htgt'
    obtain ⟨x, -, hx⟩ := mem_map.1 ho
    refine ⟨className, hcls, hctl, t, htgt, as, ⟨cache, hdec, hkeep⟩, ?_⟩
    split at hx
    · subst hx
      exact hsaved.symm.imp (And.imp_left hnil.2) hclean.1
    · next hne =>
      subst hx
      exact absurd (hid.trans href.documentID.symm) hne
  · rintro ⟨className', hcls', -, t₀, htgt', as', ⟨cache', hdec', -⟩, hcond⟩
    cases hcls.symm.trans hcls'
    cases htgt.symm.trans htgt'
    cases hdec.symm.trans hdec'
    refine ⟨className, t, t', hcls, htgt, mem_map.2 ⟨t, ht, if_pos href.documentID.symm⟩,
      href.documentID, fun key field hfld hupd => ⟨cache, ?_⟩, ?_⟩
    · -- the value was set and is decoded to the same again
      have hentry := AList.mem_lookup_iff.1 hfld
      rw [← zipIdx_map_fst s.tick record.fields.entries] at hentry
      obtain ⟨x, hx, heq⟩ := mem_map.1 hentry
      obtain ⟨a, ha, hkey, hval⟩ := decode_of_decodeAll hdec hx
      have hkey : a.key = key := hkey.trans (congrArg Sigma.fst heq)
      rw [heq] at hval
      have hlk : t'.contents.lookup key = a.value := by
        rw [href.contents, ← hkey]
        exact Contents.lookup_setAll hfun hdat ha (hkey ▸ hupd)
      rw [href.className, href.cache, hval, ← hlk]
      rfl
    · exact (hcond.imp (And.imp_left hnil.1) hclean.2).symm

end

end PackageController

variable {op : Fetch}

namespace SyncService

open PackageController

variable {ε : Type}

section

variable (x : Setting)

/-- `ensureStateInitialized`: the state in the file, or a new one if it cannot be read. -/
def readState (file : Option JSON) : CloudKitState ℕ :=
  match file with
  | none => .new x.env.ownerName
  | some json =>
    match CloudKitState.ofJSON x.archiving json with
    | .ok state => state
    | .error _ => .new x.env.ownerName

/-- The service when the program starts. -/
def launch (package : PackageController) (file : Option JSON) : SyncService ε :=
  ⟨package, ∅, readState x file, file, [], [], false⟩

/-- `_pull` of a zone. -/
def pull (zoneID : ZoneID) (s : SyncService ε) : SyncService ε :=
  { s with operations := s.operations ++ [⟨zoneID, s.state.serverChangeToken zoneID, 0, none, []⟩] }

/-- `recordWithIDWasDeleted`: the package after it, and what is added to `deletionFails`. -/
def recordWithIDWasDeleted (deletes : Bool) (deletedID : RecordID) (s : SyncService ε) :
    PackageController × Except DeserializerError (List RecordID) :=
  match s.repository.lookup deletedID with
  | none => (s.package, .ok [deletedID])
  | some record =>
    match s.package.ownObject x.env x.controllers record.recordID.recordName with
    | .error e => (s.package, .error e)
    | .ok none => (s.package, .ok [deletedID])
    | .ok (some o) => (if deletes then s.package.without o.documentID else s.package, .ok [])

/-- `recordChanged` or `recordWithIDWasDeleted` -/
def apply (change : ServerChange) (deletes : Bool) (s : SyncService ε) :
    PackageController × Except DeserializerError (List RecordID) :=
  match change with
  | .changed record =>
    ((s.package.deserialize x.env x.controllers record).1,
      (s.package.deserialize x.env x.controllers record).2.map fun _ => [])
  | .deleted deletedID => s.recordWithIDWasDeleted x deletes deletedID

/-- An operation delivers its next change; an error thrown ends the program. -/
def deliver (i : ℕ) (op : Fetch) (deletes : Bool) (s : SyncService ε) : SyncService ε :=
  match s.apply x (x.log op.zoneID op.position) deletes with
  | (package, .error _) => { s with package, trapped := true }
  | (package, .ok fails) =>
    { s with
      package
      operations := s.operations.set i
        { op with delivered := op.delivered + 1, deletionFails := op.deletionFails ++ fails } }

/-- `fetchRecordChangesCompletion`, where `op` is the first operation. -/
def complete (i : ℕ) (op : Fetch) (answer : Answer ε) (s : SyncService ε) : SyncService ε :=
  match answer with
  | .failed e =>
    { s with operations := s.operations.eraseIdx i, calls := s.calls ++ [.error e] }
  | .token moreComing serializeError =>
    let more := op.moreComing.getD moreComing
    let state := s.state.setServerChangeToken op.position op.zoneID
    let operations := s.operations.eraseIdx i ++
      if more then [⟨op.zoneID, some op.position, 0, some more, op.deletionFails⟩] else []
    match serializeError with
    | some e => { s with state, operations, calls := s.calls ++ [.error (.underlyingError e)] }
    | none =>
      { s with
        state
        operations
        file := some (state.toJSON x.archiving)
        calls := s.calls ++ if more then [] else [.completion op.deletionFails] }

/-- One event. -/
def step (event : ServiceEvent ε) (s : SyncService ε) : Option (SyncService ε) :=
  match event with
  | .restart => some (launch x s.package s.file)
  | .pull zoneID => if s.trapped then none else some (s.pull zoneID)
  | .deliver i deletes =>
    if s.trapped then none else s.operations[i]?.map fun op => s.deliver x i op deletes
  | .complete i answer =>
    if s.trapped then none else s.operations[i]?.map fun op => s.complete x i op answer
  | .push repository =>
    if s.trapped ∨ ¬Enlarges s.repository repository then none else some { s with repository }
  | .edit package => if s.trapped then none else some { s with package }

/-! ### What is asked of a run -/

/-- The object of the record has its values, or the package has no object of the name. -/
def Applied (change : ServerChange) (s s' : SyncService ε) : Prop :=
  match change with
  | .changed record => HasApplied x.env x.controllers record s.package s'.package
  | .deleted deletedID => s'.package.objects.object deletedID.recordName = none

variable (package : PackageController)

/-- The events lead from the first start to a state. -/
abbrev Reaches (past : List (ServiceEvent ε)) (s : SyncService ε) : Prop :=
  run (step x) past (launch x package none) = some s

/-- After the events `past` an operation is about to deliver a change. -/
structure Delivers (past : List (ServiceEvent ε)) (s : SyncService ε) (i : ℕ) (op : Fetch) : Prop where
  reached : Reaches x package past s
  operation : s.operations[i]? = some op

/-- The change at a position of the log of a zone was delivered in the run, and so that the states
before and after it are as `P` says. -/
def Delivered (past : List (ServiceEvent ε)) (zoneID : ZoneID) (n : ℕ)
    (P : Bool → SyncService ε → SyncService ε → Prop) : Prop :=
  ∃ before i deletes s s' op, before ++ [.deliver i deletes] <+: past ∧
    Delivers x package before s i op ∧ step x (.deliver i deletes) s = some s' ∧
    op.zoneID = zoneID ∧ op.position = n ∧ P deletes s s'

/-- The change at a position of the log of a zone was applied in the run. -/
def Handled (past : List (ServiceEvent ε)) (zoneID : ZoneID) (n : ℕ) : Prop :=
  Delivered x package past zoneID n fun _ => Applied x (x.log zoneID n)

/-- The program does not end at an error; a reported deletion deletes the object; and all changes
before a stored token were applied. -/
structure LosesNothing (schedule : List (ServiceEvent ε)) : Prop where
  runs : ∀ past s, past <+: schedule → Reaches x package past s →
    s.trapped = false
  deletes : ∀ past s i op deletes deletedID s', past ++ [.deliver i deletes] <+: schedule →
    Delivers x package past s i op → x.log op.zoneID op.position = .deleted deletedID →
    (s.package.objects.object deletedID.recordName).isSome →
    step x (.deliver i deletes) s = some s' →
    s'.package.objects.object deletedID.recordName = none
  tokens : ∀ past s zoneID token, past <+: schedule →
    Reaches x package past s →
    s.state.serverChangeToken zoneID = some token → ∀ n < token, Handled x package past zoneID n

/-- A deleted object of the package has a record in memory, its class a controller, and the database
deletes the document. -/
def CanDelete (deletedID : RecordID) (deletes : Bool) (s : SyncService ε) : Prop :=
  ((s.repository.lookup deletedID).isSome →
    (managedObjectClass x.env deletedID.recordName).isSome) ∧
  ((s.package.objects.object deletedID.recordName).isSome →
    (s.repository.lookup deletedID).isSome ∧ deletes ∧
      (managedObjectClass x.env deletedID.recordName).any x.controllers.hasController)

/-- A change that throws no error; a deletion is carried out. -/
def Acceptable (change : ServerChange) (deletes : Bool) (s : SyncService ε) : Prop :=
  match change with
  | .changed record => Accepts x.env x.controllers record s.package
  | .deleted deletedID => CanDelete x deletedID deletes s

/-- A change that can be applied. -/
def Applicable (change : ServerChange) (deletes : Bool) (s : SyncService ε) : Prop :=
  match change with
  | .changed record => CanApply x.env x.controllers record s.package
  | .deleted deletedID => CanDelete x deletedID deletes s

/-- No change that is delivered throws an error, and each can be applied when it is delivered, or
could be at an earlier time. -/
def EachApplicable (schedule : List (ServiceEvent ε)) : Prop :=
  ∀ past s i op deletes, past ++ [.deliver i deletes] <+: schedule → s.trapped = false →
    Delivers x package past s i op →
    Acceptable x (x.log op.zoneID op.position) deletes s ∧
    Delivered x package (past ++ [.deliver i deletes]) op.zoneID op.position
      fun deletes s _ => Applicable x (x.log op.zoneID op.position) deletes s

end

section

variable {x : Setting} {s s' : SyncService ε} {event : ServiceEvent ε}

/-! ### What a step does -/

theorem step_cases (h : step x event s = some s') :
    event = .restart ∧ s' = launch x s.package s.file ∨
      s.trapped = false ∧
        ((∃ zoneID, event = .pull zoneID ∧ s' = s.pull zoneID) ∨
          (∃ i deletes op, event = .deliver i deletes ∧ s.operations[i]? = some op ∧
            s' = s.deliver x i op deletes) ∨
          (∃ i answer op, event = .complete i answer ∧ s.operations[i]? = some op ∧
            s' = s.complete x i op answer) ∨
          (∃ repository, event = .push repository ∧ Enlarges s.repository repository ∧
            s' = { s with repository }) ∨
          ∃ package, event = .edit package ∧ s' = { s with package }) := by
  cases event with
  | restart =>
    cases h
    exact .inl ⟨rfl, rfl⟩
  | pull zoneID =>
    obtain ⟨htr, rfl⟩ : s.trapped = false ∧ s.pull zoneID = s' := by simpa [step] using h
    exact .inr ⟨htr, .inl ⟨zoneID, rfl, rfl⟩⟩
  | deliver i deletes =>
    obtain ⟨htr, op, hop, rfl⟩ : s.trapped = false ∧ ∃ op, s.operations[i]? = some op ∧
        s.deliver x i op deletes = s' := by simpa [step] using h
    exact .inr ⟨htr, .inr (.inl ⟨i, deletes, op, rfl, hop, rfl⟩)⟩
  | complete i answer =>
    obtain ⟨htr, op, hop, rfl⟩ : s.trapped = false ∧ ∃ op, s.operations[i]? = some op ∧
        s.complete x i op answer = s' := by simpa [step] using h
    exact .inr ⟨htr, .inr (.inr (.inl ⟨i, answer, op, rfl, hop, rfl⟩))⟩
  | push repository =>
    obtain ⟨⟨htr, henl⟩, rfl⟩ : (s.trapped = false ∧ Enlarges s.repository repository) ∧
        { s with repository } = s' := by simpa [step] using h
    exact .inr ⟨htr, .inr (.inr (.inr (.inl ⟨repository, rfl, henl, rfl⟩)))⟩
  | edit package =>
    obtain ⟨htr, rfl⟩ : s.trapped = false ∧ { s with package } = s' := by simpa [step] using h
    exact .inr ⟨htr, .inr (.inr (.inr (.inr ⟨package, rfl, rfl⟩)))⟩

theorem step_deliver (htr : s.trapped = false) (hop : s.operations[i]? = some op)
    (deletes : Bool) : step x (.deliver i deletes) s = some (s.deliver x i op deletes) := by
  simp [step, htr, hop]

theorem step_complete (htr : s.trapped = false) (hop : s.operations[i]? = some op)
    (answer : Answer ε) : step x (.complete i answer) s = some (s.complete x i op answer) := by
  simp [step, htr, hop]

theorem deliver_spec (i : ℕ) (op : Fetch) (deletes : Bool) (s : SyncService ε) :
    (s.deliver x i op deletes).repository = s.repository ∧
      (s.deliver x i op deletes).state = s.state ∧ (s.deliver x i op deletes).file = s.file ∧
      (s.deliver x i op deletes).package = (s.apply x (x.log op.zoneID op.position) deletes).1 := by
  unfold deliver
  split
  · next h => exact ⟨rfl, rfl, rfl, by rw [h]⟩
  · next h => exact ⟨rfl, rfl, rfl, by rw [h]⟩

attribute [local simp] Except.toBool

/-- The program goes on exactly if no error was thrown. -/
theorem trapped_deliver (htr : s.trapped = false) (i : ℕ) (op : Fetch) (deletes : Bool) :
    (s.deliver x i op deletes).trapped = false ↔
      (s.apply x (x.log op.zoneID op.position) deletes).2.isOk := by
  unfold deliver
  split
  · next h => simp [h]
  · next h => simp [h, htr]

theorem operations_deliver (h : (s.apply x (x.log op.zoneID op.position) deletes).2.isOk) :
    ∃ fails, (s.deliver x i op deletes).operations = s.operations.set i
      { op with delivered := op.delivered + 1, deletionFails := fails } := by
  unfold deliver
  split
  · next happ => simp [happ] at h
  · exact ⟨_, rfl⟩

/-! ### Records in memory and the file -/

/-- The file, if there is one, has a state that was written. -/
def Written (x : Setting) (file : Option JSON) : Prop :=
  ∀ json, file = some json → ∃ state : CloudKitState ℕ, json = state.toJSON x.archiving

/-- Each record is under its own identifier, and the file has a state that was written. -/
structure Sound (x : Setting) (s : SyncService ε) : Prop where
  keyed : ∀ id record, s.repository.lookup id = some record → record.recordID = id
  file : Written x s.file

theorem sound_launch (package : PackageController) (hfile : Written x file) :
    Sound x (launch x package file : SyncService ε) := by
  refine ⟨fun id record h => ?_, hfile⟩
  cases h

theorem keyed_of_enlarges {repository repository' : RecordRepository}
    (h : Enlarges repository repository') (id : RecordID) (record : Record)
    (hrec : repository'.lookup id = some record) : record.recordID = id :=
  h.2 ⟨id, record⟩ (AList.mem_lookup_iff.1 hrec)

theorem sound_of_step (h : Sound x s) (hstep : step x event s = some s') : Sound x s' := by
  obtain ⟨-, rfl⟩ | ⟨-, ⟨zoneID, -, rfl⟩ | ⟨i, deletes, op, -, -, rfl⟩ | ⟨i, answer, op, -, -, rfl⟩ |
    ⟨repository, -, henl, rfl⟩ | ⟨package, -, rfl⟩⟩ := step_cases hstep
  · exact sound_launch s.package h.file
  · exact ⟨h.keyed, h.file⟩
  · obtain ⟨hrep, -, hfile, -⟩ := deliver_spec (x := x) i op deletes s
    exact ⟨hrep ▸ h.keyed, hfile ▸ h.file⟩
  · rcases answer with e | ⟨moreComing, _ | e⟩
    · exact ⟨h.keyed, h.file⟩
    · refine ⟨h.keyed, fun json hjson => ?_⟩
      cases hjson
      exact ⟨_, rfl⟩
    · exact ⟨h.keyed, h.file⟩
  · exact ⟨keyed_of_enlarges henl, h.file⟩
  · exact ⟨h.keyed, h.file⟩

theorem sound_of_run {package : PackageController} {past : List (ServiceEvent ε)}
    (hrun : Reaches x package past s) : Sound x s :=
  run_invariant (P := Sound x) (fun _ _ _ => sound_of_step)
    (sound_launch package fun json h => by cases h) hrun

/-- A state that was written has no token when it is read. -/
theorem serverChangeToken_readState (zoneID : ZoneID) (hfile : Written x file) :
    (readState x file).serverChangeToken zoneID = none := by
  cases file with
  | none => rfl
  | some json =>
    obtain ⟨state, rfl⟩ := hfile json rfl
    simp only [readState, CloudKitState.ofJSON_toJSON]
    split
    · next hread =>
      split at hread
      · cases hread
        rfl
      · cases hread
    · rfl

/-- In every run the file gives no token to a restart, which then fetches all changes again. -/
theorem restarts_without_tokens (x : Setting) (package : PackageController)
    (schedule : List (ServiceEvent ε)) :
    Throughout (step x) (fun s => ∀ package' zoneID,
        ((launch x package' s.file : SyncService ε).state).serverChangeToken zoneID = none)
      schedule (launch x package none) :=
  throughout_of_run fun _ _ hrun _ zoneID =>
    serverChangeToken_readState zoneID (sound_of_run hrun).file

/-! ### The application of one change -/

/-- A deletion that was reported is carried out if it can be, and only then. -/
theorem deleted_iff (hkey : ∀ id record, s.repository.lookup id = some record → record.recordID = id)
    (deletes : Bool) (deletedID : RecordID) :
    CanDelete x deletedID deletes s ↔
      (s.apply x (.deleted deletedID) deletes).2.isOk ∧
        (s.apply x (.deleted deletedID) deletes).1.objects.object deletedID.recordName = none := by
  simp only [CanDelete, apply, recordWithIDWasDeleted]
  cases hlk : s.repository.lookup deletedID with
  | none => simp
  | some record =>
    simp only [hkey deletedID record hlk, ownObject]
    cases hcls : managedObjectClass x.env deletedID.recordName with
    | none => simp
    | some className =>
      by_cases hctl : x.controllers.hasController className
      · cases hobj : s.package.objects.object deletedID.recordName with
        | none => simp [hobj]
        | some o =>
          have hid := Package.documentID_of_object hobj
          cases deletes with
          | false => simp [hctl, hobj]
          | true =>
            simp [hctl, hid, object_without]
      · simp [hctl]

/-- A deletion leaves the package as it is, or takes objects out. -/
theorem apply_deleted_cases (deletes : Bool) (deletedID : RecordID) (s : SyncService ε) :
    (s.apply x (.deleted deletedID) deletes).1 = s.package ∨
      ∃ name, (s.apply x (.deleted deletedID) deletes).1 = s.package.without name := by
  simp only [apply, recordWithIDWasDeleted]
  split
  · exact .inl rfl
  · split
    · exact .inl rfl
    · exact .inl rfl
    · cases deletes
      · exact .inl rfl
      · exact .inr ⟨_, rfl⟩

/-- A deletion of an object that is not in the package leaves it so. -/
theorem object_apply_deleted {deletedID : RecordID} (deletes : Bool)
    (h : s.package.objects.object deletedID.recordName = none) :
    (s.apply x (.deleted deletedID) deletes).1.objects.object deletedID.recordName = none := by
  obtain hsame | ⟨name, hwithout⟩ := apply_deleted_cases (x := x) deletes deletedID s
  · rw [hsame, h]
  · unfold Package.object at h ⊢
    rw [hwithout, find?_eq_none]
    rw [find?_eq_none] at h
    exact fun o ho => h o (mem_filter.1 ho).1

theorem isOk_apply_changed (hs : s.package.Present) (record : Record) (deletes : Bool) :
    (s.apply x (.changed record) deletes).2.isOk ↔ Accepts x.env x.controllers record s.package := by
  rw [← isOk_deserialize_iff hs]
  simp only [apply]
  cases (s.package.deserialize x.env x.controllers record).2 <;> rfl

/-- A change that can be accepted is applied exactly if it can be. -/
theorem applied_deliver_iff (hs : Sound x s) (hpres : s.package.Present)
    (htimed : x.HasTimes)
    (hok : (s.apply x (x.log op.zoneID op.position) deletes).2.isOk) :
    Applied x (x.log op.zoneID op.position) s (s.deliver x i op deletes) ↔
      Applicable x (x.log op.zoneID op.position) deletes s := by
  obtain ⟨-, -, -, hpkg⟩ := deliver_spec (x := x) i op deletes s
  have htimed := htimed op.zoneID op.position
  generalize x.log op.zoneID op.position = change at hok hpkg htimed ⊢
  cases change with
  | changed record =>
    rw [Applied, hpkg]
    exact hasApplied_iff hpres (htimed record rfl)
      ((isOk_apply_changed hpres record deletes).1 hok)
  | deleted deletedID =>
    rw [Applied, hpkg, Applicable, deleted_iff hs.keyed deletes deletedID, and_iff_right hok]

theorem present_deliver (hpres : s.package.Present) (i : ℕ) (op : Fetch) (deletes : Bool) :
    (s.deliver x i op deletes).package.Present := by
  obtain ⟨-, -, -, hpkg⟩ := deliver_spec (x := x) i op deletes s
  rw [hpkg]
  cases x.log op.zoneID op.position with
  | changed record => exact present_deserialize hpres record
  | deleted deletedID =>
    obtain hsame | ⟨name, hwithout⟩ := apply_deleted_cases (x := x) deletes deletedID s
    · rwa [hsame]
    · rw [hwithout]
      exact fun o ho => hpres o (mem_filter.1 ho).1

/-! ### The tokens along a run -/

variable {package : PackageController} {past past' schedule : List (ServiceEvent ε)}

/-- No object is deleted in the package that is given, and in those that are put in its place. -/
def AllPresent (package : PackageController) (schedule : List (ServiceEvent ε)) : Prop :=
  ∀ p, p = package ∨ .edit p ∈ schedule → p.Present

theorem AllPresent.mono (h : AllPresent package schedule) (hle : past ⊆ schedule) :
    AllPresent package past := fun p hp => h p (hp.imp_right fun hmem => hle hmem)

theorem present_of_run (h : AllPresent package past)
    (hrun : Reaches x package past s) : s.package.Present := by
  induction past using reverseRecOn generalizing s with
  | nil =>
    cases hrun
    exact h package (.inl rfl)
  | append_singleton past event ih =>
    obtain ⟨t, hbef, hstep⟩ := run_concat_eq_some.1 hrun
    have hpres := ih (h.mono (subset_append_left past _)) hbef
    obtain ⟨-, rfl⟩ | ⟨-, ⟨zoneID, -, rfl⟩ | ⟨i, deletes, op, -, -, rfl⟩ | ⟨i, answer, op, -, -, rfl⟩ |
      ⟨repository, -, -, rfl⟩ | ⟨package', rfl, rfl⟩⟩ := step_cases hstep
    · exact hpres
    · exact hpres
    · exact present_deliver hpres i op deletes
    · rcases answer with e | ⟨moreComing, _ | e⟩ <;> exact hpres
    · exact hpres
    · exact h package' (.inr (mem_append_right _ (mem_singleton_self _)))

theorem Delivered.mono {P : Bool → SyncService ε → SyncService ε → Prop} {zoneID : ZoneID} {n : ℕ}
    (h : Delivered x package past zoneID n P) (hle : past <+: past') :
    Delivered x package past' zoneID n P := by
  obtain ⟨before, i, deletes, s, s', op, hpre, hrest⟩ := h
  exact ⟨before, i, deletes, s, s', op, hpre.trans hle, hrest⟩

/-- A change was applied if it was delivered when it could be. -/
theorem handled_iff (hpres : AllPresent package past)
    (htimed : x.HasTimes)
    (hruns : ∀ past' s, past' <+: past → Reaches x package past' s →
      s.trapped = false) {zoneID : ZoneID} {n : ℕ} :
    Handled x package past zoneID n ↔ Delivered x package past zoneID n
      fun deletes s _ => Applicable x (x.log zoneID n) deletes s := by
  refine exists₃_congr fun before i deletes => exists₃_congr fun s s' op => ?_
  refine and_congr_right fun hpre => and_congr_right fun hdlv => and_congr_right fun hstep => ?_
  refine and_congr_right fun hzone => and_congr_right fun hpos => ?_
  subst hzone hpos
  have htr := hruns before s ((prefix_append _ _).trans hpre) hdlv.reached
  have htr' := hruns _ s' hpre (run_concat_eq_some.2 ⟨s, hdlv.reached, hstep⟩)
  rw [step_deliver htr hdlv.operation] at hstep
  cases hstep
  have hbefore := hpres.mono ((prefix_append before _).trans hpre).subset
  exact applied_deliver_iff (sound_of_run hdlv.reached) (present_of_run hbefore hdlv.reached) htimed
    ((trapped_deliver htr i op deletes).1 htr')

theorem isOk_of_acceptable (hs : Sound x s) (hpres : s.package.Present) {change : ServerChange}
    (h : Acceptable x change deletes s) : (s.apply x change deletes).2.isOk := by
  cases change with
  | changed record => exact (isOk_apply_changed hpres record deletes).2 h
  | deleted deletedID => exact ((deleted_iff hs.keyed deletes deletedID).1 h).1

theorem not_trapped_of_run (hpres : AllPresent package schedule)
    (heach : EachApplicable x package schedule) (hpast : past <+: schedule)
    (hrun : Reaches x package past s) : s.trapped = false := by
  induction past using reverseRecOn generalizing s with
  | nil =>
    cases hrun
    rfl
  | append_singleton past event ih =>
    obtain ⟨t, hbef, hstep⟩ := run_concat_eq_some.1 hrun
    obtain ⟨-, rfl⟩ | ⟨htr, ⟨zoneID, -, rfl⟩ | ⟨i, deletes, op, rfl, hop, rfl⟩ |
      ⟨i, answer, op, -, -, rfl⟩ | ⟨repository, -, -, rfl⟩ | ⟨package', -, rfl⟩⟩ := step_cases hstep
    · rfl
    · exact htr
    · have hbefore := hpres.mono ((prefix_append past _).trans hpast).subset
      exact (trapped_deliver htr i op deletes).2 (isOk_of_acceptable (sound_of_run hbef)
        (present_of_run hbefore hbef) (heach past t i op deletes hpast htr ⟨hbef, hop⟩).1)
    · rcases answer with e | ⟨moreComing, _ | e⟩ <;> exact htr
    · exact htr
    · exact htr

/-- The changes before a stored token or the position of an operation were applied. -/
structure Covers (x : Setting) (package : PackageController) (past : List (ServiceEvent ε))
    (s : SyncService ε) : Prop where
  tokens : ∀ zoneID token, s.state.serverChangeToken zoneID = some token →
    ∀ n < token, Handled x package past zoneID n
  operations : ∀ op ∈ s.operations, ∀ n < op.position, Handled x package past op.zoneID n

theorem Covers.mono (h : Covers x package past s) (hle : past <+: past') :
    Covers x package past' s where
  tokens zoneID token htoken n hn := Delivered.mono (h.tokens zoneID token htoken n hn) hle
  operations op hop n hn := Delivered.mono (h.operations op hop n hn) hle

theorem covers_launch (package' : PackageController) (hfile : Written x file) :
    Covers x package past (launch x package' file) := by
  refine ⟨fun zoneID token htok => ?_, fun op hop => ?_⟩
  · rw [launch, serverChangeToken_readState zoneID hfile] at htok
    cases htok
  · cases hop

theorem Covers.pull (h : Covers x package past s) (zoneID : ZoneID) :
    Covers x package past (s.pull zoneID) := by
  refine ⟨h.tokens, fun op hop n hn => ?_⟩
  rcases mem_append.1 hop with hop | hop
  · exact h.operations op hop n hn
  · rw [mem_singleton.1 hop] at hn ⊢
    cases htok : s.state.serverChangeToken zoneID with
    | none =>
      rw [htok] at hn
      exact absurd hn n.not_lt_zero
    | some token =>
      rw [htok] at hn
      exact h.tokens zoneID token htok n hn

theorem Covers.deliver (h : Covers x package past s) (hop : s.operations[i]? = some op)
    (hok : (s.apply x (x.log op.zoneID op.position) deletes).2.isOk)
    (hhan : Handled x package past op.zoneID op.position) :
    Covers x package past (s.deliver x i op deletes) := by
  obtain ⟨-, hsta, -⟩ := deliver_spec (x := x) i op deletes s
  obtain ⟨fails, hops⟩ := operations_deliver (i := i) hok
  refine ⟨?_, fun other hoth n hn => ?_⟩
  · rw [hsta]
    exact h.tokens
  · rw [hops] at hoth
    rcases mem_or_eq_of_mem_set hoth with hoth | rfl
    · exact h.operations other hoth n hn
    · rcases Nat.lt_succ_iff_lt_or_eq.1 hn with hn | rfl
      · exact h.operations op (mem_of_getElem? hop) n hn
      · exact hhan

theorem Covers.complete (h : Covers x package past s) (hop : s.operations[i]? = some op)
    (answer : Answer ε) : Covers x package past (s.complete x i op answer) := by
  have hhan := h.operations op (mem_of_getElem? hop)
  have hera : ∀ other ∈ s.operations.eraseIdx i, ∀ n < other.position,
      Handled x package past other.zoneID n := fun other hoth =>
    h.operations other (mem_of_mem_eraseIdx hoth)
  have htok : ∀ zoneID token,
      (s.state.setServerChangeToken op.position op.zoneID).serverChangeToken zoneID = some token →
      ∀ n < token, Handled x package past zoneID n := by
    intro zoneID token hto n hn
    rw [CloudKitState.serverChangeToken_setServerChangeToken] at hto
    split at hto
    · next heq =>
      cases hto
      rw [heq]
      exact hhan n hn
    · exact h.tokens zoneID token hto n hn
  have hops : ∀ more : Bool, ∀ other ∈ s.operations.eraseIdx i ++
      (if more then [(⟨op.zoneID, some op.position, 0, some more, op.deletionFails⟩ : Fetch)] else []),
      ∀ n < other.position, Handled x package past other.zoneID n := by
    intro more other hoth n hn
    rcases mem_append.1 hoth with hoth | hoth
    · exact hera other hoth n hn
    · split at hoth
      · rw [mem_singleton.1 hoth] at hn ⊢
        exact hhan n hn
      · cases hoth
  rcases answer with e | ⟨moreComing, _ | e⟩
  · exact ⟨h.tokens, hera⟩
  · exact ⟨htok, hops _⟩
  · exact ⟨htok, hops _⟩

section

variable (hpres : AllPresent package schedule) (htimed : x.HasTimes)

include hpres htimed

theorem covers_of_run (heach : EachApplicable x package schedule) (hpast : past <+: schedule)
    (hrun : Reaches x package past s) : Covers x package past s := by
  induction past using reverseRecOn generalizing s with
  | nil =>
    cases hrun
    exact covers_launch package fun json h => by cases h
  | append_singleton past event ih =>
    obtain ⟨t, hbef, hstep⟩ := run_concat_eq_some.1 hrun
    have hmono := (ih ((prefix_append _ _).trans hpast) hbef).mono (prefix_append past [event])
    obtain ⟨-, rfl⟩ | ⟨htr, ⟨zoneID, -, rfl⟩ | ⟨i, deletes, op, rfl, hop, rfl⟩ |
      ⟨i, answer, op, -, hop, rfl⟩ | ⟨repository, -, -, rfl⟩ | ⟨package', -, rfl⟩⟩ := step_cases hstep
    · exact covers_launch t.package (sound_of_run hbef).file
    · exact hmono.pull zoneID
    · have htr' := not_trapped_of_run hpres heach hpast hrun
      refine hmono.deliver hop ((trapped_deliver htr i op deletes).1 htr') ?_
      exact (handled_iff (hpres.mono hpast.subset) htimed fun past' s hle =>
        not_trapped_of_run hpres heach (hle.trans hpast)).2
          (heach past t i op deletes hpast htr ⟨hbef, hop⟩).2
    · exact hmono.complete hop answer
    · exact ⟨hmono.tokens, hmono.operations⟩
    · exact ⟨hmono.tokens, hmono.operations⟩

theorem losesNothing_of_eachApplicable (h : EachApplicable x package schedule) :
    LosesNothing x package schedule := by
  refine ⟨fun past s => not_trapped_of_run hpres h, ?_, fun past s zoneID token hpast hrun =>
    (covers_of_run hpres htimed h hpast hrun).tokens zoneID token⟩
  intro past s i op deletes deletedID s' hpast hdlv hlog _ hstep
  have htr := not_trapped_of_run hpres h ((prefix_append _ _).trans hpast) hdlv.reached
  have hcan := (h past s i op deletes hpast htr hdlv).1
  rw [step_deliver htr hdlv.operation] at hstep
  cases hstep
  obtain ⟨-, -, -, hpkg⟩ := deliver_spec (x := x) i op deletes s
  rw [hlog] at hcan hpkg
  rw [hpkg]
  exact ((deleted_iff (sound_of_run hdlv.reached).keyed deletes deletedID).1 hcan).2

end

end

/-- A zone whose only news is that the test object was deleted. -/
def testSetting : Setting where
  env := testEnvironment
  controllers := testControllers
  archiving := CloudKitState.plainArchiving (fun n => replicate n 0) fun data => some data.length
  log zoneID _ := .deleted ⟨"MPTestObject:A", zoneID⟩

/-- A zone whose only news is the record of the test object. -/
def testUpdates : Setting := { testSetting with log := fun _ _ => .changed testRecord }

theorem canApply_testRecord :
    CanApply testUpdates.env testUpdates.controllers testRecord testPackage := by
  refine ⟨"MPTestObject", rfl, rfl, _, rfl,
    [⟨"title", some (.value (.string "A")), testControllers.now 0, true⟩], ⟨[], rfl, ?_⟩,
    .inr (.inr ?_)⟩
  · simp [KeepsType]
  · exact ⟨[], _, [], rfl, rfl, by simp⟩

end SyncService

end Feather.Sync
