import Feather.Async.System
import Feather.Model.Batch

/-!
# Notifications of local changes

A change is announced twice: `saveCompleted` and `deleteDocument:` of `MPManagedObject.m` have the
controller post notifications, and so does `databaseDidChange:` of `MPDatabase.m` for every commit.
The latter takes the kind of a change from the revision number, and the source of a local one to be
the API.
-/

namespace Feather.Model.Notifications

open Async List Option
open Batch (Tense ChangeSource)

/-- `MPChangeType` -/
inductive ChangeType
  | add
  | update
  | remove
  deriving DecidableEq

/-- A change of an object, given by the identifier of its document. -/
structure Change (α : Type) where
  changeType : ChangeType
  object : α
  deriving DecidableEq

/-- A notification of a change. -/
structure Notification (α : Type) where
  tense : Tense
  change : Change α
  source : Option ChangeSource
  deriving DecidableEq

/-- The current revision of a document.  Its identifier starts with the generation. -/
structure Revision where
  generation : ℕ
  generation_pos : 0 < generation
  isDeletion : Bool
  deriving DecidableEq

/-- A managed object; `needsSave` unless it is clean. -/
structure Managed where
  isNewObject : Bool
  hasDocument : Bool
  needsSave : Bool
  createdAtExists : Bool
  deriving DecidableEq

/-- The cache has every object that is in memory. -/
structure Store (α : Type) where
  objectCache : α → Option Managed
  documents : α → Option Revision

/-- Whether deleted documents count as existing, and whether their last revision has the properties
of the one before. -/
structure Database where
  findsDeleted : Bool
  keepsProperties : Bool
  deriving DecidableEq

/-- A store, with the changes that were committed on the way to it and what was posted. -/
structure Outcome (α : Type) where
  store : Store α
  committed : List (Change α)
  posted : List (Notification α)

variable {α : Type}

/-- The second outcome, with what happened on the way to the first. -/
def Outcome.andThen (first second : Outcome α) : Outcome α :=
  ⟨second.store, first.committed ++ second.committed, first.posted ++ second.posted⟩

/-! ### What is posted -/

/-- The two notifications of a change. -/
def post (changeType : ChangeType) (id : α) (source : Option ChangeSource) : List (Notification α) :=
  [⟨.recent, ⟨changeType, id⟩, source⟩, ⟨.past, ⟨changeType, id⟩, source⟩]

/-- `-didSaveObject:` -/
def didSaveObject (id : α) : List (Notification α) := post .add id (some .internal)

/-- `-didUpdateObject:` -/
def didUpdateObject (id : α) : List (Notification α) := post .update id none

/-- `-didDeleteObject:` -/
def didDeleteObject (id : α) : List (Notification α) := post .remove id none

/-- `didChangeDocument:forObject:source:`; a revision `1-` is that of a new document. -/
def didChangeDocumentForObject (revision : Revision) (id : α) (source : ChangeSource) :
    List (Notification α) :=
  let documentIsNew := revision.generation = 1
  let documentIsDeleted := revision.isDeletion
  post (if documentIsNew then .add else if documentIsDeleted then .remove else .update) id (some source)

/-- The revision has an `objectType`, as those of managed objects have. -/
def hasObjectType (db : Database) (revision : Revision) : Bool :=
  !revision.isDeletion || db.keepsProperties

/-- `didChangeDocument:source:` of `MPDatabasePackageController.m` -/
def didChangeDocument (db : Database) (revision : Revision) (id : α) (source : ChangeSource) :
    List (Notification α) :=
  -- ignore MPMetadata & MPLocalMetadata
  if hasObjectType db revision then didChangeDocumentForObject revision id source else []

/-- `document:didChange:`; a local change has no source. -/
def documentDidChange (changeSource : Option String) (revision : Revision) (id : α) :
    List (Notification α) :=
  match changeSource with
  | none => []
  | some _ => didChangeDocumentForObject revision id .internal

/-- `existingDocumentWithID:`, and the current revision of a document -/
def existingDocumentWithID (db : Database) (id : α) (s : Store α) : Option Revision :=
  (s.documents id).filter fun revision => !revision.isDeletion || db.findsDeleted

/-- `databaseDidChange:`, for one change -/
def databaseDidChange (db : Database) (isExternalChange : Bool) (id : α) (change : Revision)
    (s : Store α) : List (Notification α) :=
  let src := if isExternalChange then .external else .api
  match existingDocumentWithID db id s with
  | none =>
    -- the query for the document includes those that are deleted
    if s.documents id = some change ∧ (s.objectCache id).isSome then didDeleteObject id else []
  | some doc => didChangeDocument db doc id src

/-! ### Operations -/

section

variable [DecidableEq α]

def Store.setObject (id : α) (object : Managed) (s : Store α) : Store α :=
  { s with objectCache := Function.update s.objectCache id (some object) }

/-- The next revision of a document. -/
def nextRevision (isDeletion : Bool) : Option Revision → Revision
  | none => ⟨1, Nat.one_pos, isDeletion⟩
  | some revision => ⟨revision.generation + 1, Nat.succ_pos _, isDeletion⟩

/-- The document is there and not deleted. -/
def Store.isLive (id : α) (s : Store α) : Bool := (s.documents id).any fun revision => !revision.isDeletion

/-- The change that a revision of the document makes. -/
def changeTypeOf (isDeletion : Bool) (id : α) (s : Store α) : ChangeType :=
  if isDeletion then .remove else if s.isLive id then .update else .add

/-- The database adds a revision and tells the model and the observers. -/
def commit (db : Database) (isDeletion : Bool) (id : α) (s : Store α) : Outcome α :=
  let revision := nextRevision isDeletion (s.documents id)
  let s' := { s with documents := Function.update s.documents id (some revision) }
  ⟨s', [⟨changeTypeOf isDeletion id s, id⟩],
    documentDidChange none revision id ++ databaseDidChange db false id revision s'⟩

/-- Nothing was committed. -/
def quiet (s : Store α) : Outcome α := ⟨s, [], []⟩

def updateTimestamps (object : Managed) : Managed :=
  { object with needsSave := object.needsSave || !object.createdAtExists, createdAtExists := true }

/-- What `saveCompleted` has the controller post. -/
def saveCompleted (object : Managed) (id : α) : List (Notification α) :=
  if object.isNewObject then didSaveObject id else didUpdateObject id

/-- The steps of `save:` -/
def saveSteps : SaveSteps Managed where
  isClean object := !object.needsSave
  prepare := updateTimestamps
  complete object := { object with needsSave := false, isNewObject := false }

/-- `save:`, which asserts that a changed object has a document; `succeeds` is the outcome in the
database. -/
def save (db : Database) (id : α) (succeeds : Bool) (s : Store α) : Option (Outcome α) :=
  (s.objectCache id).bind fun object =>
    if saveSteps.isClean object then some (quiet s)
    else if object.hasDocument then
      let (success, saved) := saveSteps.save succeeds object
      if success then
        let outcome := commit db false id s
        some ⟨outcome.store.setObject id saved, outcome.committed,
          outcome.posted ++ saveCompleted object id⟩
      else some (quiet (s.setObject id saved))
    else none

/-- One object of a batch. -/
def writeModel (db : Database) (id : α) (s : Store α) : Outcome α :=
  match s.objectCache id with
  | none => quiet s
  | some object =>
    if object.needsSave then
      let outcome := commit db false id s
      { outcome with store := outcome.store.setObject id { object with needsSave := false } }
    else quiet s

/-- Objects are written in turn. -/
def writeModels (db : Database) : List α → Store α → Outcome α
  | [], s => quiet s
  | id :: ids, s =>
    let first := writeModel db id s
    first.andThen (writeModels db ids first.store)

def stampModels (ids : List α) (s : Store α) : Store α :=
  { s with objectCache := fun id =>
      if id ∈ ids then (s.objectCache id).map updateTimestamps else s.objectCache id }

/-- `saveModels:error:`, of objects with documents -/
def saveModels (db : Database) (ids : List α) (succeeds : Bool) (s : Store α) : Option (Outcome α) :=
  if ∀ id ∈ ids, (s.objectCache id).any Managed.hasDocument then
    if succeeds then some (writeModels db ids (stampModels ids s))
    else some (quiet (stampModels ids s))
  else none

/-- `deleteDocument:`, which leaves the object without a document -/
def deleteDocument (db : Database) (id : α) (succeeds : Bool) (s : Store α) : Option (Outcome α) :=
  (s.objectCache id).map fun object =>
    if object.hasDocument ∧ (existingDocumentWithID db id s).isSome then
      if succeeds then
        let outcome := commit db true id s
        ⟨outcome.store.setObject id { object with hasDocument := false, needsSave := false },
          outcome.committed, outcome.posted ++ didDeleteObject id⟩
      else quiet s
    else quiet s

/-- What happens to the objects of a controller. -/
inductive StoreEvent (α : Type)
  | create (id : α)
  | load (id : α) (createdAtExists : Bool)
  | modify (id : α)
  | save (id : α) (succeeds : Bool)
  | saveModels (ids : List α) (succeeds : Bool)
  | delete (id : α) (succeeds : Bool)

/-- No object in memory has the document. -/
def Store.isFree (id : α) (s : Store α) : Bool := !(s.objectCache id).any Managed.hasDocument

/-- What an event does. -/
def StoreEvent.outcome (db : Database) : StoreEvent α → Store α → Option (Outcome α)
  | .create id, s =>
    if s.isFree id then some (quiet (s.setObject id ⟨true, true, true, false⟩)) else none
  | .load id createdAtExists, s =>
    if s.isFree id ∧ s.isLive id then
      some (quiet (s.setObject id ⟨false, true, false, createdAtExists⟩))
    else none
  | .modify id, s =>
    (s.objectCache id).map fun object => quiet (s.setObject id { object with needsSave := true })
  | .save id succeeds, s => Notifications.save db id succeeds s
  | .saveModels ids succeeds, s => Notifications.saveModels db ids succeeds s
  | .delete id succeeds, s => deleteDocument db id succeeds s

/-- One event. -/
def StoreEvent.step (db : Database) (event : StoreEvent α) (o : Outcome α) : Option (Outcome α) :=
  (event.outcome db o.store).map o.andThen

end

/-! ### One pair for each change -/

/-- A notification without its source. -/
def announced (notification : Notification α) : Tense × Change α :=
  (notification.tense, notification.change)

/-- A recent and a past notification. -/
def announcements (change : Change α) : List (Tense × Change α) :=
  [(.recent, change), (.past, change)]

/-- One recent and one past notification of its kind for each change was posted. -/
def Notified (o : Outcome α) : Prop :=
  (o.posted.map announced).Perm (o.committed.flatMap announcements)

instance [DecidableEq α] (o : Outcome α) : Decidable (Notified o) :=
  inferInstanceAs (Decidable (List.Perm _ _))

theorem notified_quiet (s : Store α) : Notified (quiet s) := List.Perm.refl _

theorem notified_andThen_iff {first second : Outcome α} (hfst : Notified first) :
    Notified (first.andThen second) ↔ Notified second := by
  unfold Notified at hfst ⊢
  simp only [Outcome.andThen, map_append, flatMap_append]
  constructor
  · intro h
    exact (perm_append_left_iff _).1 ((hfst.symm.append_right _).trans h)
  · intro h
    exact hfst.append h

theorem map_announced_post (changeType : ChangeType) (id : α) (source : Option ChangeSource) :
    (post changeType id source).map announced = announcements ⟨changeType, id⟩ := rfl

section

variable [DecidableEq α] {db : Database} {id : α} {s : Store α} {o : Outcome α} {succeeds : Bool}

/-! ### What a commit posts -/

omit [DecidableEq α] in
theorem databaseDidChange_current {isExternalChange : Bool} {revision : Revision}
    (h : s.documents id = some revision) :
    databaseDidChange db isExternalChange id revision s =
      if !revision.isDeletion || db.findsDeleted then
        didChangeDocument db revision id (if isExternalChange then .external else .api)
      else if (s.objectCache id).isSome then didDeleteObject id else [] := by
  simp only [databaseDidChange, existingDocumentWithID, h, filter_some]
  cases !revision.isDeletion || db.findsDeleted with
  | true => rfl
  | false => simp

theorem posted_commit (isDeletion : Bool) :
    (commit db isDeletion id s).posted =
      if !isDeletion || db.findsDeleted then
        didChangeDocument db (nextRevision isDeletion (s.documents id)) id .api
      else if (s.objectCache id).isSome then didDeleteObject id else [] := by
  have hisD : (nextRevision isDeletion (s.documents id)).isDeletion = isDeletion := by
    cases s.documents id <;> rfl
  show [] ++ databaseDidChange db false id _ _ = _
  rw [databaseDidChange_current (Function.update_self ..), hisD]
  rfl

/-- A document has a new revision of generation one only if it had none. -/
theorem generation_nextRevision (isDeletion : Bool) (document : Option Revision) :
    (nextRevision isDeletion document).generation = 1 ↔ document = none := by
  cases document with
  | none => exact iff_of_true rfl rfl
  | some revision => simp [nextRevision, revision.generation_pos.ne']

theorem posted_commit_save :
    (commit db false id s).posted =
      post (if s.documents id = none then .add else .update) id (some .api) := by
  have hisD : (nextRevision false (s.documents id)).isDeletion = false := by
    cases s.documents id <;> rfl
  rw [posted_commit, didChangeDocument, hasObjectType, didChangeDocumentForObject]
  simp [generation_nextRevision, hisD]

/-- It reports a deletion if the document is not found, or found with its type. -/
theorem posted_commit_delete (db : Database) {revision : Revision} {object : Managed}
    (hdoc : s.documents id = some revision) (hobj : s.objectCache id = some object) :
    (commit db true id s).posted =
      if db.findsDeleted then if db.keepsProperties then post .remove id (some .api) else []
      else post .remove id none := by
  rw [posted_commit, hdoc, hobj, didChangeDocument, hasObjectType, didChangeDocumentForObject]
  simp [nextRevision, didDeleteObject, revision.generation_pos.ne']

/-! ### Single saves -/

/-- A `save:` is announced as it should be only if there is nothing to commit: otherwise both the
handler and `saveCompleted` post. -/
theorem notified_save_iff (h : save db id succeeds s = some o) :
    Notified o ↔ (succeeds = true → (s.objectCache id).any Managed.needsSave = false) := by
  rw [save, bind_eq_some_iff] at h
  obtain ⟨object, hobj, h⟩ := h
  rw [hobj, any_some]
  cases hcln : object.needsSave with
  | false =>
    simp only [saveSteps, hcln, Bool.not_false, if_true, some.injEq] at h
    rw [← h]
    exact iff_of_true (notified_quiet s) fun _ => rfl
  | true =>
    have hchd : saveSteps.isClean object = false := by simp [saveSteps, hcln]
    simp only [hchd, SaveSteps.save_of_changed, Bool.false_eq_true, if_false] at h
    split_ifs at h with hdoc hsuc
    · obtain rfl := some.inj h
      refine iff_of_false (fun hperm => ?_) fun hnot => absurd (hnot hsuc) Bool.noConfusion
      have hcom : (saveCompleted object id).length = 2 := by
        rw [saveCompleted]
        split_ifs <;> rfl
      have hlen := hperm.length_eq
      rw [length_map, length_append, posted_commit_save, hcom] at hlen
      exact absurd hlen (by decide : ¬2 + 2 = 2)
    · obtain rfl := some.inj h
      exact iff_of_true (notified_quiet _) fun hnot => absurd hnot hsuc

/-! ### Batches -/

/-- There is something to save to a document that was deleted. -/
def Store.isRecreated (id : α) (s : Store α) : Bool :=
  (s.objectCache id).any Managed.needsSave && (s.documents id).any Revision.isDeletion

theorem writeModel_cases (db : Database) (id : α) (s : Store α) :
    (s.objectCache id).any Managed.needsSave = false ∧ writeModel db id s = quiet s ∨
      ∃ object, s.objectCache id = some object ∧ object.needsSave = true ∧
        writeModel db id s =
          { commit db false id s with
            store := (commit db false id s).store.setObject id { object with needsSave := false } } := by
  rw [writeModel]
  cases hobj : s.objectCache id with
  | none => exact .inl ⟨rfl, rfl⟩
  | some object =>
    cases hnds : object.needsSave with
    | false => exact .inl ⟨hnds, by simp [hnds]⟩
    | true => exact .inr ⟨object, rfl, hnds, by simp [hnds]⟩

theorem writeModel_changed (db : Database) {object : Managed} (hobj : s.objectCache id = some object)
    (hnds : object.needsSave = true) :
    ((writeModel db id s).posted.map announced =
        announcements ⟨if s.documents id = none then .add else .update, id⟩) ∧
      (writeModel db id s).committed = [⟨if s.isLive id then .update else .add, id⟩] := by
  obtain ⟨hcln, -⟩ | ⟨_, -, -, heq⟩ := writeModel_cases db id s
  · rw [hobj, any_some, hnds] at hcln
    cases hcln
  · rw [heq]
    exact ⟨by rw [posted_commit_save, map_announced_post], rfl⟩

theorem notified_writeModel (h : s.isRecreated id = false) : Notified (writeModel db id s) := by
  obtain ⟨-, heq⟩ | ⟨object, hobj, hnds, -⟩ := writeModel_cases db id s
  · rw [heq]
    exact notified_quiet s
  · obtain ⟨hpst, hcom⟩ := writeModel_changed db hobj hnds
    have hkin : (if s.documents id = none then ChangeType.add else .update) =
        if s.isLive id then .update else .add := by
      rw [Store.isRecreated, hobj, any_some, hnds, Bool.true_and] at h
      rw [Store.isLive]
      cases hdoc : s.documents id with
      | none => rfl
      | some revision =>
        rw [hdoc, any_some] at h
        simp [h]
    rw [Notified, hpst, hcom, hkin]
    exact List.Perm.refl _

/-- How many of the notifications are of additions. -/
def adds (notifications : List (Tense × Change α)) : ℕ :=
  notifications.countP fun notification => notification.2.changeType = .add

omit [DecidableEq α] in
theorem adds_andThen (first second : Outcome α) :
    adds ((first.andThen second).posted.map announced) =
        adds (first.posted.map announced) + adds (second.posted.map announced) ∧
      adds ((first.andThen second).committed.flatMap announcements) =
        adds (first.committed.flatMap announcements) +
          adds (second.committed.flatMap announcements) := by
  simp only [adds, Outcome.andThen, map_append, flatMap_append, countP_append, and_self]

omit [DecidableEq α] in
theorem Notified.adds_eq (h : Notified o) :
    adds (o.posted.map announced) = adds (o.committed.flatMap announcements) :=
  h.countP_eq _

/-- A document that was deleted is announced as updated, though it is added. -/
theorem adds_writeModel_of_isRecreated (db : Database) (h : s.isRecreated id = true) :
    adds ((writeModel db id s).posted.map announced) <
      adds ((writeModel db id s).committed.flatMap announcements) := by
  rw [Store.isRecreated, Bool.and_eq_true, Option.any_eq_true, Option.any_eq_true] at h
  obtain ⟨⟨object, hobj, hnds⟩, revision, hdoc, hdel⟩ := h
  obtain ⟨hpst, hcom⟩ := writeModel_changed db hobj hnds
  rw [hpst, hcom, Store.isLive, hdoc]
  simp [hdel, adds, announcements]

theorem adds_writeModels_le (db : Database) (ids : List α) (s : Store α) :
    adds ((writeModels db ids s).posted.map announced) ≤
      adds ((writeModels db ids s).committed.flatMap announcements) := by
  induction ids generalizing s with
  | nil => exact le_refl _
  | cons id ids ih =>
    have hfst : adds ((writeModel db id s).posted.map announced) ≤
        adds ((writeModel db id s).committed.flatMap announcements) := by
      cases h : s.isRecreated id with
      | true => exact (adds_writeModel_of_isRecreated db h).le
      | false => exact (notified_writeModel h).adds_eq.le
    have hrest := ih (writeModel db id s).store
    rw [writeModels, (adds_andThen ..).1, (adds_andThen ..).2]
    omega

/-- Writing an object that is not recreated leaves it so, and the others as they are. -/
theorem isRecreated_writeModel (h : s.isRecreated id = false) (i : α) :
    (writeModel db id s).store.isRecreated i = s.isRecreated i := by
  obtain ⟨-, heq⟩ | ⟨object, -, -, heq⟩ := writeModel_cases db id s
  · rw [heq]
    rfl
  · rw [heq]
    by_cases hi : i = id
    · rw [hi, h]
      simp [Store.isRecreated, Store.setObject]
    · simp [Store.isRecreated, Store.setObject, commit, hi]

theorem notified_writeModels_iff {ids : List α} :
    Notified (writeModels db ids s) ↔ ∀ id ∈ ids, s.isRecreated id = false := by
  induction ids generalizing s with
  | nil => exact iff_of_true (notified_quiet s) fun _ h => absurd h not_mem_nil
  | cons id ids ih =>
    rw [forall_mem_cons]
    cases h : s.isRecreated id with
    | false =>
      rw [writeModels, notified_andThen_iff (notified_writeModel h), ih]
      simp [isRecreated_writeModel h]
    | true =>
      -- the additions that are missing here cannot be made up for by the rest
      refine iff_of_false (fun hntf => ?_) fun hnot => Bool.noConfusion hnot.1
      have hfst := adds_writeModel_of_isRecreated db h
      have hrest := adds_writeModels_le db ids (writeModel db id s).store
      have hequ := hntf.adds_eq
      rw [writeModels, (adds_andThen ..).1, (adds_andThen ..).2] at hequ
      omega

/-- A batch is announced as it should be, if it saves nothing to a deleted document. -/
theorem notified_saveModels_iff {ids : List α} (h : saveModels db ids succeeds s = some o) :
    Notified o ↔ (succeeds = true → ∀ id ∈ ids, (s.documents id).any Revision.isDeletion = true →
      (s.objectCache id).any (fun object => object.needsSave || !object.createdAtExists) = false) := by
  rw [saveModels] at h
  split_ifs at h with hdoc hsuc
  · obtain rfl := some.inj h
    rw [notified_writeModels_iff, forall_prop_of_true hsuc]
    refine forall₂_congr fun id hid => ?_
    have hsta : (stampModels ids s).objectCache id = (s.objectCache id).map updateTimestamps :=
      if_pos hid
    rw [Store.isRecreated, hsta, Option.any_map, Bool.and_comm, Bool.and_eq_false_imp]
    rfl
  · obtain rfl := some.inj h
    exact iff_of_true (notified_quiet _) fun hnot => absurd hnot hsuc

/-! ### Deletions -/

/-- A deletion is announced as it should be, if the handler finds the document and takes it for no
managed object. -/
theorem notified_deleteDocument_iff (h : deleteDocument db id succeeds s = some o) :
    Notified o ↔ (succeeds = true → (s.objectCache id).any Managed.hasDocument = true →
      (existingDocumentWithID db id s).isSome = true →
        db.findsDeleted = true ∧ db.keepsProperties = false) := by
  rw [deleteDocument, map_eq_some_iff] at h
  obtain ⟨object, hobj, h⟩ := h
  rw [hobj, any_some]
  split_ifs at h with hdls hsuc
  · obtain ⟨revision, hrev⟩ := isSome_iff_exists.1 hdls.2
    have hdoc : s.documents id = some revision := (filter_eq_some_iff.1 hrev).1
    rw [← h, forall_prop_of_true hsuc, forall_prop_of_true hdls.1, forall_prop_of_true hdls.2]
    have hpst := posted_commit_delete db hdoc hobj
    constructor
    · intro hperm
      have hlen := hperm.length_eq
      rw [length_map, length_append, hpst] at hlen
      split_ifs at hlen with hfin hkps
      · exact absurd hlen (by decide : ¬2 + 2 = 2)
      · exact ⟨hfin, Bool.eq_false_iff.2 hkps⟩
      · exact absurd hlen (by decide : ¬2 + 2 = 2)
    · rintro ⟨hfin, hkps⟩
      rw [hfin, hkps] at hpst
      show (((commit db true id s).posted ++ didDeleteObject id).map announced).Perm _
      rw [hpst]
      exact List.Perm.refl _
  · rw [← h]
    exact iff_of_true (notified_quiet s) fun hnot => absurd hnot hsuc
  · rw [← h]
    exact iff_of_true (notified_quiet s) fun _ hdoc hex => absurd ⟨hdoc, hex⟩ hdls

/-! ### Histories -/

/-- The condition under which an event is announced as it should be. -/
def StoreEvent.Meets (db : Database) : StoreEvent α → Outcome α → Prop
  | .save id succeeds, o =>
    succeeds = true → (o.store.objectCache id).any Managed.needsSave = false
  | .saveModels ids succeeds, o =>
    succeeds = true → ∀ id ∈ ids, (o.store.documents id).any Revision.isDeletion = true →
      (o.store.objectCache id).any (fun object => object.needsSave || !object.createdAtExists) = false
  | .delete id succeeds, o =>
    succeeds = true → (o.store.objectCache id).any Managed.hasDocument = true →
      (existingDocumentWithID db id o.store).isSome = true →
        db.findsDeleted = true ∧ db.keepsProperties = false
  | _, _ => True

theorem notified_outcome_iff {event : StoreEvent α} {first second : Outcome α}
    (h : event.outcome db first.store = some second) : Notified second ↔ event.Meets db first := by
  cases event with
  | create id =>
    rw [StoreEvent.outcome, ite_none_right_eq_some] at h
    rw [← some.inj h.2]
    exact iff_of_true (notified_quiet _) trivial
  | load id createdAtExists =>
    rw [StoreEvent.outcome, ite_none_right_eq_some] at h
    rw [← some.inj h.2]
    exact iff_of_true (notified_quiet _) trivial
  | modify id =>
    rw [StoreEvent.outcome, map_eq_some_iff] at h
    obtain ⟨object, -, rfl⟩ := h
    exact iff_of_true (notified_quiet _) trivial
  | save id succeeds => exact notified_save_iff h
  | saveModels ids succeeds => exact notified_saveModels_iff h
  | delete id succeeds => exact notified_deleteDocument_iff h

theorem notified_step_iff (event : StoreEvent α) (o o' : Outcome α) (ho : Notified o)
    (h : event.step db o = some o') : Notified o' ↔ event.Meets db o := by
  obtain ⟨second, hsnd, rfl⟩ := map_eq_some_iff.1 h
  rw [notified_andThen_iff ho, notified_outcome_iff hsnd]

end

/-- Along any history, every commit has posted one recent and one past notification of its kind and
nothing else, exactly if no commit is made by `save:`, no batch saves to a deleted document, and
deletions are made only where the handler finds deleted documents and ignores them. -/
theorem notified_iff [DecidableEq α] (db : Database) (s : Store α) (events : List (StoreEvent α)) :
    Throughout (StoreEvent.step db) Notified events (quiet s) ↔
      EachStep (StoreEvent.step db) (StoreEvent.Meets db) events (quiet s) :=
  throughout_iff (fun _ h => h) notified_step_iff
    (fun event o o' ho hmeets h => (notified_step_iff event o o' ho h).2 hmeets) (notified_quiet s)

/-- No documents, and no objects in memory. -/
def emptyStore : Store String := ⟨fun _ => none, fun _ => none⟩

/-- A new object is announced as added by the handler, from the API, and again by `saveCompleted`;
where deleted documents are not found, so is its deletion. -/
theorem not_notified_saved_deleted :
    (∃ o, run (StoreEvent.step ⟨false, false⟩) [.create "a", .save "a" true] (quiet emptyStore) =
        some o ∧ ¬Notified o ∧ o.committed = [⟨.add, "a"⟩] ∧
      o.posted = post .add "a" (some .api) ++ post .add "a" (some .internal)) ∧
    ∃ o, run (StoreEvent.step ⟨false, false⟩)
        [.create "a", .saveModels ["a"] true, .delete "a" true] (quiet emptyStore) =
        some o ∧ ¬Notified o ∧ o.committed = [⟨.add, "a"⟩, ⟨.remove, "a"⟩] ∧
      o.posted = post .add "a" (some .api) ++ (post .remove "a" none ++ post .remove "a" none) :=
  ⟨⟨_, rfl, by decide, rfl, rfl⟩, ⟨_, rfl, by decide, rfl, rfl⟩⟩

end Feather.Model.Notifications
