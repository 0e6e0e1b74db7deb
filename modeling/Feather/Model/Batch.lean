import Feather.Model.Persist

/-!
# Saving objects in a batch

`save:` saves a managed object, `saveModels:error:` several in one transaction.  Only `save:` clears
the marks of the embedded objects and ends in `saveCompleted`, which posts the notifications and has
an object no longer count as new.
-/

namespace Feather.Model.Batch

variable {α : Type} [DecidableEq α]

/-- A managed object of the controller. -/
structure Tracked where
  object : ManagedObject
  isNewObject : Bool

/-- What has happened to an object that was saved. -/
inductive ChangeType
  | add
  | update
  deriving DecidableEq

/-- The two names of a change: `has…` for a recent one and `did…` for a past one. -/
inductive Tense
  | recent
  | past
  deriving DecidableEq

/-- Where a change comes from; none given stands for an internal change. -/
inductive ChangeSource
  | internal
  | api
  | external
  deriving DecidableEq

/-- A notification of a change. -/
structure Notification (α : Type) where
  tense : Tense
  changeType : ChangeType
  object : α
  source : Option ChangeSource
  deriving DecidableEq

/-- The objects of a controller, what was posted, and the delegate's change count. -/
structure Controller (α : Type) where
  tracked : α → Tracked
  posted : List (Notification α)
  changeCount : Option ℕ

namespace Controller

def setTracked (id : α) (tracked : Tracked) (s : Controller α) : Controller α :=
  { s with tracked := Function.update s.tracked id tracked }

def setObject (id : α) (object : ManagedObject) (s : Controller α) : Controller α :=
  s.setTracked id { s.tracked id with object := object }

/-- Notifications are posted. -/
def post (notifications : List (Notification α)) (s : Controller α) : Controller α :=
  { s with posted := s.posted ++ notifications }

def updateChangeCount (s : Controller α) : Controller α :=
  { s with changeCount := s.changeCount.map (· + 1) }

/-- What `didSaveObject:` posts. -/
def added (id : α) : List (Notification α) :=
  [⟨.recent, .add, id, some .internal⟩, ⟨.past, .add, id, some .internal⟩]

/-- What `didUpdateObject:` posts. -/
def updated (id : α) : List (Notification α) :=
  [⟨.recent, .update, id, none⟩, ⟨.past, .update, id, none⟩]

/-- `-didSaveObject:` -/
def didSaveObject (id : α) (s : Controller α) : Controller α :=
  (s.post (added id)).updateChangeCount

/-- `-didUpdateObject:` -/
def didUpdateObject (id : α) (s : Controller α) : Controller α :=
  (s.post (updated id)).updateChangeCount

/-- `-saveCompleted` -/
def saveCompleted (id : α) (s : Controller α) : Controller α :=
  if (s.tracked id).isNewObject then
    didSaveObject id (s.setTracked id { s.tracked id with isNewObject := false })
  else
    didUpdateObject id s

section

variable [CBLModel]

/-- The steps of `save:` of one object. -/
def saveSteps (context : SaveContext) (id : α) : SaveSteps (Controller α) where
  isClean s := isClean (s.tracked id).object
  prepare s := s.setObject id (prepareSave context (s.tracked id).object)
  complete s :=
    saveCompleted id (s.setObject id ((Model.saveSteps context).complete (s.tracked id).object))

/-- A successful `save:` of one object. -/
def saveObject (context : SaveContext) (id : α) (s : Controller α) : Controller α :=
  ((saveSteps context id).save true s).2

/-- Saving every object by itself. -/
def saveEach (models : List (α × SaveContext)) (s : Controller α) : Controller α :=
  models.foldl (fun s model => s.saveObject model.2 model.1) s

/-- A loop over the objects that changes each of them. -/
def changeEach (f : SaveContext → ManagedObject → ManagedObject) (models : List (α × SaveContext))
    (s : Controller α) : Controller α :=
  models.foldl (fun s model => s.setObject model.1 (f model.2 (s.tracked model.1).object)) s

/-- A successful `saveModels:error:`.  The superclass writes the documents,
each as its `save:` does. -/
def saveModels (models : List (α × SaveContext)) (s : Controller α) : Controller α :=
  changeEach (fun _ => CBLModel.writeDocument) models
    (changeEach (fun context => updateTimestamps context.now) models s)

end

end Controller

open Controller

/-- A batch leaves what single saves leave: new objects, marks of embedded objects, notifications;
and a new object is updated by its next save. -/
structure SavesAlike [CBLModel] (models : List (α × SaveContext)) (s : Controller α) : Prop where
  isNewObject_eq : ∀ id,
    ((s.saveModels models).tracked id).isNewObject = ((s.saveEach models).tracked id).isNewObject
  labelAt_eq : ∀ id ks, ((s.saveModels models).tracked id).object.properties.labelAt ks =
    ((s.saveEach models).tracked id).object.properties.labelAt ks
  posted_eq : (s.saveModels models).posted = (s.saveEach models).posted
  next_eq : ∀ model ∈ models, (s.tracked model.1).isNewObject = true →
    ∀ object context, isClean object = false →
      (((s.saveModels models).setObject model.1 object).saveObject context model.1).posted =
        (s.saveModels models).posted ++ updated model.1

section

variable {s : Controller α} {id : α} {context : SaveContext} {models : List (α × SaveContext)}

/-! ### Steps of the saves -/

theorem tracked_setTracked (i : α) (tracked : Tracked) :
    (s.setTracked id tracked).tracked i = if i = id then tracked else s.tracked i :=
  Function.update_apply ..

theorem isNewObject_setObject (i : α) (object : ManagedObject) :
    ((s.setObject id object).tracked i).isNewObject = (s.tracked i).isNewObject := by
  rw [setObject, tracked_setTracked]
  split_ifs with h
  · rw [h]
  · rfl

theorem posted_saveCompleted (id : α) (s : Controller α) :
    (s.saveCompleted id).posted =
      s.posted ++ if (s.tracked id).isNewObject then added id else updated id := by
  rw [saveCompleted]
  split_ifs <;> rfl

theorem posted_changeEach (f : SaveContext → ManagedObject → ManagedObject)
    (models : List (α × SaveContext)) (s : Controller α) :
    (changeEach f models s).posted = s.posted := by
  induction models generalizing s with
  | nil => rfl
  | cons model models ih => exact ih _

variable [CBLModel]

theorem saveObject_of_isClean (h : isClean (s.tracked id).object = true) :
    s.saveObject context id = s := by
  rw [saveObject, SaveSteps.save_of_isClean h]

theorem posted_saveObject (h : isClean (s.tracked id).object = false) :
    (s.saveObject context id).posted =
      s.posted ++ if (s.tracked id).isNewObject then added id else updated id := by
  rw [saveObject, SaveSteps.save_of_changed h, if_pos rfl]
  simp only [Controller.saveSteps, posted_saveCompleted, isNewObject_setObject]
  rfl

theorem prefix_posted_saveObject : s.posted <+: (s.saveObject context id).posted := by
  cases h : isClean (s.tracked id).object with
  | true => rw [saveObject_of_isClean h]
  | false =>
    rw [posted_saveObject h]
    exact List.prefix_append _ _

theorem prefix_posted_saveEach (models : List (α × SaveContext)) (s : Controller α) :
    s.posted <+: (s.saveEach models).posted := by
  induction models generalizing s with
  | nil => exact List.prefix_rfl
  | cons model models ih => exact prefix_posted_saveObject.trans (ih _)

theorem posted_saveModels (models : List (α × SaveContext)) (s : Controller α) :
    (s.saveModels models).posted = s.posted := by
  rw [saveModels, posted_changeEach, posted_changeEach]

/-! ### Batches and single saves -/

/-- The same notifications are posted exactly if there is nothing to save. -/
theorem posted_alike_iff
    (hchd : ∀ model ∈ models, isClean (s.tracked model.1).object = false) :
    (s.saveModels models).posted = (s.saveEach models).posted ↔ models = [] := by
  rw [posted_saveModels]
  cases models with
  | nil => exact iff_of_true rfl rfl
  | cons model models =>
    refine iff_of_false ?_ (List.cons_ne_nil _ _)
    intro heq
    have hlat := (prefix_posted_saveEach models (s.saveObject model.2 model.1)).length_le
    rw [posted_saveObject (hchd model List.mem_cons_self)] at hlat
    have hlen := congrArg List.length heq
    have hpst : 0 < (if (s.tracked model.1).isNewObject then added model.1
        else updated model.1).length := by
      split_ifs <;> exact Nat.succ_pos 1
    rw [List.length_append] at hlat
    simp only [saveEach, List.foldl_cons] at hlen hlat
    omega

end

/-- A batch of changed objects is like the single saves exactly if it is empty. -/
theorem savesAlike_iff [CBLModel] (models : List (α × SaveContext)) (s : Controller α)
    (hchanged : ∀ model ∈ models, isClean (s.tracked model.1).object = false) :
    SavesAlike models s ↔ models = [] := by
  constructor
  · intro h
    exact (posted_alike_iff hchanged).1 h.posted_eq
  · rintro rfl
    exact ⟨fun _ => rfl, fun _ _ => rfl, rfl, fun _ h => absurd h List.not_mem_nil⟩

/-- A value of the directly embedded object is set in an object that was just made. -/
def sampleController : Controller String where
  tracked _ := ⟨setValue ⟨.name "embeddedTestObject", none⟩ [] (some (.value (.string "x")))
    (.name "aStringTypedProperty") sampleManagedObject, true⟩
  posted := []
  changeCount := some 0

theorem not_savesAlike_two :
    ¬SavesAlike [("a", sampleContext), ("b", sampleContext)] sampleController := by
  rw [savesAlike_iff _ _ (by decide)]
  exact List.cons_ne_nil _ _

/-- The batch posts nothing and leaves the object new; the next save adds it again. -/
theorem not_savesAlike_new :
    let saved := sampleController.saveModels [("a", sampleContext)]
    let single := sampleController.saveEach [("a", sampleContext)]
    let next := (saved.setObject "a" (sampleController.tracked "a").object).saveObject
      sampleContext "a"
    ((saved.tracked "a").isNewObject = true ∧ (single.tracked "a").isNewObject = false) ∧
      ((saved.tracked "a").object.properties.labelAt [.name "embeddedTestObject"] =
          some (.object true) ∧
        (single.tracked "a").object.properties.labelAt [.name "embeddedTestObject"] =
          some (.object false)) ∧
      (saved.posted = [] ∧ single.posted = added "a") ∧
      next.posted = added "a" := by
  decide

end Feather.Model.Batch
