import Feather.Async.System
import Feather.Embedding.Values
import Feather.Model.Saving
import Feather.Sync.State

/-!
# Snapshots of a database package

`newSnapshotWithName:error:` and `restoreFromSnapshotWithName:error:` of
`MPDatabasePackageController.m`, with the objects of `MPSnapshot.m` and the query of
`MPSnapshotsController.m`.  `none` is a failed `assert`, which no configuration leaves out, or a
message that is not understood.
-/

namespace Feather.Controllers.Snapshots

open Keyed Async Sync List Option AList
open Feather.Model (Key SaveSteps)
open Feather.Embedding (Content Value objectType stringAt)

/-! ### The package -/

/-- A document of a database. -/
structure Document where
  revision : String
  properties : Content
  deriving DecidableEq

/-- The databases of a package, with the objects in memory. -/
structure Store where
  objects : Dictionary String Document
  /-- The properties of the objects that have changes which are not saved. -/
  unsaved : Dictionary String Content
  snapshots : Dictionary String Document
  /-- The documents of the snapshots database that have an object in memory. -/
  live : List String

/-- A registered controller; `hasView` where its view of all objects has a map function. -/
structure Controller where
  managesClass : String → Bool
  ofSnapshots : Bool
  hasView : Bool

/-- The package, with what the database does: `unmappedRaises` for a query of a view without a map
function, `replacesModels` for a second object of a document, `emitsNil` for a missing emitted key.
-/
structure Package where
  /-- The registered controllers other than the one of the snapshots. -/
  controllers : List Controller
  managesClass_snapshot : ∀ c ∈ controllers, c.managesClass "MPSnapshot" = false
  /-- The snapshots controller itself registers two others. -/
  controllers_ne_nil : controllers ≠ []
  /-- The class is concrete and the package has a controller for it. -/
  loadsClass : String → Bool
  unmappedRaises : Bool
  replacesModels : Bool
  emitsNil : Bool

/-- When a snapshot is taken, and what comes of saving its documents. -/
structure Saving where
  now : ℚ
  revision : String → String
  saves : String → Bool

/-- The classes of the objects of a snapshot. -/
inductive SnapshotClass
  | snapshot
  | snapshottedObject
  deriving DecidableEq

namespace SnapshotClass

/-- The name of a class. -/
def name : SnapshotClass → String
  | snapshot => "MPSnapshot"
  | snapshottedObject => "MPSnapshottedObject"

/-- Each is declared as a direct subclass of `MPManagedObject`. -/
def isSubclassOf (cls other : SnapshotClass) : Bool := cls == other

end SnapshotClass

/-- `+idForSnapshotWithName:` -/
def idForSnapshotWithName (name : String) : String :=
  SnapshotClass.snapshot.name ++ ":" ++ name

/-- The identifier of a snapshotted object. -/
def idForSnapshottedObject (documentID revisionID : String) : String :=
  SnapshotClass.snapshottedObject.name ++ ":" ++ documentID ++ ":" ++ revisionID

/-! ### Taking a snapshot -/

section

variable (p : Package)

/-- `-managesDocumentWithDictionary:` -/
def Controller.managesDocument (c : Controller) (document : Document) : Bool :=
  match objectType document.properties with
  | none => false
  | some type => c.managesClass type

/-- The row's document gets its object, which is made if it is not in memory. -/
def Package.loadsDocument (document : Document) : Bool :=
  match objectType document.properties with
  | none => false
  | some type => p.loadsClass type

def Controller.documents (c : Controller) (s : Store) : Dictionary String Document :=
  if c.ofSnapshots then s.snapshots else s.objects

/-- The rows of the view of all objects. -/
def Controller.rows (c : Controller) (s : Store) : List (Sigma fun _ : String => Document) :=
  (c.documents s).entries.filter fun row => c.managesDocument row.2

/-- `-allObjects` -/
def allObjects (c : Controller) (s : Store) : Option (List (Sigma fun _ : String => Document)) :=
  if c.hasView then
    if (c.rows s).all fun row => p.loadsDocument row.2 then some (c.rows s) else none
  else if p.unmappedRaises then none
  else some []

/-- `initWithNewDocumentForController:` for an object of the snapshots database. -/
def initWithNewDocumentForController (cls managedObjectClass : SnapshotClass) (id : String)
    (s : Store) : Option Content :=
  let properties := ((s.snapshots.lookup id).map Document.properties).getD .nil
  if id ∈ s.live ∧ p.replacesModels = false then none
  else if cls = managedObjectClass ∨ cls.isSubclassOf managedObjectClass then
    if (objectType properties).getD cls.name = cls.name then
      some (properties.put (.name "objectType") (.value (.string cls.name)))
    else none
  else none

/-- `updateTimestamps` of an object that has changes. -/
def stamp (now : ℚ) (properties : Content) : Content :=
  (if (properties.get? (.name "createdAt")).isSome then properties
    else properties.put (.name "createdAt") (.value (.number now))).put (.name "updatedAt")
      (.value (.number now))

/-- The steps of `save:` of a new object. -/
def saveSteps (call : Saving) (id : String) (properties : Content) : SaveSteps Store where
  isClean _ := false
  prepare s := { s with live := id :: s.live }
  complete s :=
    { s with snapshots := s.snapshots.insert id ⟨call.revision id, stamp call.now properties⟩ }

/-- `save:`, with what it returns. -/
def saveObject (call : Saving) (id : String) (properties : Content) (s : Store) : Bool × Store :=
  (saveSteps call id properties).save (call.saves id) s

/-- The properties that `initWithController:name:` sets. -/
def setSnapshot (now : ℚ) (name : String) (properties : Content) : Content :=
  (properties.put (.name "name") (.value (.string name))).put (.name "timestamp")
    (.value (.number now))

/-- The properties that `initWithController:snapshot:snapshottedObject:` sets. -/
def setSnapshotted (snapshot : String) (object : Sigma fun _ : String => Document)
    (properties : Content) : Content :=
  ((((properties.put (.name "snapshot") (.value (.string snapshot))).put
    (.name "snapshottedObjectClass")
      (.value (.string ((objectType object.2.properties).getD "")))).put
    (.name "snapshottedObject") (.value (.string object.1))).put
    (.name "snapshottedRevisionID") (.value (.string object.2.revision))).put
    (.name "snapshottedProperties") (.node .dictionary object.2.properties)

/-- The snapshotted object is made for the snapshots controller and saved. -/
def snapshotObject (call : Saving) (snapshot : String) (object : Sigma fun _ : String => Document)
    (s : Store) : Option (Bool × Store) :=
  let id := idForSnapshottedObject object.1 object.2.revision
  (initWithNewDocumentForController p .snapshottedObject .snapshot id s).map fun properties =>
    saveObject call id (setSnapshotted snapshot object properties) s

/-- The objects of a controller; `false` where one could not be saved. -/
def snapshotObjects (call : Saving) (snapshot : String) :
    List (Sigma fun _ : String => Document) → Store → Option (Bool × Store)
  | [], s => some (true, s)
  | object :: objects, s =>
    match snapshotObject p call snapshot object s with
    | none => none
    | some (false, s) => some (false, s)
    | some (true, s) => snapshotObjects call snapshot objects s

/-- The loop over the controllers. -/
def snapshotControllers (call : Saving) (snapshot : String) :
    List Controller → Store → Option (Bool × Store)
  | [], s => some (true, s)
  | c :: controllers, s =>
    match (allObjects p c s).bind (snapshotObjects p call snapshot · s) with
    | none => none
    | some (false, s) => some (false, s)
    | some (true, s) => snapshotControllers call snapshot controllers s

/-- `newSnapshotWithName:error:`, with the identifier or `none` for `nil`. -/
def newSnapshotWithName (call : Saving) (name : String) (s : Store) :
    Option (Option String × Store) :=
  let id := idForSnapshotWithName name
  match initWithNewDocumentForController p .snapshot .snapshot id s with
  | none => none
  | some properties =>
    match saveObject call id (setSnapshot call.now name properties) s with
    | (false, s) => some (none, s)
    | (true, s) =>
      (snapshotControllers p call id p.controllers s).map fun (taken, s) =>
        (if taken then some id else none, s)

/-! ### Listing and restoring -/

def isSnapshottedObject (document : Document) : Bool :=
  objectType document.properties = some SnapshotClass.snapshottedObject.name

/-- The map function of the view `snapshottedObjectsBySnapshotID` emits the `snapshotID`. -/
def Package.emitsRow (document : Document) : Bool :=
  isSnapshottedObject document &&
    ((document.properties.get? (.name "snapshotID")).isSome || p.emitsNil)

def snapshottedRows (s : Store) : List (Sigma fun _ : String => Document) :=
  s.snapshots.entries.filter fun row => p.emitsRow row.2

/-- `snapshottedObjectsForSnapshot:`, the same for all snapshots as the query has no keys. -/
def snapshottedObjectsForSnapshot (_snapshot : String) (s : Store) : Option (List Content) :=
  if (snapshottedRows p s).all fun row => decide (row.1 ∈ s.live) || p.loadsDocument row.2 then
    some ((snapshottedRows p s).map fun row => row.2.properties)
  else none

/-- `modelForDocument:` of `MPSnapshot`; a missing document is made, without a class. -/
def modelForDocument (id : String) (s : Store) : Option String :=
  match s.snapshots.lookup id with
  | none => none
  | some document =>
    if objectType document.properties = some SnapshotClass.snapshot.name ∧
        (id ∈ s.live ∨ p.loadsDocument document) then some id
    else none

/-- The properties in an entry. -/
def snapshottedProperties (entry : Content) : Option Content :=
  match entry.get? (.name "snapshottedProperties") with
  | some (.node .dictionary properties) => some properties
  | _ => none

/-- `isSubclassOfClass:` sent to a value of a document, which is never a class. -/
def isSubclassOfClass : Value → String → Option Bool
  | .value _, _ => none
  | .node _ _, _ => none

/-- Every value is set. -/
def setAll : Content → Content → Content
  | .nil, current => current
  | .value k v rest, current => setAll rest (current.put k (.value v))
  | .node k kind entries rest, current => setAll rest (current.put k (.node kind entries))

/-- The properties are set unless the object is at its revision; it is not to be saved. -/
def restoreObject (entry : Content) (s : Store) : Option Store :=
  (entry.get? (.name "snapshottedObjectClass")).bind fun cls =>
  (isSubclassOfClass cls "MPManagedObject").bind fun managed =>
  (isSubclassOfClass cls SnapshotClass.snapshottedObject.name).bind fun snapshotted =>
  (stringAt "snapshottedObject" entry).bind fun id =>
  (s.objects.lookup id).bind fun document =>
    if managed && !snapshotted && p.loadsDocument document then
      if stringAt "snapshottedRevisionID" entry = some document.revision ∧
          s.unsaved.lookup id = none then
        if snapshottedProperties entry = some document.properties then some s else none
      else
        let current := (s.unsaved.lookup id).getD document.properties
        some { s with
          unsaved := s.unsaved.insert id (setAll ((snapshottedProperties entry).getD .nil) current) }
    else none

/-- The loop over the entries. -/
def restoreEach : List Content → Store → Option Store
  | [], s => some s
  | entry :: entries, s => (restoreObject p entry s).bind (restoreEach entries)

/-- `restoreFromSnapshotWithName:error:`; `modelForDocument:` never gives `nil`. -/
def restoreFromSnapshotWithName (name : String) (s : Store) : Option (Bool × Store) :=
  match modelForDocument p name s with
  | none => none
  | some snapshot =>
    match (snapshottedObjectsForSnapshot p snapshot s).bind (restoreEach p · s) with
    | none => none
    | some s => some (true, s)

end

/-! ### Changes to the objects -/

/-- A change to an object of the package. -/
inductive ObjectChange
  | set (id : String) (properties : Content)
  | save (id revision : String)
  | delete (id : String)

/-- The package after a change. -/
def applyChange (s : Store) : ObjectChange → Store
  | .set id properties => { s with unsaved := s.unsaved.insert id properties }
  | .save id revision =>
    match s.unsaved.lookup id with
    | none => s
    | some properties => { s with
        objects := s.objects.insert id ⟨revision, properties⟩
        unsaved := s.unsaved.erase id }
  | .delete id => { s with objects := s.objects.erase id, unsaved := s.unsaved.erase id }

section

variable {p : Package} {call : Saving} {name snapshot : String} {s s' : Store}

theorem snapshots_applyChange (s : Store) (change : ObjectChange) :
    (applyChange s change).snapshots = s.snapshots ∧ (applyChange s change).live = s.live := by
  cases change with
  | set id properties => exact ⟨rfl, rfl⟩
  | save id revision =>
    rw [applyChange]
    split
    · exact ⟨rfl, rfl⟩
    · exact ⟨rfl, rfl⟩
  | delete id => exact ⟨rfl, rfl⟩

theorem snapshots_foldl_applyChange (changes : List ObjectChange) (s : Store) :
    (changes.foldl applyChange s).snapshots = s.snapshots ∧
      (changes.foldl applyChange s).live = s.live := by
  induction changes generalizing s with
  | nil => exact ⟨rfl, rfl⟩
  | cons change changes ih =>
    obtain ⟨hsns, hlive⟩ := snapshots_applyChange s change
    rw [foldl_cons, (ih _).1, (ih _).2, hsns, hlive]
    exact ⟨rfl, rfl⟩

/-! ### What a snapshot does -/

theorem snapshotObject_eq_none (object : Sigma fun _ : String => Document) :
    snapshotObject p call snapshot object s = none := by
  rw [snapshotObject, initWithNewDocumentForController]
  simp [SnapshotClass.isSubclassOf]

theorem snapshotObjects_eq_some {objects : List (Sigma fun _ : String => Document)} {taken : Bool}
    (h : snapshotObjects p call snapshot objects s = some (taken, s')) :
    objects = [] ∧ taken = true ∧ s' = s := by
  cases objects with
  | nil =>
    cases h
    exact ⟨rfl, rfl, rfl⟩
  | cons object objects =>
    rw [snapshotObjects, snapshotObject_eq_none] at h
    cases h

/-- The loop ends only if no controller lists an object, and then it has done nothing. -/
theorem snapshotControllers_eq_some {controllers : List Controller} {taken : Bool} :
    snapshotControllers p call snapshot controllers s = some (taken, s') ↔
      (∀ c ∈ controllers, allObjects p c s = some []) ∧ taken = true ∧ s' = s := by
  induction controllers generalizing s with
  | nil =>
    rw [snapshotControllers]
    simp [eq_comm]
  | cons c controllers ih =>
    rw [snapshotControllers, forall_mem_cons]
    constructor
    · intro h
      split at h
      · cases h
      · next s1 hobs =>
        obtain ⟨objects, -, hloop⟩ := bind_eq_some_iff.1 hobs
        cases (snapshotObjects_eq_some hloop).2.1
      · next s1 hobs =>
        obtain ⟨objects, hall, hloop⟩ := bind_eq_some_iff.1 hobs
        obtain ⟨rfl, -, rfl⟩ := snapshotObjects_eq_some hloop
        obtain ⟨hrest, htak, hs'⟩ := ih.1 h
        exact ⟨⟨hall, hrest⟩, htak, hs'⟩
    · rintro ⟨⟨hfst, hrest⟩, htak, hs'⟩
      rw [hfst]
      exact ih.2 ⟨hrest, htak, hs'⟩

/-- A snapshot can be made: its document has no other object, and is one of a snapshot if it is
there. -/
def Makes (p : Package) (name : String) (s : Store) : Prop :=
  (idForSnapshotWithName name ∉ s.live ∨ p.replacesModels = true) ∧
    ∀ document, s.snapshots.lookup (idForSnapshotWithName name) = some document →
      (objectType document.properties).getD SnapshotClass.snapshot.name = SnapshotClass.snapshot.name

theorem stringAt_put {key key' : String} (hne : key ≠ key') (value : Value) (properties : Content) :
    stringAt key (properties.put (.name key') value) = stringAt key properties := by
  have hkey : Key.name key ≠ Key.name key' := fun heq => hne (Key.name.inj heq)
  rw [stringAt, stringAt, Tree.get?_put, if_neg hkey]

theorem initWithNewDocumentForController_eq_some {properties : Content}
    (h : initWithNewDocumentForController p .snapshot .snapshot (idForSnapshotWithName name) s =
      some properties) :
    Makes p name s ∧ objectType properties = some SnapshotClass.snapshot.name := by
  rw [initWithNewDocumentForController] at h
  split_ifs at h with hlive hcls htype
  · cases h
    refine ⟨⟨?_, fun document hdoc => ?_⟩, ?_⟩
    · by_cases hmem : idForSnapshotWithName name ∈ s.live
      · exact .inr (by simpa using fun hrep => hlive ⟨hmem, hrep⟩)
      · exact .inl hmem
    · rw [hdoc] at htype
      exact htype
    · rw [objectType, stringAt, Tree.get?_put, if_pos rfl]

theorem exists_initWithNewDocumentForController (h : Makes p name s) :
    ∃ properties, initWithNewDocumentForController p .snapshot .snapshot
      (idForSnapshotWithName name) s = some properties := by
  have hlive : ¬(idForSnapshotWithName name ∈ s.live ∧ p.replacesModels = false) := by
    rintro ⟨hmem, hrep⟩
    rcases h.1 with hnot | hyes
    · exact hnot hmem
    · rw [hrep] at hyes
      cases hyes
  rw [initWithNewDocumentForController, if_neg hlive, if_pos (.inl rfl), if_pos]
  · exact ⟨_, rfl⟩
  · cases hlk : s.snapshots.lookup (idForSnapshotWithName name) with
    | none => rfl
    | some document => exact h.2 document hlk

theorem objectType_stamp_setSnapshot (now : ℚ) (name : String) (properties : Content) :
    objectType (stamp now (setSnapshot now name properties)) = objectType properties := by
  have hset : objectType (setSnapshot now name properties) = objectType properties := by
    rw [setSnapshot, objectType, stringAt_put (by decide), stringAt_put (by decide), objectType]
  rw [stamp, objectType, stringAt_put (by decide), ← hset]
  split_ifs
  · rfl
  · exact stringAt_put (by decide) _ _

/-- The store with the document of a new snapshot. -/
def withSnapshot (call : Saving) (name : String) (properties : Content) (s : Store) : Store :=
  { s with
    snapshots := s.snapshots.insert (idForSnapshotWithName name)
      ⟨call.revision (idForSnapshotWithName name),
        stamp call.now (setSnapshot call.now name properties)⟩
    live := idForSnapshotWithName name :: s.live }

/-- A snapshot is saved and then no controller lists an object, or it is not saved. -/
theorem newSnapshotWithName_eq_some {result : Option String} :
    newSnapshotWithName p call name s = some (result, s') ↔
      ∃ properties, initWithNewDocumentForController p .snapshot .snapshot
          (idForSnapshotWithName name) s = some properties ∧
        ((call.saves (idForSnapshotWithName name) = true ∧
            (∀ c ∈ p.controllers, allObjects p c (withSnapshot call name properties s) = some []) ∧
            result = some (idForSnapshotWithName name) ∧ s' = withSnapshot call name properties s) ∨
          call.saves (idForSnapshotWithName name) = false ∧ result = none ∧
            s' = { s with live := idForSnapshotWithName name :: s.live }) := by
  rw [newSnapshotWithName]
  cases hinit : initWithNewDocumentForController p .snapshot .snapshot (idForSnapshotWithName name) s with
  | none => simp
  | some properties =>
    simp only [some.injEq, exists_eq_left']
    cases hsav : call.saves (idForSnapshotWithName name) with
    | false => simp [saveObject, saveSteps, SaveSteps.save, hsav, eq_comm]
    | true =>
      simp only [saveObject, SaveSteps.save_of_changed, saveSteps, hsav, true_and, Bool.true_eq_false, false_and, or_false]
      constructor
      · intro h
        obtain ⟨⟨taken, s1⟩, hloop, heq⟩ := map_eq_some_iff.1 h
        obtain ⟨hall, rfl, rfl⟩ := snapshotControllers_eq_some.1 hloop
        cases heq
        exact ⟨hall, rfl, rfl⟩
      · rintro ⟨hall, rfl, rfl⟩
        exact map_eq_some_iff.2 ⟨(true, _), snapshotControllers_eq_some.2 ⟨hall, rfl, rfl⟩, rfl⟩

theorem newSnapshotWithName_taken
    (h : newSnapshotWithName p call name s = some (some snapshot, s')) :
    ∃ properties, initWithNewDocumentForController p .snapshot .snapshot
        (idForSnapshotWithName name) s = some properties ∧
      call.saves (idForSnapshotWithName name) = true ∧ s' = withSnapshot call name properties s := by
  obtain ⟨properties, hinit, hcas⟩ := newSnapshotWithName_eq_some.1 h
  rcases hcas with ⟨hsav, -, -, hs'⟩ | ⟨-, hnone, -⟩
  · exact ⟨properties, hinit, hsav, hs'⟩
  · cases hnone

/-! ### Restoring -/

theorem restoreObject_eq_none (entry : Content) : restoreObject p entry s = none := by
  rw [restoreObject]
  cases entry.get? (.name "snapshottedObjectClass") with
  | none => rfl
  | some cls =>
    cases cls with
    | value v => rfl
    | node kind entries => rfl

theorem restoreEach_eq_some {entries : List Content} :
    restoreEach p entries s = some s' ↔ entries = [] ∧ s' = s := by
  cases entries with
  | nil => simp [restoreEach, eq_comm]
  | cons entry entries => simp [restoreEach, restoreObject_eq_none]

theorem snapshottedObjectsForSnapshot_eq_nil :
    snapshottedObjectsForSnapshot p snapshot s = some [] ↔ snapshottedRows p s = [] := by
  rw [snapshottedObjectsForSnapshot]
  split_ifs with hall
  · rw [some.injEq, map_eq_nil_iff]
  · constructor
    · intro h
      cases h
    · intro hrows
      rw [hrows] at hall
      exact absurd rfl hall

/-- There is a snapshot whose document has the name of the one to restore as its identifier. -/
def IsSnapshot (p : Package) (name : String) (s : Store) : Prop :=
  ∃ document, s.snapshots.lookup name = some document ∧
    objectType document.properties = some SnapshotClass.snapshot.name ∧
      (name ∈ s.live ∨ p.loadsDocument document = true)

theorem modelForDocument_eq_some {id : String} :
    modelForDocument p name s = some id ↔ IsSnapshot p name s ∧ id = name := by
  rw [modelForDocument, IsSnapshot]
  cases s.snapshots.lookup name with
  | none => simp
  | some document =>
    simp only [some.injEq, exists_eq_left']
    split_ifs with h
    · exact ⟨fun heq => ⟨h, (some.inj heq).symm⟩, fun hboth => congrArg some hboth.2.symm⟩
    · exact ⟨False.elim, fun hboth => absurd hboth.1 h⟩

/-- Restoring fails no assertion only if it has nothing to restore, and then does nothing. -/
theorem restoreFromSnapshotWithName_eq_some {result : Bool} :
    restoreFromSnapshotWithName p name s = some (result, s') ↔
      IsSnapshot p name s ∧ snapshottedRows p s = [] ∧ result = true ∧ s' = s := by
  rw [restoreFromSnapshotWithName]
  constructor
  · intro h
    split at h
    · cases h
    · next id hmod =>
      split at h
      · cases h
      · next s1 hrst =>
        cases h
        obtain ⟨entries, hent, heach⟩ := bind_eq_some_iff.1 hrst
        obtain ⟨rfl, rfl⟩ := restoreEach_eq_some.1 heach
        exact ⟨(modelForDocument_eq_some.1 hmod).1, snapshottedObjectsForSnapshot_eq_nil.1 hent,
          rfl, rfl⟩
  · rintro ⟨hsna, hrows, rfl, rfl⟩
    rw [modelForDocument_eq_some.2 ⟨hsna, rfl⟩]
    simp only
    rw [snapshottedObjectsForSnapshot_eq_nil.2 hrows, bind_some, restoreEach_eq_some.2 ⟨rfl, rfl⟩]

/-- The identifier of the document of a snapshot is longer than its name. -/
theorem ne_idForSnapshotWithName (name : String) : name ≠ idForSnapshotWithName name := by
  intro heq
  have hlen := congrArg (fun text : String => text.toList.length) heq
  simp only [idForSnapshotWithName, String.toList_append, length_append] at hlen
  have hcol : (":" : String).toList.length = 1 := by decide
  omega

theorem snapshottedRows_eq_nil :
    snapshottedRows p s = [] ↔
      ∀ id document, s.snapshots.lookup id = some document → p.emitsRow document = false := by
  rw [snapshottedRows, filter_eq_nil_iff]
  constructor
  · intro h id document hlk
    simpa using h ⟨id, document⟩ (mem_lookup_iff.1 hlk)
  · rintro h ⟨id, document⟩ hmem
    rw [h id document (mem_lookup_iff.2 hmem)]
    exact Bool.false_ne_true

theorem emitsRow_of_snapshot {document : Document}
    (h : (objectType document.properties).getD SnapshotClass.snapshot.name =
      SnapshotClass.snapshot.name) : p.emitsRow document = false := by
  have hne : isSnapshottedObject document = false := by
    rw [isSnapshottedObject]
    cases htype : objectType document.properties with
    | none => decide
    | some type =>
      rw [htype] at h
      cases h
      decide
  rw [Package.emitsRow, hne, Bool.false_and]

/-- A new snapshot adds no snapshotted object to those that are listed. -/
theorem snapshottedRows_withSnapshot {properties : Content}
    (hinit : initWithNewDocumentForController p .snapshot .snapshot (idForSnapshotWithName name) s =
      some properties) :
    snapshottedRows p (withSnapshot call name properties s) = [] ↔ snapshottedRows p s = [] := by
  obtain ⟨hmak, htype⟩ := initWithNewDocumentForController_eq_some hinit
  rw [snapshottedRows_eq_nil, snapshottedRows_eq_nil]
  constructor
  · intro h id document hlk
    by_cases hid : id = idForSnapshotWithName name
    · subst hid
      exact emitsRow_of_snapshot (hmak.2 document hlk)
    · refine h id document ?_
      rw [withSnapshot, lookup_insert_ne hid]
      exact hlk
  · intro h id document hlk
    by_cases hid : id = idForSnapshotWithName name
    · subst hid
      rw [withSnapshot, lookup_insert] at hlk
      cases hlk
      exact emitsRow_of_snapshot (by rw [objectType_stamp_setSnapshot, htype]; rfl)
    · rw [withSnapshot, lookup_insert_ne hid] at hlk
      exact h id document hlk

theorem isSnapshot_withSnapshot (call : Saving) (properties : Content) (s : Store) :
    IsSnapshot p name (withSnapshot call name properties s) ↔ IsSnapshot p name s := by
  have hne := ne_idForSnapshotWithName name
  simp only [IsSnapshot, withSnapshot, lookup_insert_ne hne, mem_cons, hne, false_or]

end

/-- The properties apart from those that the database and a save keep. -/
def SameUserProperties (properties properties' : Content) : Prop :=
  ∀ k, k ∉ ["_id", "_rev", "createdAt", "updatedAt"].map Key.name →
    properties.get? k = properties'.get? k

/-- Every document is there, with the properties that it had. -/
def Restored (before after : Dictionary String Document) : Prop :=
  ∀ id document, before.lookup id = some document →
    ∃ document', after.lookup id = some document' ∧
      SameUserProperties document'.properties document.properties

/-- No assertion fails, and what is restored are the objects of `before`. -/
def Restores (p : Package) (name : String) (before s : Store) : Prop :=
  ∃ result s', restoreFromSnapshotWithName p name s = some (result, s') ∧
    (result = true → Restored before.objects s'.objects)

/-- After a snapshot and any changes, restoring is right only if the name is the identifier of an
older snapshot, no snapshotted object is stored and the changes have been taken back. -/
theorem restores_iff (p : Package) (call : Saving) (name snapshot : String)
    (changes : List ObjectChange) (s s₁ : Store)
    (htaken : newSnapshotWithName p call name s = some (some snapshot, s₁)) :
    Restores p name s (changes.foldl applyChange s₁) ↔
      IsSnapshot p name s ∧ snapshottedRows p s = [] ∧
        Restored s.objects (changes.foldl applyChange s₁).objects := by
  obtain ⟨properties, hinit, -, rfl⟩ := newSnapshotWithName_taken htaken
  obtain ⟨hsns, hlive⟩ :=
    snapshots_foldl_applyChange changes (withSnapshot call name properties s)
  -- the changes are not to the snapshots database, and the new snapshot is under another identifier
  generalize changes.foldl applyChange (withSnapshot call name properties s) = s₂ at hsns hlive ⊢
  have hsna : IsSnapshot p name s₂ ↔ IsSnapshot p name s := by
    rw [← isSnapshot_withSnapshot call properties s, IsSnapshot, IsSnapshot, hsns, hlive]
  have hrows : snapshottedRows p s₂ = [] ↔ snapshottedRows p s = [] := by
    rw [← snapshottedRows_withSnapshot hinit, snapshottedRows, snapshottedRows, hsns]
  rw [← hsna, ← hrows]
  constructor
  · rintro ⟨result, s', hrst, hres⟩
    obtain ⟨hfnd, hnil, rfl, rfl⟩ := restoreFromSnapshotWithName_eq_some.1 hrst
    exact ⟨hfnd, hnil, hres rfl⟩
  · rintro ⟨hfnd, hnil, hres⟩
    exact ⟨true, s₂, restoreFromSnapshotWithName_eq_some.2 ⟨hfnd, hnil, rfl, rfl⟩, fun _ => hres⟩

/-- The contributors and the snapshots database, without map functions. -/
def contributorsPackage : Package where
  controllers := [⟨(· == "MPContributor"), false, true⟩, ⟨(· == "MPSnapshottedObject"), true, false⟩,
    ⟨(· == "MPSnapshottedAttachment"), true, false⟩]
  managesClass_snapshot := by simp
  controllers_ne_nil := cons_ne_nil _ _
  loadsClass := (["MPContributor", "MPSnapshot"].contains ·)
  unmappedRaises := false
  replacesModels := false
  emitsNil := true

def savesAll : Saving := ⟨0, fun _ => "1-a", fun _ => true⟩

def emptyPackage : Store := ⟨∅, ∅, ∅, []⟩

theorem restores_of_identifier : ∃ s s₁, newSnapshotWithName contributorsPackage savesAll
    "MPSnapshot:a" s = some (some "MPSnapshot:MPSnapshot:a", s₁) ∧
      Restores contributorsPackage "MPSnapshot:a" s
        ([.set "MPContributor:1" .nil, .save "MPContributor:1" "1-b"].foldl applyChange s₁) := by
  refine ⟨(newSnapshotWithName contributorsPackage savesAll "a" emptyPackage).elim emptyPackage Prod.snd,
    _, rfl, (restores_iff contributorsPackage savesAll "MPSnapshot:a" "MPSnapshot:MPSnapshot:a"
      [.set "MPContributor:1" .nil, .save "MPContributor:1" "1-b"] _ _ rfl).2 ⟨⟨_, rfl, rfl, ?_⟩, rfl, ?_⟩⟩
  · exact .inr rfl
  · intro id document hlk
    cases hlk

/-- In an empty package a snapshot is taken, and restoring it fails. -/
theorem not_restores_emptyPackage : ∃ s₁, newSnapshotWithName contributorsPackage savesAll "a"
    emptyPackage = some (some "MPSnapshot:a", s₁) ∧
      restoreFromSnapshotWithName contributorsPackage "a" s₁ = none ∧
        ¬Restores contributorsPackage "a" emptyPackage s₁ := by
  refine ⟨_, rfl, rfl, ?_⟩
  rintro ⟨result, s', hrst, -⟩
  cases hrst

/-! ### Runs -/

/-- A change, or a snapshot that is taken. -/
inductive Event
  | modify (change : ObjectChange)
  | take (name : String) (call : Saving)

/-- `none` where an assertion fails. -/
def Event.step (p : Package) : Event → Store → Option Store
  | .modify change, s => some (applyChange s change)
  | .take name call, s => (newSnapshotWithName p call name s).map Prod.snd

/-- A package whose snapshots database is empty. -/
def Store.start (objects : Dictionary String Document) (unsaved : Dictionary String Content) : Store :=
  ⟨objects, unsaved, ∅, []⟩

/-- All documents of the snapshots database are those of snapshots. -/
def OnlySnapshots (s : Store) : Prop :=
  ∀ id document, s.snapshots.lookup id = some document →
    objectType document.properties = some SnapshotClass.snapshot.name

/-- The entries are one for each document, with its properties. -/
def EntriesOf (objects : Dictionary String Document) (entries : List Content) : Prop :=
  (entries.map fun entry => (stringAt "snapshottedObject" entry, snapshottedProperties entry)).Perm
    (objects.entries.map fun object => (some object.1, some object.2.properties))

/-- No snapshot fails an assertion, and the snapshotted objects of each are, from then on, those of
the objects that there were. -/
structure ListsSnapshots (p : Package) (schedule : List Event) (start : Store) : Prop where
  takes : ∀ past name call s, past ++ [.take name call] <+: schedule →
    run (Event.step p) past start = some s → (newSnapshotWithName p call name s).isSome
  lists : ∀ past name call later s s₁ s₂ snapshot,
    past ++ [.take name call] ++ later <+: schedule → run (Event.step p) past start = some s →
      newSnapshotWithName p call name s = some (some snapshot, s₁) →
        run (Event.step p) later s₁ = some s₂ →
          ∃ entries, snapshottedObjectsForSnapshot p snapshot s₂ = some entries ∧
            EntriesOf s.objects entries

/-- A snapshot with a new name, which is not saved or taken of no objects. -/
structure TakesNothing (p : Package) (name : String) (call : Saving) (s : Store) : Prop where
  makes : idForSnapshotWithName name ∉ s.live ∨ p.replacesModels = true
  objects : call.saves (idForSnapshotWithName name) = true → s.objects = ∅
  views : call.saves (idForSnapshotWithName name) = true →
    ∀ c ∈ p.controllers, c.hasView = true ∨ p.unmappedRaises = false

section

variable {p : Package} {call : Saving} {name snapshot : String} {s s' : Store}

theorem OnlySnapshots.snapshottedRows (h : OnlySnapshots s) : snapshottedRows p s = [] := by
  rw [snapshottedRows_eq_nil]
  intro id document hlk
  exact emitsRow_of_snapshot (by rw [h id document hlk]; rfl)

theorem OnlySnapshots.withSnapshot {properties : Content} (h : OnlySnapshots s) (call : Saving)
    (name : String) (htype : objectType properties = some SnapshotClass.snapshot.name) :
    OnlySnapshots (withSnapshot call name properties s) := by
  intro id document hlk
  rw [Snapshots.withSnapshot] at hlk
  by_cases hid : id = idForSnapshotWithName name
  · subst hid
    rw [lookup_insert] at hlk
    cases hlk
    rw [objectType_stamp_setSnapshot, htype]
  · rw [lookup_insert_ne hid] at hlk
    exact h id document hlk

theorem onlySnapshots_step {event : Event} (h : OnlySnapshots s)
    (hstep : Event.step p event s = some s') : OnlySnapshots s' := by
  cases event with
  | modify change =>
    cases hstep
    rw [OnlySnapshots, (snapshots_applyChange s change).1]
    exact h
  | take name call =>
    obtain ⟨⟨result, s1⟩, htak, rfl⟩ := map_eq_some_iff.1 hstep
    obtain ⟨properties, hinit, hcas⟩ := newSnapshotWithName_eq_some.1 htak
    rcases hcas with ⟨-, -, -, rfl⟩ | ⟨-, -, rfl⟩
    · exact h.withSnapshot call name (initWithNewDocumentForController_eq_some hinit).2
    · exact h

theorem onlySnapshots_run {schedule : List Event} (h : OnlySnapshots s)
    (hrun : run (Event.step p) schedule s = some s') : OnlySnapshots s' :=
  run_invariant (fun _ _ _ => onlySnapshots_step) h hrun

theorem onlySnapshots_start (objects : Dictionary String Document)
    (unsaved : Dictionary String Content) : OnlySnapshots (Store.start objects unsaved) := by
  intro id document hlk
  cases hlk

/-- In every run the snapshots have no snapshotted objects, and restoring one changes nothing. -/
theorem restores_nothing (p : Package) (objects : Dictionary String Document)
    (unsaved : Dictionary String Content) (schedule : List Event) :
    Throughout (Event.step p) (fun s =>
      (∀ snapshot, snapshottedObjectsForSnapshot p snapshot s = some []) ∧
      ∀ name result s', restoreFromSnapshotWithName p name s = some (result, s') ↔
        IsSnapshot p name s ∧ result = true ∧ s' = s) schedule (Store.start objects unsaved) := by
  refine throughout_of_run fun past s hrun => ?_
  have hrows := (onlySnapshots_run (onlySnapshots_start objects unsaved) hrun).snapshottedRows (p := p)
  refine ⟨fun snapshot => ?_, fun name result s' => ?_⟩
  · rw [snapshottedObjectsForSnapshot, hrows]
    rfl
  · rw [restoreFromSnapshotWithName_eq_some]
    exact and_congr_right fun _ => and_iff_right hrows

theorem allObjects_of_empty {c : Controller} (hc : c ∈ p.controllers) (h : OnlySnapshots s)
    (hobs : s.objects = ∅) (hview : c.hasView = true ∨ p.unmappedRaises = false) :
    allObjects p c s = some [] := by
  have hrows : c.rows s = [] := by
    rw [Controller.rows, Controller.documents]
    split_ifs
    · rw [filter_eq_nil_iff]
      rintro ⟨id, document⟩ hmem
      rw [Controller.managesDocument, h id document (mem_lookup_iff.2 hmem)]
      exact Bool.not_eq_true _ ▸ p.managesClass_snapshot c hc
    · rw [hobs]
      rfl
  rw [allObjects, hrows, all_nil, if_pos rfl]
  rcases hview with hview | hview
  · rw [if_pos hview]
  · rw [hview, if_neg Bool.false_ne_true, ite_self]

theorem view_of_allObjects {c : Controller} (h : allObjects p c s = some []) :
    c.hasView = true ∨ p.unmappedRaises = false := by
  rw [allObjects] at h
  split_ifs at h with hhas hall hrai
  · exact .inl hhas
  · exact .inr (by simpa using hrai)

theorem entriesOf_nil {objects : Dictionary String Document} : EntriesOf objects [] ↔ objects = ∅ := by
  have hemp : objects = ∅ ↔ objects.entries = [] := AList.ext_iff
  rw [EntriesOf, map_nil, nil_perm, map_eq_nil_iff, hemp]

theorem takesNothing_iff (h : OnlySnapshots s) :
    TakesNothing p name call s ↔ (newSnapshotWithName p call name s).isSome ∧
      ∀ s1, newSnapshotWithName p call name s = some (some (idForSnapshotWithName name), s1) →
        s.objects = ∅ := by
  constructor
  · rintro ⟨hlive, hobs, hvie⟩
    refine ⟨?_, fun s1 htak => ?_⟩
    · have hmak : Makes p name s :=
        ⟨hlive, fun document hlk => by rw [h _ document hlk]; rfl⟩
      obtain ⟨properties, hinit⟩ := exists_initWithNewDocumentForController hmak
      rw [isSome_iff_exists]
      by_cases hsav : call.saves (idForSnapshotWithName name) = true
      · refine ⟨_, newSnapshotWithName_eq_some.2
          ⟨properties, hinit, .inl ⟨hsav, fun c hc => ?_, rfl, rfl⟩⟩⟩
        have htype := (initWithNewDocumentForController_eq_some hinit).2
        exact allObjects_of_empty hc (h.withSnapshot call name htype) (hobs hsav)
          (hvie hsav c hc)
      · exact ⟨_, newSnapshotWithName_eq_some.2
          ⟨properties, hinit, .inr ⟨by simpa using hsav, rfl, rfl⟩⟩⟩
    · obtain ⟨properties, -, hsav, -⟩ := newSnapshotWithName_taken htak
      exact hobs hsav
  · rintro ⟨hsome, hemp⟩
    obtain ⟨⟨result, s1⟩, htak⟩ := isSome_iff_exists.1 hsome
    obtain ⟨properties, hinit, hcas⟩ := newSnapshotWithName_eq_some.1 htak
    refine ⟨(initWithNewDocumentForController_eq_some hinit).1.1, fun hsav => ?_, fun hsav => ?_⟩
    · rcases hcas with ⟨-, -, rfl, -⟩ | ⟨hnot, -, -⟩
      · exact hemp s1 htak
      · rw [hsav] at hnot
        cases hnot
    · rcases hcas with ⟨-, hall, -, -⟩ | ⟨hnot, -, -⟩
      · exact fun c hc => view_of_allObjects (hall c hc)
      · rw [hsav] at hnot
        cases hnot

end

/-- The snapshots of a run are right only if each one is taken of no objects. -/
theorem listsSnapshots_iff (p : Package) (objects : Dictionary String Document)
    (unsaved : Dictionary String Content) (schedule : List Event) :
    ListsSnapshots p schedule (Store.start objects unsaved) ↔
      ∀ past name call s, past ++ [.take name call] <+: schedule →
        run (Event.step p) past (Store.start objects unsaved) = some s → TakesNothing p name call s := by
  have honly {past : List Event} {s : Store}
      (hrun : run (Event.step p) past (Store.start objects unsaved) = some s) : OnlySnapshots s :=
    onlySnapshots_run (onlySnapshots_start objects unsaved) hrun
  constructor
  · intro hrt past name call s hpast hrun
    rw [takesNothing_iff (honly hrun)]
    refine ⟨hrt.takes past name call s hpast hrun, fun s₁ htak => ?_⟩
    obtain ⟨entries, hent, hobs⟩ := hrt.lists past name call [] s s₁ s₁ _
      (by rwa [append_nil]) hrun htak rfl
    obtain ⟨properties, hinit, -, rfl⟩ := newSnapshotWithName_taken htak
    have htype := (initWithNewDocumentForController_eq_some hinit).2
    have hrows := ((honly hrun).withSnapshot call name htype).snapshottedRows (p := p)
    rw [snapshottedObjectsForSnapshot_eq_nil.2 hrows] at hent
    cases hent
    exact entriesOf_nil.1 hobs
  · intro hall
    refine ⟨fun past name call s hpast hrun => ?_, ?_⟩
    · exact ((takesNothing_iff (honly hrun)).1 (hall past name call s hpast hrun)).1
    · intro past name call later s s₁ s₂ snapshot hpast hrun htak hlat
      have htake : past ++ [.take name call] <+: schedule :=
        (prefix_append _ later).trans hpast
      have hnot := hall past name call s htake hrun
      have hstep : Event.step p (.take name call) s = some s₁ := by
        rw [Event.step, htak, map_some]
      have hrows := (onlySnapshots_run (onlySnapshots_step (honly hrun) hstep) hlat).snapshottedRows
        (p := p)
      obtain ⟨properties, -, hsav, -⟩ := newSnapshotWithName_taken htak
      exact ⟨[], snapshottedObjectsForSnapshot_eq_nil.2 hrows, entriesOf_nil.2 (hnot.objects hsav)⟩

/-- A package with one contributor. -/
def oneContributor : Store :=
  Store.start ((∅ : Dictionary String Document).insert "MPContributor:1"
    ⟨"1-a", .value (.name "objectType") (.string "MPContributor") .nil⟩) ∅

/-- The snapshot of a package with an object fails an assertion. -/
theorem not_listsSnapshots_oneContributor :
    newSnapshotWithName contributorsPackage savesAll "a" oneContributor = none ∧
      ¬ListsSnapshots contributorsPackage [.take "a" savesAll] oneContributor := by
  have hnone : newSnapshotWithName contributorsPackage savesAll "a" oneContributor = none := rfl
  refine ⟨hnone, fun hrt => ?_⟩
  have htak := hrt.takes [] "a" savesAll oneContributor prefix_rfl rfl
  cases htak

end Feather.Controllers.Snapshots
