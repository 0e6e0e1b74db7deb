import Feather.Controllers.Hierarchy
import Feather.Model.Change
import Feather.Program.Run

/-!
# References from and to embedded objects

An embedded object knows its embedding object, and through that the managed object at the end of the
chain.  Two methods of `MPEmbeddedObject.m` should go that way and do not:
`databaseForModelProperty:` asks the same object again and again, and
`objectWithReferableDictionaryRepresentation:` asks the managed object for the key under which the
object is embedded in its embedding object.
-/

namespace Feather.Controllers.References

open Keyed Program Sync Option
open Feather.Model (Chain Embedded Key Place path rootKey)

/-- A managed object, or an object that it embeds: the chain leads from there up to it. -/
structure Object where
  package : String
  documentID : String
  chain : Chain
  deriving DecidableEq

namespace Object

/-- The object is not embedded. -/
def isManagedObject (x : Object) : Bool := x.chain.isEmpty

/-- `-embeddingObject` -/
def embeddingObject (x : Object) : Option Object :=
  match x.chain with
  | [] => none
  | _ :: embedder => some { x with chain := embedder }

/-- `embeddingManagedObject`, the loop going up the chain. -/
def embeddingManagedObjectFrom (package documentID : String) : Chain → Option Object
  | [] => none
  | _ :: embedder =>
    if embedder.isEmpty then some ⟨package, documentID, embedder⟩
    else embeddingManagedObjectFrom package documentID embedder

def embeddingManagedObject (x : Object) : Option Object :=
  embeddingManagedObjectFrom x.package x.documentID x.chain

theorem embeddingManagedObject_eq (package documentID : String) (place : Place) (embedder : Chain) :
    embeddingManagedObject ⟨package, documentID, place :: embedder⟩ =
      some ⟨package, documentID, []⟩ := by
  induction embedder generalizing place with
  | nil => rfl
  | cons place' embedder ih => exact ih place'

end Object

/-- The assertions and exceptions on the way to a reference. -/
inductive Raised
  | missingEmbeddingObject
  | missingDatabase
  | unrecognizedSelector
  | missingPackage
  | missingIdentifier
  | undefinedKey
  deriving DecidableEq

abbrev Reading := Prog Unit Raised

/-! ### The database of a reference -/

/-- A model object, by its database and its document. -/
structure ModelObject where
  db : String
  documentID : String
  deriving DecidableEq

/-- The controllers of a package, the package of the shared controller, the declared classes, and
the documents of a database. -/
structure Surroundings where
  controllerForManagedObjectClass : String → String → Option Controller
  sharedShoebox : String
  classOfProperty : Object → String → String
  getValueOfProperty : Object → String → Option Model.Value
  existingDocumentWithID : String → String → Bool
  isDeleted : String → String → Bool
  /-- `modelForDocument:` of the model factory of a database -/
  factoryModel : String → String → Option ModelObject
  /-- `modelForDocument:` of a class -/
  modelForDocument : String → String → String → Option ModelObject
  /-- `objectWithIdentifier:` of a controller -/
  objectWithIdentifier : Controller → String → Option ModelObject

section Database

variable (env : Surroundings)

/-- One iteration of the loop of `databaseForModelProperty:`, which has no variable that changes. -/
def embedderStep (self : Object) (_ : Unit) : Reading (Unit ⊕ Object) :=
  match self.embeddingObject with
  | none => throw .missingEmbeddingObject
  | some embedder =>
    if embedder.isManagedObject then pure (.inr embedder) else pure (.inl ())

/-- The database of the controller for a class, in the package or else in the shared one. -/
def inferredDatabase (mo : Object) (cls : String) : Reading String :=
  match env.controllerForManagedObjectClass mo.package cls with
  | some moc => pure moc.db
  | none =>
    match env.controllerForManagedObjectClass env.sharedShoebox cls with
    | some moc => pure moc.db
    | none => throw .missingDatabase

/-- `databaseForModelProperty:` -/
def databaseForModelProperty (fuel : ℕ) (self : Object) (property : String) : Reading String := do
  let mo ← loop (embedderStep self) fuel ()
  inferredDatabase env mo (env.classOfProperty self property)

/-- `getModelProperty:` where the database has no document: the controller of the class is asked. -/
def objectOfController (self : Object) (property rawValue : String) :
    Reading (Option ModelObject) :=
  match self.embeddingObject with
  | none => pure none
  | some embedder =>
    if embedder.isManagedObject then
      pure ((env.controllerForManagedObjectClass embedder.package
        (env.classOfProperty self property)).bind fun moc => env.objectWithIdentifier moc rawValue)
    else throw .unrecognizedSelector

/-- The model that the factory of the database makes for a document, or else the declared class. -/
def modelOfDocument (cls db rawValue : String) : Option ModelObject :=
  match env.factoryModel db rawValue with
  | some value => some value
  | none => if env.isDeleted db rawValue then none else env.modelForDocument cls db rawValue

/-- `getModelProperty:` -/
def getModelProperty (fuel : ℕ) (self : Object) (property : String) :
    Reading (Option ModelObject) :=
  match env.getValueOfProperty self property with
  | some (.value (.string rawValue)) => do
    let db ← databaseForModelProperty env fuel self property
    if env.existingDocumentWithID db rawValue then
      pure (modelOfDocument env (env.classOfProperty self property) db rawValue)
    else objectOfController env self property rawValue
  | _ => pure none

/-- The database is that of the managed object, and the reference is read. -/
structure ReadsReferences (self : Object) (property : String) : Prop where
  database : ∃ bound, ∀ fuel ≥ bound, ∃ root, self.embeddingManagedObject = some root ∧
    exec (databaseForModelProperty env fuel self property) () =
      exec (inferredDatabase env root (env.classOfProperty self property)) ()
  reference : ∃ bound, ∀ fuel ≥ bound, (exec (getModelProperty env fuel self property) ()).isSome

variable {env} {package documentID : String} {place : Place} {property : String}

/-- The embedding object is a managed object: the loop stops at once. -/
theorem exec_databaseForModelProperty_direct (fuel : ℕ) :
    exec (databaseForModelProperty env (fuel + 1) ⟨package, documentID, [place]⟩ property) () =
      exec (inferredDatabase env ⟨package, documentID, []⟩
        (env.classOfProperty ⟨package, documentID, [place]⟩ property)) () := by
  have hstep : exec (embedderStep ⟨package, documentID, [place]⟩ ()) () =
      some (.ok (.inr ⟨package, documentID, []⟩, ())) := rfl
  rw [databaseForModelProperty, exec_bind, exec_loop_done hstep, andThen_ok]

/-- The embedding object is embedded itself: the loop asks it forever. -/
theorem exec_databaseForModelProperty_nested (fuel : ℕ) (place' : Place) (embedder : Chain) :
    exec (databaseForModelProperty env fuel ⟨package, documentID, place :: place' :: embedder⟩
      property) () = none := by
  have hstep : exec (embedderStep ⟨package, documentID, place :: place' :: embedder⟩ ()) () =
      some (.ok (.inl (), ())) := rfl
  rw [databaseForModelProperty, exec_bind, exec_loop_stuck hstep, andThen_none]

theorem exec_inferredDatabase_isSome (env : Surroundings) (mo : Object) (cls : String) :
    (exec (inferredDatabase env mo cls) ()).isSome := by
  unfold inferredDatabase
  cases env.controllerForManagedObjectClass mo.package cls with
  | some moc => rfl
  | none =>
    cases env.controllerForManagedObjectClass env.sharedShoebox cls with
    | some moc => rfl
    | none => rfl

theorem exec_getModelProperty_direct (fuel : ℕ) :
    (exec (getModelProperty env (fuel + 1) ⟨package, documentID, [place]⟩ property) ()).isSome := by
  unfold getModelProperty
  split
  · rw [exec_bind, exec_databaseForModelProperty_direct]
    have hdat := exec_inferredDatabase_isSome env ⟨package, documentID, []⟩
      (env.classOfProperty ⟨package, documentID, [place]⟩ property)
    obtain ⟨outcome, hout⟩ := isSome_iff_exists.1 hdat
    rw [hout]
    rcases outcome with raised | ⟨db, ⟨⟩⟩
    · rfl
    · rw [andThen_ok]
      split_ifs
      · rfl
      · rfl
  · rfl

/-- References are read from the objects that the managed object itself embeds. -/
theorem readsReferences_iff (env : Surroundings) (package documentID : String) (place : Place)
    (embedder : Chain) (property : String) :
    ReadsReferences env ⟨package, documentID, place :: embedder⟩ property ↔ embedder = [] := by
  constructor
  · rintro ⟨⟨bound, hbd⟩, -⟩
    cases embedder with
    | nil => rfl
    | cons place' embedder =>
      obtain ⟨root, -, hexec⟩ := hbd bound le_rfl
      have hsome := exec_inferredDatabase_isSome env root
        (env.classOfProperty ⟨package, documentID, place :: place' :: embedder⟩ property)
      rw [← hexec, exec_databaseForModelProperty_nested] at hsome
      cases hsome
  · rintro rfl
    constructor
    · refine ⟨1, fun fuel hfuel => ⟨_, Object.embeddingManagedObject_eq .., ?_⟩⟩
      obtain ⟨fuel, rfl⟩ := Nat.exists_eq_add_of_le' hfuel
      exact exec_databaseForModelProperty_direct fuel
    · refine ⟨1, fun fuel hfuel => ?_⟩
      obtain ⟨fuel, rfl⟩ := Nat.exists_eq_add_of_le' hfuel
      exact exec_getModelProperty_direct fuel

/-- The managed object embeds an object that embeds another. -/
theorem not_readsReferences_nested :
    let inner : Object := ⟨"package", "MPManuscript:1",
      [⟨.name "embeddedLabel", none⟩, ⟨.name "embeddedFigure", none⟩]⟩
    inner.embeddingManagedObject = some ⟨"package", "MPManuscript:1", []⟩ ∧
      ¬∃ env fuel, (exec (databaseForModelProperty env fuel inner "style") ()).isSome := by
  refine ⟨rfl, ?_⟩
  rintro ⟨env, fuel, hsome⟩
  rw [exec_databaseForModelProperty_nested] at hsome
  cases hsome

end Database

/-! ### Referable dictionaries -/

/-- The registered packages with their managed objects, and the keys that their classes declare. -/
structure Store where
  packages : Dictionary String (Dictionary String Model.ManagedObject)
  declares : String → Key → Bool

/-- The entries of a referable dictionary. -/
structure ReferableDictionary where
  identifier : String
  embeddingObject : String
  embeddingKey : Key
  embeddingManagedObject : String
  databasePackageID : String
  deriving DecidableEq

/-- A value in a managed object, by where it is. -/
structure Item where
  package : String
  documentID : String
  path : List Key
  deriving DecidableEq

def Object.item (x : Object) : Item := ⟨x.package, x.documentID, path x.chain⟩

namespace Store

variable (store : Store)

def managedObject (package documentID : String) : Option Model.ManagedObject :=
  (store.packages.lookup package).bind fun documents => documents.lookup documentID

/-- `identifier` of an embedded object, `documentID` of a managed object -/
def identifierOf (x : Object) : Option String :=
  if x.isManagedObject then some x.documentID
  else
    match (store.managedObject x.package x.documentID).bind
      fun o => Model.valueForKey o x.chain (.name "_id") with
    | some (.value (.string s)) => some s
    | _ => none

/-- `referableDictionaryRepresentation`; `none` stands for nil. -/
def referableDictionaryRepresentation (x : Object) : Except Raised (Option ReferableDictionary) :=
  match x.chain, x.embeddingObject.bind store.identifierOf, x.embeddingManagedObject with
  | place :: _, some embeddingObjectID, some root =>
    if (store.packages.lookup root.package).isSome then
      match store.identifierOf x with
      | none => .error .missingIdentifier
      | some identifier =>
        .ok (some ⟨identifier, embeddingObjectID, place.embeddingKey, root.documentID, root.package⟩)
    else .error .missingPackage
  | _, _, _ => .ok none

/-- `valueForKey:` of a managed object -/
def valueForKey (package documentID : String) (o : Model.ManagedObject) (key : Key) :
    Except Raised (Option Item) :=
  if store.declares documentID key then
    .ok ((o.properties.get? key).map fun _ => ⟨package, documentID, [key]⟩)
  else .error .undefinedKey

/-- `objectWithReferableDictionaryRepresentation:`; a message to nil answers nil. -/
def objectWithReferableDictionaryRepresentation (rep : ReferableDictionary) :
    Except Raised (Option Item) :=
  match store.packages.lookup rep.databasePackageID with
  | none => .error .missingPackage
  | some documents =>
    match documents.lookup rep.embeddingManagedObject with
    | none => .ok none
    | some o => store.valueForKey rep.databasePackageID rep.embeddingManagedObject o rep.embeddingKey

/-- The managed object is in a registered package, the object embedded there under a declared key,
and all have identifiers. -/
structure Stores (package documentID : String) (place : Place) (embedder : Chain)
    (o : Model.ManagedObject) : Prop where
  managed : store.managedObject package documentID = some o
  embedded : Embedded o (place :: embedder)
  declared : store.declares documentID (rootKey place embedder)
  identified : ∀ chain, chain <:+ place :: embedder →
    ∃ s, store.identifierOf ⟨package, documentID, chain⟩ = some s

/-- The dictionary of the object leads back to it. -/
def Resolves (x : Object) : Prop :=
  ∃ rep, store.referableDictionaryRepresentation x = .ok (some rep) ∧
    store.objectWithReferableDictionaryRepresentation rep = .ok (some x.item)

variable {store} {package documentID : String} {place : Place} {embedder : Chain}
  {o : Model.ManagedObject}

theorem Stores.exists_package (h : store.Stores package documentID place embedder o) :
    ∃ documents, store.packages.lookup package = some documents ∧
      documents.lookup documentID = some o :=
  bind_eq_some_iff.1 h.managed

theorem Stores.referable (h : store.Stores package documentID place embedder o) :
    ∃ identifier embeddingObjectID,
      store.referableDictionaryRepresentation ⟨package, documentID, place :: embedder⟩ =
        .ok (some ⟨identifier, embeddingObjectID, place.embeddingKey, documentID, package⟩) := by
  obtain ⟨documents, hpkg, -⟩ := h.exists_package
  obtain ⟨identifier, hid⟩ := h.identified _ List.suffix_rfl
  obtain ⟨embeddingObjectID, hemb⟩ := h.identified embedder (List.suffix_cons place embedder)
  have hbind : (Object.embeddingObject ⟨package, documentID, place :: embedder⟩).bind
      store.identifierOf = some embeddingObjectID := hemb
  simp [referableDictionaryRepresentation, hbind, Object.embeddingManagedObject_eq, hpkg, hid]

theorem Stores.path_of_resolves (h : store.Stores package documentID place embedder o)
    (hres : store.Resolves ⟨package, documentID, place :: embedder⟩) :
    path (place :: embedder) = [place.embeddingKey] := by
  obtain ⟨rep, hrep, hobj⟩ := hres
  obtain ⟨identifier, embeddingObjectID, href⟩ := h.referable
  rw [href] at hrep
  cases hrep
  obtain ⟨documents, hpkg, hdoc⟩ := h.exists_package
  simp only [objectWithReferableDictionaryRepresentation, hpkg, hdoc, valueForKey] at hobj
  split_ifs at hobj
  obtain ⟨value, -, hitem⟩ := map_eq_some_iff.1 (Except.ok.inj hobj)
  exact (congrArg Item.path hitem).symm

/-- The dictionary leads back exactly to an object that is a property of the managed object. -/
theorem resolves_iff (store : Store) {package documentID : String} {place : Place}
    {embedder : Chain} {o : Model.ManagedObject}
    (h : store.Stores package documentID place embedder o) :
    store.Resolves ⟨package, documentID, place :: embedder⟩ ↔
      embedder = [] ∧ place.item = none := by
  constructor
  · intro hres
    have hlen := congrArg List.length (h.path_of_resolves hres)
    simp only [path, Place.path, List.length_append, List.length_cons, List.length_nil] at hlen
    have hemb : embedder = [] := by
      cases embedder with
      | nil => rfl
      | cons place' embedder =>
        simp only [path, Place.path, List.length_append, List.length_cons] at hlen
        omega
    refine ⟨hemb, ?_⟩
    cases hitem : place.item with
    | none => rfl
    | some key =>
      rw [hitem, toList_some, List.length_singleton] at hlen
      omega
  · rintro ⟨rfl, hitem⟩
    obtain ⟨key, item⟩ := place
    obtain rfl : item = none := hitem
    obtain ⟨identifier, embeddingObjectID, href⟩ := h.referable
    refine ⟨_, href, ?_⟩
    obtain ⟨documents, hpkg, hdoc⟩ := h.exists_package
    obtain ⟨b, properties, hnode⟩ := h.embedded.exists_object
    have hget : o.properties.get? key = some (.node (.object b) properties) :=
      Tree.nodeAt_singleton.1 hnode
    have hdcl : store.declares documentID key := h.declared
    simp only [objectWithReferableDictionaryRepresentation, hpkg, hdoc, valueForKey, hdcl, hget]
    rfl

end Store

/-- A managed object with a figure that has a label, and a note in an array. -/
def sampleManuscript : Model.ManagedObject where
  properties :=
    .node (.name "embeddedFigure") (.object false)
      (.value (.name "_id") (.string "MPFigure:2") (.node (.name "embeddedLabel") (.object false)
          (.value (.name "_id") (.string "MPLabel:3") .nil) .nil))
    (.node (.name "embeddedNotes") .array
      (.node (.index 0) (.object false) (.value (.name "_id") (.string "MPNote:4") .nil) .nil) .nil)
  changedNames := []
  needsSave := false
  document := .nil

def sampleStore : Store where
  packages := (∅ : Dictionary String (Dictionary String Model.ManagedObject)).insert "package"
    ((∅ : Dictionary String Model.ManagedObject).insert "MPManuscript:1" sampleManuscript)
  declares _ key := key = .name "embeddedFigure" || key = .name "embeddedNotes"

theorem resolves_figure :
    sampleStore.Resolves ⟨"package", "MPManuscript:1", [⟨.name "embeddedFigure", none⟩]⟩ := by
  have hsto : sampleStore.Stores "package" "MPManuscript:1" ⟨.name "embeddedFigure", none⟩ []
      sampleManuscript := by
    refine ⟨rfl, ⟨⟨false, rfl⟩, fun hitem => (by cases hitem), trivial⟩, rfl, ?_⟩
    intro chain hch
    rcases List.suffix_cons_iff.1 hch with rfl | hnil
    · exact ⟨"MPFigure:2", rfl⟩
    · rw [List.suffix_nil.1 hnil]
      exact ⟨"MPManuscript:1", rfl⟩
  exact (Store.resolves_iff sampleStore hsto).2 ⟨rfl, rfl⟩

/-- The label's key is not one of the managed object; the note's gives the array. -/
theorem not_resolves_label :
    let label : Object := ⟨"package", "MPManuscript:1",
      [⟨.name "embeddedLabel", none⟩, ⟨.name "embeddedFigure", none⟩]⟩
    let note : Object := ⟨"package", "MPManuscript:1", [⟨.name "embeddedNotes", some (.index 0)⟩]⟩
    sampleStore.referableDictionaryRepresentation label = .ok (some ⟨"MPLabel:3", "MPFigure:2",
        .name "embeddedLabel", "MPManuscript:1", "package"⟩) ∧
      sampleStore.objectWithReferableDictionaryRepresentation ⟨"MPLabel:3", "MPFigure:2",
        .name "embeddedLabel", "MPManuscript:1", "package"⟩ = .error .undefinedKey ∧
      sampleStore.referableDictionaryRepresentation note = .ok (some ⟨"MPNote:4", "MPManuscript:1",
        .name "embeddedNotes", "MPManuscript:1", "package"⟩) ∧
      sampleStore.objectWithReferableDictionaryRepresentation ⟨"MPNote:4", "MPManuscript:1",
        .name "embeddedNotes", "MPManuscript:1", "package"⟩ =
          .ok (some ⟨"package", "MPManuscript:1", [.name "embeddedNotes"]⟩) ∧
      note.item = ⟨"package", "MPManuscript:1", [.name "embeddedNotes", .index 0]⟩ :=
  ⟨rfl, rfl, rfl, rfl, rfl⟩

end Feather.Controllers.References
