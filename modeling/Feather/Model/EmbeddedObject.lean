import Feather.Keyed.Tree
import Feather.Model.Saving

/-!
# Embedded objects of a managed object

A managed object is a document.  Its properties may hold *embedded objects*, directly or in
collections, and these hold others in turn; all are written into the one document.

The source is `MPEmbeddedObject.m` and `MPManagedObject.m`; what the superclass of the latter does is
given by `CBLModel`.
-/

namespace Feather.Model

open Keyed

/-- The name of a property, a key of a dictionary, or an index of an array. -/
inductive Key
  | name (s : String)
  | index (i : ℕ)
  deriving DecidableEq

/-- The values that are written as they are. -/
inductive Plain
  | string (s : String)
  | number (q : ℚ)
  deriving DecidableEq

/-- The values that hold other values.  An embedded object carries its `needsSave` flag. -/
inductive Label
  | object (needsSave : Bool)
  | array
  | dictionary
  deriving DecidableEq

/-- The `_properties` of an object, with the embedded objects reached from it. -/
abbrev Properties := Tree Key Plain Label

abbrev Value := Entry Key Plain Label

/-- Where an embedded object is: in a property, directly or under an index or a key. -/
structure Place where
  embeddingKey : Key
  item : Option Key
  deriving DecidableEq

namespace Place

/-- The class declared for the embedding key is no collection class. -/
def isScalarProperty (place : Place) : Bool :=
  place.item.isNone

def path (place : Place) : List Key :=
  place.embeddingKey :: place.item.toList

end Place

/-- An embedded object: its place, then that of its embedding object, and so on. -/
abbrev Chain := List Place

/-- The keys from the managed object down to an embedded object. -/
def path : Chain → List Key
  | [] => []
  | place :: embedder => path embedder ++ place.path

/-- `MPManagedObject`, with the document it was saved to. -/
structure ManagedObject where
  properties : Properties
  changedNames : List Key
  needsSave : Bool
  document : Properties
  deriving DecidableEq

/-- The `_properties` of an object. -/
def propertiesOf (o : ManagedObject) : Chain → Option Properties
  | [] => some o.properties
  | place :: embedder => (o.properties.nodeAt (path (place :: embedder))).map Prod.snd

/-- `getValueOfProperty:`, and `valueForKey:` of the keys of collections. -/
def valueForKey (o : ManagedObject) (chain : Chain) (key : Key) : Option Value :=
  (propertiesOf o chain).bind (Tree.get? key)

/-- The embedded object itself, as a value. -/
def objectAt (o : ManagedObject) (chain : Chain) : Option Value :=
  (o.properties.nodeAt (path chain)).map fun x => .node x.1 x.2

/-- Sets or removes an entry of the `_properties` of an embedded object. -/
def assignProperty (chain : Chain) (property : Key) (value : Option Value) (o : ManagedObject) :
    ManagedObject :=
  { o with properties := o.properties.modifyAt (path chain) fun label properties =>
      (label, properties.assign property value) }

def Label.setNeedsSave (needsSave : Bool) : Label → Label
  | .object _ => .object needsSave
  | .array => .array
  | .dictionary => .dictionary

def setNeedsSave (chain : Chain) (needsSave : Bool) (o : ManagedObject) : ManagedObject :=
  { o with properties := o.properties.modifyAt (path chain) fun label properties =>
      (label.setNeedsSave needsSave, properties) }

/-- `markPropertyNeedsSave:` of the managed object. -/
def markPropertyNeedsSave (property : Key) (o : ManagedObject) : ManagedObject :=
  { o with changedNames := o.changedNames.insert property }

/-- `dictionaryRepresentation` of an embedded object, and the externalized entries of a collection,
where nested collections are left. -/
def externalizeEntries (inCollection : Bool) : Properties → Properties
  | .nil => .nil
  | .value k v rest => .value k v (externalizeEntries inCollection rest)
  | .node k (.object _) entries rest =>
    .node k .dictionary (externalizeEntries false entries) (externalizeEntries inCollection rest)
  | .node k label entries rest =>
    .node k label (if inCollection then entries else externalizeEntries true entries)
      (externalizeEntries inCollection rest)

/-- `externalizePropertyValue:` -/
def externalizePropertyValue : Value → Value
  | .value v => .value v
  | .node (.object _) entries => .node .dictionary (externalizeEntries false entries)
  | .node label entries => .node label (externalizeEntries true entries)

/-- What a managed object inherits from `CBLModel`. -/
class CBLModel where
  /-- `cacheValue:ofProperty:changed:` -/
  cacheOwnValue : Option Value → Key → ManagedObject → ManagedObject
  /-- `setValue:ofProperty:`, for plain properties -/
  setOwnValue : Key → Plain → ManagedObject → ManagedObject
  /-- A successful `save:` -/
  writeDocument : ManagedObject → ManagedObject
  cacheOwnValue_eq : ∀ value property o, cacheOwnValue value property o =
    markPropertyNeedsSave property { o with properties := o.properties.assign property value }
  setOwnValue_eq : ∀ property value o, setOwnValue property value o =
    if o.properties.get? property = some (.value value) then o
    else { cacheOwnValue (some (.value value)) property o with needsSave := true }
  properties_writeDocument : ∀ o, (writeDocument o).properties = o.properties
  /-- The properties recorded as changed are written, and no others. -/
  get?_document : ∀ o k, (writeDocument o).document.get? k =
    if k ∈ o.changedNames then (o.properties.get? k).map externalizePropertyValue
    else o.document.get? k

open CBLModel

variable [CBLModel]

/-- `cacheValue:ofProperty:changed:`.  The managed object keeps the value and records the property.
An embedded object ignores both arguments and has its embedding object cache it, or its collection.
-/
def cacheValue : Chain → Option Value → Key → ManagedObject → ManagedObject
  | [], value, property, o => cacheOwnValue value property o
  | place :: embedder, _, _, o =>
    if place.isScalarProperty then
      cacheValue embedder (objectAt o (place :: embedder)) place.embeddingKey o
    else
      cacheValue embedder (valueForKey o embedder place.embeddingKey) place.embeddingKey o

/-- Marks an object and those it is embedded in. -/
def markNeedsSave : Chain → ManagedObject → ManagedObject
  | [], o => { o with needsSave := true }
  | place :: embedder, o =>
    markNeedsSave embedder (setNeedsSave (place :: embedder) true o)

/-- What `setValue:ofProperty:` tells the embedding object once the property is changed. -/
def propagate (place : Place) (embedder : Chain) (o : ManagedObject) : ManagedObject :=
  let cached :=
    if place.isScalarProperty then
      cacheValue embedder (objectAt o (place :: embedder)) place.embeddingKey o
    else
      cacheValue embedder (valueForKey o embedder place.embeddingKey) place.embeddingKey o
  let recorded := if embedder = [] then markPropertyNeedsSave place.embeddingKey cached else cached
  markNeedsSave embedder recorded

/-- `setValue:ofProperty:` of an embedded object.  Only a value that is not nil marks the object
itself. -/
def setValue (place : Place) (embedder : Chain) (value : Option Value) (property : Key)
    (o : ManagedObject) : ManagedObject :=
  -- isEqual: sent to nil answers no, so a removal always goes on
  if value.isSome ∧ valueForKey o (place :: embedder) property = value then
    o
  else
    let assigned := assignProperty (place :: embedder) property value o
    let marked := if value.isSome then setNeedsSave (place :: embedder) true assigned else assigned
    propagate place embedder marked

/-- `setModel:forProperty:` of an embedded object: a reference by the identifier of a document. -/
def setModel (chain : Chain) (documentID : Option String) (property : Key) (o : ManagedObject) :
    ManagedObject :=
  let value : Option Value := documentID.map fun s => .value (.string s)
  if value.isSome ∧ valueForKey o chain property = value then
    o
  else
    markNeedsSave chain (assignProperty chain property value o)

/-! ### Saving -/

/-- There is nothing to save. -/
def isClean (o : ManagedObject) : Bool :=
  !o.needsSave && o.changedNames.isEmpty

/-- The time of a save, the session where the class tracks it, and the change tag of the object. -/
structure SaveContext where
  now : ℚ
  sessionID : Option String
  cloudKitChangeTag : Option String

/-- `-updateTimestamps` -/
def updateTimestamps (now : ℚ) (o : ManagedObject) : ManagedObject :=
  let created :=
    if (o.properties.get? (.name "createdAt")).isSome then o
    else setOwnValue (.name "createdAt") (.number now) o
  if created.needsSave then setOwnValue (.name "updatedAt") (.number now) created else created

/-- The session of the save. -/
def trackSession (sessionID : Option String) (o : ManagedObject) : ManagedObject :=
  match sessionID with
  | none => o
  | some s => setOwnValue (.name "sessionID") (.string s) o

/-- The change tag of the save. -/
def refreshChangeTag (tag : Option String) (o : ManagedObject) : ManagedObject :=
  match tag, o.properties.get? (.name "cloudKitChangeTag") with
  | some s, some _ => setOwnValue (.name "cloudKitChangeTag") (.string s) o
  | _, _ => o

/-- What a save does to the properties before it writes them. -/
def prepareSave (context : SaveContext) (o : ManagedObject) : ManagedObject :=
  refreshChangeTag context.cloudKitChangeTag
    (trackSession context.sessionID (updateTimestamps context.now o))

/-- The steps of `save:`.  Once the document is written, the objects in properties of the managed
object itself are no longer marked. -/
def saveSteps (context : SaveContext) : SaveSteps ManagedObject where
  isClean := isClean
  prepare := prepareSave context
  complete o :=
    { writeDocument o with
      properties := (writeDocument o).properties.mapLabels (Label.setNeedsSave false) }

/-- A successful `save:` -/
def save (context : SaveContext) (o : ManagedObject) : ManagedObject :=
  ((saveSteps context).save true o).2

end Feather.Model
