import Feather.Program.Run
import Feather.Embedding.Values

/-!
# Reading properties back

The typed getters of a managed object and of an embedded object, as the class declared for the
property selects them (`impForGetterOfProperty:ofClass:`).  A failing assertion raises.
-/

namespace Feather.Embedding

open Keyed Program
open Feather.Model (Key)

/-- The class that a property is declared with: `NSArray` or `NSDictionary` itself (`exact`), or a
subclass, for a collection. -/
inductive PropertyClass
  /-- Strings, numbers, and properties of any class. -/
  | plain
  | date
  | data
  | url
  | model
  /-- An array whose items are declared to be managed objects. -/
  | models
  | array (exact : Bool)
  | dictionary (exact : Bool)
  | embedded (className : String)
  deriving DecidableEq

/-- What `NSClassFromString` finds. -/
inductive ClassKind
  | unknown
  | embedded
  | other
  deriving DecidableEq

/-- The classes of the program. -/
structure Runtime where
  /-- `classOfProperty:` of a class. -/
  classOfProperty : String → String → PropertyClass
  classKind : String → ClassKind
  /-- `isKindOfClass:`, by names. -/
  isKindOf : String → String → Bool
  coding : Coding

/-- An embedded object has an identifier and a class that fits it. -/
def Identified (runtime : Runtime) (entries : Content) : Prop :=
  ∃ id className, identifier entries = some id ∧ objectType entries = some className ∧
    runtime.classKind className = .embedded ∧ hasPrefix className id

/-- An embedded object that the managed object has made. -/
structure EmbeddedObject where
  embeddingKey : String
  properties : Content
  deriving DecidableEq

def EmbeddedObject.value (o : EmbeddedObject) : Value :=
  .node (.object o.embeddingKey none) o.properties

/-- `_embeddedObjectCache` of the managed object. -/
abbrev Cache := List (String × EmbeddedObject)

/-- The assertions that may fail. -/
inductive Raised
  | unexpectedID
  | unexpectedClass
  | unexpectedKey
  | unexpectedJSON
  | unexpectedType
  | nilObject
  | mismatchingIdentity
  deriving DecidableEq

abbrev Reading := Prog Cache Raised

section

variable (runtime : Runtime)

/-- `initWithDictionary:embeddingObject:embeddingKey:`, with the managed object embedding. -/
def initWithDictionary (dictionary : Content) (key : String) : Reading EmbeddedObject :=
  match identifier dictionary, objectType dictionary with
  | some id, some className => do
    if hasPrefix className id then
      match (← get).lookup id with
      | some existing => pure existing
      | none =>
        modify ((id, ⟨key, dictionary⟩) :: ·)
        pure ⟨key, dictionary⟩
    else
      throw .unexpectedID
  | _, _ => throw .unexpectedID

/-- `embeddedObjectWithDictionary:embeddingObject:embeddingKey:` -/
def embeddedObjectWithDictionary (dictionary : Content) (key : String) :
    Reading (Option EmbeddedObject) :=
  match (objectType dictionary).map runtime.classKind with
  | none => pure none
  | some .unknown => pure none
  | some .other => throw .unexpectedClass
  | some .embedded => do
    let cache ← get
    match (identifier dictionary).bind fun id => cache.lookup id with
    | some existing => pure (some existing)
    | none => some <$> initWithDictionary dictionary key

/-- `embeddedObjectWithJSONString:embeddingObject:embeddingKey:`; the cache comes last. -/
def embeddedObjectWithJSONString (string key : String) : Reading (Option EmbeddedObject) :=
  match runtime.coding.jsonOfText string with
  | none => pure none
  | some (.node .dictionary dictionary) =>
    match (objectType dictionary).map runtime.classKind with
    | none => pure none
    | some .unknown => pure none
    | some .other => throw .unexpectedClass
    | some .embedded => some <$> initWithDictionary dictionary key
  | some _ => throw .unexpectedJSON

/-- The embedded object for a string or a dictionary. -/
def embeddedObjectWithValue (key : String) : Value → Reading (Option EmbeddedObject)
  | .value (.string s) => embeddedObjectWithJSONString runtime s key
  | .node .dictionary entries => embeddedObjectWithDictionary runtime entries key
  | _ => pure none

/-- `decodeEmbeddedObject:embeddingKey:`, which raises where there is no object to cache. -/
def decodeEmbeddedObject (key : String) (stored : Value) : Reading EmbeddedObject := do
  match ← embeddedObjectWithValue runtime key stored with
  | some o => pure o
  | none => throw .nilObject

/-- `getEmbeddedObjectProperty:` before its last assertion. -/
def objectGetter (key : String) : Value → Reading (Option Value)
  | .node (.object embeddingKey embeddingObject) entries =>
    pure (some (.node (.object embeddingKey embeddingObject) entries))
  | .value (.string s) => do
    let o ← decodeEmbeddedObject runtime key (.value (.string s))
    pure (some o.value)
  | .node .dictionary entries => do
    let o ← decodeEmbeddedObject runtime key (.node .dictionary entries)
    pure (some o.value)
  | _ => pure none

/-- One item of a collection, as the getters of collections read it. -/
def itemGetter (key : String) : Value → Reading (Option Value)
  | .node (.object embeddingKey embeddingObject) entries =>
    pure (some (.node (.object embeddingKey embeddingObject) entries))
  | .value (.string s) => do
    let o ← embeddedObjectWithValue runtime key (.value (.string s))
    pure (o.map EmbeddedObject.value)
  | .node .dictionary entries => do
    let o ← embeddedObjectWithValue runtime key (.node .dictionary entries)
    pure (o.map EmbeddedObject.value)
  | _ => throw .unexpectedType

/-- An entry in front of others; those of an array are numbered. -/
def consItem (number : Option ℕ) (k : Key) (e : Value) (rest : Content) : Content :=
  match number with
  | some i => .cons (.index i) e rest
  | none => .cons k e rest

/-- `getEmbeddedObjectArrayProperty:` (with the number of the first item) and
`getEmbeddedObjectDictionaryProperty:`.  An item that gives nil is left out. -/
def itemsGetter (key : String) : Option ℕ → Content → Reading Content
  | _, .nil => pure .nil
  | number, .value k v rest => do
    match ← itemGetter runtime key (.value v) with
    | some e => consItem number k e <$> itemsGetter key (number.map (· + 1)) rest
    | none => itemsGetter key number rest
  | number, .node k kind entries rest => do
    match ← itemGetter runtime key (.node kind entries) with
    | some e => consItem number k e <$> itemsGetter key (number.map (· + 1)) rest
    | none => itemsGetter key number rest

/-- Properties whose names start so are collections of embedded objects. -/
def isEmbeddedName (property : String) : Bool := hasPrefix "embedded" property

/-- The getters for dates, data, URLs and references decode the document, and give back what is in
memory. -/
def leafGetter (propertyClass : PropertyClass) (stored : Value) : Option Value :=
  match propertyClass, stored with
  | .date, .value (.string s) => (runtime.coding.dateOfText s).map fun t => .value (.date t)
  | .date, .value (.date t) => some (.value (.date t))
  | .data, .value (.string s) => (runtime.coding.dataOfText s).map fun b => .value (.data b)
  | .data, .value (.data b) => some (.value (.data b))
  | .url, .value (.string s) => some (.value (.url s))
  | .url, .value (.url s) => some (.value (.url s))
  | .model, .value (.string s) => some (.value (.string s))
  | _, _ => none

/-- The getter of a managed object. -/
def managedGetter (propertyClass : PropertyClass) (property : String) (stored : Value) :
    Reading (Option Value) :=
  match propertyClass with
  | .plain => pure (some stored)
  | .models => pure (some stored)
  | .embedded className => do
    match ← objectGetter runtime property stored with
    | some (.node kind entries) =>
      if (objectType entries).any (runtime.isKindOf · className) then
        pure (some (.node kind entries))
      else
        throw .unexpectedClass
    | _ => pure none
  | .array _ =>
    if isEmbeddedName property then
      match stored with
      | .node .array items => (fun items => some (.node .array items)) <$>
          itemsGetter runtime property (some 0) items
      | _ => throw .unexpectedType
    else
      pure (some stored)
  | .dictionary _ =>
    if isEmbeddedName property then
      match stored with
      | .node .dictionary items => (fun items => some (.node .dictionary items)) <$>
          itemsGetter runtime property none items
      | _ => throw .unexpectedType
    else
      pure (some stored)
  | propertyClass => pure (leafGetter runtime propertyClass stored)

/-- The items of a collection of an embedded object: the getter wants the text of a dictionary for
each, and embeds them in its own embedding object. -/
def textItems (property : String) (embeddingObject : Option String) : Content → Option Content
  | .nil => some .nil
  | .value k (.string s) rest =>
    match runtime.coding.jsonOfText s with
    | some (.node .dictionary entries) =>
      (textItems property embeddingObject rest).map
        (.node k (.object property embeddingObject) entries)
    | _ => none
  | _ => none

/-- The getter of an object embedded in `embeddingObject`; `none` also where the class has no
getter. -/
def embeddedGetter (embeddingObject : Option String) (propertyClass : PropertyClass)
    (property : String) (stored : Value) : Option Value :=
  match propertyClass with
  | .plain => some stored
  | .models => some stored
  | .array true => some stored
  | .dictionary true => some stored
  | .array false =>
    if isEmbeddedName property then
      match stored with
      | .node .array items => (textItems runtime property embeddingObject items).map (.node .array)
      | _ => none
    else
      none
  | .dictionary false =>
    if isEmbeddedName property then
      match stored with
      | .node .dictionary items =>
        (textItems runtime property embeddingObject items).map (.node .dictionary)
      | _ => none
    else
      none
  | .embedded _ => none
  | .url => none
  | propertyClass => leafGetter runtime propertyClass stored

/-! ### All properties -/

/-- An entry in front of others, if there is one. -/
def consOption (k : Key) : Option Value → Content → Content
  | some e, rest => .cons k e rest
  | none, rest => rest

/-- The properties of an embedded object, each through its getter. -/
def objectProperties (embeddingObject : Option String) (className : String) : Content → Content
  | .nil => .nil
  | .value k v rest =>
    consOption k (propertyOf k (.value v)) (objectProperties embeddingObject className rest)
  | .node k kind entries rest =>
    consOption k (propertyOf k (.node kind entries))
      (objectProperties embeddingObject className rest)
where
  propertyOf : Key → Value → Option Value
    | .name property, stored => embeddedGetter runtime embeddingObject
        (runtime.classOfProperty className property) property stored
    | .index _, _ => none

/-- An embedded object with its properties read through its getters. -/
def typedObject (embeddingObject : Option String) (entries : Content) : Content :=
  objectProperties runtime embeddingObject ((objectType entries).getD "") entries

/-- The same for the objects of a collection. -/
def typedItems : Content → Content
  | .nil => .nil
  | .value k v rest => .value k v (typedItems rest)
  | .node k (.object key embeddingObject) entries rest =>
    .node k (.object key embeddingObject) (typedObject runtime embeddingObject entries)
      (typedItems rest)
  | .node k kind entries rest => .node k kind entries (typedItems rest)

/-- A value as a getter gives it. -/
def typedValue : Value → Value
  | .value v => .value v
  | .node (.object key embeddingObject) entries =>
    .node (.object key embeddingObject) (typedObject runtime embeddingObject entries)
  | .node kind items => .node kind (typedItems runtime items)

/-- A property of a managed object through its getter, with the embedded objects in it. -/
def readProperty (className : String) : Key → Value → Reading (Option Value)
  | .name property, stored => do
    let value ← managedGetter runtime (runtime.classOfProperty className property) property stored
    pure (value.map (typedValue runtime))
  | .index _, _ => pure none

/-- All properties of a managed object of a class. -/
def load (className : String) : Content → Reading Content
  | .nil => pure .nil
  | .value k v rest => do
    let e ← readProperty runtime className k (.value v)
    consOption k e <$> load className rest
  | .node k kind entries rest => do
    let e ← readProperty runtime className k (.node kind entries)
    consOption k e <$> load className rest

end

end Feather.Embedding
