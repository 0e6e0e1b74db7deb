import Feather.Sync.Serializer

/-!
# Deserializing a record into an object

`CloudKitDeserializer.swift`.  The object with the name of the record is looked up in the package,
or made; then every field is set on it, and it is saved after each.
-/

namespace Feather.Sync

open Keyed Program
open Feather.Embedding
open Feather.Model (Key)

/-- What a deserialization throws or raises. -/
inductive DeserializerError
  | unexpectedModelClass (s : String)
  | noControllerForModelClass (className : String)
  /-- A precondition on the class of a property. -/
  | precondition (key : String)
  /-- `decode(fromJSONString:)` of a dictionary or an array. -/
  | unexpectedData (key : String)
  | raised (e : Raised)
  deriving DecidableEq

/-- What the package controller gets from outside. -/
structure Controllers where
  /-- `controllerForManagedObjectClass:` gives one. -/
  hasController : String → Bool
  /-- `[NSUUID UUID]`, for each new document. -/
  newUUID : ℕ → String
  /-- The clock, at each save. -/
  now : ℕ → ℚ
  /-- The outcome of each save. -/
  saves : ℕ → Bool

/-- A field of a record, with the number of the save after it. -/
abbrev TimedField := (Sigma fun _ : String => RecordValue) × ℕ

/-- An array of identifiers, from an index on. -/
def stringItems : ℕ → List String → Content
  | _, [] => .nil
  | i, id :: ids => .value (.index i) (.string id) (stringItems (i + 1) ids)

/-- A property with an array. -/
def isArrayClass : PropertyClass → Bool
  | .models => true
  | .array _ => true
  | _ => false

section

variable (env : Environment)

/-- The names of references are stored. -/
def decodeReferences (propertyClass : PropertyClass) (key : String) (recordIDs : List RecordID) :
    Except DeserializerError Value :=
  if isArrayClass propertyClass then
    .ok (.node .array (stringItems 0 (recordIDs.map RecordID.recordName)))
  else .error (.precondition key)

/-- A text in a property for embedded objects, dictionaries or arrays is decoded. -/
def decodeString (propertyClass : PropertyClass) (key s : String) (cache : Cache) :
    Except DeserializerError (Option Value × Cache) :=
  match propertyClass with
  | .embedded _ =>
    match exec (embeddedObjectWithJSONString env.runtime s key) cache with
    | some (.ok (o, cache)) => .ok (o.map EmbeddedObject.value, cache)
    | some (.error e) => .error (.raised e)
    | none => .ok (none, cache)
  | .dictionary _ =>
    match env.runtime.coding.jsonOfText s with
    | some (.node .dictionary items) => .ok (some (.node .dictionary items), cache)
    | _ => .error (.unexpectedData key)
  | .array _ | .models =>
    match env.runtime.coding.jsonOfText s with
    | some (.node .array items) => .ok (some (.node .array items), cache)
    | _ => .error (.unexpectedData key)
  | .model => .error (.raised .unexpectedClass)
  | _ => .ok (some (.value (.string s)), cache)

/-- `setCreatedAt:` and `setUpdatedAt:` store a number for a date. -/
def settable (key : String) : Value → Value
  | .value (.date t) =>
    if key ∈ ManagedObject.timestampKeys then .value (.number t) else .value (.date t)
  | v => v

/-- The cases of `refresh`: the value that is set, and the embedded objects then. -/
def decode (propertyClass : PropertyClass) (key : String) (v : RecordValue) (cache : Cache) :
    Except DeserializerError (Option Value × Cache) :=
  match v with
  | .reference recordID =>
    if propertyClass = .model then .ok (some (.value (.string recordID.recordName)), cache)
    else .error (.precondition key)
  | .references recordIDs =>
    (decodeReferences propertyClass key recordIDs).map fun v => (some v, cache)
  | .value (.node .array .nil) =>
    -- an empty array is an array of references
    (decodeReferences propertyClass key []).map fun v => (some v, cache)
  | .value (.value (.string s)) => decodeString env propertyClass key s cache
  | .value v => .ok (some (settable key v), cache)

variable (c : Controllers)

/-- `refresh(object:withRecord:key:)`, with the save at its end. -/
def refreshField (tick : ℕ) (key : String) (v : RecordValue) (o : ManagedObject) :
    Except DeserializerError ManagedObject :=
  match decode env (env.runtime.classOfProperty o.className key) key v o.cache with
  | .error e => .error e
  | .ok (v, cache) =>
    match ManagedObject.setValue key v { o with cache } with
    | .error e => .error (.raised e)
    | .ok o => .ok (o.save env.runtime.coding (c.now tick) (c.saves tick))

/-- The loop over the fields of a record; those before an error are set. -/
def refreshFields : List TimedField → ManagedObject →
    ManagedObject × Except DeserializerError Unit
  | [], o => (o, .ok ())
  | (⟨key, v⟩, tick) :: fields, o =>
    match refreshField env c tick key v o with
    | .error e => (o, .error e)
    | .ok o => refreshFields fields o

end

/-! ### The package -/

/-- `MPDatabasePackageController`, with the numbers of documents made and of fields set. -/
structure PackageController where
  objects : Package
  /-- The identifiers of the objects that its controllers find in the shared package. -/
  shared : List String
  created : ℕ
  tick : ℕ

namespace PackageController

variable (env : Environment) (c : Controllers)

/-- `idForNewDocumentInDatabase:` -/
def idForNewDocument (className : String) (s : PackageController) : String :=
  className ++ ":" ++ c.newUUID s.created

/-- `newObjectOfClass:` -/
def newObject (className : String) (s : PackageController) : ManagedObject where
  documentID := idForNewDocument c className s
  className := className
  document := some ∅
  values := (∅ : Dictionary String Value).insert "objectType" (.value (.string className))
  cache := []
  needsSave := true

/-- The object that a record with a name is for, and the package with it. -/
def objectFor (name : String) (s : PackageController) :
    Except DeserializerError (Option ManagedObject × PackageController) :=
  match managedObjectClass env name with
  | none => .error (.raised .unexpectedID)
  | some className =>
    if c.hasController className then
      match s.objects.object name with
      | some o => .ok (some o, s)
      | none =>
        if name ∈ s.shared then .ok (none, s)
        else .ok (some (newObject c className s),
          { s with objects := s.objects ++ [newObject c className s], created := s.created + 1 })
    else .error (.noControllerForModelClass className)

/-- The package after a change of one object. -/
def withObject (o : ManagedObject) (s : PackageController) : PackageController :=
  { s with objects := s.objects.map fun x => if x.documentID = o.documentID then o else x }

/-- `deserialize(_:)` -/
def deserialize (record : Record) (s : PackageController) :
    PackageController × Except DeserializerError (Option ManagedObject) :=
  match objectFor env c record.recordID.recordName s with
  | .error e => (s, .error e)
  | .ok (none, s) => (s, .ok none)
  | .ok (some o, s) =>
    let (o, result) := refreshFields env c (record.fields.entries.zipIdx s.tick) o
    ({ withObject o s with tick := s.tick + record.fields.entries.length },
      result.map fun _ => some o)

/-- The object that a record with a name is for: the one of the package, or a new one if there is
none in the shared package either. -/
def target (className name : String) (s : PackageController) : Option ManagedObject :=
  match s.objects.object name with
  | some o => some o
  | none => if name ∈ s.shared then none else some (newObject c className s)

/-- The package with the object for a record: the package itself, or with a new object. -/
inductive WithTarget (className name : String) (s : PackageController) (t : ManagedObject) :
    PackageController → Prop
  | own (h : s.objects.object name = some t) : WithTarget className name s t s
  | new (h : s.objects.object name = none) (ht : t = newObject c className s) :
    WithTarget className name s t { s with objects := s.objects ++ [t], created := s.created + 1 }

/-- What a deserialization does: an unknown class gives an error, and a record of a shared object
nothing; otherwise the fields are set on the object. -/
theorem deserialize_cases (record : Record) (s : PackageController) :
    ((∀ className, managedObjectClass env record.recordID.recordName = some className →
        c.hasController className = false) ∧ ∃ e, s.deserialize env c record = (s, .error e)) ∨
    ∃ className, managedObjectClass env record.recordID.recordName = some className ∧
      c.hasController className = true ∧
      (s.target c className record.recordID.recordName = none ∧
          s.deserialize env c record = (s, .ok none) ∨
        ∃ t s₁, s.target c className record.recordID.recordName = some t ∧
          WithTarget c className record.recordID.recordName s t s₁ ∧
          s.deserialize env c record =
            ({ s₁.withObject (refreshFields env c (record.fields.entries.zipIdx s.tick) t).1 with
                tick := s.tick + record.fields.entries.length },
              (refreshFields env c (record.fields.entries.zipIdx s.tick) t).2.map fun _ =>
                some (refreshFields env c (record.fields.entries.zipIdx s.tick) t).1)) := by
  unfold deserialize objectFor target
  cases hcls : managedObjectClass env record.recordID.recordName with
  | none => exact .inl ⟨fun _ h => (by cases h), _, rfl⟩
  | some className =>
    by_cases hctl : c.hasController className = true
    swap
    · refine .inl ⟨fun _ h => ?_, .noControllerForModelClass className, by simp [hctl]⟩
      cases h
      simpa using hctl
    refine .inr ⟨className, rfl, hctl, ?_⟩
    cases hobj : s.objects.object record.recordID.recordName with
    | some t => exact .inr ⟨t, s, rfl, .own hobj, by simp [hctl]⟩
    | none =>
      by_cases hshr : record.recordID.recordName ∈ s.shared
      · exact .inl ⟨if_pos hshr, by simp [hctl, hshr]⟩
      · exact .inr ⟨_, _, if_neg hshr, .new hobj rfl, by simp [hctl, hshr]⟩

end PackageController

/-! ### Test packages -/

/-- Controllers for all classes; the UUIDs are made of ones. -/
def testControllers : Controllers where
  hasController _ := true
  newUUID n := String.ofList (List.replicate n '1')
  now n := n
  saves _ := true

/-- A package without objects. -/
def emptyPackage : PackageController := ⟨[], [], 0, 0⟩

end Feather.Sync
