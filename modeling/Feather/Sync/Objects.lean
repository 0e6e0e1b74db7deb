import Feather.Embedding.Getters
import Feather.Model.Saving
import Feather.Sync.Record

/-!
# Managed objects and their packages

A managed object as the serializer and deserializer see it: the user properties of its document, the
values in memory, and its embedded objects.
-/

namespace Feather.Sync

open Feather.Embedding Program

/-- What is known of the classes and of the service. -/
structure Environment where
  runtime : Runtime
  ownerName : String
  zoneSuffix : String
  /-- `recordZoneName()` of a class. -/
  recordZoneName : String → String
  /-- `recordType()` of a class. -/
  recordType : String → String
  /-- The name is that of a class of managed objects. -/
  isManagedClass : String → Bool

/-- The values of a dictionary, changed one by one. -/
def Dictionary.mapValues {ν ν' : Type} (f : String → ν → ν') (d : Dictionary String ν) :
    Dictionary String ν' :=
  ⟨d.entries.map (.map id f), d.nodupKeys.map₂ f d.entries⟩

/-- `MPManagedObject` -/
structure ManagedObject where
  documentID : String
  className : String
  /-- `userProperties` of the document, as long as there is one. -/
  document : Option (Dictionary String Value)
  /-- The values in memory, or those of the document where there are none. -/
  values : Dictionary String Value
  cache : Cache
  needsSave : Bool

namespace ManagedObject

/-- The times of an object, which are stored as numbers. -/
def timestampKeys : List String := ["createdAt", "updatedAt"]

/-- `createdAt` and `updatedAt`, and the getters of the other properties. -/
def getter (runtime : Runtime) (className key : String) (stored : Value) : Reading (Option Value) :=
  if key ∈ timestampKeys then
    match stored with
    | .value (.number t) => pure (some (.value (.date t)))
    | _ => pure none
  else
    managedGetter runtime (runtime.classOfProperty className key) key stored

/-- `value(forKey:)` -/
def valueForKey (runtime : Runtime) (key : String) (o : ManagedObject) :
    Except Raised (Option Value) :=
  match o.values.lookup key with
  | none => .ok none
  | some stored =>
    match exec (getter runtime o.className key stored) o.cache with
    | some (.ok (v, _)) => .ok v
    | some (.error e) => .error e
    | none => .ok none

/-- Sets or removes a value in memory. -/
def assign (key : String) (v : Option Value) (o : ManagedObject) : ManagedObject :=
  { o with
    values := match v with
      | some v => o.values.insert key v
      | none => o.values.erase key
    needsSave := true }

theorem lookup_assign (key : String) (v : Option Value) (o : ManagedObject) (other : String) :
    (o.assign key v).values.lookup other = if other = key then v else o.values.lookup other := by
  by_cases heq : other = key
  · subst heq
    rw [if_pos rfl]
    cases v with
    | none => exact AList.lookup_erase other o.values
    | some v => exact AList.lookup_insert o.values
  · rw [if_neg heq]
    cases v with
    | none => exact AList.lookup_erase_ne heq
    | some v => exact AList.lookup_insert_ne heq

/-- `setValue:ofProperty:`: no effect on a deleted object; changing the type raises. -/
def setValue (key : String) (v : Option Value) (o : ManagedObject) : Except Raised ManagedObject :=
  if o.document.isNone ∨ o.values.lookup key = v then
    .ok o
  else if key = "objectType" ∧ (o.values.lookup key).isSome then
    .error .unexpectedType
  else
    .ok (o.assign key v)

/-- `updateTimestamps` of an object with changes. -/
def updateTimestamps (now : ℚ) (values : Dictionary String Value) : Dictionary String Value :=
  let values := match values.lookup "createdAt" with
    | some _ => values
    | none => values.insert "createdAt" (.value (.number now))
  values.insert "updatedAt" (.value (.number now))

/-- The steps of `save:` at a time. -/
def saveSteps (coding : Coding) (now : ℚ) : Model.SaveSteps ManagedObject where
  isClean o := !o.needsSave
  prepare o := { o with values := updateTimestamps now o.values }
  complete o :=
    { o with
      document := some (o.values.mapValues fun _ v => externalizePropertyValue coding v)
      needsSave := false }

/-- `saveSilently`: a failure, after which the object still needs to be saved, is not reported. -/
def save (coding : Coding) (now : ℚ) (written : Bool) (o : ManagedObject) : ManagedObject :=
  ((saveSteps coding now).save written o).2

end ManagedObject

/-- The objects of a package. -/
abbrev Package := List ManagedObject

/-- The object with an identifier. -/
def Package.object (id : String) (package : Package) : Option ManagedObject :=
  package.find? fun o => o.documentID == id

theorem Package.documentID_of_object {id : String} {package : Package} {o : ManagedObject}
    (h : package.object id = some o) : o.documentID = id := by
  simpa using List.find?_some h

section

variable (env : Environment)

/-- `recordZoneID(objectType:ownerName:)` -/
def recordZoneID (className : String) : ZoneID :=
  ⟨env.recordZoneName className ++ "-" ++ env.zoneSuffix, env.ownerName⟩

/-- `recordID(forObject:ownerName:)` -/
def recordID (o : ManagedObject) : RecordID := ⟨o.documentID, recordZoneID env o.className⟩

/-- `managedObjectClass(fromDocumentID:)`: the part before the first colon. -/
def managedObjectClass (documentID : String) : Option String :=
  let className := String.ofList (documentID.toList.takeWhile (· ≠ ':'))
  if 10 ≤ documentID.length ∧ env.isManagedClass className then some className else none

end

end Feather.Sync
