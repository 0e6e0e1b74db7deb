import Feather.Controllers.Validation
import Feather.Embedding.RoundTrip
import Feather.Sync.State

/-!
# Importing an array of dictionaries

`objectsFromJSONEncodableObjectArray:error:` of `MPManagedObjectsController.m`: each dictionary sets
the properties of the object with its identifier, or of a new one; at the end all are saved in one
transaction.
-/

namespace Feather.Controllers

open Keyed Program Sync List Option
open Feather.Model (Key)
open Feather.Embedding (Content Value Runtime identifier objectType managedGetter testRuntime)

variable {id className : String}

/-- The program's classes and the importing controller; `uuid` are the identifiers made up. -/
structure Importer where
  runtime : Runtime
  isManagedObjectClass : String → Bool
  isConcrete : String → Bool
  managesClass : String → Bool
  controllerOf : String → String
  controller : String
  uuid : ℕ → String
  description : Content → String

/-! ### The objects in memory -/

/-- A managed object; `changes` counts since the last save, `made` the embedded objects. -/
structure ImportModel where
  documentID : String
  className : String
  controller : String
  properties : Content
  changes : ℕ
  made : ℕ
  deriving DecidableEq

namespace ImportModel

/-- There are unsaved changes. -/
def needsSave (m : ImportModel) : Bool := decide (0 < m.changes)

/-- A value is set and recorded as a change. -/
def record (property : Key) (value : Value) (m : ImportModel) : ImportModel :=
  { m with properties := m.properties.put property value, changes := m.changes + 1 }

/-- `setValue:ofProperty:` of the superclass, which records another value. -/
def assign (property : Key) (value : Value) (m : ImportModel) : ImportModel :=
  if m.properties.get? property = some value then m else m.record property value

end ImportModel

section

variable (x : Importer)

/-- The class that an embedded property is declared with. -/
def embeddedClass (m : ImportModel) (property : Key) : Option String :=
  match property with
  | .index _ => none
  | .name name =>
    match x.runtime.classOfProperty m.className name with
    | .embedded className => some className
    | _ => none

/-- The object in place of an embedded object: of its class, with a new identifier. -/
def replacementObject (m : ImportModel) (entries dictionary : Content) : Content :=
  let cls := (objectType entries).getD ""
  (((dictionary.erase (.name "_id")).erase (.name "objectType")).put (.name "_id")
    (.value (.string (cls ++ ":" ++ x.uuid m.made)))).put (.name "objectType") (.value (.string cls))

/-- A dictionary for an embedded property: another object is made; `none` where the getter raises.
-/
def setEmbedded (className name : String) (dictionary : Content) (m : ImportModel) :
    Option ImportModel :=
  match m.properties.get? (.name name) with
  | none => some (m.assign (.name name) (.node .dictionary dictionary))
  | some stored =>
    match exec (managedGetter x.runtime (.embedded className) name stored) [] with
    | some (.ok (some (.node (.object key embedder) entries), _)) =>
      some { m.record (.name name) (.node (.object key embedder)
        (replacementObject x m entries dictionary)) with made := m.made + 1 }
    | some (.ok _) => some (m.assign (.name name) (.node .dictionary dictionary))
    | _ => none

/-- `setValue:ofProperty:` of `MPManagedObject.m`; `none` where it raises. -/
def setValue (property : Key) (value : Value) (m : ImportModel) : Option ImportModel :=
  if property = .name "objectType" ∧ (m.properties.get? property).isSome then
    if m.properties.get? property = some value then some m else none
  else if property = .name "_id" then
    if value = .value (.string m.documentID) then some m else none
  else
    match property, embeddedClass x m property, value with
    | .name name, some className, .node .dictionary dictionary =>
      setEmbedded x className name dictionary m
    | _, _, _ => some (m.assign property value)

/-- `setValuesForPropertiesWithDictionary:` -/
def setValues : Content → ImportModel → Option ImportModel
  | .nil, m => some m
  | .value k v rest, m => (setValue x k (.value v) m).bind (setValues rest)
  | .node k kind entries rest, m => (setValue x k (.node kind entries) m).bind (setValues rest)

/-- The value is another one, or a dictionary for an embedded property. -/
def recordsChange (property : Key) (value : Value) (m : ImportModel) : Bool :=
  if property = .name "objectType" ∧ (m.properties.get? property).isSome then false
  else if property = .name "_id" then false
  else
    match embeddedClass x m property, value with
    | some _, .node .dictionary _ => true
    | _, _ => decide (m.properties.get? property ≠ some value)

/-- No entry of the dictionary is a change. -/
def Agrees (m : ImportModel) : Content → Prop
  | .nil => True
  | .value k v rest => recordsChange x k (.value v) m = false ∧ Agrees m rest
  | .node k kind entries rest => recordsChange x k (.node kind entries) m = false ∧ Agrees m rest

instance decidableAgrees (m : ImportModel) : (d : Content) → Decidable (Agrees x m d)
  | .nil => inferInstanceAs (Decidable True)
  | .value _ _ rest => @instDecidableAnd _ _ _ (decidableAgrees m rest)
  | .node _ _ _ rest => @instDecidableAnd _ _ _ (decidableAgrees m rest)

end

/-! ### Timestamps -/

/-- The time of creation is there. -/
def hasCreatedAt (m : ImportModel) : Bool := (m.properties.get? (.name "createdAt")).isSome

/-- What stands for the time of creation understands `doubleValue`. -/
def readsCreatedAt (m : ImportModel) : Bool :=
  match m.properties.get? (.name "createdAt") with
  | none => true
  | some (.value (.string _)) => true
  | some (.value (.number _)) => true
  | some _ => false

/-- `updateTimestamps` -/
def updateTimestamps (now : ℚ) (m : ImportModel) : ImportModel :=
  let m := if hasCreatedAt m then m else m.assign (.name "createdAt") (.value (.number now))
  if m.needsSave then m.assign (.name "updatedAt") (.value (.number now)) else m

/-- The time of creation is there, and that of the last update if it would be set. -/
def Stamped (now : ℚ) (m : ImportModel) : Prop :=
  hasCreatedAt m ∧
    (m.needsSave → m.properties.get? (.name "updatedAt") = some (.value (.number now)))

/-! ### The store -/

/-- A document of the database. -/
structure ImportDocument where
  revision : ℕ
  properties : Content
  deriving DecidableEq

/-- The database, and the objects in memory. -/
structure ImportStore where
  documents : Dictionary String ImportDocument
  models : Dictionary String ImportModel

/-- The codes of the errors for a dictionary. -/
inductive ValidationCode
  | objectTypeInvalid
  | documentIDMissing
  | unexpectedDocumentID
  deriving DecidableEq

/-- Why an import fails. -/
inductive ImportError
  | invalid (code : ValidationCode) (description : String)
  | saveFailed
  deriving DecidableEq

/-- When the objects are saved, and whether that succeeds. -/
structure ImportContext where
  now : ℚ
  saves : Bool

section

variable (x : Importer)

/-- `isManagedObjectDictionary:`.  A missing type is reported as a missing identifier. -/
def isManagedObjectDictionary (d : Content) : Option ImportError :=
  match objectType d with
  | none => some (.invalid .documentIDMissing ("objectType is missing: " ++ x.description d))
  | some type =>
    if x.isManagedObjectClass type then
      match identifier d with
      | none => some (.invalid .documentIDMissing ("Document ID is missing: " ++ x.description d))
      | some id =>
        if id.toList.count ':' = 1 ∧ classNameOf id = type then none
        else some (.invalid .unexpectedDocumentID ("Unexpected document ID: " ++ x.description d))
    else
      some (.invalid .objectTypeInvalid
        (type ++ " is not a MPManagedObject subclass: " ++ x.description d))

/-- The object of a document that is not in memory yet. -/
def loaded (id : String) (document : ImportDocument) : ImportModel :=
  ⟨id, classNameOf id, x.controllerOf (classNameOf id), document.properties, 0, 0⟩

/-- The object with an identifier, if it is in memory or has a document. -/
def findModel (s : ImportStore) (id : String) : Option ImportModel :=
  (s.models.lookup id).or ((s.documents.lookup id).map (loaded x id))

def ImportStore.insertModel (s : ImportStore) (id : String) (m : ImportModel) : ImportStore :=
  { s with models := s.models.insert id m }

/-- `initWithNewDocumentForController:properties:documentID:`; `none` where it raises. -/
def newObject (id type : String) (d : Content) : Option ImportModel :=
  if x.isConcrete type ∧ x.managesClass type then
    let properties := ((d.erase (.name "_id")).erase (.name "_rev")).put (.name "objectType")
      (.value (.string type))
    (setValue x (.name "objectType") (.value (.string type))
      ⟨id, type, x.controller, .nil, 0, 0⟩).bind (setValues x properties)
  else none

/-- `objectFromJSONDictionary:isExisting:error:`, with whether to save. -/
def objectFromJSONDictionary (d : Content) (s : ImportStore) :
    Option (Except ImportError (String × Bool × Bool) × ImportStore) :=
  match isManagedObjectDictionary x d, identifier d, objectType d with
  | some error, _, _ => some (.error error, s)
  | none, some id, some type =>
    if (s.documents.lookup id).isSome then
      (findModel x s id).bind fun existing =>
        (setValues x d existing).map fun m => (.ok (id, m.needsSave, m.needsSave), s.insertModel id m)
    else
      (newObject x id type d).map fun m => (.ok (id, m.needsSave, false), s.insertModel id m)
  | none, _, _ => none

/-- The loop over the dictionaries, which collects the objects to save. -/
def importEach : List Content → List String → ImportStore →
    Option (Except ImportError (List String) × ImportStore)
  | [], mos, s => some (.ok mos, s)
  | d :: objs, mos, s =>
    match objectFromJSONDictionary x d s with
    | none => none
    | some (.error error, s) => some (.error error, s)
    | some (.ok (id, needsSave, isExisting), s) =>
      importEach objs (if needsSave || !isExisting then mos ++ [id] else mos) s

/-- An object is changed. -/
def updateModel (f : ImportModel → ImportModel) (s : ImportStore) (id : String) : ImportStore :=
  match findModel x s id with
  | some m => s.insertModel id (f m)
  | none => s

/-- One object is written, if it needs to be. -/
def writeModel (s : ImportStore) (id : String) : ImportStore :=
  match findModel x s id with
  | some m =>
    if m.needsSave then
      { documents := s.documents.insert id
          ⟨((s.documents.lookup id).map ImportDocument.revision).getD 0 + 1,
            Embedding.document x.runtime.coding m.properties⟩
        models := s.models.insert id { m with changes := 0 } }
    else s
  | none => s

/-- The objects belong to one controller. -/
def sameController (s : ImportStore) (mos : List String) : Bool :=
  let controllers := mos.filterMap fun id => (findModel x s id).map ImportModel.controller
  controllers.all fun c => controllers.head? = some c

/-- `saveModels:error:`, with what it returns; `none` where it raises. -/
def saveModels (context : ImportContext) (mos : List String) (s : ImportStore) :
    Option (Bool × ImportStore) :=
  if sameController x s mos ∧ mos.all fun id => (findModel x s id).all readsCreatedAt then
    let s := mos.foldl (updateModel x (updateTimestamps context.now)) s
    if context.saves then some (true, mos.foldl (writeModel x) s) else some (false, s)
  else none

/-- `objectsFromJSONEncodableObjectArray:error:`; `none` where it raises. -/
def importArray (context : ImportContext) (objs : List Content) (s : ImportStore) :
    Option (Except ImportError (List String) × ImportStore) :=
  match importEach x objs [] s with
  | none => none
  | some (.error error, s) => some (.error error, s)
  | some (.ok mos, s) =>
    if mos = [] then some (.ok [], s)
    else if mos.Nodup then
      match saveModels x context mos s with
      | none => none
      | some (true, s) => some (.ok mos, s)
      | some (false, s) => some (.error .saveFailed, s)
    else none

end

section

variable {x : Importer} {d : Content} {objs : List Content} {mos : List String}
  {s s' : ImportStore} {context : ImportContext}

/-- A valid dictionary puts its object into memory, with the values set if it has a document; and it
is to be saved, since one that was not changed counts as new. -/
theorem objectFromJSONDictionary_cases {needsSave isExisting : Bool}
    (h : objectFromJSONDictionary x d s = some (.ok (id, needsSave, isExisting), s')) :
    isManagedObjectDictionary x d = none ∧ identifier d = some id ∧
      (needsSave || !isExisting) = true ∧ ∃ m, s' = s.insertModel id m ∧
        ((s.documents.lookup id).isSome →
          ∃ existing, findModel x s id = some existing ∧ setValues x d existing = some m) := by
  rw [objectFromJSONDictionary] at h
  split at h
  · cases h
  · next id' type hvld hid htype =>
    split_ifs at h with hex
    · obtain ⟨existing, hfind, hset⟩ := bind_eq_some_iff.1 h
      obtain ⟨m, hm, heq⟩ := map_eq_some_iff.1 hset
      cases heq
      exact ⟨hvld, hid, by cases m.needsSave <;> rfl, m, rfl, fun _ => ⟨existing, hfind, hm⟩⟩
    · obtain ⟨m, -, heq⟩ := map_eq_some_iff.1 h
      cases heq
      exact ⟨hvld, hid, by cases m.needsSave <;> rfl, m, rfl, fun hsome => absurd hsome hex⟩
  · cases h

/-- A dictionary that gives an error is not valid, and leaves everything as it is. -/
theorem objectFromJSONDictionary_error {error : ImportError}
    (h : objectFromJSONDictionary x d s = some (.error error, s')) :
    isManagedObjectDictionary x d ≠ none ∧ s' = s := by
  rw [objectFromJSONDictionary] at h
  split at h
  · next hinv =>
    cases h
    rw [hinv]
    exact ⟨some_ne_none error, rfl⟩
  · split_ifs at h
    · obtain ⟨existing, -, hset⟩ := bind_eq_some_iff.1 h
      obtain ⟨m, -, heq⟩ := map_eq_some_iff.1 hset
      cases heq
    · obtain ⟨m, -, heq⟩ := map_eq_some_iff.1 h
      cases heq
  · cases h

/-! ### Importing again -/

theorem importEach_ok {mos' : List String} (h : importEach x objs mos s = some (.ok mos', s')) :
    (∀ d ∈ objs, isManagedObjectDictionary x d = none) ∧
      mos' = mos ++ objs.filterMap identifier ∧ mos'.length = mos.length + objs.length := by
  induction objs generalizing mos s with
  | nil =>
    cases h
    simp
  | cons d objs ih =>
    rw [importEach] at h
    split at h
    · cases h
    · cases h
    · next id needsSave isExisting s1 hobj =>
      obtain ⟨hvld, hid, hadds, -⟩ := objectFromJSONDictionary_cases hobj
      rw [if_pos hadds] at h
      obtain ⟨hall, hmos, hlen⟩ := ih h
      refine ⟨?_, ?_, ?_⟩
      · intro d' hd'
        rcases mem_cons.1 hd' with rfl | hd'
        · exact hvld
        · exact hall d' hd'
      · rw [hmos, filterMap_cons_some hid, append_assoc]
        rfl
      · simp [hlen]
        omega

/-- A call stops at a dictionary; or it returns all objects, or could not save them. -/
theorem importArray_cases {result : Except ImportError (List String)}
    (h : importArray x context objs s = some (result, s')) :
    (∃ error, result = .error error ∧ importEach x objs [] s = some (.error error, s')) ∨
      ∃ mos s1, importEach x objs [] s = some (.ok mos, s1) ∧
        (result = .ok mos ∨ result = .error .saveFailed ∧
          s' = mos.foldl (updateModel x (updateTimestamps context.now)) s1) := by
  rw [importArray] at h
  split at h
  · cases h
  · next error s1 heach =>
    cases h
    exact .inl ⟨error, rfl, heach⟩
  · next mos s1 heach =>
    refine .inr ⟨mos, s1, heach, ?_⟩
    split_ifs at h with hnil hnd
    · cases h
      exact .inl (by rw [hnil])
    · rw [saveModels] at h
      split_ifs at h with hctl hsav
      · cases h
        exact .inl rfl
      · cases h
        exact .inr ⟨rfl, rfl⟩

theorem length_of_importArray (h : importArray x context objs s = some (.ok mos, s')) :
    mos.length = objs.length := by
  rcases importArray_cases h with ⟨error, herr, -⟩ | ⟨mos', s1, heach, hok | ⟨hfai, -⟩⟩
  · cases herr
  · cases hok
    have hlen := (importEach_ok heach).2.2
    rwa [length_nil, Nat.zero_add] at hlen
  · cases hfai

/-- The documents are the same, apart from the timestamps. -/
def SameDocuments (s s' : ImportStore) : Prop :=
  ∀ id, ((s.documents.lookup id).isSome ↔ (s'.documents.lookup id).isSome) ∧
    ∀ document document', s.documents.lookup id = some document →
      s'.documents.lookup id = some document' → document.revision = document'.revision ∧
        ∀ k, k ≠ .name "createdAt" → k ≠ .name "updatedAt" →
          document.properties.get? k = document'.properties.get? k

/-- A second import changes nothing and returns an empty list only for an empty array. -/
theorem imports_again_iff (x : Importer) (context context' : ImportContext) (objs : List Content)
    (s s₁ : ImportStore) (first : Except ImportError (List String))
    (hfirst : importArray x context objs s = some (first, s₁)) :
    (∃ s₂, importArray x context' objs s₁ = some (.ok [], s₂) ∧ SameDocuments s₁ s₂) ↔ objs = [] := by
  constructor
  · rintro ⟨s₂, hsnd, -⟩
    exact eq_nil_of_length_eq_zero (length_of_importArray hsnd).symm
  · rintro rfl
    refine ⟨s₁, rfl, fun id => ⟨Iff.rfl, fun document document' h h' => ?_⟩⟩
    rw [h] at h'
    cases h'
    exact ⟨rfl, fun _ _ _ => rfl⟩

end

section

/-- The controller of `MPTestObject`, with identifiers of letters. -/
def testImporter : Importer where
  runtime := testRuntime
  isManagedObjectClass className := className == "MPTestObject"
  isConcrete _ := true
  managesClass className := className == "MPTestObject"
  controllerOf _ := "MPTestObjectsController"
  controller := "MPTestObjectsController"
  uuid n := String.ofList (List.replicate (n + 1) 'A')
  description _ := ""

/-- A test object with some other properties. -/
def testObjectDictionary (rest : Content) : Content :=
  .value (.name "_id") (.string "MPTestObject:A")
    (.value (.name "objectType") (.string "MPTestObject") rest)

/-- A test object with an embedded object. -/
def embeddingDictionary : Content :=
  testObjectDictionary (.node (.name "embeddedTestObject") .dictionary
    (.value (.name "_id") (.string "MPEmbeddedTestObject:1")
      (.value (.name "objectType") (.string "MPEmbeddedTestObject") .nil)) .nil)

theorem imports_again_embedding : ∃ s₁, ¬∃ s₂,
    importArray testImporter ⟨0, true⟩ [embeddingDictionary] s₁ = some (.ok [], s₂) ∧
      SameDocuments s₁ s₂ :=
  ⟨_, fun h => cons_ne_nil _ _ ((imports_again_iff testImporter ⟨0, true⟩ ⟨0, true⟩
    [embeddingDictionary] ⟨∅, ∅⟩ _ (.ok ["MPTestObject:A"]) rfl).1 h)⟩

/-- The second import returns the object with another revision and embedded identifier. -/
theorem exists_imports_again_differs : ∃ s₁ s₂,
    importArray testImporter ⟨0, true⟩ [embeddingDictionary] ⟨∅, ∅⟩ =
        some (.ok ["MPTestObject:A"], s₁) ∧
      importArray testImporter ⟨0, true⟩ [embeddingDictionary] s₁ =
        some (.ok ["MPTestObject:A"], s₂) ∧
      (s₁.documents.lookup "MPTestObject:A").map ImportDocument.revision = some 1 ∧
      (s₂.documents.lookup "MPTestObject:A").map ImportDocument.revision = some 2 ∧
      ¬SameDocuments s₁ s₂ := by
  refine ⟨_, _, rfl, rfl, rfl, rfl, fun h => ?_⟩
  exact absurd ((h "MPTestObject:A").2 _ _ rfl rfl).1 (by decide)

end

section

variable {x : Importer} {d : Content} {objs : List Content} {mos : List String}
  {s s' : ImportStore} {context : ImportContext}

/-! ### What setting values records -/

variable {property : Key} {value : Value} {m m' : ImportModel}

theorem changes_record (property : Key) (value : Value) (m : ImportModel) :
    m.changes < (m.record property value).changes :=
  Nat.lt_succ_self m.changes

theorem assign_cases (property : Key) (value : Value) (m : ImportModel) :
    (m.properties.get? property = some value ∧ m.assign property value = m) ∨
      m.properties.get? property ≠ some value ∧ m.changes < (m.assign property value).changes := by
  by_cases h : m.properties.get? property = some value
  · exact .inl ⟨h, if_pos h⟩
  · refine .inr ⟨h, ?_⟩
    rw [ImportModel.assign, if_neg h]
    exact changes_record property value m

theorem exists_object_of_managedGetter {runtime : Runtime} {name : String} {dictionary : Content}
    {result : Option Value} {cache cache' : Embedding.Cache}
    (h : exec (managedGetter runtime (.embedded className) name (.node .dictionary dictionary)) cache =
      some (.ok (result, cache'))) :
    ∃ key embedder entries, result = some (.node (.object key embedder) entries) := by
  obtain ⟨decoded, cache₁, hdec, hres⟩ := exec_bind_eq_ok.1 h
  obtain ⟨o, cache₂, -, hpure⟩ := exec_bind_eq_ok.1 hdec
  cases hpure
  simp only [Embedding.EmbeddedObject.value] at hres
  split_ifs at hres
  · cases hres
    exact ⟨_, _, _, rfl⟩
  · cases hres

theorem changes_setEmbedded {name : String} {dictionary : Content}
    (h : setEmbedded x className name dictionary m = some m') : m.changes < m'.changes := by
  rw [setEmbedded] at h
  split at h
  · next hnone =>
    cases h
    rcases assign_cases (.name name) (.node .dictionary dictionary) m with ⟨heq, -⟩ | ⟨-, hlt⟩
    · rw [hnone] at heq
      cases heq
    · exact hlt
  · next stored hsto =>
    split at h
    · cases h
      exact Nat.lt_succ_self m.changes
    · next answer hnot hget =>
      cases h
      rcases assign_cases (.name name) (.node .dictionary dictionary) m with ⟨heq, -⟩ | ⟨-, hlt⟩
      · -- the dictionary that is there already is read as an object
        rw [hsto] at heq
        cases heq
        obtain ⟨result, cache⟩ := answer
        obtain ⟨key, embedder, entries, rfl⟩ := exists_object_of_managedGetter hget
        exact absurd rfl (hnot key embedder entries cache)
      · exact hlt
    · cases h

theorem exists_name_of_embeddedClass (h : embeddedClass x m property = some className) :
    ∃ name, property = .name name := by
  cases property with
  | index i => cases h
  | name name => exact ⟨name, rfl⟩

theorem setValue_cases (h : setValue x property value m = some m') :
    (recordsChange x property value m = false ∧ m' = m) ∨
      recordsChange x property value m = true ∧ m.changes < m'.changes := by
  unfold setValue at h
  unfold recordsChange
  by_cases htype : property = .name "objectType" ∧ (m.properties.get? property).isSome
  · rw [if_pos htype] at h
    rw [if_pos htype]
    split_ifs at h
    cases h
    exact .inl ⟨rfl, rfl⟩
  · rw [if_neg htype] at h
    rw [if_neg htype]
    by_cases hid : property = .name "_id"
    · rw [if_pos hid] at h
      rw [if_pos hid]
      split_ifs at h
      cases h
      exact .inl ⟨rfl, rfl⟩
    · rw [if_neg hid] at h
      rw [if_neg hid]
      have hass := assign_cases property value m
      split at h
      · next name className dictionary hcls =>
        simp only [hcls]
        exact .inr ⟨trivial, changes_setEmbedded h⟩
      · next hpl =>
        cases h
        split
        · next className dictionary hcls =>
          obtain ⟨name, hname⟩ := exists_name_of_embeddedClass hcls
          exact (hpl name className dictionary hname hcls rfl).elim
        · rcases hass with ⟨heq, hsame⟩ | ⟨hne, hlt⟩
          · exact .inl ⟨by simpa using heq, hsame⟩
          · exact .inr ⟨by simpa using hne, hlt⟩

/-- A dictionary that agrees leaves the object as it is; any other records a change. -/
theorem setValues_cases (h : setValues x d m = some m') :
    (Agrees x m d ∧ m' = m) ∨ ¬Agrees x m d ∧ m.changes < m'.changes := by
  -- one entry, then the others on the object that it leaves
  have hety {property : Key} {value : Value} {rest : Content} {m m' : ImportModel}
      (ih : ∀ {m m' : ImportModel}, setValues x rest m = some m' →
        (Agrees x m rest ∧ m' = m) ∨ ¬Agrees x m rest ∧ m.changes < m'.changes)
      (h : (setValue x property value m).bind (setValues x rest) = some m') :
      ((recordsChange x property value m = false ∧ Agrees x m rest) ∧ m' = m) ∨
        ¬(recordsChange x property value m = false ∧ Agrees x m rest) ∧ m.changes < m'.changes := by
    obtain ⟨m1, hfst, hrest⟩ := bind_eq_some_iff.1 h
    rcases setValue_cases hfst with ⟨hsame, rfl⟩ | ⟨hchg, hlt⟩
    · rcases ih hrest with ⟨hagr, heq⟩ | ⟨hnot, hlt⟩
      · exact .inl ⟨⟨hsame, hagr⟩, heq⟩
      · exact .inr ⟨fun hall => hnot hall.2, hlt⟩
    · refine .inr ⟨fun hall => ?_, ?_⟩
      · rw [hchg] at hall
        cases hall.1
      · rcases ih hrest with ⟨-, rfl⟩ | ⟨-, hmore⟩
        · exact hlt
        · exact hlt.trans hmore
  induction d generalizing m m' with
  | nil =>
    cases h
    exact .inl ⟨trivial, rfl⟩
  | value k v rest ih => exact hety ih h
  | node k kind entries rest _ ih => exact hety ih h

theorem updateTimestamps_cases (now : ℚ) (m : ImportModel) :
    (Stamped now m ∧ updateTimestamps now m = m) ∨
      ¬Stamped now m ∧ m.changes < (updateTimestamps now m).changes := by
  rw [updateTimestamps, Stamped]
  by_cases hcr : hasCreatedAt m
  · simp [hcr, true_and]
    by_cases hnds : m.needsSave
    · simp [hnds]
      exact assign_cases (.name "updatedAt") (.value (.number now)) m
    · simp [hnds]
  · refine .inr ⟨fun h => hcr h.1, ?_⟩
    have hne : m.properties.get? (.name "createdAt") ≠ some (.value (.number now)) := by
      intro heq
      rw [hasCreatedAt, heq] at hcr
      exact hcr rfl
    have hlt : m.changes < (m.assign (.name "createdAt") (.value (.number now))).changes :=
      ((assign_cases _ _ m).resolve_left fun h => hne h.1).2
    split_ifs
    · rcases assign_cases (.name "updatedAt") (.value (.number now))
        (m.assign (.name "createdAt") (.value (.number now))) with ⟨-, heq⟩ | ⟨-, hmore⟩
      · rw [heq]
        exact hlt
      · exact hlt.trans hmore
    · exact hlt

/-! ### The objects with documents, before and after -/

/-- The objects that have documents are as they were. -/
structure Same (x : Importer) (s s' : ImportStore) : Prop where
  documents : s'.documents = s.documents
  models : ∀ id, (s.documents.lookup id).isSome → findModel x s' id = findModel x s id

/-- No document is changed, and no object with a document loses a change. -/
structure Grown (x : Importer) (s s' : ImportStore) : Prop where
  documents : s'.documents = s.documents
  models : ∀ id m, (s.documents.lookup id).isSome → findModel x s id = some m →
    ∃ m', findModel x s' id = some m' ∧ m.changes ≤ m'.changes

/-- An object with a document has more changes. -/
def Changed (x : Importer) (s s' : ImportStore) : Prop :=
  ∃ id m m', (s.documents.lookup id).isSome ∧ findModel x s id = some m ∧
    findModel x s' id = some m' ∧ m.changes < m'.changes

/-- What a step does to the objects: nothing if `unchanging`, and a change if not. -/
structure Compares (x : Importer) (unchanging : Prop) (s s' : ImportStore) : Prop where
  grown : Grown x s s'
  same : unchanging → Same x s s'
  changed : ¬unchanging → Changed x s s'

theorem Same.refl (s : ImportStore) : Same x s s := ⟨rfl, fun _ _ => rfl⟩

theorem Same.grown (h : Same x s s') : Grown x s s' :=
  ⟨h.documents, fun id m hsome hm => ⟨m, (h.models id hsome).trans hm, le_rfl⟩⟩

theorem Same.compares {unchanging : Prop} (h : Same x s s') (hhol : unchanging) :
    Compares x unchanging s s' :=
  ⟨h.grown, fun _ => h, fun hnot => absurd hhol hnot⟩

theorem Changed.not_same (h : Changed x s s') : ¬Same x s s' := by
  rintro ⟨-, hmod⟩
  obtain ⟨id, m, m', hsome, hm, hm', hlt⟩ := h
  rw [hmod id hsome, hm] at hm'
  cases hm'
  exact lt_irrefl _ hlt

theorem Compares.same_iff {unchanging : Prop} (h : Compares x unchanging s s') :
    Same x s s' ↔ unchanging := by
  refine ⟨fun hsame => ?_, h.same⟩
  by_contra hnot
  exact (h.changed hnot).not_same hsame

section

variable {s'' : ImportStore}

theorem Same.trans (h : Same x s s') (h' : Same x s' s'') : Same x s s'' := by
  refine ⟨h'.documents.trans h.documents, fun id hsome => ?_⟩
  rw [h'.models id (by rwa [h.documents]), h.models id hsome]

theorem Grown.trans (h : Grown x s s') (h' : Grown x s' s'') : Grown x s s'' := by
  refine ⟨h'.documents.trans h.documents, fun id m hsome hm => ?_⟩
  obtain ⟨m', hm', hle⟩ := h.models id m hsome hm
  obtain ⟨m'', hm'', hle'⟩ := h'.models id m' (by rwa [h.documents]) hm'
  exact ⟨m'', hm'', hle.trans hle'⟩

theorem Changed.grown (h : Changed x s s') (hs : Grown x s s') (h' : Grown x s' s'') :
    Changed x s s'' := by
  obtain ⟨id, m, m', hsome, hm, hm', hlt⟩ := h
  obtain ⟨m'', hm'', hle⟩ := h'.models id m' (by rwa [hs.documents]) hm'
  exact ⟨id, m, m'', hsome, hm, hm'', hlt.trans_le hle⟩

theorem Same.changed (h : Same x s s') (h' : Changed x s' s'') : Changed x s s'' := by
  obtain ⟨id, m, m', hsome, hm, hm', hlt⟩ := h'
  rw [h.documents] at hsome
  rw [h.models id hsome] at hm
  exact ⟨id, m, m', hsome, hm, hm', hlt⟩

/-- Two steps, where the condition of the second can be read off before the first. -/
theorem Compares.trans {first second after : Prop} (h : Compares x first s s')
    (h' : Compares x after s' s'') (hiff : Same x s s' → (after ↔ second)) :
    Compares x (first ∧ second) s s'' := by
  refine ⟨h.grown.trans h'.grown, fun hboth => ?_, fun hnot => ?_⟩
  · have hsame := h.same hboth.1
    exact hsame.trans (h'.same ((hiff hsame).2 hboth.2))
  · by_cases hfst : first
    · have hsame := h.same hfst
      refine hsame.changed (h'.changed fun haft => ?_)
      exact hnot ⟨hfst, (hiff hsame).1 haft⟩
    · exact (h.changed hfst).grown h.grown h'.grown

end

/-- Every object with a document and the identifier satisfies `p`. -/
def ForObject (x : Importer) (s : ImportStore) (id : String) (p : ImportModel → Prop) : Prop :=
  ∀ m, (s.documents.lookup id).isSome → findModel x s id = some m → p m

theorem Same.forObject_iff {p : ImportModel → Prop} (h : Same x s s') :
    ForObject x s' id p ↔ ForObject x s id p := by
  refine forall_congr' fun m => ?_
  rw [h.documents]
  refine imp_congr_right fun hsome => ?_
  rw [h.models id hsome]

theorem findModel_insertModel (s : ImportStore) (id id' : String) (m : ImportModel) :
    findModel x (s.insertModel id m) id' = if id' = id then some m else findModel x s id' := by
  rw [findModel, ImportStore.insertModel]
  by_cases heq : id' = id
  · subst heq
    rw [AList.lookup_insert, if_pos rfl]
    rfl
  · rw [AList.lookup_insert_ne heq, if_neg heq, findModel]

theorem same_insertModel (h : (s.documents.lookup id).isSome → findModel x s id = some m) :
    Same x s (s.insertModel id m) := by
  refine ⟨rfl, fun id' hsome => ?_⟩
  rw [findModel_insertModel]
  split_ifs with heq
  · subst heq
    exact (h hsome).symm
  · rfl

/-- An object replaces another: the same if that satisfies `p`, else one with more changes. -/
theorem compares_insertModel {existing : ImportModel} {p : ImportModel → Prop}
    (hfind : findModel x s id = some existing)
    (h : (p existing ∧ m = existing) ∨ ¬p existing ∧ existing.changes < m.changes) :
    Compares x (ForObject x s id p) s (s.insertModel id m) := by
  by_cases hsome : (s.documents.lookup id).isSome
  · rcases h with ⟨hhol, rfl⟩ | ⟨hnot, hlt⟩
    · refine (same_insertModel fun _ => hfind).compares fun m' _ hm' => ?_
      rw [hfind] at hm'
      cases hm'
      exact hhol
    · refine ⟨⟨rfl, fun id' m' _ hm' => ?_⟩, fun hall => ?_, fun _ => ?_⟩
      · rw [findModel_insertModel]
        by_cases heq : id' = id
        · subst heq
          rw [hfind] at hm'
          cases hm'
          exact ⟨m, if_pos rfl, hlt.le⟩
        · exact ⟨m', by rw [if_neg heq, hm'], le_rfl⟩
      · exact absurd (hall existing hsome hfind) hnot
      · exact ⟨id, existing, m, hsome, hfind, by rw [findModel_insertModel, if_pos rfl], hlt⟩
  · exact (same_insertModel fun h => absurd h hsome).compares fun _ h => absurd h hsome

/-- The dictionary agrees with the object that has its identifier. -/
def AgreesIn (x : Importer) (s : ImportStore) (d : Content) : Prop :=
  ∀ id, identifier d = some id → ForObject x s id (Agrees x · d)

/-- One dictionary: the objects are as they were if it agrees; else one has changes. -/
theorem objectFromJSONDictionary_spec {needsSave isExisting : Bool}
    (h : objectFromJSONDictionary x d s = some (.ok (id, needsSave, isExisting), s')) :
    Compares x (AgreesIn x s d) s s' := by
  obtain ⟨-, hid, -, m, rfl, hset⟩ := objectFromJSONDictionary_cases h
  have hagr : AgreesIn x s d ↔ ForObject x s id (Agrees x · d) := by
    simp [AgreesIn, hid]
  rw [hagr]
  by_cases hsome : (s.documents.lookup id).isSome
  · obtain ⟨existing, hfind, hset⟩ := hset hsome
    exact compares_insertModel hfind (setValues_cases hset)
  · -- a new object is none of those with documents
    exact (same_insertModel fun h => absurd h hsome).compares fun _ h => absurd h hsome

/-- The dictionaries that the loop gets to. -/
def reached (x : Importer) (objs : List Content) : List Content :=
  objs.takeWhile fun d => (isManagedObjectDictionary x d).isNone

/-- The loop: the same, for all dictionaries before the first that is not valid. -/
theorem importEach_spec {result : Except ImportError (List String)}
    (h : importEach x objs mos s = some (result, s')) :
    Compares x (∀ d ∈ reached x objs, AgreesIn x s d) s s' := by
  induction objs generalizing mos s with
  | nil =>
    cases h
    exact (Same.refl _).compares (by simp [reached])
  | cons d objs ih =>
    rw [importEach] at h
    split at h
    · cases h
    · next error s1 hobj =>
      cases h
      obtain ⟨hinv, rfl⟩ := objectFromJSONDictionary_error hobj
      have hnone : reached x (d :: objs) = [] := by
        rw [reached, takeWhile_cons_of_neg (by simpa using hinv)]
      rw [hnone]
      exact (Same.refl _).compares (by simp)
    · next id needsSave isExisting s1 hobj =>
      have hvld := (objectFromJSONDictionary_cases hobj).1
      have hrea : reached x (d :: objs) = d :: reached x objs := by
        rw [reached, takeWhile_cons_of_pos (by simpa using hvld)]
        rfl
      rw [hrea]
      simp only [forall_mem_cons]
      refine (objectFromJSONDictionary_spec hobj).trans (ih h) fun hsame => ?_
      refine forall₂_congr fun d' _ => forall₂_congr fun id' _ => ?_
      exact hsame.forObject_iff

theorem updateModel_spec (now : ℚ) (s : ImportStore) (id : String) :
    Compares x (ForObject x s id (Stamped now)) s (updateModel x (updateTimestamps now) s id) := by
  rw [updateModel]
  cases hfind : findModel x s id with
  | none =>
    refine (Same.refl s).compares fun m _ hm => ?_
    rw [hfind] at hm
    cases hm
  | some existing =>
    exact compares_insertModel hfind (updateTimestamps_cases now existing)

theorem updateAll_spec (now : ℚ) (ids : List String) (s : ImportStore) :
    Compares x (∀ id ∈ ids, ForObject x s id (Stamped now)) s
      (ids.foldl (updateModel x (updateTimestamps now)) s) := by
  induction ids generalizing s with
  | nil => exact (Same.refl s).compares (by simp)
  | cons id ids ih =>
    simp only [forall_mem_cons]
    refine (updateModel_spec now s id).trans (ih _) fun hsame => ?_
    exact forall₂_congr fun id' _ => hsame.forObject_iff

theorem exists_invalid_of_importEach {error : ImportError}
    (h : importEach x objs mos s = some (.error error, s')) :
    ∃ d ∈ objs, isManagedObjectDictionary x d ≠ none := by
  induction objs generalizing mos s with
  | nil => cases h
  | cons d objs ih =>
    rw [importEach] at h
    split at h
    · cases h
    · next hobj => exact ⟨d, mem_cons_self, (objectFromJSONDictionary_error hobj).1⟩
    · obtain ⟨d', hd', hinv⟩ := ih h
      exact ⟨d', mem_cons_of_mem d hd', hinv⟩

/-- What a call that returns `nil` should leave: the documents, and what a later save writes. -/
structure LeavesExisting (x : Importer) (s s' : ImportStore) : Prop where
  same : Same x s s'
  saves : ∀ id, (s.documents.lookup id).isSome →
    (writeModel x s' id).documents = (writeModel x s id).documents

theorem Same.leavesExisting (h : Same x s s') : LeavesExisting x s s' := by
  refine ⟨h, fun id hsome => ?_⟩
  rw [writeModel, writeModel, h.models id hsome]
  split
  · split_ifs
    · rw [h.documents]
    · exact h.documents
  · exact h.documents

end

/-- A call that returns `nil` leaves what was there only if each dictionary it got to says what its
object has already; and, where it failed to save, if the objects had their timestamps too. -/
theorem leavesExisting_iff (x : Importer) (context : ImportContext) (objs : List Content)
    (s s' : ImportStore) (error : ImportError)
    (h : importArray x context objs s = some (.error error, s')) :
    LeavesExisting x s s' ↔ (∀ d ∈ reached x objs, AgreesIn x s d) ∧
      ((∀ d ∈ objs, isManagedObjectDictionary x d = none) →
        ∀ id ∈ objs.filterMap identifier, ForObject x s id (Stamped context.now)) := by
  have hsame : LeavesExisting x s s' ↔ Same x s s' := ⟨fun hlea => hlea.same, Same.leavesExisting⟩
  rw [hsame]
  rcases importArray_cases h with ⟨error', -, heach⟩ | ⟨mos, s₁, heach, hok | ⟨-, rfl⟩⟩
  · obtain ⟨d, hd, hinv⟩ := exists_invalid_of_importEach heach
    rw [(importEach_spec heach).same_iff]
    exact ⟨fun hall => ⟨hall, fun hvld => absurd (hvld d hd) hinv⟩, fun hall => hall.1⟩
  · cases hok
  · obtain ⟨hvld, hmos, -⟩ := importEach_ok heach
    have hupd := updateAll_spec (x := x) context.now mos s₁
    have hboth := (importEach_spec heach).trans hupd fun hsame =>
      forall₂_congr fun id _ => hsame.forObject_iff
    rw [hboth.same_iff, hmos]
    exact and_congr_right fun _ => ⟨fun hall _ => hall, fun hall => hall hvld⟩

def titledDictionary (title : String) : Content :=
  testObjectDictionary (.value (.name "title") (.string title) .nil)

/-- A store that has one test object, with a title. -/
def titledStore : ImportStore where
  documents := (∅ : Dictionary String ImportDocument).insert "MPTestObject:A"
    ⟨1, titledDictionary "old"⟩
  models := ∅

theorem leavesExisting_of_same_title : ∃ s' error, importArray testImporter ⟨0, true⟩
    [titledDictionary "old", .nil] titledStore = some (.error error, s') ∧
      LeavesExisting testImporter titledStore s' := by
  refine ⟨_, _, rfl, (leavesExisting_iff testImporter ⟨0, true⟩ [titledDictionary "old", .nil] _ _ _
    rfl).2 ⟨?_, ?_⟩⟩
  · intro d hd id hid m _ hfind
    cases mem_singleton.1 hd
    cases hid
    cases hfind
    decide
  · intro hvld
    exact absurd (hvld .nil (by simp)) (by decide)

/-- The title of the first dictionary stays though the second is not valid. -/
theorem exists_failedImport_changes : ∃ s' error m, importArray testImporter ⟨0, true⟩
    [titledDictionary "new", .nil] titledStore = some (.error error, s') ∧
    findModel testImporter s' "MPTestObject:A" = some m ∧ m.needsSave = true ∧
    ((writeModel testImporter s' "MPTestObject:A").documents.lookup "MPTestObject:A").bind
      (fun document => document.properties.get? (.name "title")) = some (.value (.string "new")) ∧
    ¬LeavesExisting testImporter titledStore s' := by
  refine ⟨_, _, _, rfl, rfl, rfl, rfl, fun h => ?_⟩
  have heq := h.same.models "MPTestObject:A" rfl
  exact absurd (congrArg (Option.map ImportModel.changes) heq) (by decide)

/-! ### The documents after an import -/

section

variable {x : Importer}

theorem lookup_writeAll {ids : List String} (hid : id ∉ ids) (s : ImportStore) :
    (ids.foldl (writeModel x) s).documents.lookup id = s.documents.lookup id := by
  induction ids generalizing s with
  | nil => rfl
  | cons id' ids ih =>
    rw [mem_cons, not_or] at hid
    rw [foldl_cons, ih hid.2, writeModel]
    split
    · split_ifs
      · exact AList.lookup_insert_ne hid.1
      · rfl
    · rfl

/-- A call that fails leaves all documents as they are, also those of dictionaries it got through;
one that succeeds writes at most the documents named in the array. -/
theorem importArray_documents (x : Importer) (context : ImportContext) (objs : List Content)
    (s s' : ImportStore) (result : Except ImportError (List String))
    (h : importArray x context objs s = some (result, s')) :
    (∀ error, result = .error error → s'.documents = s.documents) ∧
      ∀ mos, result = .ok mos → mos = objs.filterMap identifier ∧
        ∀ id, id ∉ mos → s'.documents.lookup id = s.documents.lookup id := by
  rw [importArray] at h
  split at h
  · cases h
  · next error s₁ heach =>
    cases h
    exact ⟨fun _ _ => (importEach_spec heach).grown.documents, nofun⟩
  · next mos s₁ heach =>
    have hdocs := (importEach_spec heach).grown.documents
    have hmos := (importEach_ok heach).2.1
    split_ifs at h with hnil hnd
    · cases h
      refine ⟨nofun, fun mos' heq => ?_⟩
      cases heq
      exact ⟨hnil ▸ hmos, fun id _ => by rw [hdocs]⟩
    · have hupd := (updateAll_spec (x := x) context.now mos s₁).grown.documents
      rw [saveModels] at h
      split_ifs at h with hctl hsav
      · cases h
        refine ⟨nofun, fun mos' heq => ?_⟩
        cases heq
        exact ⟨hmos, fun id hid => by rw [lookup_writeAll hid, hupd, hdocs]⟩
      · cases h
        exact ⟨fun _ _ => hupd.trans hdocs, nofun⟩

end

theorem importArray_documents_titled : ∃ s' error, importArray testImporter ⟨0, true⟩
    [titledDictionary "new", .nil] titledStore = some (.error error, s') ∧
      s'.documents = titledStore.documents :=
  ⟨_, _, rfl, (importArray_documents testImporter ⟨0, true⟩ [titledDictionary "new", .nil]
    titledStore _ _ rfl).1 _ rfl⟩

end Feather.Controllers
