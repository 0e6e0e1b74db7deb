import Feather.Sync.Fields
import Feather.Sync.Reserialize

/-!
# From an object to a record and back

An object is serialized, and the record is deserialized into an object of another package.  A URL
and a reference to an object that is not there are taken from the document.  An embedded object
comes back without those in it, and one that the target has already is kept as it is.
-/

namespace Feather.Sync

open Keyed Program List Option ManagedObject
open Feather.Embedding
open Feather.Model (Key)

variable {key : String} {v : Value} {items : Content} {cache cache' : Cache}

section

variable (env : Environment) (package : Package) (className key : String)

/-- A value of a property, of a kind that fits the class of the property. -/
inductive Supported : Value → Prop
  | string (s : String) (h : env.runtime.classOfProperty className key = .plain) :
    Supported (.value (.string s))
  | number (q : ℚ) (h : env.runtime.classOfProperty className key = .plain) :
    Supported (.value (.number q))
  | date (t : ℚ) (h : env.runtime.classOfProperty className key = .date) :
    Supported (.value (.date t))
  | data (bytes : List UInt8) (h : env.runtime.classOfProperty className key = .data) :
    Supported (.value (.data bytes))
  | url (address : String) (h : env.runtime.classOfProperty className key = .url) :
    Supported (.value (.url address))
  /-- A reference to an object, which may be there or not. -/
  | reference (id : String) (h : env.runtime.classOfProperty className key = .model) :
    Supported (.value (.string id))
  | references (ids : List String) (h : env.runtime.classOfProperty className key = .models) :
    Supported (.node .array (stringItems 0 ids))
  | object (entries : Content) (declared : String)
    (h : env.runtime.classOfProperty className key = .embedded declared)
    (hdeclared : (objectType entries).any (env.runtime.isKindOf · declared))
    (hid : Identified env.runtime entries)
    (hentries : WellFormed env.runtime (contextOf entries) entries) :
    Supported (.node (.object key none) entries)
  | array (items : Content) (exact : Bool)
    (h : env.runtime.classOfProperty className key = .array exact) (hname : isEmbeddedName key)
    (hnumbered : Numbered 0 items) (hitems : WellFormed env.runtime (.items key none) items)
    (hsame : Consistent items) : Supported (.node .array items)
  | dictionary (items : Content) (exact : Bool)
    (h : env.runtime.classOfProperty className key = .dictionary exact) (hname : isEmbeddedName key)
    (hitems : WellFormed env.runtime (.items key none) items) (hsame : Consistent items) :
    Supported (.node .dictionary items)
  /-- A map of numbers; a property with such a name has only embedded objects. -/
  | numbers (items : Content) (exact : Bool)
    (h : env.runtime.classOfProperty className key = .dictionary exact)
    (hname : isEmbeddedName key = false) (hitems : allNumbers items) :
    Supported (.node .dictionary items)

/-- The objects of an array of references are in the package. -/
def Resolves : Value → Prop
  | .node .array items => env.runtime.classOfProperty className key = .models →
    ∀ ids, objectIDs items = some ids → ∀ id ∈ ids, (resolve env package id).isSome
  | _ => True

/-- In the document a URL is a string, and a reference the identifier of a managed object. -/
def DocumentFits (raw : Value) : Prop :=
  (env.runtime.classOfProperty className key = .url → ∃ s, raw = .value (.string s)) ∧
  (env.runtime.classOfProperty className key = .model →
    ∃ s, raw = .value (.string s) ∧ (managedObjectClass env s).isSome)

/-- The value that the deserializer sets for a property. -/
def storedValue (raw : Value) (cache : Cache) : Value → Value
  | .value (.url _) => raw
  | .value (.string id) =>
    if env.runtime.classOfProperty className key = .model ∧ resolve env package id = none then raw
    else .value (.string id)
  | .value v => settable key (.value v)
  | .node (.object _ _) entries => (madeObject env.runtime.coding cache key entries).value
  | .node kind items => externalizePropertyValue env.runtime.coding (.node kind items)

/-- The identifier of an embedded object, which its deserialization puts into the cache. -/
def madeIDs : Value → List String
  | .node (.object _ _) entries => (identifier entries).toList
  | _ => []

/-- A field is decoded to what is set; only the embedded objects of the value change. -/
def Decodes (field : RecordValue) (raw v : Value) : Prop :=
  ∀ cache, ∃ cache', decode env (env.runtime.classOfProperty className key) key field cache =
      .ok (some (storedValue env package className key raw cache v), cache') ∧
    ∀ id, id ∉ madeIDs v → cache'.lookup id = cache.lookup id

end

section

variable {env : Environment} {package : Package} {className key : String} {raw v : Value}

/-- The text of a value is read as the value was written. -/
def ReadsBack (env : Environment) : Value → Prop
  | .value _ => True
  | .node kind items =>
    env.runtime.coding.Reads (externalizePropertyValue env.runtime.coding (.node kind items))

/-! ### Encoding and decoding -/

theorem objectIDs_stringItems (i : ℕ) (ids : List String) :
    objectIDs (stringItems i ids) = some ids := by
  induction ids generalizing i with
  | nil => rfl
  | cons id ids ih => simp [stringItems, objectIDs, ih]

/-- No collection or object is among the items. -/
def isFlat : Content → Bool
  | .nil => true
  | .value _ _ rest => isFlat rest
  | .node .. => false

theorem isFlat_stringItems (i : ℕ) (ids : List String) : isFlat (stringItems i ids) := by
  induction ids generalizing i with
  | nil => rfl
  | cons id ids ih => exact ih (i + 1)

theorem isFlat_of_allNumbers (h : allNumbers items) : isFlat items := by
  induction items with
  | nil => rfl
  | value k v rest ih =>
    cases v with
    | number q => exact ih h
    | _ => cases h
  | node k kind entries rest => cases h

/-- Such items are written and read as they are. -/
theorem isFlat_unchanged (h : isFlat items) (runtime : Runtime) (key : String) :
    externalizeEntries runtime.coding true items = items ∧ typedItems runtime items = items ∧
      ∀ cache, ItemsAgree runtime cache key items := by
  induction items with
  | nil => exact ⟨rfl, rfl, fun _ => trivial⟩
  | value k v rest ih =>
    obtain ⟨hext, htyp, hagr⟩ := ih h
    exact ⟨by simp [externalizeEntries, hext], by rw [typedItems, htyp], hagr⟩
  | node k kind entries rest => cases h

theorem allObjects_of_wellFormed {property : String}
    (h : WellFormed env.runtime (.items property none) items) : allObjects items := by
  induction items with
  | nil => rfl
  | value k v rest => exact h.elim
  | node k kind entries rest _ ih =>
    cases kind with
    | object key embedder => exact ih h.2.2.2
    | array => exact h.elim
    | dictionary => exact h.elim

theorem recordName_of_resolve {id : String} {recordID : RecordID}
    (h : resolve env package id = some recordID) : recordID.recordName = id := by
  obtain ⟨o, ho, rfl⟩ := map_eq_some_iff.1 h
  exact Package.documentID_of_object ho

/-- References to objects that are there have their identifiers as names. -/
theorem exists_mapM_resolve {ids : List String}
    (hids : ∀ id ∈ ids, (resolve env package id).isSome) :
    ∃ recordIDs, ids.mapM (resolve env package) = some recordIDs ∧
      recordIDs.map RecordID.recordName = ids := by
  induction ids with
  | nil => exact ⟨[], rfl, rfl⟩
  | cons id ids ih =>
    rw [forall_mem_cons] at hids
    obtain ⟨recordID, hrsv⟩ := isSome_iff_exists.1 hids.1
    obtain ⟨recordIDs, hmapM, hnam⟩ := ih hids.2
    refine ⟨recordID :: recordIDs, by simp [hrsv, hmapM], ?_⟩
    rw [map_cons, hnam, recordName_of_resolve hrsv]

theorem isSome_of_mapM_resolve {ids : List String} {recordIDs : List RecordID}
    (h : ids.mapM (resolve env package) = some recordIDs) :
    ∀ id ∈ ids, (resolve env package id).isSome := by
  induction ids generalizing recordIDs with
  | nil => exact fun _ hid => absurd hid not_mem_nil
  | cons id ids ih =>
    rw [mapM_cons, bind_eq_bind, bind_eq_some_iff] at h
    obtain ⟨recordID, hrsv, hrest⟩ := h
    obtain ⟨rest, hrest, -⟩ := bind_eq_some_iff.1 hrest
    exact forall_mem_cons.2 ⟨by rw [hrsv, isSome_some], ih hrest⟩

theorem exec_embeddedObject_of_text {entries : Content} (hid : Identified env.runtime entries)
    {text : String} (htext : env.runtime.coding.jsonOfText text =
      some (.node .dictionary (externalizeEntries env.runtime.coding false entries)))
    (cache : Cache) (key : String) :
    ∃ cache', exec (embeddedObjectWithJSONString env.runtime text key) cache =
        some (.ok (some (madeObject env.runtime.coding cache key entries), cache')) ∧
      ∀ id, id ∉ identifier entries → cache'.lookup id = cache.lookup id := by
  obtain ⟨cache', hexec, -, hframe⟩ := exec_embeddedObject_of_written hid cache key
  refine ⟨cache', hexec ▸ ?_, hframe⟩
  -- with a text the cache is looked at later
  obtain ⟨id, className, hide, htype, hkind, hsts⟩ := hid
  have hwrt := identifier_externalizeEntries env.runtime.coding hide
  have hwri := objectType_externalizeEntries env.runtime.coding htype
  unfold embeddedObjectWithJSONString embeddedObjectWithDictionary initWithDictionary
  cases hlk : cache.lookup id <;> simp [htext, hwrt, hwri, hkind, hsts, hlk]

theorem decodes_of_eq {field : RecordValue}
    (h : ∀ cache, decode env (env.runtime.classOfProperty className key) key field cache =
      .ok (some (storedValue env package className key raw cache v), cache)) :
    Decodes env package className key field raw v :=
  fun cache => ⟨cache, h cache, fun _ _ => rfl⟩

theorem decode_collection {kind : Kind} {exact : Bool}
    (h : kind = .array ∧ env.runtime.classOfProperty className key = .array exact ∨
      kind = .dictionary ∧ env.runtime.classOfProperty className key = .dictionary exact)
    (hjson : ReadsBack env (.node kind items)) (cache : Cache) :
    decode env (env.runtime.classOfProperty className key) key
      (jsonStringRepresentation env (.node kind items)) cache =
      .ok (some (storedValue env package className key raw cache (.node kind items)), cache) := by
  rcases h with ⟨rfl, h⟩ | ⟨rfl, h⟩
  all_goals
    unfold ReadsBack Coding.Reads externalizePropertyValue at hjson
    simp only [h, jsonStringRepresentation, decode, decodeString, storedValue,
      externalizePropertyValue]
    rw [hjson]

attribute [local simp] encode recordValue

attribute [local simp] decode

/-- What is written for a property is decoded to what is to be set. -/
theorem decode_fieldOf {o : ManagedObject}
    (hsup : Supported env o.className key v)
    (hraw : DocumentFits env o.className key raw)
    (hval : o.valueForKey env.runtime key = .ok (some v))
    (hres : Resolves env package o.className key v) :
    ∃ field, fieldOf env package o key raw = some field ∧
      (ReadsBack env v → Decodes env package o.className key field raw v) := by
  unfold fieldOf
  simp only [hval]
  cases hsup with
  | string s h =>
    refine ⟨.value (.value (.string s)), by simp [h],
      fun _ => decodes_of_eq fun cache => ?_⟩
    simp [h, decodeString, storedValue]
  | number q h =>
    exact ⟨.value (.value (.number q)), rfl, fun _ => decodes_of_eq fun cache => rfl⟩
  | date t h =>
    exact ⟨.value (.value (.date t)), rfl, fun _ => decodes_of_eq fun cache => rfl⟩
  | data bytes h =>
    exact ⟨.value (.value (.data bytes)), rfl, fun _ => decodes_of_eq fun cache => rfl⟩
  | url address h =>
    obtain ⟨s, rfl⟩ := hraw.1 h
    refine ⟨.value (.value (.string s)), by simp [h],
      fun _ => decodes_of_eq fun cache => ?_⟩
    simp [h, decodeString, storedValue]
  | reference id h =>
    cases hrsv : resolve env package id with
    | some recordID =>
      refine ⟨.reference recordID, by simp [h, hrsv],
        fun _ => decodes_of_eq fun cache => ?_⟩
      simp [h, storedValue, hrsv, recordName_of_resolve hrsv]
    | none =>
      obtain ⟨s, rfl, hcls⟩ := hraw.2 h
      obtain ⟨managedClass, hcls⟩ := isSome_iff_exists.1 hcls
      refine ⟨.reference ⟨s, recordZoneID env managedClass⟩,
        by simp [h, hrsv, unresolved, hcls],
        fun _ => decodes_of_eq fun cache => ?_⟩
      simp [h, storedValue, hrsv]
  | references ids h =>
    obtain ⟨recordIDs, hmapM, hnam⟩ :=
      exists_mapM_resolve (hres h ids (objectIDs_stringItems 0 ids))
    refine ⟨.references recordIDs, by simp [h, objectIDs_stringItems, hmapM],
      fun _ => decodes_of_eq fun cache => ?_⟩
    simp [h, decodeReferences, isArrayClass, hnam, Except.map, storedValue,
      externalizePropertyValue, (isFlat_unchanged (isFlat_stringItems 0 ids) env.runtime key).1]
  | object entries declared h hdcl hid hent =>
    refine ⟨_, rfl, fun hjson cache => ?_⟩
    obtain ⟨cache', hexec, hca'⟩ := exec_embeddedObject_of_text hid hjson cache key
    refine ⟨cache', ?_, fun other hoth => hca' other ?_⟩
    · simp [h, jsonStringRepresentation, decodeString, hexec, storedValue]
    · simpa [madeIDs] using hoth
  | array items exact h hname hnbd hit hsame =>
    by_cases hnil : items = .nil
    · subst hnil
      refine ⟨.references [], by simp [h],
      fun _ => decodes_of_eq fun cache => ?_⟩
      simp [h, decodeReferences, isArrayClass, Except.map, storedValue,
        externalizePropertyValue, externalizeEntries, stringItems]
    · refine ⟨jsonStringRepresentation env (.node .array items),
        by simp [h, hnil, allObjects_of_wellFormed hit],
        fun hjson => decodes_of_eq fun cache => ?_⟩
      exact decode_collection (.inl ⟨rfl, h⟩) hjson cache
  | dictionary items exact h hname hit hsame =>
    refine ⟨jsonStringRepresentation env (.node .dictionary items),
      by simp [allObjects_of_wellFormed hit],
      fun hjson => decodes_of_eq fun cache => ?_⟩
    exact decode_collection (.inr ⟨rfl, h⟩) hjson cache
  | numbers items exact h hname hit =>
    refine ⟨jsonStringRepresentation env (.node .dictionary items),
      by simp [hit],
      fun hjson => decodes_of_eq fun cache => ?_⟩
    exact decode_collection (.inr ⟨rfl, h⟩) hjson cache

/-- An array of references is not written if one of its objects is not there. -/
theorem resolves_of_fieldOf {o : ManagedObject} (hsup : Supported env o.className key v)
    (hval : o.valueForKey env.runtime key = .ok (some v))
    (h : (fieldOf env package o key raw).isSome) : Resolves env package o.className key v := by
  unfold fieldOf at h
  simp only [hval] at h
  cases hsup with
  | references ids hcls =>
    intro _ ids' hids' id hid
    cases (objectIDs_stringItems 0 ids).symm.trans hids'
    obtain ⟨field, hfld⟩ := isSome_iff_exists.1 h
    simp only [encode, hcls, objectIDs_stringItems, if_true, recordValue, map_eq_some_iff] at hfld
    obtain ⟨recordIDs, hmapM, -⟩ := hfld
    exact isSome_of_mapM_resolve hmapM id hid
  | array items exact hcls hname hnbd hit hsame =>
    intro hmodels
    cases hcls.symm.trans hmodels
  | _ => trivial

/-! ### The value of the target -/

/-- The target then has the value: a URL or a dangling reference was saved, an embedded object holds
none, or the target has had it with its properties. -/
def Survives (env : Environment) (package : Package) (className key : String) (raw : Value)
    (cache : Cache) : Value → Prop
  | .value (.url address) => raw = .value (.string address)
  | .value (.string id) =>
    env.runtime.classOfProperty className key = .model → resolve env package id = none →
      raw = .value (.string id)
  | .value _ => True
  | .node (.object _ _) entries =>
    Agrees env.runtime cache key entries ∧
      ∀ o ∈ cachedObject cache entries, ∀ declared,
        env.runtime.classOfProperty className key = .embedded declared →
          (objectType o.properties).any (env.runtime.isKindOf · declared)
  | .node _ items => ItemsAgree env.runtime cache key items

/-- The identifiers of the embedded objects of a value. -/
def valueIDs : Value → List String
  | .value _ => []
  | .node (.object _ _) entries => (identifier entries).toList
  | .node _ items => embeddedIDs items

/-- The value that a getter has given. -/
def valueOf : Option (Except Raised (Option Value × Cache)) → Option Value
  | some (.ok (v, _)) => v
  | _ => none

attribute [local simp] readProperty valueOf

/-- An embedded object that is set is given back if it is of the declared class. -/
theorem valueOf_object_iff (hcod : env.runtime.coding.RoundTrips) {entries : Content}
    {declared : String} (h : env.runtime.classOfProperty className key = .embedded declared)
    (hdcl : (objectType entries).any (env.runtime.isKindOf · declared))
    (hid : Identified env.runtime entries)
    (hent : WellFormed env.runtime (contextOf entries) entries) (cache cache' : Cache) :
    valueOf (exec (readProperty env.runtime className (.name key)
        (madeObject env.runtime.coding cache key entries).value) cache') =
        some (.node (.object key none) entries) ↔
      Agrees env.runtime cache key entries ∧
        ∀ o ∈ cachedObject cache entries, ∀ declared,
          env.runtime.classOfProperty className key = .embedded declared →
            (objectType o.properties).any (env.runtime.isKindOf · declared) := by
  have hcls : (objectType (madeObject env.runtime.coding cache key entries).properties).any
      (env.runtime.isKindOf · declared) ↔
        ∀ o ∈ cachedObject cache entries, ∀ declared,
          env.runtime.classOfProperty className key = .embedded declared →
            (objectType o.properties).any (env.runtime.isKindOf · declared) := by
    unfold madeObject
    cases cachedObject cache entries with
    | none =>
      obtain ⟨-, objectClass, -, htype, -⟩ := hid
      simp only [getD_none, objectType_externalizeEntries env.runtime.coding htype]
      rw [htype] at hdcl
      simp [hdcl]
    | some o => simp [h]
  rw [← typedValue_madeObject_iff hcod hid hent cache key, ← hcls]
  generalize madeObject env.runtime.coding cache key entries = o
  by_cases hkind : (objectType o.properties).any (env.runtime.isKindOf · declared) <;>
    simp [h, managedGetter, objectGetter, EmbeddedObject.value, hkind]

/-- A collection that is set is given back if its objects agree. -/
theorem valueOf_collection_iff (hcod : env.runtime.coding.RoundTrips)
    (hname : isEmbeddedName key) {kind : Kind} (hcls : kind = .array ∧
        (∃ exact, env.runtime.classOfProperty className key = .array exact) ∧ Numbered 0 items ∨
      kind = .dictionary ∧ ∃ exact, env.runtime.classOfProperty className key = .dictionary exact)
    (hit : WellFormed env.runtime (.items key none) items) (hsame : Consistent items)
    (hca : ∀ id ∈ embeddedIDs items, cache'.lookup id = cache.lookup id) :
    valueOf (exec (readProperty env.runtime className (.name key)
        (externalizePropertyValue env.runtime.coding (.node kind items))) cache') =
        some (.node kind items) ↔
      ItemsAgree env.runtime cache key items := by
  obtain ⟨cache'', hexec, -⟩ := exec_readProperty_collection hname hcls hit cache' hsame
  have hmade : madeObjects env.runtime.coding cache' key items =
      madeObjects env.runtime.coding cache key items := by
    refine madeObjects_congr env.runtime.coding key (fun entries hmem => ?_) hit
    exact madeObject_congr env.runtime.coding key fun id hid =>
      hca id (mem_embeddedIDs hit hmem hid)
  rw [hexec, hmade, ← typedItems_madeObjects_iff hcod hit cache]
  simp

attribute [local simp] Survives typedValue

/-- The value of a property of the target after what is to be set was set. -/
theorem valueOf_storedValue_iff (hcod : env.runtime.coding.RoundTrips)
    (hsup : Supported env className key v) (hraw : DocumentFits env className key raw)
    (hkey : key ∉ timestampKeys)
    (hca : ∀ id ∈ valueIDs v, id ∉ madeIDs v → cache'.lookup id = cache.lookup id) :
    valueOf (exec (readProperty env.runtime className (.name key)
        (storedValue env package className key raw cache v)) cache') = some v ↔
      Survives env package className key raw cache v := by
  cases hsup with
  | string s h =>
    simp [storedValue, h, managedGetter]
  | number q h =>
    simp [storedValue, settable, h, managedGetter]
  | date t h =>
    simp [storedValue, settable, hkey, h, managedGetter, leafGetter]
  | data bytes h =>
    simp [storedValue, settable, h, managedGetter, leafGetter]
  | url address h =>
    obtain ⟨s, rfl⟩ := hraw.1 h
    simp [storedValue, h, managedGetter, leafGetter]
  | reference id h =>
    obtain ⟨s, rfl, -⟩ := hraw.2 h
    cases hrsv : resolve env package id <;>
      simp [storedValue, h, hrsv, managedGetter, leafGetter]
  | references ids h =>
    obtain ⟨hext, htyp, hagr⟩ := isFlat_unchanged (isFlat_stringItems 0 ids) env.runtime key
    simp [storedValue, h, managedGetter, externalizePropertyValue, hext, htyp, hagr cache]
  | object entries declared h hdcl hid hent =>
    exact valueOf_object_iff hcod h hdcl hid hent cache cache'
  | array items exact h hname hnbd hit hsame =>
    exact valueOf_collection_iff hcod hname (.inl ⟨rfl, ⟨exact, h⟩, hnbd⟩) hit hsame
      fun id hmem => hca id hmem not_mem_nil
  | dictionary items exact h hname hit hsame =>
    exact valueOf_collection_iff hcod hname (.inr ⟨rfl, exact, h⟩) hit hsame
      fun id hmem => hca id hmem not_mem_nil
  | numbers items exact h hname hit =>
    obtain ⟨hext, htyp, hagr⟩ := isFlat_unchanged (isFlat_of_allNumbers hit) env.runtime key
    simp [storedValue, h, managedGetter, hname, externalizePropertyValue, hext, htyp, hagr cache]

/-! ### The loop over the fields -/

theorem storedValue_congr (hca : ∀ id ∈ madeIDs v, cache'.lookup id = cache.lookup id) :
    storedValue env package className key raw cache' v =
      storedValue env package className key raw cache v := by
  rcases v with v | ⟨kind, entries⟩
  · cases v <;> rfl
  · cases kind with
    | object embeddingKey embedder =>
      simp only [madeIDs, mem_toList] at hca
      simp [storedValue, madeObject_congr env.runtime.coding key hca]
    | array => rfl
    | dictionary => rfl

/-- The fields in turn, if different ones make different embedded objects. -/
theorem decodeAll_of_decodes (c : Controllers) (raw value : String → Value) {fields : List TimedField}
    (hfds : ∀ x ∈ fields, Decodes env package className x.1.1 x.1.2 (raw x.1.1) (value x.1.1))
    (hdis : fields.Pairwise fun x y => ∀ id ∈ madeIDs (value y.1.1), id ∉ madeIDs (value x.1.1))
    (cache : Cache) :
    ∃ cache', decodeAll env c className fields cache = some (fields.map fun x =>
        ⟨x.1.1, some (storedValue env package className x.1.1 (raw x.1.1) cache (value x.1.1)),
          c.now x.2, c.saves x.2⟩, cache') ∧
      ∀ id, (∀ x ∈ fields, id ∉ madeIDs (value x.1.1)) → cache'.lookup id = cache.lookup id := by
  induction fields generalizing cache with
  | nil => exact ⟨cache, rfl, fun _ _ => rfl⟩
  | cons x fields ih =>
    rw [forall_mem_cons] at hfds
    rw [pairwise_cons] at hdis
    obtain ⟨cache₁, hdec, hca⟩ := hfds.1 cache
    obtain ⟨cache', hrest, hca'⟩ := ih hfds.2 hdis.2 cache₁
    refine ⟨cache', decodeAll_cons_iff.2 ⟨_, cache₁, _, hdec, hrest, ?_⟩, fun id hid => ?_⟩
    · rw [map_cons, cons.injEq]
      refine ⟨rfl, map_congr_left fun y hy => ?_⟩
      rw [storedValue_congr fun id hid => hca id (hdis.1 y hy id hid)]
    · rw [forall_mem_cons] at hid
      rw [hca' id hid.2, hca id hid.1]

end

/-! ### Objects and records -/

/-- The properties in the document have values of the kinds above, and the object is of its
type. -/
structure SupportedObject (env : Environment) (o : ManagedObject) : Prop where
  type : o.values.lookup "objectType" = some (.value (.string o.className))
  plain : env.runtime.classOfProperty o.className "objectType" = .plain
  properties : ∃ document ∈ o.document, ∀ key raw, document.lookup key = some raw →
    key ∉ cloudKitIgnoredKeys → DocumentFits env o.className key raw ∧
      ∃ v, o.valueForKey env.runtime key = .ok (some v) ∧ Supported env o.className key v

/-- The value of a property, with the properties of the embedded objects in it. -/
def ManagedObject.propertyForKey (runtime : Runtime) (key : String) (o : ManagedObject) :
    Option Value :=
  (o.values.lookup key).bind fun stored =>
    valueOf (exec (if key ∈ timestampKeys then getter runtime o.className key stored
      else readProperty runtime o.className (.name key) stored) o.cache)

/-- An object of a package, without a record so far, and a package that gets its record, with the
object for it.  Different properties have different embedded objects, and the object has other times
than those of the saves. -/
structure Transfer (env : Environment) (c : Controllers) where
  package : Package
  object : ManagedObject
  mem : object ∈ package
  supported : SupportedObject env object
  others : ∀ o ∈ package, o ≠ object → Serializable env package o
  distinct : ∀ key key' v v', key ≠ key' → object.valueForKey env.runtime key = .ok (some v) →
    object.valueForKey env.runtime key' = .ok (some v') → ∀ id ∈ valueIDs v, id ∉ valueIDs v'
  times : ∀ key ∈ timestampKeys, ∀ t,
    object.valueForKey env.runtime key = .ok (some (.value (.date t))) → ∀ n, t ≠ c.now n
  repository : RecordRepository
  unrecorded : repository.lookup (recordID env object) = none
  receiver : PackageController
  target : ManagedObject
  targeted : ∃ receiver', receiver.objectFor env c object.documentID = .ok (some target, receiver')
  sameClass : target.className = object.className
  targetType : target.values.lookup "objectType" = some (.value (.string object.className))
  present : target.document.isSome

namespace Transfer

variable {env : Environment} {c : Controllers}

/-- The record of the object is deserialized, and every property of the record has its value. -/
def RoundTrips (x : Transfer env c) : Prop :=
  ∃ repository record receiver o,
    exec (serialize env x.package (x.package.length + 1) x.object) x.repository =
      some (.ok ((), repository)) ∧
    repository.lookup (recordID env x.object) = some record ∧
    x.receiver.deserialize env c record = (receiver, .ok (some o)) ∧
    ∀ key v, (record.object key).isSome → x.object.valueForKey env.runtime key = .ok (some v) →
      o.propertyForKey env.runtime key = some v

/-- A property that is serialized, with its value in the document and in the object. -/
structure IsProperty (x : Transfer env c) (key : String) (raw v : Value) : Prop where
  document : ∃ document ∈ x.object.document, document.lookup key = some raw
  serialized : key ∉ cloudKitIgnoredKeys
  value : x.object.valueForKey env.runtime key = .ok (some v)

/-- The target has what is set for each property already, and saved. -/
def IsThere (x : Transfer env c) : Prop :=
  x.target.needsSave = false ∧ ∀ key raw v, x.IsProperty key raw v →
    x.target.values.lookup key =
      some (storedValue env x.package x.object.className key raw x.target.cache v)

end Transfer

section

variable {env : Environment} {package : Package} {o : ManagedObject}

theorem SupportedObject.valueForKey_objectType (h : SupportedObject env o) :
    o.valueForKey env.runtime "objectType" = .ok (some (.value (.string o.className))) := by
  have hkey : "objectType" ∉ timestampKeys := by decide
  simp [valueForKey, h.type, getter, hkey, h.plain, managedGetter]

theorem eq_date_of_valueForKey (hkey : key ∈ timestampKeys)
    (h : o.valueForKey env.runtime key = .ok (some v)) : ∃ t, v = .value (.date t) := by
  unfold valueForKey at h
  split at h
  · cases h
  · next stored _ =>
    rcases stored with (s | q | t | bytes | address) | ⟨kind, items⟩ <;>
      simp only [getter, if_pos hkey, exec_pure] at h <;> cases h
    exact ⟨q, rfl⟩

theorem mem_valueIDs_of_mem_madeIDs {id : String} (h : id ∈ madeIDs v) : id ∈ valueIDs v := by
  rcases v with v | ⟨kind, entries⟩
  · exact h
  · cases kind with
    | object embeddingKey embedder => exact h
    | array => cases h
    | dictionary => cases h

end

namespace Transfer

variable {env : Environment} {c : Controllers} {x : Transfer env c} {raw : Value} {record : Record}

theorem IsProperty.supported (h : x.IsProperty key raw v) :
    DocumentFits env x.object.className key raw ∧ Supported env x.object.className key v := by
  obtain ⟨document, hdoc, hraw⟩ := h.document
  obtain ⟨document', hdoc', hprs⟩ := x.supported.properties
  cases (mem_def.1 hdoc).symm.trans hdoc'
  obtain ⟨hfits, v', hval, hsup⟩ := hprs key raw hraw h.serialized
  cases h.value.symm.trans hval
  exact ⟨hfits, hsup⟩

theorem IsProperty.unique {raw' v' : Value} (h : x.IsProperty key raw v)
    (h' : x.IsProperty key raw' v') : raw' = raw ∧ v' = v := by
  obtain ⟨document, hdoc, hraw⟩ := h.document
  obtain ⟨document', hdoc', hraw'⟩ := h'.document
  cases (mem_def.1 hdoc).symm.trans hdoc'
  cases hraw.symm.trans hraw'
  cases h.value.symm.trans h'.value
  exact ⟨rfl, rfl⟩

/-- The record of the object has the fields of its properties. -/
structure Records (x : Transfer env c) (record : Record) : Prop where
  recordID : record.recordID = recordID env x.object
  isProperty : ∀ key field, record.object key = some field → ∃ raw v, x.IsProperty key raw v ∧
    fieldOf env x.package x.object key raw = some field
  isSome : ∀ key raw v, x.IsProperty key raw v → (record.object key).isSome
  resolves : ∀ key raw v, x.IsProperty key raw v →
    Resolves env x.package x.object.className key v

theorem records_of_exec {fuel : ℕ} {repository : RecordRepository}
    (h : exec (serialize env x.package fuel x.object) x.repository = some (.ok ((), repository))) :
    ∃ record, repository.lookup (recordID env x.object) = some record ∧ x.Records record := by
  obtain ⟨document, hdoc, hfields, record, hrec, hobj⟩ := object_of_exec_serialize h
  simp only [x.unrecorded, bind_none, or_none] at hobj
  have hfield : ∀ key raw v, x.IsProperty key raw v → record.object key =
      fieldOf env x.package x.object key raw ∧ (fieldOf env x.package x.object key raw).isSome := by
    intro key raw v hp
    obtain ⟨document', hdoc', hraw⟩ := hp.document
    cases (mem_def.1 hdoc).symm.trans hdoc'
    exact ⟨(hobj key).trans (written_of_lookup hp.serialized hraw), hfields key raw hraw hp.serialized⟩
  refine ⟨record, hrec, recordID_of_exec_serialize h x.unrecorded hrec, fun key field hfld => ?_,
    fun key raw v hp => ?_, fun key raw v hp => ?_⟩
  · obtain ⟨hkey, raw, hraw, hfld⟩ := exists_of_written ((hobj key).symm.trans hfld)
    obtain ⟨document', hdoc', hprs⟩ := x.supported.properties
    cases (mem_def.1 hdoc).symm.trans hdoc'
    obtain ⟨-, v, hval, -⟩ := hprs key raw hraw hkey
    exact ⟨raw, v, ⟨⟨document, hdoc, hraw⟩, hkey, hval⟩, hfld⟩
  · rw [(hfield key raw v hp).1]
    exact (hfield key raw v hp).2
  · exact resolves_of_fieldOf hp.supported.2 hp.value (hfield key raw v hp).2

/-- If all references can be resolved, the object is serialized. -/
theorem exec_serialize_of_resolves (hres : ∀ key raw v, x.IsProperty key raw v →
      Resolves env x.package x.object.className key v) :
    ∃ repository, exec (serialize env x.package (x.package.length + 1) x.object) x.repository =
      some (.ok ((), repository)) := by
  have hself : Serializable env x.package x.object := by
    obtain ⟨document, hdoc, hprs⟩ := x.supported.properties
    refine ⟨document, hdoc, fun key raw hraw hkey => ?_⟩
    obtain ⟨hfits, v, hval, hsup⟩ := hprs key raw hraw hkey
    obtain ⟨field, hfld, -⟩ := decode_fieldOf hsup hfits hval
      (hres key raw v ⟨⟨document, hdoc, hraw⟩, hkey, hval⟩)
    rw [hfld, isSome_some]
  have hmis : missing env x.package (withRecord env x.object x.repository) <
      x.package.length + 1 := Nat.lt_succ_of_le countP_le_length
  refine exec_serialize (fun o ho => ?_) hself hmis
  by_cases heq : o = x.object
  · rw [heq]
    exact hself
  · exact x.others o ho heq

/-- The target with the record: what was assigned to it, and its embedded objects. -/
structure Received (x : Transfer env c) (o : ManagedObject) (as : List Assignment) : Prop where
  refreshed : ∃ cache, Refreshed as cache x.target o
  nodup : (as.map Assignment.key).Nodup
  isProperty : ∀ a ∈ as, (∃ n, a.now = c.now n) ∧ ∃ raw v, x.IsProperty a.key raw v ∧
    a.value = some (storedValue env x.package x.object.className a.key raw x.target.cache v)
  exists_assignment : ∀ key raw v, x.IsProperty key raw v → ∃ a ∈ as, a.key = key
  cache : ∀ id, (∀ key raw v, x.IsProperty key raw v → id ∉ madeIDs v) →
    o.cache.lookup id = x.target.cache.lookup id

theorem Records.exists_received (h : x.Records record)
    (hjson : ∀ key v, x.object.valueForKey env.runtime key = .ok (some v) → ReadsBack env v) :
    ∃ receiver o as, x.receiver.deserialize env c record = (receiver, .ok (some o)) ∧
      x.Received o as := by
  have hfields : ∀ key, ∃ raw v, ∀ field, record.object key = some field →
      x.IsProperty key raw v ∧ Decodes env x.package x.target.className key field raw v := by
    intro key
    cases hfld : record.object key with
    | none => exact ⟨.value (.string ""), .value (.string ""), fun field hnone => by cases hnone⟩
    | some field =>
      obtain ⟨raw, v, hp, hfld⟩ := h.isProperty key field hfld
      refine ⟨raw, v, fun field' heq => ⟨hp, ?_⟩⟩
      cases heq
      obtain ⟨field', hfld', hdec⟩ := decode_fieldOf hp.supported.2 hp.supported.1 hp.value
        (h.resolves key raw v hp)
      cases hfld.symm.trans hfld'
      rw [x.sameClass]
      exact hdec (hjson key v hp.value)
  choose raw value hfields using hfields
  obtain ⟨receiver', htgt⟩ := x.targeted
  have hnodup := nodup_keys_zipIdx record receiver'.tick
  have hmem : ∀ y ∈ record.fields.entries.zipIdx receiver'.tick, record.object y.1.1 = some y.1.2 :=
    fun y hy => AList.mem_lookup_iff.2 (fst_mem_of_mem_zipIdx hy)
  have hdis : (record.fields.entries.zipIdx receiver'.tick).Pairwise fun y z =>
      ∀ id ∈ madeIDs (value z.1.1), id ∉ madeIDs (value y.1.1) := by
    refine (pairwise_map.1 hnodup).imp_of_mem fun {y z} hy hz hne id hidz hidy => ?_
    exact x.distinct _ _ _ _ hne (hfields _ _ (hmem y hy)).1.value (hfields _ _ (hmem z hz)).1.value id
      (mem_valueIDs_of_mem_madeIDs hidy) (mem_valueIDs_of_mem_madeIDs hidz)
  obtain ⟨cache, hdec, hca⟩ := decodeAll_of_decodes c raw value
    (fun y hy => (hfields _ _ (hmem y hy)).2) hdis x.target.cache
  obtain ⟨o, hrfr⟩ := (exists_refreshFields_iff env c x.present hnodup).2 ⟨_, cache, hdec, by
    refine forall_mem_map.2 fun y hy hkey _ => ?_
    have hval := (hfields _ _ (hmem y hy)).1.value
    have hkey : y.1.1 = "objectType" := hkey
    rw [hkey, x.supported.valueForKey_objectType] at hval
    show x.target.values.lookup y.1.1 = _
    rw [hkey, x.targetType, ← some.inj (Except.ok.inj hval), x.sameClass]
    simp [storedValue, x.supported.plain]⟩
  obtain ⟨as, cache', hdec', href⟩ := refreshed_of_refreshFields hrfr x.present
  cases hdec.symm.trans hdec'
  refine ⟨{ receiver'.withObject o with tick := receiver'.tick + record.fields.entries.length }, o, _, ?_,
    ⟨cache, href⟩, ?_, ?_, ?_, ?_⟩
  · rw [PackageController.deserialize, h.recordID]
    simp only [Sync.recordID, htgt, hrfr]
    rfl
  · rwa [List.map_map]
  · refine forall_mem_map.2 fun y hy => ⟨⟨y.2, rfl⟩, _, _, (hfields _ _ (hmem y hy)).1, ?_⟩
    rw [x.sameClass]
  · intro key raw v hp
    obtain ⟨field, hfld⟩ := isSome_iff_exists.1 (h.isSome key raw v hp)
    have hentry := AList.mem_lookup_iff.1 hfld
    rw [← zipIdx_map_fst receiver'.tick record.fields.entries] at hentry
    obtain ⟨y, hy, heq⟩ := mem_map.1 hentry
    exact ⟨_, mem_map_of_mem hy, congrArg Sigma.fst heq⟩
  · intro id hid
    rw [href.cache]
    exact hca id fun y hy => hid _ _ _ (hfields _ _ (hmem y hy)).1

namespace Received

variable {o : ManagedObject} {as : List Assignment}

theorem dated (h : x.Received o as) : Dated as := by
  intro a ha hkey
  obtain ⟨-, raw, v, hp, hval⟩ := h.isProperty a ha
  obtain ⟨t, rfl⟩ := eq_date_of_valueForKey hkey hp.value
  refine ⟨t, by simp [hval, storedValue, settable, hkey], fun b hb => ?_⟩
  obtain ⟨⟨n, hn⟩, -⟩ := h.isProperty b hb
  rw [hn]
  exact x.times a.key hkey t hp.value n

theorem has_iff_isThere (h : x.Received o as) : x.target.contents.Has as ↔ x.IsThere := by
  refine and_congr_right fun _ => ⟨fun hhas key raw v hp => ?_, fun hall a ha => ?_⟩
  · obtain ⟨a, ha, rfl⟩ := h.exists_assignment key raw v hp
    obtain ⟨-, raw', v', hp', hval⟩ := h.isProperty a ha
    obtain ⟨rfl, rfl⟩ := hp.unique hp'
    exact (hhas a ha).trans hval
  · obtain ⟨-, raw, v, hp, hval⟩ := h.isProperty a ha
    rw [hval]
    exact hall a.key raw v hp

theorem lookup_of_isThere (h : x.Received o as) (hp : x.IsProperty key raw v)
    (hset : key ≠ "updatedAt" ∨ x.IsThere) : o.values.lookup key =
      some (storedValue env x.package x.object.className key raw x.target.cache v) := by
  obtain ⟨cache, href⟩ := h.refreshed
  obtain ⟨a, ha, rfl⟩ := h.exists_assignment key raw v hp
  obtain ⟨-, raw', v', hp', hval⟩ := h.isProperty a ha
  obtain ⟨rfl, rfl⟩ := hp.unique hp'
  show o.contents.lookup a.key = _
  rw [href.contents, ← hval]
  rcases hset with hupd | hthere
  · exact Contents.lookup_setAll (functional_of_nodup h.nodup) h.dated ha hupd
  · have hhas := h.has_iff_isThere.2 hthere
    rw [Contents.setAll_of_has hhas]
    exact hhas.2 a ha

/-- A property of the document is read from the target as it was if it survives. -/
theorem propertyForKey_iff (h : x.Received o as) (hcod : env.runtime.coding.RoundTrips)
    (hp : x.IsProperty key raw v) :
    o.propertyForKey env.runtime key = some v ↔
      Survives env x.package x.object.className key raw x.target.cache v ∧
        (key = "updatedAt" → x.IsThere) := by
  obtain ⟨cache, href⟩ := h.refreshed
  have hcls := href.className.trans x.sameClass
  by_cases hkey : key ∈ timestampKeys
  · obtain ⟨t, rfl⟩ := eq_date_of_valueForKey hkey hp.value
    refine Iff.trans ?_ (iff_of_eq (true_and _)).symm
    by_cases hset : key ≠ "updatedAt" ∨ x.IsThere
    · refine iff_of_true ?_ fun heq => hset.resolve_left (not_not.2 heq)
      rw [propertyForKey, h.lookup_of_isThere hp hset, bind_some, if_pos hkey]
      simp [storedValue, settable, hkey, getter, valueOf]
    · -- the last save has set the time
      obtain ⟨hupd, hnot⟩ := not_or.1 hset
      refine iff_of_false (fun heq => ?_) fun himp => hnot (himp (not_not.1 hupd))
      obtain ⟨a, ha, -⟩ := h.exists_assignment key raw _ hp
      obtain ⟨b, hb, hval⟩ := Contents.updatedAt_setAll (ne_nil_of_mem ha)
        (mt h.has_iff_isThere.1 hnot)
      obtain ⟨⟨n, hn⟩, -⟩ := h.isProperty b hb
      have hlk : o.values.lookup key = some (.value (.number (c.now n))) := by
        show o.contents.lookup key = _
        rw [href.contents, not_not.1 hupd, hval, hn]
      rw [propertyForKey, hlk, bind_some, if_pos hkey] at heq
      simp only [getter, if_pos hkey, exec_pure, valueOf, Option.some.injEq] at heq
      cases heq
      exact x.times key hkey _ hp.value n rfl
  · have hupd : key ≠ "updatedAt" := fun heq => hkey (by simp [heq, timestampKeys])
    rw [and_iff_left fun heq => absurd heq hupd, propertyForKey,
      h.lookup_of_isThere hp (.inl hupd), bind_some, if_neg hkey, hcls]
    refine valueOf_storedValue_iff hcod hp.supported.2 hp.supported.1 hkey fun id hmem hnot => ?_
    -- the other properties make no object with this identifier
    refine h.cache id fun key' raw' v' hp' hmem' => ?_
    by_cases heq : key = key'
    · subst heq
      obtain ⟨rfl, rfl⟩ := hp.unique hp'
      exact hnot hmem'
    · exact x.distinct key key' v v' heq hp.value hp'.value id hmem (mem_valueIDs_of_mem_madeIDs hmem')

end Received

end Transfer

/-! ### Test objects -/

/-- The texts of one JSON value. -/
def textsOf (v : Value) : Coding := { unaryCoding with jsonText _ := "\x7b\x7d", jsonOfText _ := some v }

theorem textsOf_roundTrips (v : Value) : (textsOf v).RoundTrips where
  date t := unaryCoding_roundTrips.date t
  data bytes := unaryCoding_roundTrips.data bytes

/-- The written form of an embedded test object. -/
def writtenTestObject (rest : Content) : Value :=
  externalizePropertyValue unaryCoding
    (.node (.object "embeddedTestObject" none) (embeddedTestObject "MPEmbeddedTestObject:1" rest))

/-- The test classes, with texts for an embedded test object. -/
def textEnvironment (rest : Content) : Environment :=
  { testEnvironment with
    runtime := { testRuntime with coding := textsOf (writtenTestObject rest) } }

/-- A saved test object with an embedded object, whose other properties are given. -/
def embeddingObject (rest : Content) : ManagedObject where
  documentID := "MPTestObject:1"
  className := "MPTestObject"
  document := some (((∅ : Dictionary String Value).insert "objectType"
    (.value (.string "MPTestObject"))).insert "embeddedTestObject" (writtenTestObject rest))
  values := ((∅ : Dictionary String Value).insert "objectType"
    (.value (.string "MPTestObject"))).insert "embeddedTestObject"
      (.node (.object "embeddedTestObject" none) (embeddedTestObject "MPEmbeddedTestObject:1" rest))
  cache := []
  needsSave := false

theorem embeddingObject_cases {rest : Content}
    (h : (embeddingObject rest).valueForKey (textEnvironment rest).runtime key = .ok (some v)) :
    key = "objectType" ∧ v = .value (.string "MPTestObject") ∨
      key = "embeddedTestObject" ∧ v = .node (.object "embeddedTestObject" none)
        (embeddedTestObject "MPEmbeddedTestObject:1" rest) := by
  by_cases hobj : key = "embeddedTestObject"
  · subst hobj
    cases h
    exact .inr ⟨rfl, rfl⟩
  · by_cases htype : key = "objectType"
    · subst htype
      cases h
      exact .inl ⟨rfl, rfl⟩
    · have hnone : (embeddingObject rest).values.lookup key = none := by
        rw [embeddingObject, AList.lookup_insert_ne hobj, AList.lookup_insert_ne htype]
        rfl
      rw [valueForKey, hnone] at h
      cases h

theorem supported_embeddingObject {rest : Content}
    (h : WellFormed (textEnvironment rest).runtime
      (.properties "MPEmbeddedTestObject" (some "MPEmbeddedTestObject:1")) rest) :
    SupportedObject (textEnvironment rest) (embeddingObject rest) where
  type := rfl
  plain := rfl
  properties := by
    refine ⟨_, rfl, fun key raw hraw _ => ?_⟩
    by_cases hobj : key = "embeddedTestObject"
    · subst hobj
      have hent : WellFormed (textEnvironment rest).runtime
          (contextOf (embeddedTestObject "MPEmbeddedTestObject:1" rest))
          (embeddedTestObject "MPEmbeddedTestObject:1" rest) :=
        ⟨⟨"_id", rfl, .inl rfl⟩, ⟨"objectType", rfl, .inl rfl⟩, h⟩
      refine ⟨⟨fun hcls => ?_, fun hcls => ?_⟩, _, rfl,
        .object _ "MPEmbeddedTestObject" rfl rfl ?_ hent⟩
      · cases hcls
      · cases hcls
      · exact ⟨_, "MPEmbeddedTestObject", rfl, rfl, rfl, rfl⟩
    · by_cases htype : key = "objectType"
      · subst htype
        refine ⟨⟨fun hcls => ?_, fun hcls => ?_⟩, _, rfl, .string _ rfl⟩
        · cases hcls
        · cases hcls
      · rw [AList.lookup_insert_ne hobj, AList.lookup_insert_ne htype] at hraw
        cases hraw

/-- The object is transferred to a package without objects. -/
def testTransfer (rest : Content)
    (h : WellFormed (textEnvironment rest).runtime
      (.properties "MPEmbeddedTestObject" (some "MPEmbeddedTestObject:1")) rest) :
    Transfer (textEnvironment rest) testControllers where
  package := [embeddingObject rest]
  object := embeddingObject rest
  mem := mem_singleton_self _
  supported := supported_embeddingObject h
  others o ho hne := absurd (mem_singleton.1 ho) hne
  distinct key key' v v' hne hv hv' id hid hid' := by
    rcases embeddingObject_cases hv with ⟨-, rfl⟩ | ⟨rfl, -⟩
    · cases hid
    · rcases embeddingObject_cases hv' with ⟨-, rfl⟩ | ⟨rfl, -⟩
      · cases hid'
      · exact hne rfl
  times key hkey t hv := by
    rcases embeddingObject_cases hv with ⟨-, heq⟩ | ⟨-, heq⟩ <;> cases heq
  repository := ∅
  unrecorded := rfl
  receiver := emptyPackage
  target := PackageController.newObject testControllers "MPTestObject" emptyPackage
  targeted := by
    show ∃ s, emptyPackage.objectFor (textEnvironment rest) testControllers "MPTestObject:1" = .ok (_, s)
    exact ⟨_, rfl⟩
  sameClass := rfl
  targetType := rfl
  present := rfl

end Feather.Sync
