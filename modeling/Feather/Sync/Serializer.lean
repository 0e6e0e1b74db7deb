import Feather.Sync.Objects

/-!
# Serializing an object to a record

`CloudKitSerializer.swift`.  Every user property of the document that is not ignored is written to
the record of the object in the repository.  The objects of an array without a record are serialized
in turn; `fuel` bounds how deep that goes.
-/

namespace Feather.Sync

open Keyed Program List Option AList
open Feather.Embedding
open Feather.Model (Key)

variable {id : RecordID} {fields : List (String × RecordValue)}
  {repository repository' : RecordRepository} {key : String} {raw : Value}

/-- `CloudKitSerializer.Error`, or an exception. -/
inductive SerializerError
  | objectDeleted (documentID : String)
  | documentUnavailable (documentID : String)
  | unexpectedPropertyValue (key : String)
  | unexpectedReferenceValue (s : String)
  | raised (e : Raised)
  deriving DecidableEq

abbrev Serializing := Prog RecordRepository SerializerError

/-- `cloudKitIgnoredKeys` -/
def cloudKitIgnoredKeys : List String := ["id", "collection", "containedObjectID"]

/-! ### Values -/

/-- The identifiers of the objects of an array. -/
def objectIDs : Content → Option (List String)
  | .nil => some []
  | .value _ (.string id) rest => (objectIDs rest).map (id :: ·)
  | _ => none

/-- All items are embedded objects. -/
def allObjects : Content → Bool
  | .nil => true
  | .node _ (.object _ _) _ rest => allObjects rest
  | _ => false

/-- All items are numbers. -/
def allNumbers : Content → Bool
  | .nil => true
  | .value _ (.number _) rest => allNumbers rest
  | _ => false

/-- What is written for a value: a value of the record, or references to the objects of an
array. -/
inductive Field
  | value (v : RecordValue)
  | objects (ids : List String)

section

variable (env : Environment) (package : Package)

/-- The record of the object with an identifier. -/
def resolve (id : String) : Option RecordID :=
  (package.object id).map (recordID env)

/-- A reference to an object that is not there is taken from the document. -/
def unresolved (key : String) : Value → Except SerializerError Field
  | .value (.string s) =>
    match managedObjectClass env s with
    | some className => .ok (.value (.reference ⟨s, recordZoneID env className⟩))
    | none => .error (.unexpectedReferenceValue s)
  | _ => .error (.unexpectedPropertyValue key)

/-- `JSONStringRepresentation:` of an embedded object, or of a collection. -/
def jsonStringRepresentation (v : Value) : RecordValue :=
  .value (.value (.string (env.runtime.coding.jsonText
    (externalizePropertyValue env.runtime.coding v))))

/-- The cases of `refresh`, for a property with a value `raw` in the document. -/
def encode (propertyClass : PropertyClass) (key : String) (raw : Value) :
    Option Value → Except SerializerError Field
  | none =>
    if propertyClass = .model then unresolved env key raw
    else .error (.unexpectedPropertyValue key)
  | some (.value (.string s)) =>
    if propertyClass = .model then
      match resolve env package s with
      | some recordID => .ok (.value (.reference recordID))
      | none => unresolved env key raw
    else .ok (.value (.value (.value (.string s))))
  | some (.value (.url _)) =>
    match propertyClass, raw with
    | .url, .value (.string s) => .ok (.value (.value (.value (.string s))))
    | _, _ => .error (.unexpectedPropertyValue key)
  | some (.value v) => .ok (.value (.value (.value v)))
  | some (.node (.object embeddingKey embedder) entries) =>
    .ok (.value (jsonStringRepresentation env (.node (.object embeddingKey embedder) entries)))
  | some (.node .array items) =>
    if propertyClass = .models then
      match objectIDs items with
      | some ids => .ok (.objects ids)
      | none => .error (.unexpectedPropertyValue key)
    else if items = .nil then .ok (.objects [])
    else if allObjects items then .ok (.value (jsonStringRepresentation env (.node .array items)))
    else .ok (.value (.value (.node .array items)))
  | some (.node .dictionary items) =>
    if allObjects items ∨ allNumbers items then
      .ok (.value (jsonStringRepresentation env (.node .dictionary items)))
    else .error (.unexpectedPropertyValue key)

/-! ### Records -/

/-- `record(object:ownerName:)`: the repository has a record of the object. -/
def withRecord (o : ManagedObject) (repository : RecordRepository) : RecordRepository :=
  match repository.lookup (recordID env o) with
  | some _ => repository
  | none => repository.insert (recordID env o)
      ⟨env.recordType o.className, recordID env o, none, ∅⟩

/-- `setObject(_:forKey:)` of a record of the repository. -/
def withField (id : RecordID) (key : String) (v : RecordValue) (repository : RecordRepository) :
    RecordRepository :=
  match repository.lookup id with
  | some record => repository.insert id (record.setObject v key)
  | none => repository

/-- An object without a record is serialized. -/
def ensureRecord (serialize : ManagedObject → Serializing Unit) (o : ManagedObject) :
    Serializing Unit := do
  if ((← get).lookup (recordID env o)).isSome then pure () else serialize o

/-- References to the objects of an array. -/
def references (serialize : ManagedObject → Serializing Unit) :
    List String → Serializing (List RecordID)
  | [] => pure []
  | id :: ids =>
    match package.object id with
    | none => throw (.objectDeleted id)
    | some o => do
      ensureRecord env serialize o
      let rest ← references serialize ids
      pure (recordID env o :: rest)

/-- `refresh(record:withObject:key:value:)` -/
def refresh (serialize : ManagedObject → Serializing Unit) (o : ManagedObject) (key : String)
    (raw : Value) : Serializing Unit :=
  match o.valueForKey env.runtime key with
  | .error e => throw (.raised e)
  | .ok val =>
    match encode env package (env.runtime.classOfProperty o.className key) key raw val with
    | .error e => throw e
    | .ok (.value v) => modify (withField (recordID env o) key v)
    | .ok (.objects ids) => do
      let recordIDs ← references env package serialize ids
      modify (withField (recordID env o) key (.references recordIDs))

/-- The loop over the user properties. -/
def refreshAll (serialize : ManagedObject → Serializing Unit) (o : ManagedObject) :
    List (Sigma fun _ : String => Value) → Serializing Unit
  | [] => pure ()
  | ⟨key, raw⟩ :: entries =>
    if key ∈ cloudKitIgnoredKeys then refreshAll serialize o entries
    else do
      refresh env package serialize o key raw
      refreshAll serialize o entries

/-- `serialize(_:)` -/
def serialize : ℕ → ManagedObject → Serializing Unit
  | 0, _ => running
  | fuel + 1, o => do
    modify (withRecord env o)
    match o.document with
    | none => throw (.documentUnavailable o.documentID)
    | some document => refreshAll env package (serialize fuel) o document.entries

end

/-! ### The fields that are written -/

section

variable {env : Environment} {package : Package}

/-- The value of the record for what `encode` gives. -/
def recordValue (env : Environment) (package : Package) :
    Except SerializerError Field → Option RecordValue
  | .error _ => none
  | .ok (.value v) => some v
  | .ok (.objects ids) => (ids.mapM (resolve env package)).map .references

/-- The field that is written for a property, if it can be written. -/
def fieldOf (env : Environment) (package : Package) (o : ManagedObject) (key : String) (raw : Value) :
    Option RecordValue :=
  match o.valueForKey env.runtime key with
  | .error _ => none
  | .ok val => recordValue env package
      (encode env package (env.runtime.classOfProperty o.className key) key raw val)

/-- Every property in the document can be written. -/
def Serializable (env : Environment) (package : Package) (o : ManagedObject) : Prop :=
  ∃ document ∈ o.document, ∀ key raw, document.lookup key = some raw → key ∉ cloudKitIgnoredKeys →
    (fieldOf env package o key raw).isSome

/-- The fields that are written for the entries of a document. -/
def updates (env : Environment) (package : Package) (o : ManagedObject)
    (entries : List (Sigma fun _ : String => Value)) : List (String × RecordValue) :=
  entries.filterMap fun x =>
    if x.1 ∈ cloudKitIgnoredKeys then none
    else (fieldOf env package o x.1 x.2).map fun v => (x.1, v)

/-- The records of `repository` are all in `repository'`, with updates of the record `id`. -/
structure Writes (id : RecordID) (fields : List (String × RecordValue))
    (repository repository' : RecordRepository) : Prop where
  others : ∀ other record, other ≠ id → repository.lookup other = some record →
    repository'.lookup other = some record
  own : ∀ record, repository.lookup id = some record → repository'.lookup id =
    some (fields.foldl (fun record field => record.setObject field.2 field.1) record)

theorem Writes.refl (id : RecordID) (repository : RecordRepository) :
    Writes id [] repository repository :=
  ⟨fun _ _ _ h => h, fun _ h => h⟩

theorem Writes.trans {fields' : List (String × RecordValue)} {repository'' : RecordRepository}
    (first : Writes id fields repository repository')
    (second : Writes id fields' repository' repository'') :
    Writes id (fields ++ fields') repository repository'' where
  others other record hne h := second.others other record hne (first.others other record hne h)
  own record h := by
    rw [foldl_append]
    exact second.own _ (first.own record h)

/-- A change of a record that was not there is none for the others. -/
theorem Writes.of_lookup_eq_none {other : RecordID} (h : Writes other fields repository repository')
    (hoth : repository.lookup other = none) : Writes id [] repository repository' := by
  have hall : ∀ x record, repository.lookup x = some record → repository'.lookup x = some record := by
    intro x record hx
    refine h.others x record ?_ hx
    rintro rfl
    rw [hoth] at hx
    cases hx
  exact ⟨fun x record _ hx => hall x record hx, hall id⟩

theorem Writes.isSome (h : Writes id fields repository repository') {other : RecordID}
    (hoth : (repository.lookup other).isSome) : (repository'.lookup other).isSome := by
  obtain ⟨record, hrec⟩ := isSome_iff_exists.1 hoth
  by_cases hne : other = id
  · subst hne
    rw [h.own record hrec]
    rfl
  · rw [h.others other record hne hrec]
    rfl

theorem writes_withRecord (env : Environment) (o : ManagedObject) (id : RecordID)
    (repository : RecordRepository) : Writes id [] repository (withRecord env o repository) := by
  unfold withRecord
  split
  · exact Writes.refl id repository
  · next hnone =>
    have hall : ∀ x record, repository.lookup x = some record →
        (repository.insert (recordID env o) ⟨env.recordType o.className, recordID env o, none, ∅⟩).lookup
          x = some record := by
      intro x record hx
      rwa [lookup_insert_ne]
      rintro rfl
      rw [hnone] at hx
      cases hx
    exact ⟨fun x record _ hx => hall x record hx, hall id⟩

/-- The record with which a serialization starts: the one that was there, or an empty one. -/
theorem exists_lookup_withRecord (env : Environment) (o : ManagedObject)
    (repository : RecordRepository) :
    ∃ record, (withRecord env o repository).lookup (recordID env o) = some record ∧
      ∀ key, record.object key = (repository.lookup (recordID env o)).bind (Record.object key) := by
  unfold withRecord
  split
  · next record hrec => exact ⟨record, hrec, fun key => by rw [hrec, bind_some]⟩
  · next hnone =>
    refine ⟨_, lookup_insert _, fun key => ?_⟩
    rw [hnone]
    rfl

theorem writes_withField (id : RecordID) (key : String) (v : RecordValue)
    (repository : RecordRepository) :
    Writes id [(key, v)] repository (withField id key v repository) := by
  unfold withField
  split
  · next record hrec =>
    refine ⟨fun other record' hne hoth => ?_, fun record' hrec' => ?_⟩
    · rwa [lookup_insert_ne hne]
    · cases hrec.symm.trans hrec'
      rw [lookup_insert]
      rfl
  · next hnone =>
    refine ⟨fun _ _ _ hoth => hoth, fun record hrec => ?_⟩
    rw [hnone] at hrec
    cases hrec

variable {fuel : ℕ} {nested : ManagedObject → Serializing Unit}
  {repository repository' : RecordRepository} {o : ManagedObject}

/-! ### What is written -/

/-- `nested` changes the record of the object that it is called with. -/
def WritesOwn (env : Environment) (nested : ManagedObject → Serializing Unit) : Prop :=
  ∀ o repository repository', exec (nested o) repository = some (.ok ((), repository')) →
    ∃ fields, Writes (recordID env o) fields (withRecord env o repository) repository'

/-- Records that are there are not changed for the objects of an array. -/
theorem writes_of_exec_ensureRecord (hnes : WritesOwn env nested)
    (hexec : exec (ensureRecord env nested o) repository = some (.ok ((), repository')))
    (id : RecordID) : Writes id [] repository repository' := by
  unfold ensureRecord at hexec
  simp only [exec_bind, exec_get, andThen_ok] at hexec
  cases hlk : repository.lookup (recordID env o) with
  | some record =>
    rw [hlk] at hexec
    cases hexec
    exact Writes.refl id repository
  | none =>
    rw [hlk] at hexec
    obtain ⟨fields, hwr⟩ := hnes o repository repository' hexec
    exact ((writes_withRecord env o _ repository).trans hwr).of_lookup_eq_none hlk

theorem writes_of_exec_references (hnes : WritesOwn env nested) {ids : List String}
    {recordIDs : List RecordID}
    (hexec : exec (references env package nested ids) repository =
      some (.ok (recordIDs, repository'))) :
    ids.mapM (resolve env package) = some recordIDs ∧
      ∀ id, Writes id [] repository repository' := by
  induction ids generalizing repository recordIDs with
  | nil =>
    cases hexec
    exact ⟨rfl, fun id => Writes.refl id _⟩
  | cons id ids ih =>
    rw [references] at hexec
    cases hobj : package.object id with
    | none =>
      rw [hobj] at hexec
      cases hexec
    | some item =>
      rw [hobj] at hexec
      obtain ⟨_, repository₁, hfst, hrest⟩ := exec_bind_eq_ok.1 hexec
      obtain ⟨rest, repository₂, hrefs, hpure⟩ := exec_bind_eq_ok.1 hrest
      cases hpure
      obtain ⟨hids, hwr⟩ := ih hrefs
      refine ⟨by simp [resolve, hobj, hids], fun id => ?_⟩
      exact (writes_of_exec_ensureRecord hnes hfst id).trans (hwr id)

theorem writes_of_exec_refresh (hnes : WritesOwn env nested)
    (hexec : exec (refresh env package nested o key raw) repository = some (.ok ((), repository'))) :
    ∃ v, fieldOf env package o key raw = some v ∧
      Writes (recordID env o) [(key, v)] repository repository' := by
  unfold refresh at hexec
  unfold fieldOf
  cases hval : o.valueForKey env.runtime key with
  | error e =>
    rw [hval] at hexec
    cases hexec
  | ok val =>
    simp only [hval] at hexec ⊢
    generalize encode env package _ key raw val = field at hexec ⊢
    rcases field with e | v | ids
    · cases hexec
    · cases hexec
      exact ⟨v, rfl, writes_withField _ key v repository⟩
    · obtain ⟨recordIDs, repository₁, hrefs, hset⟩ := exec_bind_eq_ok.1 hexec
      cases hset
      obtain ⟨hids, hwr⟩ := writes_of_exec_references hnes hrefs
      refine ⟨.references recordIDs, ?_, (hwr _).trans (writes_withField _ key _ repository₁)⟩
      rw [recordValue, hids, map_some]

theorem updates_cons (hkey : key ∉ cloudKitIgnoredKeys) {v : RecordValue}
    (hfld : fieldOf env package o key raw = some v)
    (entries : List (Sigma fun _ : String => Value)) :
    updates env package o (⟨key, raw⟩ :: entries) =
      [(key, v)] ++ updates env package o entries := by
  unfold updates
  rw [filterMap_cons, if_neg hkey, hfld]
  rfl

theorem updates_cons_ignored (hkey : key ∈ cloudKitIgnoredKeys) (raw : Value)
    (entries : List (Sigma fun _ : String => Value)) :
    updates env package o (⟨key, raw⟩ :: entries) = updates env package o entries := by
  unfold updates
  rw [filterMap_cons, if_pos hkey]

theorem writes_of_exec_refreshAll (hnes : WritesOwn env nested)
    {entries : List (Sigma fun _ : String => Value)}
    (hexec : exec (refreshAll env package nested o entries) repository =
      some (.ok ((), repository'))) :
    (∀ x ∈ entries, x.1 ∉ cloudKitIgnoredKeys → (fieldOf env package o x.1 x.2).isSome) ∧
      Writes (recordID env o) (updates env package o entries) repository repository' := by
  induction entries generalizing repository with
  | nil =>
    cases hexec
    exact ⟨by simp, Writes.refl _ _⟩
  | cons x entries ih =>
    rw [forall_mem_cons]
    rw [refreshAll] at hexec
    split at hexec
    · next hkey =>
      obtain ⟨hfds, hwr⟩ := ih hexec
      rw [updates_cons_ignored hkey]
      exact ⟨⟨fun hnot => absurd hkey hnot, hfds⟩, hwr⟩
    · next hkey =>
      obtain ⟨_, repository₁, hrfr, hrest⟩ := exec_bind_eq_ok.1 hexec
      obtain ⟨v, hfld, hwr⟩ := writes_of_exec_refresh hnes hrfr
      obtain ⟨hfds, hwr'⟩ := ih hrest
      rw [updates_cons hkey hfld]
      exact ⟨⟨fun _ => by rw [hfld, isSome_some], hfds⟩, hwr.trans hwr'⟩

/-- A serialization that returns has written the fields of the document. -/
theorem writes_of_exec_serialize
    (hexec : exec (serialize env package fuel o) repository = some (.ok ((), repository'))) :
    ∃ document ∈ o.document,
      (∀ key raw, document.lookup key = some raw → key ∉ cloudKitIgnoredKeys →
        (fieldOf env package o key raw).isSome) ∧
      Writes (recordID env o) (updates env package o document.entries) (withRecord env o repository)
        repository' := by
  induction fuel generalizing o repository repository' with
  | zero => cases hexec
  | succ fuel ih =>
    have hnes : WritesOwn env (serialize env package fuel) := by
      intro x repository₁ repository₂ hexec₁
      obtain ⟨document, -, -, hwr⟩ := ih hexec₁
      exact ⟨_, hwr⟩
    rw [serialize] at hexec
    cases hdoc : o.document with
    | none =>
      rw [hdoc] at hexec
      cases hexec
    | some document =>
      rw [hdoc] at hexec
      obtain ⟨hfds, hwr⟩ := writes_of_exec_refreshAll hnes hexec
      refine ⟨document, rfl, fun key raw hraw hkey => ?_, hwr⟩
      exact hfds ⟨key, raw⟩ (mem_lookup_iff.1 hraw) hkey

theorem writesOwn_serialize (env : Environment) (package : Package) (fuel : ℕ) :
    WritesOwn env (serialize env package fuel) := by
  intro o repository repository' hexec
  obtain ⟨document, -, -, hwr⟩ := writes_of_exec_serialize hexec
  exact ⟨_, hwr⟩

/-! ### The serialization returns -/

/-- How many objects of the package have no record. -/
def missing (env : Environment) (package : Package) (repository : RecordRepository) : ℕ :=
  package.countP fun o => (repository.lookup (recordID env o)).isNone

theorem Writes.missing_le (h : Writes id fields repository repository') :
    missing env package repository' ≤ missing env package repository := by
  refine countP_mono_left fun o _ hnone => ?_
  rw [isNone_iff_eq_none] at hnone ⊢
  by_contra hsome
  have := h.isSome (isSome_iff_ne_none.2 hsome)
  rw [hnone] at this
  cases this

theorem missing_withRecord_lt (ho : o ∈ package) (hnone : repository.lookup (recordID env o) = none) :
    missing env package (withRecord env o repository) < missing env package repository := by
  obtain ⟨record, hrec, -⟩ := exists_lookup_withRecord env o repository
  have hadd := writes_withRecord env o (recordID env o) repository
  obtain ⟨first, rest, rfl⟩ := append_of_mem ho
  have hfst : missing env first (withRecord env o repository) ≤ missing env first repository :=
    hadd.missing_le
  have hrest : missing env rest (withRecord env o repository) ≤ missing env rest repository :=
    hadd.missing_le
  unfold missing at hfst hrest ⊢
  rw [countP_append, countP_append, countP_cons_of_neg (by simp [hrec]),
    countP_cons_of_pos (by simp [hnone])]
  omega

/-- `nested` returns for the objects of the package for which there is fuel. -/
def Returns (env : Environment) (package : Package) (fuel : ℕ)
    (nested : ManagedObject → Serializing Unit) : Prop :=
  ∀ o ∈ package, ∀ repository, missing env package (withRecord env o repository) < fuel →
    ∃ repository', exec (nested o) repository = some (.ok ((), repository'))

theorem exec_ensureRecord (hret : Returns env package fuel nested) (ho : o ∈ package)
    (hfuel : missing env package repository < fuel + 1) :
    ∃ repository', exec (ensureRecord env nested o) repository = some (.ok ((), repository')) := by
  unfold ensureRecord
  simp only [exec_bind, exec_get, andThen_ok]
  cases hlk : repository.lookup (recordID env o) with
  | some record => exact ⟨repository, rfl⟩
  | none =>
    have hlt := missing_withRecord_lt ho hlk
    obtain ⟨repository', hexec⟩ := hret o ho repository (by omega)
    exact ⟨repository', hexec⟩

theorem exec_references (hret : Returns env package fuel nested) (hnes : WritesOwn env nested)
    {ids : List String} {recordIDs : List RecordID}
    (hids : ids.mapM (resolve env package) = some recordIDs)
    (hfuel : missing env package repository < fuel + 1) :
    ∃ recordIDs repository', exec (references env package nested ids) repository =
      some (.ok (recordIDs, repository')) := by
  induction ids generalizing repository recordIDs with
  | nil => exact ⟨[], repository, rfl⟩
  | cons id ids ih =>
    rw [mapM_cons, resolve] at hids
    cases hobj : package.object id with
    | none =>
      rw [hobj] at hids
      cases hids
    | some item =>
      obtain ⟨_, -, hids⟩ := bind_eq_some_iff.1 hids
      obtain ⟨rest, hrest, -⟩ := bind_eq_some_iff.1 hids
      obtain ⟨repository₁, hfst⟩ := exec_ensureRecord hret
        (mem_of_find?_eq_some hobj) hfuel
      have hle : missing env package repository₁ ≤ missing env package repository :=
        (writes_of_exec_ensureRecord hnes hfst (recordID env item)).missing_le
      obtain ⟨recordIDs, repository₂, hlat⟩ := ih hrest (lt_of_le_of_lt hle hfuel)
      exact ⟨recordID env item :: recordIDs, repository₂, by
        simp [references, hobj, hfst, hlat]⟩

theorem exec_refresh (hret : Returns env package fuel nested) (hnes : WritesOwn env nested)
    (hfld : (fieldOf env package o key raw).isSome)
    (hfuel : missing env package repository < fuel + 1) :
    ∃ repository', exec (refresh env package nested o key raw) repository =
      some (.ok ((), repository')) := by
  unfold fieldOf at hfld
  unfold refresh
  cases hval : o.valueForKey env.runtime key with
  | error e =>
    rw [hval] at hfld
    cases hfld
  | ok val =>
    simp only [hval] at hfld ⊢
    generalize encode env package _ key raw val = field at hfld ⊢
    rcases field with e | v | ids
    · cases hfld
    · exact ⟨_, exec_modify _ _⟩
    · rw [recordValue, isSome_map] at hfld
      obtain ⟨recordIDs, hids⟩ := isSome_iff_exists.1 hfld
      obtain ⟨recordIDs', repository₁, hexec⟩ := exec_references hret hnes hids hfuel
      simp [hexec]

theorem exec_refreshAll (hret : Returns env package fuel nested) (hnes : WritesOwn env nested)
    {entries : List (Sigma fun _ : String => Value)}
    (hent : ∀ x ∈ entries, x.1 ∉ cloudKitIgnoredKeys → (fieldOf env package o x.1 x.2).isSome)
    (hfuel : missing env package repository < fuel + 1) :
    ∃ repository', exec (refreshAll env package nested o entries) repository =
      some (.ok ((), repository')) := by
  induction entries generalizing repository with
  | nil => exact ⟨repository, rfl⟩
  | cons x entries ih =>
    rw [forall_mem_cons] at hent
    rw [refreshAll]
    split
    · exact ih hent.2 hfuel
    · next hkey =>
      obtain ⟨repository₁, hfst⟩ := exec_refresh hret hnes (hent.1 hkey) hfuel
      obtain ⟨v, -, hwr⟩ := writes_of_exec_refresh hnes hfst
      obtain ⟨repository₂, hlat⟩ := ih hent.2 (lt_of_le_of_lt hwr.missing_le hfuel)
      exact ⟨repository₂, by rw [exec_bind, hfst, andThen_ok, hlat]⟩

/-- With fuel for the objects without a record the serialization returns. -/
theorem exec_serialize (hpkg : ∀ x ∈ package, Serializable env package x)
    (ho : Serializable env package o)
    (hfuel : missing env package (withRecord env o repository) < fuel) :
    ∃ repository', exec (serialize env package fuel o) repository = some (.ok ((), repository')) := by
  induction fuel generalizing o repository with
  | zero => omega
  | succ fuel ih =>
    have hret : Returns env package fuel (serialize env package fuel) :=
      fun x hx repository₁ hfuel₁ => ih (hpkg x hx) hfuel₁
    obtain ⟨document, hdoc, hfds⟩ := ho
    obtain ⟨repository', hexec⟩ := exec_refreshAll hret (writesOwn_serialize env package fuel)
      (fun x hx hkey => hfds x.1 x.2 (mem_lookup_iff.2 hx) hkey) hfuel
    have hsome : o.document = some document := hdoc
    exact ⟨repository', by simp only [serialize, exec_bind, exec_modify, andThen_ok, hsome, hexec]⟩

/-! ### The fields of the record -/

/-- What a serialization writes under a key. -/
def written (env : Environment) (package : Package) (o : ManagedObject)
    (document : Dictionary String Value) (key : String) : Option RecordValue :=
  if key ∈ cloudKitIgnoredKeys then none
  else (document.lookup key).bind fun raw => fieldOf env package o key raw

theorem keys_updates_subset (entries : List (Sigma fun _ : String => Value)) :
    ∀ x ∈ updates env package o entries, x.1 ∈ entries.keys := by
  intro x hx
  obtain ⟨y, hy, heq⟩ := mem_filterMap.1 hx
  split at heq
  · cases heq
  · obtain ⟨v, -, rfl⟩ := map_eq_some_iff.1 heq
    exact mem_map_of_mem hy

theorem nodup_keys_updates {entries : List (Sigma fun _ : String => Value)}
    (hnd : entries.NodupKeys) : ((updates env package o entries).map Prod.fst).Nodup := by
  induction entries with
  | nil => exact nodup_nil
  | cons x entries ih =>
    rw [nodupKeys_cons] at hnd
    unfold updates
    rw [filterMap_cons]
    split
    · exact ih hnd.2
    · next y hy =>
      have hfst : y.1 = x.1 := by
        split at hy
        · cases hy
        · obtain ⟨v, -, rfl⟩ := map_eq_some_iff.1 hy
          rfl
      rw [map_cons, nodup_cons]
      refine ⟨fun hmem => hnd.1 ?_, ih hnd.2⟩
      obtain ⟨z, hz, hzy⟩ := mem_map.1 hmem
      rw [← hfst, ← hzy]
      exact keys_updates_subset entries z hz

theorem mem_updates_iff {document : Dictionary String Value} {v : RecordValue} :
    (key, v) ∈ updates env package o document.entries ↔
      written env package o document key = some v := by
  unfold updates written
  rw [mem_filterMap]
  constructor
  · rintro ⟨⟨key', raw⟩, hmem, heq⟩
    split at heq
    · cases heq
    · next hkey =>
      obtain ⟨v', hfld, heq⟩ := map_eq_some_iff.1 heq
      cases heq
      rw [if_neg hkey, mem_lookup_iff.2 hmem]
      exact hfld
  · intro heq
    split at heq
    · cases heq
    · next hkey =>
      obtain ⟨raw, hraw, hfld⟩ := bind_eq_some_iff.1 heq
      exact ⟨⟨key, raw⟩, mem_lookup_iff.1 hraw, by simp [hkey, hfld]⟩

theorem object_foldl_setObject (hnd : (fields.map Prod.fst).Nodup) (record : Record)
    (key : String) :
    (fields.foldl (fun record field => record.setObject field.2 field.1) record).object key =
      (fields.lookup key).or (record.object key) := by
  induction fields generalizing record with
  | nil => rfl
  | cons field fields ih =>
    rw [map_cons, nodup_cons] at hnd
    rw [foldl_cons, ih hnd.2, lookup_cons]
    by_cases hkey : key = field.1
    · have hnone : fields.lookup key = none := by
        rw [lookup_eq_none_iff]
        intro p hp
        rw [bne_iff_ne]
        rintro rfl
        exact hnd.1 (hkey ▸ mem_map_of_mem hp)
      rw [hnone, hkey, beq_self_eq_true]
      exact lookup_insert _
    · rw [beq_false_of_ne hkey, Record.object, Record.setObject, lookup_insert_ne hkey]
      rfl

theorem lookup_updates (document : Dictionary String Value) (key : String) :
    (updates env package o document.entries).lookup key = written env package o document key := by
  have hmem : ∀ v, (updates env package o document.entries).lookup key = some v ↔
      written env package o document key = some v := by
    intro v
    rw [← mem_updates_iff]
    constructor
    · intro hlk
      obtain ⟨l1, l2, hspl, -⟩ := lookup_eq_some_iff.1 hlk
      simp [hspl]
    · intro hv
      obtain ⟨l1, l2, hspl⟩ := append_of_mem hv
      have hnd : ((updates env package o document.entries).map Prod.fst).Nodup :=
        nodup_keys_updates document.nodupKeys
      refine lookup_eq_some_iff.2 ⟨l1, l2, hspl, fun p hp => ?_⟩
      rw [hspl, map_append, nodup_append] at hnd
      rw [bne_iff_ne]
      exact Ne.symm (hnd.2.2 p.1 (mem_map_of_mem hp) key (by simp))
  exact ext hmem

/-- The record after a serialization: what was written, elsewhere what was there. -/
theorem object_of_exec_serialize
    (hexec : exec (serialize env package fuel o) repository = some (.ok ((), repository'))) :
    ∃ document ∈ o.document,
      (∀ key raw, document.lookup key = some raw → key ∉ cloudKitIgnoredKeys →
        (fieldOf env package o key raw).isSome) ∧
      ∃ record, repository'.lookup (recordID env o) = some record ∧
        ∀ key, record.object key = (written env package o document key).or
          ((repository.lookup (recordID env o)).bind (Record.object key)) := by
  obtain ⟨document, hdoc, hfds, hwr⟩ := writes_of_exec_serialize hexec
  obtain ⟨record, hrec, hobj⟩ := exists_lookup_withRecord env o repository
  refine ⟨document, hdoc, hfds, _, hwr.own record hrec, fun key => ?_⟩
  rw [object_foldl_setObject (nodup_keys_updates document.nodupKeys), lookup_updates, hobj]

theorem recordID_of_exec_serialize
    (hexec : exec (serialize env package fuel o) repository = some (.ok ((), repository')))
    (hnone : repository.lookup (recordID env o) = none) {record : Record}
    (hrec : repository'.lookup (recordID env o) = some record) :
    record.recordID = recordID env o := by
  obtain ⟨document, -, -, hwr⟩ := writes_of_exec_serialize hexec
  have hnew : (withRecord env o repository).lookup (recordID env o) =
      some ⟨env.recordType o.className, recordID env o, none, ∅⟩ := by
    rw [withRecord, hnone]
    exact lookup_insert repository
  have hsame : ∀ (fields : List (String × RecordValue)) (record : Record),
      (fields.foldl (fun record field => record.setObject field.2 field.1) record).recordID =
        record.recordID := by
    intro fields
    induction fields with
    | nil => exact fun _ => rfl
    | cons field fields ih => exact fun record => ih (record.setObject field.2 field.1)
  rw [hwr.own _ hnew] at hrec
  rw [← some.inj hrec, hsame]

theorem exists_of_written {document : Dictionary String Value} {field : RecordValue}
    (h : written env package o document key = some field) :
    key ∉ cloudKitIgnoredKeys ∧ ∃ raw, document.lookup key = some raw ∧
      fieldOf env package o key raw = some field := by
  unfold written at h
  split at h
  · cases h
  · next hkey => exact ⟨hkey, bind_eq_some_iff.1 h⟩

end

end Feather.Sync
