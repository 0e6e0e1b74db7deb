import Feather.Async.System
import Feather.Embedding.RoundTrip
import Feather.Sync.Serializer

/-!
# Serializing an object again and again

The record of an object stays in the repository, so a serialization starts from the fields that the
last one has left.  Fields are set for the properties in the document, and never removed.  A URL and
a dangling reference are taken from the document and not from memory.
-/

namespace Feather.Sync

open Keyed Program Option
open Feather.Embedding

variable {raw raw' : Value} {v : RecordValue}

section

variable {env : Environment} {package : Package} {o : ManagedObject} {key : String}

/-- The encoding of the current value under a key that is not ignored. -/
def currentField (env : Environment) (package : Package) (o : ManagedObject) (key : String) :
    Option RecordValue :=
  if key ∈ cloudKitIgnoredKeys then none
  else (o.values.lookup key).bind fun stored =>
    fieldOf env package o key (externalizePropertyValue env.runtime.coding stored)

/-- The record has exactly the current properties, with their encodings. -/
def Current (env : Environment) (package : Package) (o : ManagedObject) (record : Record) : Prop :=
  ∀ key, record.object key = currentField env package o key

/-- What is written is from the document: no value, a URL, or a dangling reference. -/
def ReadsDocument (env : Environment) (package : Package) (o : ManagedObject) (key : String) : Prop :=
  match o.valueForKey env.runtime key with
  | .ok none => True
  | .ok (some (.value (.url _))) => True
  | .ok (some (.value (.string s))) =>
    env.runtime.classOfProperty o.className key = .model ∧ resolve env package s = none
  | _ => False

/-- The document has the current value where it is read; the record has the others. -/
def Settled (env : Environment) (package : Package) (o : ManagedObject) (old : Option Record) :
    Prop :=
  ∃ document ∈ o.document,
    (∀ key raw, document.lookup key = some raw → key ∉ cloudKitIgnoredKeys →
      ReadsDocument env package o key → (o.values.lookup key).map
        (externalizePropertyValue env.runtime.coding) = some raw) ∧
    ∀ key, key ∈ cloudKitIgnoredKeys ∨ document.lookup key = none →
      old.bind (Record.object key) = currentField env package o key

/-! ### What is taken from the document -/

theorem fieldOf_congr (hread : ¬ReadsDocument env package o key) (raw raw' : Value) :
    fieldOf env package o key raw = fieldOf env package o key raw' := by
  unfold ReadsDocument at hread
  unfold fieldOf
  rcases hval : o.valueForKey env.runtime key with e | _ | v
  · rfl
  · rw [hval] at hread
    exact absurd trivial hread
  · rw [hval] at hread
    rcases v with (s | q | t | bytes | address) | ⟨kind, entries⟩
    · -- a string is a reference or it is written as it is
      by_cases hcls : env.runtime.classOfProperty o.className key = .model
      · cases hrsv : resolve env package s with
        | none => exact absurd ⟨hcls, hrsv⟩ hread
        | some recordID => simp [encode, hrsv]
      · simp [encode, if_neg hcls]
    · rfl
    · rfl
    · rfl
    · exact absurd trivial hread
    · cases kind <;> rfl

theorem unresolved_inj (hraw : recordValue env package (unresolved env key raw) = some v)
    (hraw' : recordValue env package (unresolved env key raw') = some v) : raw = raw' := by
  have href : ∀ {raw : Value}, recordValue env package (unresolved env key raw) = some v →
      ∃ s zoneID, raw = .value (.string s) ∧ v = .reference ⟨s, zoneID⟩ := by
    intro raw hraw
    unfold unresolved at hraw
    split at hraw
    · next s =>
      split at hraw
      · next className _ =>
        cases hraw
        exact ⟨s, recordZoneID env className, rfl, rfl⟩
      · cases hraw
    · cases hraw
  obtain ⟨s, zoneID, rfl, rfl⟩ := href hraw
  obtain ⟨s', zoneID', rfl, heq⟩ := href hraw'
  cases heq
  rfl

theorem url_inj {propertyClass : PropertyClass} {address : String}
    (hraw : recordValue env package (encode env package propertyClass key raw
      (some (.value (.url address)))) = some v)
    (hraw' : recordValue env package (encode env package propertyClass key raw'
      (some (.value (.url address)))) = some v) : raw = raw' := by
  have hstr : ∀ {raw : Value}, recordValue env package (encode env package propertyClass key raw
      (some (.value (.url address)))) = some v → ∃ s, raw = .value (.string s) ∧
        v = .value (.value (.string s)) := by
    intro raw hraw
    simp only [encode] at hraw
    split at hraw
    · cases hraw
      exact ⟨_, rfl, rfl⟩
    · cases hraw
  obtain ⟨s, rfl, rfl⟩ := hstr hraw
  obtain ⟨s', rfl, heq⟩ := hstr hraw'
  cases heq
  rfl

theorem fieldOf_inj (hread : ReadsDocument env package o key)
    (hraw : fieldOf env package o key raw = some v)
    (hraw' : fieldOf env package o key raw' = some v) : raw = raw' := by
  unfold ReadsDocument at hread
  unfold fieldOf at hraw hraw'
  rcases hval : o.valueForKey env.runtime key with e | _ | val
  · rw [hval] at hread
    exact hread.elim
  · rw [hval] at hraw hraw'
    simp only [encode] at hraw hraw'
    by_cases hcls : env.runtime.classOfProperty o.className key = .model
    · rw [if_pos hcls] at hraw hraw'
      exact unresolved_inj hraw hraw'
    · rw [if_neg hcls] at hraw
      cases hraw
  · rw [hval] at hread hraw hraw'
    rcases val with (s | q | t | bytes | address) | ⟨kind, entries⟩
    · simp only [encode, if_pos hread.1, hread.2] at hraw hraw'
      exact unresolved_inj hraw hraw'
    · exact hread.elim
    · exact hread.elim
    · exact hread.elim
    · exact url_inj hraw hraw'
    · exact hread.elim

theorem isSome_values_of_fieldOf (hread : ¬ReadsDocument env package o key) :
    (o.values.lookup key).isSome := by
  rw [isSome_iff_ne_none]
  intro hnone
  refine hread ?_
  unfold ReadsDocument ManagedObject.valueForKey
  rw [hnone]
  trivial

theorem fieldOf_eq_currentField_iff (hkey : key ∉ cloudKitIgnoredKeys)
    (hfld : (fieldOf env package o key raw).isSome) :
    fieldOf env package o key raw = currentField env package o key ↔
      (ReadsDocument env package o key → (o.values.lookup key).map
        (externalizePropertyValue env.runtime.coding) = some raw) := by
  obtain ⟨v, hv⟩ := isSome_iff_exists.1 hfld
  rw [currentField, if_neg hkey]
  constructor
  · intro heq hread
    obtain ⟨stored, hsto, hcur⟩ := bind_eq_some_iff.1 (heq.symm.trans hv)
    rw [hsto, map_some, fieldOf_inj hread hcur hv]
  · intro hdoc
    by_cases hread : ReadsDocument env package o key
    · obtain ⟨stored, hsto, rfl⟩ := map_eq_some_iff.1 (hdoc hread)
      rw [hsto, bind_some]
    · obtain ⟨stored, hsto⟩ := isSome_iff_exists.1 (isSome_values_of_fieldOf hread)
      rw [hsto, bind_some, fieldOf_congr hread]

/-! ### One serialization -/

theorem written_of_lookup {document : Dictionary String Value} (hkey : key ∉ cloudKitIgnoredKeys)
    (hraw : document.lookup key = some raw) :
    written env package o document key = fieldOf env package o key raw := by
  rw [written, if_neg hkey, hraw, bind_some]

theorem written_eq_none {document : Dictionary String Value}
    (hkey : key ∈ cloudKitIgnoredKeys ∨ document.lookup key = none) :
    written env package o document key = none := by
  unfold written
  split
  · rfl
  · next hnot => rw [hkey.resolve_left hnot, bind_none]

/-- The record that a serialization leaves is current exactly if the object was settled. -/
theorem current_iff_settled {fuel : ℕ} {repository repository' : RecordRepository}
    (hexec : exec (serialize env package fuel o) repository = some (.ok ((), repository'))) :
    (∃ record, repository'.lookup (recordID env o) = some record ∧ Current env package o record) ↔
      Settled env package o (repository.lookup (recordID env o)) := by
  obtain ⟨document, hdoc, hfds, record, hrec, hobj⟩ := object_of_exec_serialize hexec
  have hfld : ∀ key raw, document.lookup key = some raw → key ∉ cloudKitIgnoredKeys →
      record.object key = fieldOf env package o key raw := by
    intro key raw hraw hkey
    rw [hobj key, written_of_lookup hkey hraw, or_of_isSome (hfds key raw hraw hkey)]
  have hoth : ∀ key, key ∈ cloudKitIgnoredKeys ∨ document.lookup key = none →
      record.object key = (repository.lookup (recordID env o)).bind (Record.object key) := by
    intro key hkey
    rw [hobj key, written_eq_none hkey, none_or]
  constructor
  · rintro ⟨record', hrec', hcur⟩
    cases hrec.symm.trans hrec'
    refine ⟨document, hdoc, fun key raw hraw hkey => ?_, fun key hkey => ?_⟩
    · rw [← fieldOf_eq_currentField_iff hkey (hfds key raw hraw hkey), ← hcur key,
        hfld key raw hraw hkey]
    · rw [← hcur key, hoth key hkey]
  · rintro ⟨document', hdoc', hread, hold⟩
    cases (mem_def.1 hdoc).symm.trans hdoc'
    refine ⟨record, hrec, fun key => ?_⟩
    by_cases hkey : key ∈ cloudKitIgnoredKeys ∨ document.lookup key = none
    · rw [hoth key hkey, hold key hkey]
    · rw [not_or] at hkey
      obtain ⟨raw, hraw⟩ := ne_none_iff_exists'.1 hkey.2
      rw [hfld key raw hraw hkey.1,
        (fieldOf_eq_currentField_iff hkey.1 (hfds key raw hraw hkey.1)).2 (hread key raw hraw hkey.1)]

end

/-! ### Histories -/

/-- An object under change and the repository of records. -/
structure Session where
  object : ManagedObject
  repository : RecordRepository

/-- A property is set or removed, the object is saved at some time, or it is serialized. -/
inductive Change
  | set (key : String) (v : Option Value)
  | save (now : ℚ) (written : Bool)
  | serialize

namespace Session

/-- The object with the others of its package. -/
def package (others : List ManagedObject) (s : Session) : Package := s.object :: others

/-- The session after a change that did not raise or throw. -/
def step (env : Environment) (others : List ManagedObject) : Change → Session → Option Session
  | .set key v, s =>
    match s.object.setValue key v with
    | .ok o => some { s with object := o }
    | .error _ => none
  | .save now written, s => some { s with object := s.object.save env.runtime.coding now written }
  | .serialize, s =>
    match exec (Sync.serialize env (s.package others) (others.length + 2) s.object) s.repository with
    | some (.ok ((), repository)) => some { s with repository }
    | _ => none

/-- The record of the object. -/
def record (env : Environment) (s : Session) : Option Record :=
  s.repository.lookup (recordID env s.object)

/-- The record of the object is current. -/
def IsCurrent (env : Environment) (others : List ManagedObject) (s : Session) : Prop :=
  ∃ record, s.record env = some record ∧ Current env (s.package others) s.object record

/-- After each serialization of a history the record is current. -/
def AllCurrent (env : Environment) (others : List ManagedObject) : List Change → Session → Prop
  | [], _ => True
  | change :: history, s => ∀ s', step env others change s = some s' →
    (change = .serialize → s'.IsCurrent env others) ∧ AllCurrent env others history s'

/-- Each serialization of a history is made where the object is settled. -/
def AllSettled (env : Environment) (others : List ManagedObject) : List Change → Session → Prop
  | [], _ => True
  | change :: history, s => ∀ s', step env others change s = some s' →
    (change = .serialize → Settled env (s.package others) s.object (s.record env)) ∧
      AllSettled env others history s'

theorem isCurrent_iff_settled {env : Environment} {others : List ManagedObject} {s s' : Session}
    (hstep : step env others .serialize s = some s') :
    s'.IsCurrent env others ↔ Settled env (s.package others) s.object (s.record env) := by
  simp only [step] at hstep
  split at hstep
  · next repository hexec =>
    cases hstep
    exact current_iff_settled hexec
  · cases hstep

/-- Along every history, the record is current after each serialization exactly if each is made
where the object is settled; and a serialization returns if the objects of the package can be
written. -/
theorem allCurrent_iff (env : Environment) (others : List ManagedObject) (history : List Change)
    (s : Session) :
    (AllCurrent env others history s ↔ AllSettled env others history s) ∧
    ((∀ x ∈ s.package others, Serializable env (s.package others) x) →
      ∃ s', step env others .serialize s = some s') := by
  constructor
  · induction history generalizing s with
    | nil => exact Iff.rfl
    | cons change history ih =>
      refine forall₂_congr fun s' hstep => and_congr (imp_congr_right fun hchg => ?_) (ih s')
      exact isCurrent_iff_settled (hchg ▸ hstep)
  · intro hpkg
    have hmis : missing env (s.package others) (withRecord env s.object s.repository) <
        others.length + 2 := by
      refine lt_of_le_of_lt List.countP_le_length ?_
      rw [package, List.length_cons]
      omega
    obtain ⟨repository, hexec⟩ := exec_serialize hpkg (hpkg s.object (by simp [package]))
      hmis
    exact ⟨{ s with repository }, by simp only [step, hexec]⟩

end Session

/-! ### Test objects -/

/-- The test classes, in the zone of test objects. -/
def testEnvironment : Environment where
  runtime := testRuntime
  ownerName := "owner"
  zoneSuffix := "1"
  recordZoneName _ := "TestObject"
  recordType _ := "TestObject"
  isManagedClass className := className == "MPTestObject"

/-- A new test object. -/
def testObject (documentID : String) : ManagedObject where
  documentID := documentID
  className := "MPTestObject"
  document := some ∅
  values := ∅
  cache := []
  needsSave := false

/-- A test object and an empty repository. -/
def testSession : Session := ⟨testObject "MPTestObject:1", ∅⟩

/-- A title is set, saved and serialized; then removed, saved and serialized again. -/
def removedTitle : List Change :=
  [.set "title" (some (.value (.string "A"))), .save 1 true, .serialize,
    .set "title" none, .save 2 true, .serialize]

/-- The record still has the title. -/
theorem not_allCurrent_removedTitle :
    ¬Session.AllCurrent testEnvironment [] removedTitle testSession := by
  intro h
  obtain ⟨record, hrec, hcur⟩ :=
    (((((((h _ rfl).2 _ rfl).2 _ rfl).2 _ rfl).2 _ rfl).2 _ rfl).1 rfl)
  cases hrec
  have htit := hcur "title"
  revert htit
  decide

end Feather.Sync
