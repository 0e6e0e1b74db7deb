import Feather.Model.Change

/-!
# What a save writes of a change

A plain property set by `setValue:ofProperty:` is in the document after the next save, whatever the
depth.  The other paths hold what is in memory exactly if no unrecorded property is out of step with
the document.

`setModel:forProperty:` records no name, so that the next save does not write the reference.
-/

namespace Feather.Model

open Keyed CBLModel

variable {o : ManagedObject} {place : Place} {embedder : Chain}

/-- The document of `saved` has `value` at `target` and the values in memory elsewhere, which are
those of `o` but for what a save sets. -/
structure Persists (o saved : ManagedObject) (target : List Key) (value : Option Plain) : Prop where
  target_eq : saved.document.valueAt target = value
  others_eq : ∀ qs, qs ≠ target → saved.document.valueAt qs = saved.properties.valueAt qs
  memory_eq : ∀ k qs, k ∉ bookkeepingKeys → k :: qs ≠ target →
    saved.properties.valueAt (k :: qs) = o.properties.valueAt (k :: qs)

section

variable [CBLModel]

theorem valueAt_document_save (context : SaveContext) (h : o.needsSave = true) (k : Key)
    (qs : List Key) :
    (save context o).document.valueAt (k :: qs) =
      if k ∈ (prepareSave context o).changedNames then
        (prepareSave context o).properties.valueAt (k :: qs)
      else o.document.valueAt (k :: qs) := by
  have hcln : isClean o = false := by simp [isClean, h]
  rw [save, SaveSteps.save_of_changed hcln, ← (prepareSave_spec context o k).1]
  exact valueAt_writeDocument _ k qs

theorem valueAt_properties_save (context : SaveContext) (h : o.needsSave = true) (qs : List Key) :
    (save context o).properties.valueAt qs = (prepareSave context o).properties.valueAt qs := by
  have hcln : isClean o = false := by simp [isClean, h]
  rw [save, SaveSteps.save_of_changed hcln]
  exact (Tree.valueAt_mapLabels _ _ qs).trans (by rw [properties_writeDocument]; rfl)

/-- A save changes only the values in memory that it sets. -/
theorem valueAt_prepareSave (context : SaveContext) {k : Key} (h : ¬SetBySave context o k)
    (qs : List Key) :
    (prepareSave context o).properties.valueAt (k :: qs) = o.properties.valueAt (k :: qs) :=
  Tree.valueAt_congr ((prepareSave_spec context o k).2.2 h) qs

omit [CBLModel] in
theorem setBySave_congr (context : SaveContext) {o' : ManagedObject} {k : Key}
    (hkeys : ∀ k ∈ bookkeepingKeys, o'.properties.get? k = o.properties.get? k)
    (hflag : o'.needsSave = o.needsSave) : SetBySave context o' k ↔ SetBySave context o k := by
  have hvalues : ownValues context o' = ownValues context o := by
    unfold ownValues
    rw [hkeys (.name "createdAt") (by decide), hkeys (.name "cloudKitChangeTag") (by decide), hflag]
  refine exists_congr fun v => ?_
  rw [hvalues]
  refine and_congr_right fun hmem => ?_
  have hkey : k ∈ (ownValues context o).map Prod.fst := List.mem_map.2 ⟨_, hmem, rfl⟩
  rw [hkeys k hkey]

/-- A new value is persisted, with the rest of memory, exactly if every property of the object is in
step that is not recorded as changed, does not hold the chain and is not set by the save. -/
theorem setValue_persists_iff {property : Key} (value : Option Plain) (context : SaveContext)
    (h : Embedded o (place :: embedder))
    (hplain : ∀ label entries,
      valueForKey o (place :: embedder) property ≠ some (.node label entries))
    (hnew : value = none ∨ valueForKey o (place :: embedder) property ≠ value.map .value)
    (hroot : rootKey place embedder ∉ bookkeepingKeys) :
    Persists o (save context (setValue place embedder (value.map .value) property o))
        (path (place :: embedder) ++ [property]) value ↔
      ∀ k, k ≠ rootKey place embedder → k ∉ o.changedNames →
        ¬SetBySave context { o with needsSave := true } k →
        ∀ qs, o.document.valueAt (k :: qs) = o.properties.valueAt (k :: qs) := by
  obtain ⟨hnam, hdoc, hflag, hvls⟩ := setValue_frame h hplain hnew
  have hset (k : Key) : SetBySave context
      (setValue place embedder (value.map .value) property o) k ↔
        SetBySave context { o with needsSave := true } k := by
    refine setBySave_congr context (fun k hk => ?_) hflag
    exact get?_setValue h (by simpa using hnew) fun heq => hroot (heq ▸ hk)
  set o' := setValue place embedder (value.map .value) property o
  obtain ⟨ks, hks⟩ := exists_path_eq place embedder
  have htgt : path (place :: embedder) ++ [property] =
      rootKey place embedder :: (ks ++ [property]) := by rw [hks, List.cons_append]
  -- the properties that are written
  have hrcd (k : Key) : k ∈ (prepareSave context o').changedNames ↔
      (k = rootKey place embedder ∨ k ∈ o.changedNames) ∨
        SetBySave context { o with needsSave := true } k := by
    rw [(prepareSave_spec context o' k).2.1, hnam, List.mem_insert_iff, hset]
  have hsav := valueAt_document_save context hflag
  have hmem := valueAt_properties_save context hflag
  have hown (k : Key) (hk : ¬SetBySave context { o with needsSave := true } k) (qs : List Key) :=
    valueAt_prepareSave context ((hset k).not.2 hk) qs
  have hnotSet : ¬SetBySave context { o with needsSave := true } (rootKey place embedder) :=
    fun hs => hroot hs.mem_bookkeepingKeys
  constructor
  · intro hper k hkr hkn hks qs
    have hne : k :: qs ≠ path (place :: embedder) ++ [property] := by
      rw [htgt]
      exact fun heq => hkr (List.cons.inj heq).1
    have hnot : k ∉ (prepareSave context o').changedNames := by simp [hrcd, hkr, hkn, hks]
    have hoth := hper.others_eq _ hne
    rwa [hsav, if_neg hnot, hmem, hown k hks, hvls, if_neg hne, hdoc] at hoth
  · intro hstep
    refine ⟨?_, ?_, ?_⟩
    · rw [htgt, hsav, if_pos ((hrcd _).2 (.inl (.inl rfl))), hown _ hnotSet, ← htgt, hvls,
        if_pos rfl]
    · intro qs hne
      cases qs with
      | nil => rfl
      | cons k qs =>
        rw [hsav, hmem]
        split
        · rfl
        · rename_i hk
          rw [hrcd, not_or, not_or] at hk
          rw [hown k hk.2, hvls, if_neg hne, hdoc, hstep k hk.1.1 hk.1.2 hk.2]
    · intro k qs hk hne
      rw [hmem, hown k fun hs => hk hs.mem_bookkeepingKeys, hvls, if_neg hne]

end

/-- A superclass that writes the changed properties one after the other. -/
instance : CBLModel where
  cacheOwnValue value property o :=
    markPropertyNeedsSave property { o with properties := o.properties.assign property value }
  setOwnValue property value o :=
    if o.properties.get? property = some (.value value) then o
    else { o with
      properties := o.properties.put property (.value value)
      changedNames := o.changedNames.insert property
      needsSave := true }
  writeDocument o :=
    { o with
      document := o.changedNames.foldl
        (fun document k => document.assign k ((o.properties.get? k).map externalizePropertyValue))
        o.document
      changedNames := []
      needsSave := false }
  cacheOwnValue_eq _ _ _ := rfl
  setOwnValue_eq _ _ _ := rfl
  properties_writeDocument _ := rfl
  get?_document o k := Tree.get?_foldl_assign
    (fun k => (o.properties.get? k).map externalizePropertyValue) o.changedNames o.document k

/-- An object that embeds one object directly and two in an array. -/
def sampleManagedObject : ManagedObject where
  properties :=
    .node (.name "embeddedTestObject") (.object false)
      (.value (.name "embeddedManagedObjectProperty") (.string "doc1") .nil)
      (.node (.name "embeddedArrayOfTestObjects") .array
        (.node (.index 0) (.object false) (.value (.name "aStringTypedProperty") (.string "a") .nil)
        (.node (.index 1) (.object false) (.value (.name "aStringTypedProperty") (.string "b") .nil)
          .nil)) .nil)
  changedNames := []
  needsSave := false
  document :=
    .node (.name "embeddedTestObject") .dictionary
      (.value (.name "embeddedManagedObjectProperty") (.string "doc1") .nil)
      (.node (.name "embeddedArrayOfTestObjects") .array
        (.node (.index 0) .dictionary (.value (.name "aStringTypedProperty") (.string "a") .nil)
        (.node (.index 1) .dictionary (.value (.name "aStringTypedProperty") (.string "b") .nil)
          .nil)) .nil)

def sampleContext : SaveContext where
  now := 1
  sessionID := none
  cloudKitChangeTag := none

theorem setValue_persists_second :
    Persists sampleManagedObject
      (save sampleContext (setValue ⟨.name "embeddedArrayOfTestObjects", some (.index 1)⟩ []
        (some (.value (.string "c"))) (.name "aStringTypedProperty") sampleManagedObject))
      [.name "embeddedArrayOfTestObjects", .index 1, .name "aStringTypedProperty"]
      (some (.string "c")) := by
  have hemb : Embedded sampleManagedObject
      [⟨.name "embeddedArrayOfTestObjects", some (.index 1)⟩] :=
    ⟨⟨false, rfl⟩, fun _ => .inl rfl, trivial⟩
  have hval : valueForKey sampleManagedObject
      [⟨.name "embeddedArrayOfTestObjects", some (.index 1)⟩] (.name "aStringTypedProperty") =
        some (.value (.string "b")) := rfl
  refine (setValue_persists_iff (some (.string "c")) sampleContext hemb ?_ ?_ ?_).2 ?_
  · rw [hval]
    rintro label entries ⟨⟩
  · right
    decide
  · decide
  · intro k _ _ _ qs
    exact valueAt_externalizeEntries false sampleManagedObject.properties (k :: qs)

/-- A reference was set in one embedded object before the value in another: the save leaves the
reference. -/
theorem setValue_persists_wrong :
    let referred := setModel [⟨.name "embeddedTestObject", none⟩] (some "doc2")
      (.name "embeddedManagedObjectProperty") sampleManagedObject
    let saved := save sampleContext
      (setValue ⟨.name "embeddedArrayOfTestObjects", some (.index 1)⟩ []
        (some (.value (.string "c"))) (.name "aStringTypedProperty") referred)
    let other := [.name "embeddedTestObject", .name "embeddedManagedObjectProperty"]
    referred.properties.valueAt other = some (.string "doc2") ∧
      saved.properties.valueAt other = some (.string "doc2") ∧
      saved.document.valueAt other = some (.string "doc1") := by
  decide

/-! ### References -/

theorem setModel_frame {chain : Chain} (h : Embedded o chain) (hch : chain ≠ [])
    (documentID : Option String) (property : Key) :
    (setModel chain documentID property o).changedNames = o.changedNames ∧
      (setModel chain documentID property o).document = o.document := by
  cases chain with
  | nil => exact absurd rfl hch
  | cons place embedder =>
    rw [setModel]
    split
    · exact ⟨rfl, rfl⟩
    · obtain ⟨hnam, hdoc, -⟩ := markNeedsSave_frame (h.assignProperty property _)
      exact ⟨hnam, hdoc⟩

section

variable [CBLModel]

theorem valueAt_document_save_of_notMem (context : SaveContext) {k : Key}
    (hk : k ∉ o.changedNames) (hkey : k ∉ bookkeepingKeys) (qs : List Key) :
    (save context o).document.valueAt (k :: qs) = o.document.valueAt (k :: qs) := by
  obtain ⟨hdoc, hnames, -⟩ := prepareSave_spec context o k
  cases hcln : isClean o with
  | true => rw [save, SaveSteps.save_of_isClean hcln]
  | false =>
    have hnot : k ∉ (prepareSave context o).changedNames := by
      rw [hnames]
      exact fun hmem => hmem.elim hk fun hs => hkey hs.mem_bookkeepingKeys
    have hwrt := valueAt_writeDocument (prepareSave context o) k qs
    rw [if_neg hnot, hdoc] at hwrt
    rw [save, SaveSteps.save_of_changed hcln]
    exact hwrt

/-- After a save the document has the reference exactly if it had it before. -/
theorem setModel_persists_iff {property : Key} (documentID : Option String)
    (context : SaveContext) (h : Embedded o (place :: embedder))
    (hunchanged : rootKey place embedder ∉ o.changedNames)
    (hsaved : o.document.valueAt (path (place :: embedder) ++ [property]) =
      o.properties.valueAt (path (place :: embedder) ++ [property]))
    (hroot : rootKey place embedder ∉ bookkeepingKeys) :
    (save context (setModel (place :: embedder) documentID property o)).document.valueAt
        (path (place :: embedder) ++ [property]) = documentID.map .string ↔
      o.properties.valueAt (path (place :: embedder) ++ [property]) =
        documentID.map .string := by
  obtain ⟨hnam, hdoc⟩ := setModel_frame h (List.cons_ne_nil _ _) documentID property
  obtain ⟨ks, hks⟩ := exists_path_eq place embedder
  rw [← hsaved, hks, List.cons_append,
    valueAt_document_save_of_notMem context (by rwa [hnam]) hroot, hdoc]

end

theorem setModel_persists_same :
    (save sampleContext (setModel [⟨.name "embeddedTestObject", none⟩] (some "doc1")
      (.name "embeddedManagedObjectProperty") sampleManagedObject)).document.valueAt
        [.name "embeddedTestObject", .name "embeddedManagedObjectProperty"] =
      some (.string "doc1") := by
  have hemb : Embedded sampleManagedObject [⟨.name "embeddedTestObject", none⟩] :=
    ⟨⟨false, rfl⟩, fun h => by simp at h, trivial⟩
  exact (setModel_persists_iff (some "doc1") sampleContext hemb (by decide) rfl (by decide)).2
    rfl

/-- The object refers to another document, but the saved document has the old reference. -/
theorem setModel_persists_wrong :
    let referred := setModel [⟨.name "embeddedTestObject", none⟩] (some "doc2")
      (.name "embeddedManagedObjectProperty") sampleManagedObject
    let target := [.name "embeddedTestObject", .name "embeddedManagedObjectProperty"]
    referred.needsSave = true ∧ referred.properties.valueAt target = some (.string "doc2") ∧
      (save sampleContext referred).document.valueAt target = some (.string "doc1") := by
  decide

end Feather.Model
