import Feather.Async.System
import Feather.Controllers.Import
import Feather.Model.Saving

/-!
# Making an object from a prototype

`newObjectWithPrototype:documentID:` of `MPManagedObjectsController.m` makes an object that refers
to the prototype, with the values of its properties.  If the prototype has attachments, the object
is saved before and while they are copied.
-/

namespace Feather.Controllers.Prototypes

open Async Keyed Option
open Feather.Model (Key SaveSteps)
open Feather.Embedding (Value hasPrefix)

variable {key id : String} {keys : List String} {m₁ : ImportModel} {n : ℕ}
  {documentID : Option String}

/-- `CBLAttachment` -/
structure Attachment where
  name : String
  contentType : Option String
  content : Option (List UInt8)

/-- The object that is copied.  `userProperties` are the keys of its document not reserved for the
database; `transformedValue` is
`prototypeTransformedValueForPropertiesDictionaryKey:forCopyOfPrototypeObject:`. -/
structure Prototype where
  documentID : String
  className : String
  canFormPrototype : Bool
  userProperties : List String
  transformedValue : String → Option Value
  attachments : Option (List Attachment)
  nodup_userProperties : userProperties.Nodup
  not_reserved : ∀ key ∈ userProperties, hasPrefix "_" key = false

/-- The controller, with the classes of the program. -/
structure PrototypesController where
  importer : Importer
  managedObjectClass : String
  prototypeClass : String
  isKindOfClass : String → String → Bool
  isKindOfClass_self : ∀ cls, isKindOfClass cls cls = true
  managesClass_eq : ∀ cls, importer.managesClass cls = isKindOfClass cls managedObjectClass
  prototype_not_embedded : ∀ cls className,
    importer.runtime.classOfProperty cls "prototype" ≠ .embedded className

/-- The identifier that is made up for a new document, for each save its time and whether it
succeeds, and the session, where the class tracks it. -/
structure Surroundings where
  uuid : String
  now : ℕ → ℚ
  succeeds : ℕ → Bool
  sessionID : Option String

/-- The object that is made, with its attachments. -/
structure Made where
  model : ImportModel
  attached : List Attachment

section

variable (c : PrototypesController) (w : Surroundings)

/-- The class of the new object. -/
def instantiableClass (p : Prototype) : String :=
  if c.prototypeClass = c.managedObjectClass then p.className else c.managedObjectClass

/-- `idForNewDocumentInDatabase:`, which asserts that a given identifier names the class. -/
def idForNewDocument (cls : String) : Option String → Option String
  | none => some (cls ++ ":" ++ w.uuid)
  | some id => if hasPrefix (cls ++ ":") id then some id else none

/-- `setValue:ofProperty:`, for a value that may be nil.  The type of an object is never nil. -/
def setOptionalValue (property : String) (value : Option Value) (m : ImportModel) :
    Option ImportModel :=
  match value with
  | some v => setValue c.importer (.name property) v m
  | none =>
    if property = "objectType" then none
    else if (m.properties.get? (.name property)).isNone then some m
    else some { m with
      properties := m.properties.erase (.name property), changes := m.changes + 1 }

/-- One property is copied. -/
def copyProperty (p : Prototype) (key : String) (m : ImportModel) : Option ImportModel :=
  setOptionalValue c key (p.transformedValue key) m

/-- The session of the save. -/
def trackSession (m : ImportModel) : ImportModel :=
  match w.sessionID with
  | none => m
  | some s => m.assign (.name "sessionID") (.value (.string s))

/-- The steps of `save:`.  The change tag is not set: the getter of an object that was not given one
answers only where the properties have none. -/
def saveSteps (n : ℕ) : SaveSteps ImportModel where
  isClean m := !m.needsSave
  prepare m := trackSession w (updateTimestamps (w.now n) m)
  complete m := { m with changes := 0 }

/-- What `save:` does to the properties; `none` where the time of creation cannot be read. -/
def save (n : ℕ) (m : ImportModel) : Option ImportModel :=
  if m.needsSave ∧ readsCreatedAt m = false then none
  else some ((saveSteps w n).save (w.succeeds n) m).2

/-- The loop over the attachments, from the save with the given number on. -/
def attachEach : List Attachment → ℕ → Made → Option Made
  | [], _, made => some made
  | attachment :: rest, n, made =>
    if attachment.contentType.isSome ∧ attachment.content.isSome then
      (save w n { made.model with changes := made.model.changes + 1 }).bind fun m =>
        attachEach rest (n + 1) ⟨m, made.attached ++ [attachment]⟩
    else attachEach rest n made

/-- The attachments are copied. -/
def copyAttachments (p : Prototype) (m : ImportModel) : Option Made :=
  match p.attachments with
  | none => some ⟨m, []⟩
  | some attachments => (save w 0 m).bind fun m => attachEach w attachments 1 ⟨m, []⟩

/-- `newObjectWithPrototype:documentID:`; `none` where it raises. -/
def newObjectWithPrototype (p : Prototype) (documentID : Option String) : Option Made :=
  if c.isKindOfClass p.className c.prototypeClass ∧ p.canFormPrototype then
    (idForNewDocument w (instantiableClass c p) documentID).bind fun id =>
    (newObject c.importer id (instantiableClass c p) .nil).bind fun m =>
    (setValue c.importer (.name "prototype") (.value (.string p.documentID)) m).bind fun m =>
    (run (copyProperty c p) p.userProperties m).bind (copyAttachments w p)
  else none

/-- The object is made; it refers to the prototype, has the identifier and type of its class, and
otherwise the values that the prototype gives. -/
def Copies (p : Prototype) (documentID : Option String) : Prop :=
  ∃ made, newObjectWithPrototype c w p documentID = some made ∧
    made.model.properties.get? (.name "prototype") = some (.value (.string p.documentID)) ∧
    hasPrefix (made.model.className ++ ":") made.model.documentID = true ∧
    made.model.properties.get? (.name "objectType") =
      some (.value (.string made.model.className)) ∧
    ∀ key ∈ p.userProperties, key ≠ "objectType" → key ≠ "prototype" →
      made.model.properties.get? (.name key) = p.transformedValue key

/-- How often the object is saved after its first save. -/
def attachmentSaves (attachments : List Attachment) : ℕ :=
  attachments.countP fun a => a.contentType.isSome ∧ a.content.isSome

/-- What understands `doubleValue`. -/
def Readable (value : Value) : Prop :=
  (∃ s, value = .value (.string s)) ∨ ∃ q, value = .value (.number q)

/-- The values for the type and the prototype are those of the copy, and so are those that a save
sets, where there are attachments. -/
structure Meets (p : Prototype) (documentID : Option String) : Prop where
  concrete : c.importer.isConcrete (instantiableClass c p) = true
  documentID_fits : ∀ id ∈ documentID, hasPrefix (instantiableClass c p ++ ":") id = true
  objectType_eq : "objectType" ∈ p.userProperties →
    p.transformedValue "objectType" = some (.value (.string (instantiableClass c p)))
  prototype_eq : "prototype" ∈ p.userProperties →
    p.transformedValue "prototype" = some (.value (.string p.documentID))
  createdAt_readable : p.attachments.isSome → "createdAt" ∈ p.userProperties →
    ∃ value, p.transformedValue "createdAt" = some value ∧ Readable value
  updatedAt_eq : ∀ attachments ∈ p.attachments, "updatedAt" ∈ p.userProperties →
    p.transformedValue "updatedAt" =
      some (.value (.number (w.now (attachmentSaves attachments))))
  sessionID_eq : p.attachments.isSome → "sessionID" ∈ p.userProperties → ∀ s ∈ w.sessionID,
    p.transformedValue "sessionID" = some (.value (.string s))

end

section

variable {c : PrototypesController} {w : Surroundings} {p : Prototype} {m m' : ImportModel}

/-! ### Setting a property -/

/-- One property has the value, and everything else is left. -/
structure Sets (m m' : ImportModel) (key : String) (value : Option Value) : Prop where
  get?_eq : ∀ k, m'.properties.get? (.name k) =
    if k = key then value else m.properties.get? (.name k)
  documentID_eq : m'.documentID = m.documentID
  className_eq : m'.className = m.className
  changes_le : m.changes ≤ m'.changes

theorem sets_assign (key : String) (v : Value) (m : ImportModel) :
    Sets m (m.assign (.name key) v) key (some v) := by
  rw [ImportModel.assign]
  split_ifs with h
  · refine ⟨fun k => ?_, rfl, rfl, le_rfl⟩
    split_ifs with hk
    · rw [hk, h]
    · rfl
  · refine ⟨fun k => ?_, rfl, rfl, Nat.le_succ _⟩
    show (m.properties.put (.name key) v).get? (.name k) = _
    rw [Tree.get?_put]
    simp

theorem exists_setValue (htype : key ≠ "objectType") (hid : key ≠ "_id")
    (hpl : embeddedClass c.importer m (.name key) = none ∨ m.properties.get? (.name key) = none)
    (v : Value) : setValue c.importer (.name key) v m = some (m.assign (.name key) v) := by
  unfold setValue
  rw [if_neg fun h => htype (Key.name.inj h.1), if_neg fun h => hid (Key.name.inj h)]
  split
  · next name className dictionary hname hcls =>
    obtain rfl := Key.name.inj hname
    rcases hpl with hnone | hnone
    · rw [hnone] at hcls
      cases hcls
    · rw [setEmbedded, hnone]
  · rfl

theorem exists_setOptionalValue (htype : key ≠ "objectType") (hid : key ≠ "_id")
    (hpl : embeddedClass c.importer m (.name key) = none ∨ m.properties.get? (.name key) = none)
    (value : Option Value) :
    ∃ m', setOptionalValue c key value m = some m' ∧ Sets m m' key value := by
  cases value with
  | some v => exact ⟨_, exists_setValue htype hid hpl v, sets_assign key v m⟩
  | none =>
    rw [setOptionalValue, if_neg htype]
    split_ifs with hnone
    · refine ⟨m, rfl, fun k => ?_, rfl, rfl, le_rfl⟩
      split_ifs with hk
      · rw [hk, isNone_iff_eq_none.1 hnone]
      · rfl
    · refine ⟨_, rfl, fun k => ?_, rfl, rfl, Nat.le_succ _⟩
      rw [Tree.get?_erase]
      simp

theorem setOptionalValue_objectType (htype : (m.properties.get? (.name "objectType")).isSome)
    (value : Option Value) :
    setOptionalValue c "objectType" value m =
      if value = m.properties.get? (.name "objectType") then some m else none := by
  obtain ⟨v, hv⟩ := isSome_iff_exists.1 htype
  cases value with
  | none => rw [setOptionalValue, if_pos rfl, hv, if_neg (some_ne_none v).symm]
  | some v' =>
    rw [setOptionalValue]
    unfold setValue
    rw [if_pos ⟨rfl, htype⟩]
    simp [eq_comm]

/-! ### The loop over the properties -/

/-- The properties of the prototype are copied, apart from the type. -/
structure Copied (p : Prototype) (keys : List String) (m m' : ImportModel) : Prop where
  get?_eq : ∀ k, m'.properties.get? (.name k) =
    if k ∈ keys ∧ k ≠ "objectType" then p.transformedValue k else m.properties.get? (.name k)
  documentID_eq : m'.documentID = m.documentID
  className_eq : m'.className = m.className
  changes_le : m.changes ≤ m'.changes

theorem Copied.cons_objectType (h : Copied p keys m m') : Copied p ("objectType" :: keys) m m' := by
  refine ⟨fun k => ?_, h.documentID_eq, h.className_eq, h.changes_le⟩
  rw [h.get?_eq]
  by_cases hk : k = "objectType"
  · simp [hk]
  · simp [hk]

theorem Copied.cons_of_sets (hkey : key ≠ "objectType") (hkeys : key ∉ keys)
    (hset : Sets m m₁ key (p.transformedValue key)) (h : Copied p keys m₁ m') :
    Copied p (key :: keys) m m' := by
  refine ⟨fun k => ?_, h.documentID_eq.trans hset.documentID_eq,
    h.className_eq.trans hset.className_eq, hset.changes_le.trans h.changes_le⟩
  rw [h.get?_eq, hset.get?_eq]
  by_cases hk : k = key
  · subst hk
    simp [hkey]
  · simp [hk]

theorem embeddedClass_congr (h : m'.className = m.className) (property : Key) :
    embeddedClass c.importer m' property = embeddedClass c.importer m property := by
  unfold embeddedClass
  rw [h]

/-- The loop goes through exactly if it does not set another type. -/
theorem run_copyProperty (hnd : keys.Nodup) (hid : ∀ key ∈ keys, key ≠ "_id")
    (htype : (m.properties.get? (.name "objectType")).isSome)
    (hpl : ∀ key ∈ keys, key ≠ "objectType" →
      embeddedClass c.importer m (.name key) = none ∨ m.properties.get? (.name key) = none) :
    ((run (copyProperty c p) keys m).isSome ↔ ("objectType" ∈ keys →
        p.transformedValue "objectType" = m.properties.get? (.name "objectType"))) ∧
      ∀ m', run (copyProperty c p) keys m = some m' → Copied p keys m m' := by
  induction keys generalizing m with
  | nil =>
    refine ⟨by simp, ?_⟩
    rintro m' ⟨⟩
    exact ⟨fun k => by simp, rfl, rfl, le_rfl⟩
  | cons key keys ih =>
    obtain ⟨hkeys, hnd'⟩ := List.nodup_cons.1 hnd
    obtain ⟨hke, hid'⟩ := List.forall_mem_cons.1 hid
    obtain ⟨hkeyp, hpl'⟩ := List.forall_mem_cons.1 hpl
    rw [run_cons, copyProperty]
    by_cases hkey : key = "objectType"
    · subst hkey
      rw [setOptionalValue_objectType htype]
      obtain ⟨hsome, hcop⟩ := ih hnd' hid' htype hpl'
      split_ifs with heq
      · refine ⟨?_, fun m' hrun => (hcop m' hrun).cons_objectType⟩
        rw [bind_some, hsome]
        simp [heq]
      · refine ⟨?_, fun m' hrun => ?_⟩
        · simp [heq]
        · cases hrun
    · obtain ⟨m₁, hm1, hset⟩ :=
        exists_setOptionalValue hkey hke (hkeyp hkey) (p.transformedValue key)
      have htype₁ : m₁.properties.get? (.name "objectType") =
          m.properties.get? (.name "objectType") := by
        rw [hset.get?_eq, if_neg (Ne.symm hkey)]
      have hpl1 : ∀ k ∈ keys, k ≠ "objectType" →
          embeddedClass c.importer m₁ (.name k) = none ∨ m₁.properties.get? (.name k) = none := by
        intro k hk hne
        have hkkey : k ≠ key := fun h => hkeys (h ▸ hk)
        rw [embeddedClass_congr hset.className_eq, hset.get?_eq, if_neg hkkey]
        exact hpl' k hk hne
      obtain ⟨hsome, hcop⟩ := ih hnd' hid' (htype₁ ▸ htype) hpl1
      rw [hm1, bind_some]
      refine ⟨?_, fun m' hrun => (hcop m' hrun).cons_of_sets hkey hkeys hset⟩
      rw [hsome, htype₁]
      simp [Ne.symm hkey]

/-! ### The saves -/

theorem readsCreatedAt_iff : readsCreatedAt m = true ↔
    ∀ value ∈ m.properties.get? (.name "createdAt"), Readable value := by
  rw [readsCreatedAt]
  split
  · next h => simp [h]
  · next s h => simp [h, Readable]
  · next q h => simp [h, Readable]
  · next v hstr hnum h =>
    rw [h]
    refine iff_of_false Bool.false_ne_true fun hrea => ?_
    rcases hrea v rfl with ⟨s, rfl⟩ | ⟨q, rfl⟩
    · exact hstr s rfl
    · exact hnum q rfl

/-- The time of creation is set if there is none, and then the time of the update. -/
theorem exists_sets_updateTimestamps (now : ℚ) (hnds : m.needsSave = true) :
    ∃ m₁, Sets m m₁ "createdAt"
        (some ((m.properties.get? (.name "createdAt")).getD (.value (.number now)))) ∧
      Sets m₁ (updateTimestamps now m) "updatedAt" (some (.value (.number now))) := by
  have hset : Sets m (if hasCreatedAt m then m
      else m.assign (.name "createdAt") (.value (.number now))) "createdAt"
      (some ((m.properties.get? (.name "createdAt")).getD (.value (.number now)))) := by
    cases hget : m.properties.get? (.name "createdAt") with
    | none =>
      rw [hasCreatedAt, hget]
      exact sets_assign ..
    | some v =>
      rw [hasCreatedAt, hget, if_pos (by simp)]
      refine ⟨fun k => ?_, rfl, rfl, le_rfl⟩
      split_ifs with hk
      · rw [hk, hget]
        rfl
      · rfl
  have hnds₁ : ImportModel.needsSave (if hasCreatedAt m then m
      else m.assign (.name "createdAt") (.value (.number now))) = true := by
    have hle := hset.changes_le
    simp only [ImportModel.needsSave, decide_eq_true_eq] at hnds ⊢
    omega
  refine ⟨_, hset, ?_⟩
  unfold updateTimestamps
  exact if_pos hnds₁ ▸ sets_assign ..

/-- After some saves: the time of the last, the session, and the time of creation. -/
structure Saved (w : Surroundings) (first last : ℕ) (m m' : ImportModel) : Prop where
  updatedAt_eq : m'.properties.get? (.name "updatedAt") = some (.value (.number (w.now last)))
  sessionID_eq : ∀ s ∈ w.sessionID,
    m'.properties.get? (.name "sessionID") = some (.value (.string s))
  createdAt_eq : m'.properties.get? (.name "createdAt") =
    some ((m.properties.get? (.name "createdAt")).getD (.value (.number (w.now first))))
  get?_eq : ∀ k, k ≠ "updatedAt" → k ≠ "createdAt" → (k = "sessionID" → w.sessionID = none) →
    m'.properties.get? (.name k) = m.properties.get? (.name k)
  documentID_eq : m'.documentID = m.documentID
  className_eq : m'.className = m.className

theorem Saved.trans {i j k : ℕ} (h : Saved w i j m m₁) (h' : Saved w k k m₁ m') :
    Saved w i k m m' where
  updatedAt_eq := h'.updatedAt_eq
  sessionID_eq := h'.sessionID_eq
  createdAt_eq := by rw [h'.createdAt_eq, h.createdAt_eq, getD_some]
  get?_eq key hu hc hs := (h'.get?_eq key hu hc hs).trans (h.get?_eq key hu hc hs)
  documentID_eq := h'.documentID_eq.trans h.documentID_eq
  className_eq := h'.className_eq.trans h.className_eq

theorem saved_trackSession {m2 : ImportModel} (hcr : Sets m m₁ "createdAt"
      (some ((m.properties.get? (.name "createdAt")).getD (.value (.number (w.now n))))))
    (hupd : Sets m₁ m2 "updatedAt" (some (.value (.number (w.now n))))) :
    Saved w n n m (trackSession w m2) := by
  rw [trackSession]
  split
  · next hw =>
    refine ⟨?_, ?_, ?_, ?_, ?_, ?_⟩
    · simp [hupd.get?_eq]
    · simp [hw]
    · simp [hupd.get?_eq, hcr.get?_eq]
    · intro k hu hc _
      simp [hupd.get?_eq, hcr.get?_eq, hu, hc]
    · rw [hupd.documentID_eq, hcr.documentID_eq]
    · rw [hupd.className_eq, hcr.className_eq]
  · next s hw =>
    have hses := sets_assign "sessionID" (.value (.string s)) m2
    refine ⟨?_, ?_, ?_, ?_, ?_, ?_⟩
    · simp [hses.get?_eq, hupd.get?_eq]
    · simp [hw, hses.get?_eq]
    · simp [hses.get?_eq, hupd.get?_eq, hcr.get?_eq]
    · intro k hu hc hs
      have hk : k ≠ "sessionID" := fun h => by cases (hs h).symm.trans hw
      simp [hses.get?_eq, hupd.get?_eq, hcr.get?_eq, hu, hc, hk]
    · rw [hses.documentID_eq, hupd.documentID_eq, hcr.documentID_eq]
    · rw [hses.className_eq, hupd.className_eq, hcr.className_eq]

theorem save_spec (hnds : m.needsSave = true) :
    ((save w n m).isSome ↔ readsCreatedAt m = true) ∧
      ∀ m', save w n m = some m' → Saved w n n m m' := by
  rw [save, SaveSteps.save_of_changed (by simp [saveSteps, hnds])]
  cases hrds : readsCreatedAt m with
  | false => simp [hnds]
  | true =>
    rw [if_neg (by simp)]
    refine ⟨by simp, fun m' hsave => ?_⟩
    obtain ⟨m₁, hcr, hupd⟩ := exists_sets_updateTimestamps (w.now n) hnds
    obtain rfl := some.inj hsave
    have hsaved := saved_trackSession hcr hupd
    cases w.succeeds n with
    | false => exact hsaved
    | true =>
      obtain ⟨hu, hs, hc, hk, hid, hcls⟩ := hsaved
      exact ⟨hu, hs, hc, hk, hid, hcls⟩

theorem Saved.readsCreatedAt {first last : ℕ} (h : Saved w first last m m')
    (hrds : readsCreatedAt m = true) : Controllers.readsCreatedAt m' = true := by
  rw [readsCreatedAt_iff] at hrds ⊢
  rw [h.createdAt_eq]
  rintro value ⟨⟩
  cases hget : m.properties.get? (.name "createdAt") with
  | none => exact .inr ⟨_, rfl⟩
  | some v => exact hrds v hget

/-- Every attachment that has a content makes for another save. -/
theorem exists_attachEach {first : ℕ} (attachments : List Attachment) (made : Made)
    (hmade : Saved w first n m made.model) (hrds : readsCreatedAt made.model = true) :
    ∃ made', attachEach w attachments (n + 1) made = some made' ∧
      Saved w first (n + attachmentSaves attachments) m made'.model := by
  induction attachments generalizing n made with
  | nil => exact ⟨made, rfl, hmade⟩
  | cons attachment rest ih =>
    rw [attachEach]
    by_cases hcon : attachment.contentType.isSome ∧ attachment.content.isSome
    · have hnds : ImportModel.needsSave
          { made.model with changes := made.model.changes + 1 } = true := by
        simp [ImportModel.needsSave]
      obtain ⟨hsome, hsav⟩ := save_spec (w := w) (n := n + 1) hnds
      obtain ⟨m₁, hm1⟩ := isSome_iff_exists.1 (hsome.2 hrds)
      obtain ⟨hu, hs, hc, hk, hid, hcls⟩ := hsav m₁ hm1
      have hstep : Saved w (n + 1) (n + 1) made.model m₁ := ⟨hu, hs, hc, hk, hid, hcls⟩
      obtain ⟨made', hmade', hlast⟩ := ih ⟨m₁, made.attached ++ [attachment]⟩ (hmade.trans hstep)
        (hstep.readsCreatedAt hrds)
      refine ⟨made', ?_, ?_⟩
      · rw [if_pos hcon, hm1]
        exact hmade'
      · rw [attachmentSaves, List.countP_cons_of_pos (by simpa using hcon)]
        rwa [show n + 1 + attachmentSaves rest = n + (attachmentSaves rest + 1) by omega] at hlast
    · obtain ⟨made', hmade', hlast⟩ := ih made hmade hrds
      refine ⟨made', ?_, ?_⟩
      · rw [if_neg hcon]
        exact hmade'
      · rw [attachmentSaves, List.countP_cons_of_neg (by simpa using hcon)]
        exact hlast

/-! ### The new object -/

/-- An object that has nothing but its type. -/
def blank (c : PrototypesController) (id cls : String) : ImportModel where
  documentID := id
  className := cls
  controller := c.importer.controller
  properties := .value (.name "objectType") (.string cls) .nil
  changes := 1
  made := 0

theorem newObject_eq (id cls : String) :
    newObject c.importer id cls .nil =
      if c.importer.isConcrete cls ∧ c.importer.managesClass cls then some (blank c id cls)
      else none := by
  have htype : setValue c.importer (.name "objectType") (.value (.string cls))
      ⟨id, cls, c.importer.controller, .nil, 0, 0⟩ = some (blank c id cls) := by
    unfold setValue
    rw [if_neg (by simp [Tree.get?])]
    generalize embeddedClass c.importer _ _ = className
    cases className <;> rfl
  have haga : setValues c.importer
      ((((.nil : Embedding.Content).erase (.name "_id")).erase (.name "_rev")).put
        (.name "objectType") (.value (.string cls))) (blank c id cls) = some (blank c id cls) := by
    show (setValue c.importer (.name "objectType") (.value (.string cls)) (blank c id cls)).bind _ = _
    unfold setValue
    rw [if_pos (by simp [blank, Tree.get?]), if_pos (by simp [blank, Tree.get?])]
    rfl
  rw [newObject]
  simp [htype, haga]

/-- The object that the properties are copied to: it has its type, and refers to the prototype. -/
def fresh (c : PrototypesController) (p : Prototype) (id : String) : ImportModel :=
  (blank c id (instantiableClass c p)).assign (.name "prototype") (.value (.string p.documentID))

theorem sets_fresh (p : Prototype) (id : String) :
    Sets (blank c id (instantiableClass c p)) (fresh c p id) "prototype"
      (some (.value (.string p.documentID))) :=
  sets_assign ..

theorem get?_fresh (p : Prototype) (id k : String) : (fresh c p id).properties.get? (.name k) =
    if k = "prototype" then some (.value (.string p.documentID))
    else if k = "objectType" then some (.value (.string (instantiableClass c p))) else none := by
  rw [(sets_fresh p id).get?_eq]
  simp [blank, Tree.get?, eq_comm]

theorem embeddedClass_prototype (m : ImportModel) :
    embeddedClass c.importer m (.name "prototype") = none := by
  unfold embeddedClass
  split
  · rfl
  · next name hname =>
    obtain rfl := Key.name.inj hname
    split
    · next className hcls => exact absurd hcls (c.prototype_not_embedded _ className)
    · rfl

theorem managesClass_instantiableClass
    (hkind : c.isKindOfClass p.className c.prototypeClass = true) :
    c.importer.managesClass (instantiableClass c p) = true := by
  rw [c.managesClass_eq, instantiableClass]
  split_ifs with h
  · rwa [h] at hkind
  · exact c.isKindOfClass_self _

theorem newObjectWithPrototype_eq (hkind : c.isKindOfClass p.className c.prototypeClass = true)
    (hcan : p.canFormPrototype = true) :
    newObjectWithPrototype c w p documentID =
      if c.importer.isConcrete (instantiableClass c p) then
        (idForNewDocument w (instantiableClass c p) documentID).bind fun id =>
          (run (copyProperty c p) p.userProperties (fresh c p id)).bind (copyAttachments w p)
      else none := by
  have href : ∀ id, setValue c.importer (.name "prototype") (.value (.string p.documentID))
      (blank c id (instantiableClass c p)) = some (fresh c p id) := fun id =>
    exists_setValue (by decide) (by decide) (.inl (embeddedClass_prototype _)) _
  rw [newObjectWithPrototype, if_pos ⟨hkind, hcan⟩]
  simp only [newObject_eq, managesClass_instantiableClass hkind, and_true]
  split_ifs with hcnc
  · simp [href]
  · cases idForNewDocument w (instantiableClass c p) documentID <;> rfl

theorem idForNewDocument_eq_some (cls : String) (documentID : Option String) :
    ((idForNewDocument w cls documentID).isSome ↔
        ∀ id ∈ documentID, hasPrefix (cls ++ ":") id = true) ∧
      ∀ id, idForNewDocument w cls documentID = some id → hasPrefix (cls ++ ":") id = true := by
  cases documentID with
  | none =>
    refine ⟨by simp [idForNewDocument], ?_⟩
    rintro id ⟨⟩
    simp [hasPrefix]
  | some id =>
    rw [idForNewDocument]
    split_ifs with h
    · refine ⟨by simp [h], ?_⟩
      rintro id' ⟨⟩
      exact h
    · refine ⟨by simpa using h, ?_⟩
      rintro id' ⟨⟩

/-- The properties of a fresh object are copied exactly if the type is the same. -/
theorem run_copyProperty_fresh (id : String) :
    ((run (copyProperty c p) p.userProperties (fresh c p id)).isSome ↔
        ("objectType" ∈ p.userProperties →
          p.transformedValue "objectType" = some (.value (.string (instantiableClass c p))))) ∧
      ∀ m, run (copyProperty c p) p.userProperties (fresh c p id) = some m →
        Copied p p.userProperties (fresh c p id) m := by
  have htype : (fresh c p id).properties.get? (.name "objectType") =
      some (.value (.string (instantiableClass c p))) := by
    rw [get?_fresh, if_neg (by decide), if_pos rfl]
  refine run_copyProperty p.nodup_userProperties ?_ (by rw [htype]; rfl) ?_
  · rintro key hkey rfl
    exact absurd (p.not_reserved _ hkey) (by decide)
  · intro key _ hne
    by_cases hkey : key = "prototype"
    · rw [hkey]
      exact .inl (embeddedClass_prototype _)
    · rw [get?_fresh, if_neg hkey, if_neg hne]
      exact .inr rfl

/-- The object was saved once for each attachment. -/
def Attached (w : Surroundings) (p : Prototype) (m m' : ImportModel) : Prop :=
  p.attachments = none ∧ m' = m ∨ ∃ attachments, p.attachments = some attachments ∧
    Saved w 0 (attachmentSaves attachments) m m'

theorem Attached.saved {attachments : List Attachment} (h : Attached w p m m')
    (hatt : p.attachments = some attachments) :
    Saved w 0 (attachmentSaves attachments) m m' := by
  rcases h with ⟨hnone, -⟩ | ⟨attachments', hsome, hsav⟩
  · rw [hnone] at hatt
    cases hatt
  · obtain rfl := some.inj (hsome.symm.trans hatt)
    exact hsav

theorem Attached.frame (h : Attached w p m m') :
    m'.documentID = m.documentID ∧ m'.className = m.className ∧
      ∀ k, k ≠ "updatedAt" → k ≠ "createdAt" → k ≠ "sessionID" →
        m'.properties.get? (.name k) = m.properties.get? (.name k) := by
  rcases h with ⟨-, rfl⟩ | ⟨attachments, -, hsav⟩
  · exact ⟨rfl, rfl, fun _ _ _ _ => rfl⟩
  · exact ⟨hsav.documentID_eq, hsav.className_eq,
      fun k hu hc hs => hsav.get?_eq k hu hc fun h => absurd h hs⟩

/-- The attachments are copied if there are none or the time of creation can be read. -/
theorem copyAttachments_spec (hnds : m.needsSave = true) :
    ((copyAttachments w p m).isSome ↔ (p.attachments.isSome → readsCreatedAt m = true)) ∧
      ∀ made, copyAttachments w p m = some made → Attached w p m made.model := by
  rw [copyAttachments]
  unfold Attached
  cases p.attachments with
  | none =>
    refine ⟨by simp, ?_⟩
    rintro made ⟨⟩
    exact .inl ⟨rfl, rfl⟩
  | some attachments =>
    obtain ⟨hsome, hsav⟩ := save_spec (w := w) (n := 0) hnds
    by_cases hrds : readsCreatedAt m = true
    · obtain ⟨m₁, hm1⟩ := isSome_iff_exists.1 (hsome.2 hrds)
      obtain ⟨made, hmade, hlast⟩ := exists_attachEach attachments ⟨m₁, []⟩ (hsav m₁ hm1)
        ((hsav m₁ hm1).readsCreatedAt hrds)
      rw [Nat.zero_add] at hlast
      have heq : ((save w 0 m).bind fun m => attachEach w attachments 1 ⟨m, []⟩) = some made := by
        rw [hm1]
        exact hmade
      simp only [heq]
      refine ⟨by simp [hrds], ?_⟩
      rintro made' ⟨⟩
      exact .inr ⟨attachments, rfl, hlast⟩
    · have hnone : save w 0 m = none := by
        rw [← not_isSome_iff_eq_none, hsome]
        exact hrds
      simp only [hnone]
      refine ⟨by simp [hrds], ?_⟩
      rintro made ⟨⟩

theorem Copied.get?_of_mem (h : Copied p p.userProperties (fresh c p id) m)
    (hkey : key ∈ p.userProperties) (hne : key ≠ "objectType") :
    m.properties.get? (.name key) = p.transformedValue key := by
  rw [h.get?_eq, if_pos ⟨hkey, hne⟩]

theorem Copied.needsSave (h : Copied p p.userProperties (fresh c p id) m) : m.needsSave = true := by
  have hblk : 1 ≤ (fresh c p id).changes := (sets_fresh p id).changes_le
  have hle := h.changes_le
  rw [ImportModel.needsSave, decide_eq_true_eq]
  omega

theorem newObjectWithPrototype_cases {made : Made}
    (hkind : c.isKindOfClass p.className c.prototypeClass = true) (hcan : p.canFormPrototype = true)
    (h : newObjectWithPrototype c w p documentID = some made) :
    c.importer.isConcrete (instantiableClass c p) = true ∧
      (∀ id ∈ documentID, hasPrefix (instantiableClass c p ++ ":") id = true) ∧
      ("objectType" ∈ p.userProperties →
        p.transformedValue "objectType" = some (.value (.string (instantiableClass c p)))) ∧
      ∃ id m, Copied p p.userProperties (fresh c p id) m ∧ Attached w p m made.model ∧
        (p.attachments.isSome → readsCreatedAt m = true) := by
  rw [newObjectWithPrototype_eq hkind hcan] at h
  split_ifs at h with hcnc
  obtain ⟨id, hid, h⟩ := bind_eq_some_iff.1 h
  obtain ⟨m, hrun, hcopy⟩ := bind_eq_some_iff.1 h
  obtain ⟨htype, hcop⟩ := run_copyProperty_fresh (c := c) (p := p) id
  obtain ⟨hrds, hatt⟩ := copyAttachments_spec (w := w) (p := p) (hcop m hrun).needsSave
  refine ⟨hcnc, (idForNewDocument_eq_some (w := w) _ _).1.1 ?_, htype.1 ?_, id, m, hcop m hrun,
    hatt made hcopy, hrds.1 ?_⟩
  · rw [hid]
    rfl
  · rw [hrun]
    rfl
  · rw [hcopy]
    rfl

theorem exists_newObjectWithPrototype (hkind : c.isKindOfClass p.className c.prototypeClass = true)
    (hcan : p.canFormPrototype = true) (h : Meets c w p documentID) :
    ∃ made id m, newObjectWithPrototype c w p documentID = some made ∧
      hasPrefix (instantiableClass c p ++ ":") id = true ∧
      Copied p p.userProperties (fresh c p id) m ∧ Attached w p m made.model := by
  obtain ⟨hfits, hpre⟩ := idForNewDocument_eq_some (w := w) (instantiableClass c p) documentID
  obtain ⟨id, hid⟩ := isSome_iff_exists.1 (hfits.2 h.documentID_fits)
  obtain ⟨hsome, hcop⟩ := run_copyProperty_fresh (c := c) (p := p) id
  obtain ⟨m, hrun⟩ := isSome_iff_exists.1 (hsome.2 h.objectType_eq)
  have hm := hcop m hrun
  obtain ⟨hrds, hatt⟩ := copyAttachments_spec (w := w) (p := p) hm.needsSave
  have hcr : p.attachments.isSome → readsCreatedAt m = true := by
    intro hat
    rw [readsCreatedAt_iff]
    intro value hval
    by_cases hmem : "createdAt" ∈ p.userProperties
    · obtain ⟨value', hval', hrea⟩ := h.createdAt_readable hat hmem
      rw [hm.get?_of_mem hmem (by decide), hval'] at hval
      cases hval
      exact hrea
    · rw [hm.get?_eq, if_neg fun h => hmem h.1] at hval
      cases hval
  obtain ⟨made, hmade⟩ := isSome_iff_exists.1 (hrds.2 hcr)
  refine ⟨made, id, m, ?_, hpre id hid, hm, hatt made hmade⟩
  rw [newObjectWithPrototype_eq hkind hcan, if_pos h.concrete, hid, bind_some, hrun]
  exact hmade

/-- Under the condition the saves set what the properties are anyway. -/
theorem get?_of_attached (h : Meets c w p documentID)
    (hcop : Copied p p.userProperties (fresh c p id) m) (hatt : Attached w p m m')
    (hkey : key ∈ p.userProperties) (hne : key ≠ "objectType") :
    m'.properties.get? (.name key) = p.transformedValue key := by
  have hval := hcop.get?_of_mem hkey hne
  rcases hatt with ⟨-, rfl⟩ | ⟨attachments, hat, hsav⟩
  · exact hval
  · have hsome : p.attachments.isSome := by rw [hat]; rfl
    by_cases hu : key = "updatedAt"
    · subst hu
      rw [hsav.updatedAt_eq, h.updatedAt_eq attachments hat hkey]
    by_cases hc : key = "createdAt"
    · subst hc
      obtain ⟨value, hgiv, -⟩ := h.createdAt_readable hsome hkey
      rw [hsav.createdAt_eq, hval, hgiv, getD_some]
    by_cases hs : key = "sessionID" ∧ w.sessionID.isSome
    · obtain ⟨rfl, hses⟩ := hs
      obtain ⟨s, hses⟩ := isSome_iff_exists.1 hses
      rw [hsav.sessionID_eq s hses, h.sessionID_eq hsome hkey s hses]
    · rw [hsav.get?_eq key hu hc, hval]
      intro hses
      rw [← not_isSome_iff_eq_none]
      exact fun hsome => hs ⟨hses, hsome⟩

end

/-- The copy is right exactly if the prototype's values for the type and the prototype are those of
the copy, and so are those that a save sets, where one is needed. -/
theorem copies_iff (c : PrototypesController) (w : Surroundings) (p : Prototype)
    (documentID : Option String) (hkind : c.isKindOfClass p.className c.prototypeClass = true)
    (hcan : p.canFormPrototype = true) : Copies c w p documentID ↔ Meets c w p documentID := by
  constructor
  · rintro ⟨made, hnew, hpro, -, -, hkeys⟩
    obtain ⟨hcnc, hfits, htype, id, m, hcop, hatt, hrds⟩ :=
      newObjectWithPrototype_cases hkind hcan hnew
    refine ⟨hcnc, hfits, htype, fun hmem => ?_, fun hsome hmem => ?_,
      fun attachments hsome hmem => ?_, fun hsome hmem s hs => ?_⟩
    · rw [← hcop.get?_of_mem hmem (by decide), ← hpro]
      exact (hatt.frame.2.2 _ (by decide) (by decide) (by decide)).symm
    · obtain ⟨attachments, hat⟩ := isSome_iff_exists.1 hsome
      have hsav := hatt.saved hat
      have hval := (hkeys _ hmem (by decide) (by decide)).symm.trans hsav.createdAt_eq
      have hgiv := hcop.get?_of_mem hmem (by decide)
      refine ⟨_, hval, readsCreatedAt_iff.1 (hrds hsome) _ ?_⟩
      rw [hgiv, hval]
      rfl
    · have hsav := hatt.saved hsome
      exact (hkeys _ hmem (by decide) (by decide)).symm.trans hsav.updatedAt_eq
    · obtain ⟨attachments, hat⟩ := isSome_iff_exists.1 hsome
      have hsav := hatt.saved hat
      exact (hkeys _ hmem (by decide) (by decide)).symm.trans (hsav.sessionID_eq s hs)
  · intro h
    obtain ⟨made, id, m, hnew, hpre, hcop, hatt⟩ :=
      exists_newObjectWithPrototype hkind hcan h
    obtain ⟨hid, hcls, hfra⟩ := hatt.frame
    have hid' : made.model.documentID = id :=
      (hid.trans hcop.documentID_eq).trans (sets_fresh p id).documentID_eq
    have hclass' : made.model.className = instantiableClass c p :=
      (hcls.trans hcop.className_eq).trans (sets_fresh p id).className_eq
    refine ⟨made, hnew, ?_, ?_, ?_, fun key hkey hne _ => get?_of_attached h hcop hatt hkey hne⟩
    · rw [hfra _ (by decide) (by decide) (by decide), hcop.get?_eq]
      split_ifs with hmem
      · exact h.prototype_eq hmem.1
      · rw [get?_fresh, if_pos rfl]
    · rw [hid', hclass']
      exact hpre
    · rw [hfra _ (by decide) (by decide) (by decide), hcop.get?_eq,
        if_neg fun hmem => hmem.2 rfl, get?_fresh, if_neg (by decide), if_pos rfl, hclass']

/-- The controller of `MPTestObject`, for which the prototypes are test objects as well. -/
def testController : PrototypesController where
  importer := testImporter
  managedObjectClass := "MPTestObject"
  prototypeClass := "MPTestObject"
  isKindOfClass cls superclass := cls == superclass
  isKindOfClass_self := by simp
  managesClass_eq _ := rfl
  prototype_not_embedded _ _ h := by cases h

/-- A test object with a title, which was made from another one or was not. -/
def testPrototype (isCopy : Bool) (attachments : Option (List Attachment)) : Prototype where
  documentID := "MPTestObject:B"
  className := "MPTestObject"
  canFormPrototype := true
  userProperties :=
    if isCopy then ["objectType", "title", "updatedAt", "prototype"]
    else ["objectType", "title", "updatedAt"]
  transformedValue key :=
    if key = "objectType" then some (.value (.string "MPTestObject"))
    else if key = "title" then some (.value (.string "Title"))
    else if key = "updatedAt" then some (.value (.number 0))
    else if isCopy ∧ key = "prototype" then some (.value (.string "MPTestObject:A"))
    else none
  attachments := attachments
  nodup_userProperties := by cases isCopy <;> decide
  not_reserved := by cases isCopy <;> decide

def testSurroundings : Surroundings where
  uuid := "C"
  now _ := 1
  succeeds _ := true
  sessionID := none

theorem copies_title : Copies testController testSurroundings (testPrototype false none) none := by
  rw [copies_iff _ _ _ _ rfl rfl]
  refine ⟨rfl, ?_, fun _ => rfl, ?_, ?_, ?_, ?_⟩
  · rintro id ⟨⟩
  · intro hmem
    exact absurd hmem (by decide)
  · rintro ⟨⟩
  · rintro attachments ⟨⟩
  · rintro ⟨⟩

/-- The copy of a copy refers to the first original; and the copy of an object with an attachment
has another time of update. -/
theorem not_copies_copy :
    (((newObjectWithPrototype testController testSurroundings (testPrototype true none) none).map
          fun made => made.model.properties.get? (.name "prototype")) =
          some (some (.value (.string "MPTestObject:A"))) ∧
        ¬Copies testController testSurroundings (testPrototype true none) none) ∧
      ((newObjectWithPrototype testController testSurroundings
          (testPrototype false (some [⟨"image", some "image/png", some []⟩])) none).map
          fun made => made.model.properties.get? (.name "updatedAt")) =
          some (some (.value (.number 1))) ∧
        ¬Copies testController testSurroundings
          (testPrototype false (some [⟨"image", some "image/png", some []⟩])) none := by
  have hcopy : ((newObjectWithPrototype testController testSurroundings (testPrototype true none)
      none).map fun made => made.model.properties.get? (.name "prototype")) =
        some (some (.value (.string "MPTestObject:A"))) := by
    decide
  have hatt : ((newObjectWithPrototype testController testSurroundings
      (testPrototype false (some [⟨"image", some "image/png", some []⟩])) none).map
        fun made => made.model.properties.get? (.name "updatedAt")) =
          some (some (.value (.number 1))) := by
    decide
  refine ⟨⟨hcopy, ?_⟩, hatt, ?_⟩
  · rintro ⟨made, hnew, hpro, -⟩
    rw [hnew, map_some, hpro] at hcopy
    exact absurd hcopy (by decide)
  · rintro ⟨made, hnew, -, -, -, hkeys⟩
    rw [hnew, map_some, hkeys "updatedAt" (by decide) (by decide) (by decide)] at hatt
    exact absurd hatt (by decide)

end Feather.Controllers.Prototypes
