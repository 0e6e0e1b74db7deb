import Feather.Async.System
import Feather.Embedding.Getters

/-!
# Setting collections of embedded objects

The setters of a managed object turn embedded objects, dictionaries and JSON texts into embedded
objects.  An embedded object is a number here, its place among all those made.

A cached object is taken instead of a new one, with the properties that it has.  The setter for
dictionaries hands the whole dictionary on where an item is a dictionary.
-/

namespace Feather.Embedding

open Keyed Program Async List
open Feather.Model (Key)

variable {ref : ℕ} {id property : String} {o : EmbeddedObject} {α : Type}

/-- The value of a property of the managed object. -/
inductive Stored
  | object (ref : ℕ)
  | array (refs : List ℕ)
  | dictionary (items : List (String × ℕ))
  deriving DecidableEq

def Stored.refs : Stored → List ℕ
  | object ref => [ref]
  | array refs => refs
  | dictionary items => items.map Prod.snd

/-- A managed object with the embedded objects made for it. -/
structure Holder where
  objects : List EmbeddedObject
  cache : List (String × ℕ)
  properties : List (String × Stored)
  isDeleted : Bool
  deriving DecidableEq

/-- An item of a collection to be set. -/
inductive Given
  | object (ref : ℕ)
  | dictionary (entries : Content)
  | string (text : String)

variable {h : Holder} {v : Given} {values : List Given}

namespace Holder

/-- A new managed object. -/
def new : Holder := ⟨[], [], [], false⟩

/-- The properties of an embedded object. -/
def contentAt (h : Holder) (ref : ℕ) : Option Content :=
  h.objects[ref]?.map EmbeddedObject.properties

abbrev Setting := Prog Holder Raised

section

variable (runtime : Runtime)

/-! ### Making embedded objects -/

/-- `initWithDictionary:embeddingObject:embeddingKey:` -/
def initWithDictionary (dictionary : Content) (key : String) : Setting ℕ :=
  match identifier dictionary, objectType dictionary with
  | some id, some className => do
    if hasPrefix className id then
      let h ← get
      match h.cache.lookup id with
      | some existing => pure existing
      | none =>
        set { h with
          objects := h.objects ++ [EmbeddedObject.mk key dictionary]
          cache := (id, h.objects.length) :: h.cache }
        pure h.objects.length
    else
      throw .unexpectedID
  | _, _ => throw .unexpectedID

/-- `embeddedObjectWithDictionary:embeddingObject:embeddingKey:` -/
def embeddedObjectWithDictionary (dictionary : Content) (key : String) : Setting (Option ℕ) :=
  match (objectType dictionary).map runtime.classKind with
  | none => pure none
  | some .unknown => pure none
  | some .other => throw .unexpectedClass
  | some .embedded => do
    let h ← get
    match (identifier dictionary).bind fun id => h.cache.lookup id with
    | some existing => pure (some existing)
    | none => some <$> initWithDictionary dictionary key

/-- `embeddedObjectWithJSONString:embeddingObject:embeddingKey:` -/
def embeddedObjectWithJSONString (text key : String) : Setting (Option ℕ) :=
  match runtime.coding.jsonOfText text with
  | none => pure none
  | some (.node .dictionary dictionary) =>
    match (objectType dictionary).map runtime.classKind with
    | none => pure none
    | some .unknown => pure none
    | some .other => throw .unexpectedClass
    | some .embedded => some <$> initWithDictionary dictionary key
  | some _ => throw .unexpectedJSON

/-- `cacheEmbeddedObjectByIdentifier:` -/
def cacheEmbeddedObjectByIdentifier (ref : ℕ) : Setting Unit := do
  let h ← get
  match (h.contentAt ref).bind identifier with
  | none => throw .unexpectedID
  | some id =>
    match h.cache.lookup id with
    | some existing => if existing = ref then pure () else throw .mismatchingIdentity
    | none => set { h with cache := (id, ref) :: h.cache }

/-- `removeEmbeddedObjectFromByIdentifierCache:` -/
def removeEmbeddedObjectFromByIdentifierCache (ref : ℕ) : Setting Unit := do
  let h ← get
  match (h.contentAt ref).bind identifier with
  | none => throw .unexpectedID
  | some id =>
    if (h.cache.lookup id).isSome then
      set { h with cache := h.cache.filter fun x => x.1 ≠ id }
    else
      throw .unexpectedID

/-! ### Setters and getters -/

/-- `setValue:ofProperty:`, without effect once the managed object is deleted. -/
def setValue (value : Option Stored) (property : String) : Setting Unit := do
  let h ← get
  if h.isDeleted then
    pure ()
  else
    let others := h.properties.filter fun x => x.1 ≠ property
    set { h with properties := (value.map fun v => (property, v)).toList ++ others }

/-- The embedded object that a property holds. -/
def existingObject (property : String) : Setting (Option ℕ) := do
  match (← get).properties.lookup property with
  | none => pure none
  | some (.object ref) => pure (some ref)
  | some _ => throw .unexpectedClass

/-- An object that is replaced by another leaves the cache. -/
def uncacheReplaced (existing value : Option ℕ) : Setting Unit :=
  if existing ≠ value then
    existing.forM removeEmbeddedObjectFromByIdentifierCache
  else
    pure ()

/-- `setEmbeddedObject:ofProperty:` -/
def setEmbeddedObject (value : Option ℕ) (property : String) : Setting Unit := do
  let existing ← existingObject property
  uncacheReplaced existing value
  value.forM cacheEmbeddedObjectByIdentifier
  let h ← get
  if (value.bind fun ref => h.objects[ref]?).all fun o => o.embeddingKey = property then
    setValue (value.map Stored.object) property
  else
    throw .unexpectedKey

/-- An item of an array as an embedded object. -/
def arrayItem (property : String) : Given → Setting (Option ℕ)
  | .string text => embeddedObjectWithJSONString runtime text property
  | .dictionary entries => embeddedObjectWithDictionary runtime entries property
  | .object ref => pure (some ref)

/-- An item of a dictionary; for one that is a dictionary the source passes `whole`. -/
def dictionaryItem (whole : Content) (property : String) : Given → Setting (Option ℕ)
  | .string text => embeddedObjectWithJSONString runtime text property
  | .dictionary _ => embeddedObjectWithDictionary runtime whole property
  | .object ref => pure (some ref)

/-- The object made of an item is put into the cache. -/
def cachedItem (item : Given → Setting (Option ℕ)) (v : Given) : Setting ℕ := do
  match ← item v with
  | none => throw .nilObject
  | some ref =>
    cacheEmbeddedObjectByIdentifier ref
    pure ref

/-- The loop of the two setters. -/
def eachItem (item : Given → Setting (Option ℕ)) : List Given → Setting (List ℕ)
  | [] => pure []
  | v :: values => do
    let ref ← cachedItem item v
    let refs ← eachItem item values
    pure (ref :: refs)

/-- What the two setters do: the loop over the items, and the collection that is stored. -/
def setCollection (item : Given → Setting (Option ℕ)) (values : List Given)
    (collection : List ℕ → Stored) (property : String) : Setting Unit := do
  let refs ← eachItem item values
  setValue (some (collection refs)) property

/-- `setEmbeddedObjectArray:ofProperty:` -/
def setEmbeddedObjectArray (values : List Given) (property : String) : Setting Unit :=
  setCollection (arrayItem runtime property) values .array property

/-- The dictionary that is set, as a dictionary of values. -/
def wholeDictionary (h : Holder) : List (String × Given) → Content
  | [] => .nil
  | (k, .string text) :: rest => .value (.name k) (.string text) (wholeDictionary h rest)
  | (k, .dictionary entries) :: rest => .node (.name k) .dictionary entries (wholeDictionary h rest)
  | (k, .object ref) :: rest =>
    .node (.name k) (.object "" none) ((h.contentAt ref).getD .nil) (wholeDictionary h rest)

/-- `setEmbeddedObjectDictionary:ofProperty:` -/
def setEmbeddedObjectDictionary (values : List (String × Given)) (property : String) :
    Setting Unit := do
  let h ← get
  setCollection (dictionaryItem runtime (wholeDictionary h values) property) (values.map Prod.snd)
    (fun refs => .dictionary ((values.map Prod.fst).zip refs)) property

/-- The items of a stored array; a property without a value has none. -/
def arrayItems : Option Stored → Option (List ℕ)
  | some (.array refs) => some refs
  | some _ => none
  | none => some []

/-- The items of a stored dictionary. -/
def dictionaryItems : Option Stored → Option (List (String × ℕ))
  | some (.dictionary items) => some items
  | some _ => none
  | none => some []

/-- `getEmbeddedObjectArrayProperty:` of what the setters have stored. -/
def getEmbeddedObjectArrayProperty (property : String) (h : Holder) : Option (List ℕ) :=
  arrayItems (h.properties.lookup property)

/-- `getEmbeddedObjectDictionaryProperty:` of what the setters have stored. -/
def getEmbeddedObjectDictionaryProperty (property : String) (h : Holder) :
    Option (List (String × ℕ)) :=
  dictionaryItems (h.properties.lookup property)

end

/-! ### What an item becomes -/

/-- What is given, as the properties of an embedded object. -/
def contentOf (coding : Coding) (h : Holder) : Given → Option Content
  | .object ref => h.contentAt ref
  | .dictionary entries => some entries
  | .string text =>
    match coding.jsonOfText text with
    | some (.node .dictionary entries) => some entries
    | _ => none

/-- An embedded object, a dictionary with a matching identifier and class, or the text of one. -/
def WellFormedItem (runtime : Runtime) (h : Holder) (v : Given) : Prop :=
  ∃ content, contentOf runtime.coding h v = some content ∧ Identified runtime content

def idOf (coding : Coding) (h : Holder) (v : Given) : Option String :=
  (contentOf coding h v).bind identifier

/-- The cache does not hold another object in the place of an object that is given. -/
def Convertible (coding : Coding) (h : Holder) : Given → Prop
  | .object ref => ∀ id ∈ idOf coding h (.object ref), ∀ other ∈ h.cache.lookup id, other = ref
  | _ => True

/-- A cached object with the identifier is the one given, or has its properties. -/
def Acceptable (coding : Coding) (h : Holder) : Given → Prop
  | .object ref => ∀ id ∈ idOf coding h (.object ref), ∀ other ∈ h.cache.lookup id, other = ref
  | v => ∀ id ∈ idOf coding h v, ∀ other ∈ h.cache.lookup id,
      h.contentAt other = contentOf coding h v

/-- The cache has each object under its own identifier, and properties hold objects that were made.
-/
structure Consistent (h : Holder) : Prop where
  cache : ∀ id ref, h.cache.lookup id = some ref → (h.contentAt ref).bind identifier = some id
  properties : ∀ property v, (property, v) ∈ h.properties → ∀ ref ∈ v.refs, ref < h.objects.length

/-- From `h` to `h'` objects were made and put into the cache under `ids`. -/
structure Grows (ids : List String) (h h' : Holder) : Prop where
  objects : ∀ ref content, h.contentAt ref = some content → h'.contentAt ref = some content
  length : h.objects.length ≤ h'.objects.length
  cache : ∀ id, id ∉ ids → h'.cache.lookup id = h.cache.lookup id
  properties : h'.properties = h.properties
  isDeleted : h'.isDeleted = h.isDeleted

theorem Grows.refl (ids : List String) (h : Holder) : Grows ids h h :=
  ⟨fun _ _ hr => hr, le_rfl, fun _ _ => rfl, rfl, rfl⟩

theorem Grows.trans {ids ids' : List String} {h' h'' : Holder} (first : Grows ids h h')
    (second : Grows ids' h' h'') : Grows (ids ++ ids') h h'' where
  objects ref content hr := second.objects ref content (first.objects ref content hr)
  length := first.length.trans second.length
  cache id hid := by
    rw [mem_append, not_or] at hid
    rw [second.cache id hid.2, first.cache id hid.1]
  properties := second.properties.trans first.properties
  isDeleted := second.isDeleted.trans first.isDeleted

theorem Grows.contentAt_eq {ids : List String} {h' : Holder} (hgro : Grows ids h h')
    (hlt : ref < h.objects.length) : h'.contentAt ref = h.contentAt ref := by
  have hcon : h.contentAt ref = some (h.objects[ref]).properties := by
    simp [contentAt, getElem?_eq_getElem hlt]
  rw [hcon, hgro.objects ref _ hcon]

/-- Puts an object that is already made into the cache. -/
def withCached (id : String) (ref : ℕ) (h : Holder) : Holder :=
  { h with cache := (id, ref) :: h.cache }

/-- Makes an object and puts it into the cache. -/
def withNew (id : String) (o : EmbeddedObject) (h : Holder) : Holder :=
  { h with objects := h.objects ++ [o], cache := (id, h.objects.length) :: h.cache }

theorem contentAt_withNew_of_lt (hlt : ref < h.objects.length) :
    (h.withNew id o).contentAt ref = h.contentAt ref := by
  simp [contentAt, withNew, getElem?_append_left hlt]

theorem contentAt_withNew_self (id : String) (o : EmbeddedObject) (h : Holder) :
    (h.withNew id o).contentAt h.objects.length = some o.properties := by
  simp [contentAt, withNew]

theorem lt_of_contentAt {content : Content} (hr : h.contentAt ref = some content) :
    ref < h.objects.length := by
  obtain ⟨o, ho, -⟩ := Option.map_eq_some_iff.1 hr
  exact (List.getElem?_eq_some_iff.1 ho).1

theorem lookup_cons_ne {other : String} (hne : other ≠ id) (ref : ℕ) (cache : List (String × ℕ)) :
    ((id, ref) :: cache).lookup other = cache.lookup other := by
  rw [lookup_cons, beq_false_of_ne hne]

theorem lookup_cons_self' (id : String) (ref : ℕ) (cache : List (String × ℕ)) :
    ((id, ref) :: cache).lookup id = some ref := by
  rw [lookup_cons, beq_self_eq_true]

theorem grows_withCached (id : String) (ref : ℕ) (h : Holder) : Grows [id] h (h.withCached id ref) where
  objects _ _ hr := hr
  length := le_rfl
  cache other hother := lookup_cons_ne (by simpa using hother) ref h.cache
  properties := rfl
  isDeleted := rfl

theorem grows_withNew (id : String) (o : EmbeddedObject) (h : Holder) : Grows [id] h (h.withNew id o) where
  objects ref content hr := by rw [contentAt_withNew_of_lt (lt_of_contentAt hr), hr]
  length := by simp [withNew]
  cache other hother := lookup_cons_ne (by simpa using hother) _ h.cache
  properties := rfl
  isDeleted := rfl

theorem Consistent.withCached (hh : Consistent h)
    (hid : (h.contentAt ref).bind identifier = some id) : Consistent (h.withCached id ref) where
  cache other ref' hlookup := by
    by_cases hne : other = id
    · subst hne
      rw [Holder.withCached, lookup_cons_self'] at hlookup
      cases hlookup
      exact hid
    · rw [Holder.withCached, lookup_cons_ne hne] at hlookup
      exact hh.cache other ref' hlookup
  properties := hh.properties

theorem Consistent.withNew (hh : Consistent h) (hid : identifier o.properties = some id) :
    Consistent (h.withNew id o) where
  cache other ref' hlookup := by
    by_cases hne : other = id
    · subst hne
      rw [Holder.withNew, lookup_cons_self'] at hlookup
      cases hlookup
      rw [contentAt_withNew_self]
      exact hid
    · rw [Holder.withNew, lookup_cons_ne hne] at hlookup
      obtain ⟨content, hcon, -⟩ := Option.bind_eq_some_iff.1 (hh.cache other ref' hlookup)
      rw [contentAt_withNew_of_lt (lt_of_contentAt hcon)]
      exact hh.cache other ref' hlookup
  properties property v hmem ref hr := by
    have := hh.properties property v hmem ref hr
    simp only [Holder.withNew, length_append]
    omega

variable {values : List (String × Given)}

section

variable {runtime : Runtime} {h h' : Holder}

/-- The object for an identifier: the one in the cache, or a new one. -/
def made (id : String) (o : EmbeddedObject) (h : Holder) : ℕ × Holder :=
  match h.cache.lookup id with
  | some existing => (existing, h)
  | none => (h.objects.length, h.withNew id o)

theorem exec_initWithDictionary {dictionary : Content} (hid : Identified runtime dictionary)
    (key : String) (h : Holder) :
    ∃ id ∈ identifier dictionary, exec (initWithDictionary dictionary key) h =
      some (.ok (made id ⟨key, dictionary⟩ h)) := by
  obtain ⟨id, className, hide, htype, -, hsts⟩ := hid
  unfold initWithDictionary made
  cases hlk : h.cache.lookup id <;>
    simp [hide, htype, hsts, hlk, withNew]

/-- Each kind of item that is not an object becomes the object for its identifier. -/
theorem exec_arrayItem {content : Content} (hv : ∀ ref, v ≠ .object ref)
    (hcon : contentOf runtime.coding h v = some content) (hid : Identified runtime content)
    (property : String) :
    ∃ id ∈ identifier content, exec (arrayItem runtime property v) h =
      some (.ok (some (made id ⟨property, content⟩ h).1, (made id ⟨property, content⟩ h).2)) := by
  obtain ⟨id, hmem, hexec⟩ := exec_initWithDictionary hid property h
  obtain ⟨-, className, -, htype, hkind, -⟩ := hid
  refine ⟨id, hmem, ?_⟩
  cases v with
  | object ref => exact absurd rfl (hv ref)
  | dictionary entries =>
    cases hcon
    have hide : identifier content = some id := hmem
    simp only [arrayItem, embeddedObjectWithDictionary, htype, Option.map_some, hkind, exec_bind,
      exec_get, andThen_ok, hide, Option.bind_some]
    cases hlk : h.cache.lookup id with
    | none =>
      simp only [exec_map, hexec]
      rfl
    | some existing => simp [made, hlk]
  | string text =>
    have hjson : runtime.coding.jsonOfText text = some (.node .dictionary content) := by
      simp only [contentOf] at hcon
      split at hcon
      · next hjson => rw [hjson, Option.some.inj hcon]
      · cases hcon
    simp only [arrayItem, embeddedObjectWithJSONString, hjson, htype, Option.map_some, hkind, exec_map,
      hexec]
    rfl

theorem Consistent.made (hh : Consistent h) (hid : identifier o.properties = some id) :
    Consistent (made id o h).2 := by
  unfold Holder.made
  split
  · exact hh
  · exact hh.withNew hid

theorem grows_made (id : String) (o : EmbeddedObject) (h : Holder) : Grows [id] h (made id o h).2 := by
  unfold made
  split
  · exact Grows.refl _ h
  · exact grows_withNew id o h

theorem lookup_made (id : String) (o : EmbeddedObject) (h : Holder) :
    (made id o h).2.cache.lookup id = some (made id o h).1 := by
  unfold made
  split
  · next hlk => exact hlk
  · exact lookup_cons_self' id _ h.cache

theorem exec_cacheEmbeddedObjectByIdentifier (hh : Consistent h)
    (hlk : h.cache.lookup id = some ref) :
    exec (cacheEmbeddedObjectByIdentifier ref) h = some (.ok ((), h)) := by
  simp [cacheEmbeddedObjectByIdentifier, hh.cache id ref hlk, hlk]

/-- What the loop makes of one item. -/
structure ItemMade (runtime : Runtime) (v : Given) (h : Holder) (ref : ℕ) (h' : Holder) (id : String) :
    Prop where
  identified : idOf runtime.coding h v = some id
  consistent : Consistent h'
  grows : Grows [id] h h'
  lt : ref < h'.objects.length
  content : h'.contentAt ref = contentOf runtime.coding h v ↔ Acceptable runtime.coding h v

theorem exec_cachedItem_object (hh : Consistent h) (hv : WellFormedItem runtime h (.object ref))
    (property : String) :
    (Convertible runtime.coding h (.object ref) → ∃ h' id,
      exec (cachedItem (arrayItem runtime property) (.object ref)) h = some (.ok (ref, h')) ∧
        ItemMade runtime (.object ref) h ref h' id) ∧
    (¬Convertible runtime.coding h (.object ref) →
      exec (cachedItem (arrayItem runtime property) (.object ref)) h =
        some (.error .mismatchingIdentity)) := by
  obtain ⟨content, hcon, id, className, hide, -⟩ := hv
  have hco : h.contentAt ref = some content := hcon
  have hid : idOf runtime.coding h (.object ref) = some id := by
    simp [idOf, hcon, hide]
  have hlt := lt_of_contentAt hco
  have hbind : (h.contentAt ref).bind identifier = some id := by simp [hco, hide]
  have hconv : Convertible runtime.coding h (.object ref) ↔
      ∀ other ∈ h.cache.lookup id, other = ref := by
    simp [Convertible, hid]
  have hacc : Acceptable runtime.coding h (.object ref) ↔
      ∀ other ∈ h.cache.lookup id, other = ref := by
    simp [Acceptable, hid]
  rw [hconv]
  cases hlk : h.cache.lookup id with
  | none =>
    refine ⟨fun _ => ⟨h.withCached id ref, id, ?_, ⟨hid, hh.withCached hbind,
      grows_withCached id ref h, hlt, ?_⟩⟩, by simp⟩
    · simp [cachedItem, arrayItem, cacheEmbeddedObjectByIdentifier, hbind, hlk, withCached]
    · rw [hacc]
      simp only [hlk]
      exact iff_of_true rfl (by simp)
  | some other =>
    constructor
    · intro hoth
      obtain rfl := hoth other rfl
      refine ⟨h, id, ?_, ⟨hid, hh, Grows.refl _ h, hlt, ?_⟩⟩
      · simp [cachedItem, arrayItem, exec_cacheEmbeddedObjectByIdentifier hh hlk]
      · rw [hacc, hlk]
        exact iff_of_true rfl hoth
    · intro hoth
      have hne : other ≠ ref := fun heq => hoth (by simp [heq])
      simp [cachedItem, arrayItem, cacheEmbeddedObjectByIdentifier, hbind, hlk, hne]

theorem exec_cachedItem_made (hh : Consistent h) (hv : WellFormedItem runtime h v)
    (hobj : ∀ ref, v ≠ .object ref) (property : String) :
    ∃ ref h' id, exec (cachedItem (arrayItem runtime property) v) h = some (.ok (ref, h')) ∧
      ItemMade runtime v h ref h' id := by
  obtain ⟨content, hcon, hide⟩ := hv
  obtain ⟨id, hmem, hexec⟩ := exec_arrayItem hobj hcon hide property
  have hid : idOf runtime.coding h v = some id := by
    rw [idOf, hcon]
    exact hmem
  have hcns := hh.made (o := ⟨property, content⟩) hmem
  have hlk := lookup_made id ⟨property, content⟩ h
  obtain ⟨content', hcon', -⟩ := Option.bind_eq_some_iff.1 (hcns.cache _ _ hlk)
  refine ⟨_, _, id, ?_, hid, hcns, grows_made id _ h, lt_of_contentAt hcon', ?_⟩
  · simp [cachedItem, hexec, exec_cacheEmbeddedObjectByIdentifier hcns hlk]
  · have hacc : Acceptable runtime.coding h v ↔
        ∀ other ∈ h.cache.lookup id, h.contentAt other = contentOf runtime.coding h v := by
      cases v with
      | object ref => exact absurd rfl (hobj ref)
      | dictionary entries => simp [Acceptable, hid]
      | string text => simp [Acceptable, hid]
    rw [hacc]
    unfold made
    cases hcad : h.cache.lookup id with
    | none => simp [contentAt_withNew_self, hcon]
    | some existing => simp

theorem Grows.unaffected (hh : Consistent h) {ids : List String} (hgro : Grows ids h h')
    (hv : WellFormedItem runtime h v) (hne : ∀ id ∈ idOf runtime.coding h v, id ∉ ids) :
    contentOf runtime.coding h' v = contentOf runtime.coding h v ∧
      (Convertible runtime.coding h' v ↔ Convertible runtime.coding h v) ∧
      (Acceptable runtime.coding h' v ↔ Acceptable runtime.coding h v) := by
  obtain ⟨content, hcon, -⟩ := hv
  have hsame : contentOf runtime.coding h' v = contentOf runtime.coding h v := by
    cases v with
    | object ref =>
      rw [hcon]
      exact hgro.objects ref content hcon
    | dictionary entries => rfl
    | string text => rfl
  have hid : idOf runtime.coding h' v = idOf runtime.coding h v := by rw [idOf, hsame, idOf]
  have hlk : ∀ id ∈ idOf runtime.coding h v, h'.cache.lookup id = h.cache.lookup id :=
    fun id hmem => hgro.cache id (hne id hmem)
  have hcad : ∀ id, ∀ other ∈ h.cache.lookup id, h'.contentAt other = h.contentAt other := by
    intro id other hoth
    obtain ⟨content', hcon', -⟩ := Option.bind_eq_some_iff.1 (hh.cache id other hoth)
    rw [hcon', hgro.objects other content' hcon']
  refine ⟨hsame, ?_, ?_⟩
  · cases v with
    | object ref =>
      simp only [Convertible, hid]
      exact forall₂_congr fun id hmem => by rw [hlk id hmem]
    | dictionary entries => rfl
    | string text => rfl
  · cases v with
    | object ref =>
      simp only [Acceptable, hid]
      exact forall₂_congr fun id hmem => by rw [hlk id hmem]
    | _ =>
      simp only [Acceptable, hsame]
      refine forall₂_congr fun id hmem => ?_
      rw [hlk id hmem]
      exact forall₂_congr fun other hoth => by rw [hcad id other hoth]

theorem exec_eachItem_cons (item : Given → Setting (Option ℕ)) (v : Given) (values : List Given)
    (h : Holder) :
    exec (eachItem item (v :: values)) h =
      andThen (exec (cachedItem item v) h) fun ref => (ref :: ·) <$> eachItem item values := by
  rw [eachItem, exec_bind]
  rfl

theorem exec_cachedItem_of_convertible (hh : Consistent h) (hv : WellFormedItem runtime h v)
    (hc : Convertible runtime.coding h v) (property : String) :
    ∃ ref h' id, exec (cachedItem (arrayItem runtime property) v) h = some (.ok (ref, h')) ∧
      ItemMade runtime v h ref h' id := by
  cases v with
  | object ref =>
    obtain ⟨h', id, hexec, hmade⟩ := (exec_cachedItem_object hh hv property).1 hc
    exact ⟨ref, h', id, hexec, hmade⟩
  | dictionary entries => exact exec_cachedItem_made hh hv (by simp) property
  | string text => exact exec_cachedItem_made hh hv (by simp) property

/-- Items that a setter can be called with: each well formed, with different identifiers. -/
structure Ready (runtime : Runtime) (h : Holder) (values : List Given) : Prop where
  consistent : Consistent h
  items : ∀ v ∈ values, WellFormedItem runtime h v
  distinct : (values.map (idOf runtime.coding h)).Nodup

variable {values : List Given}

theorem ItemMade.others (hmade : ItemMade runtime v h ref h' id)
    (hrdy : Ready runtime h (v :: values)) :
    Ready runtime h' values ∧ ∀ w ∈ values,
      contentOf runtime.coding h' w = contentOf runtime.coding h w ∧
        (Convertible runtime.coding h' w ↔ Convertible runtime.coding h w) ∧
        (Acceptable runtime.coding h' w ↔ Acceptable runtime.coding h w) := by
  have hdis := hrdy.distinct
  rw [map_cons, nodup_cons] at hdis
  have hoth : ∀ w ∈ values, ∀ id' ∈ idOf runtime.coding h w, id' ∉ [id] := by
    intro w hw id' hid' hmem
    rw [mem_singleton.1 hmem] at hid'
    exact hdis.1 (mem_map.2 ⟨w, hw, hid'.trans hmade.identified.symm⟩)
  have hsame := fun w (hw : w ∈ values) => hmade.grows.unaffected hrdy.consistent
    (hrdy.items w (by simp [hw])) (hoth w hw)
  have hids : values.map (idOf runtime.coding h') = values.map (idOf runtime.coding h) :=
    map_congr_left fun w hw => by rw [idOf, (hsame w hw).1, idOf]
  refine ⟨⟨hmade.consistent, fun w hw => ?_, hids ▸ hdis.2⟩, hsame⟩
  obtain ⟨content, hcon, hid⟩ := hrdy.items w (by simp [hw])
  exact ⟨content, (hsame w hw).1.trans hcon, hid⟩

/-- The loop gives the properties that were given exactly if each item was acceptable. -/
theorem exec_eachItem (hrdy : Ready runtime h values)
    (hc : ∀ v ∈ values, Convertible runtime.coding h v) (property : String) :
    ∃ refs h', exec (eachItem (arrayItem runtime property) values) h = some (.ok (refs, h')) ∧
      (∃ ids, Grows ids h h') ∧ refs.length = values.length ∧
      (refs.map h'.contentAt = values.map (contentOf runtime.coding h) ↔
        ∀ v ∈ values, Acceptable runtime.coding h v) := by
  induction values generalizing h with
  | nil => exact ⟨[], h, rfl, ⟨[], Grows.refl [] h⟩, rfl, by simp⟩
  | cons v values ih =>
    obtain ⟨ref, h1, id, hexec, hmade⟩ := exec_cachedItem_of_convertible hrdy.consistent
      (hrdy.items v (by simp)) (hc v (by simp)) property
    obtain ⟨hrdy₁, hsame⟩ := hmade.others hrdy
    obtain ⟨refs, h2, hexec₂, ⟨ids, hgro⟩, hlen, hiff⟩ := ih hrdy₁
      fun w hw => (hsame w hw).2.1.2 (hc w (by simp [hw]))
    refine ⟨ref :: refs, h2, ?_, ⟨_, hmade.grows.trans hgro⟩, ?_, ?_⟩
    · rw [exec_eachItem_cons, hexec, andThen_ok, exec_map, hexec₂]
      rfl
    · rw [length_cons, length_cons, hlen]
    · have hfst := hgro.contentAt_eq hmade.lt
      rw [map_congr_left fun w hw => (hsame w hw).1] at hiff
      rw [map_cons, map_cons, cons.injEq, hfst, hmade.content, hiff]
      simp only [forall_mem_cons]
      exact and_congr_right fun _ => forall₂_congr fun w hw => (hsame w hw).2.2

theorem Acceptable.convertible {coding : Coding} (hv : Acceptable coding h v) :
    Convertible coding h v := by
  cases v with
  | object ref => exact hv
  | dictionary entries => trivial
  | string text => trivial

/-- The loop comes to its end only if no object is given in the place of another. -/
theorem convertible_of_exec_eachItem (hrdy : Ready runtime h values) {refs : List ℕ}
    (hexec : exec (eachItem (arrayItem runtime property) values) h = some (.ok (refs, h'))) :
    ∀ v ∈ values, Convertible runtime.coding h v := by
  induction values generalizing h h' refs with
  | nil => simp
  | cons v values ih =>
    rw [exec_eachItem_cons] at hexec
    have hfst : Convertible runtime.coding h v := by
      by_contra hnot
      cases v with
      | object ref =>
        rw [(exec_cachedItem_object hrdy.consistent (hrdy.items _ (by simp)) property).2 hnot]
          at hexec
        cases hexec
      | dictionary entries => exact hnot trivial
      | string text => exact hnot trivial
    obtain ⟨ref, h1, id, hexec₁, hmade⟩ := exec_cachedItem_of_convertible hrdy.consistent
      (hrdy.items v (by simp)) hfst property
    obtain ⟨hrdy₁, hsame⟩ := hmade.others hrdy
    rw [hexec₁, andThen_ok, map_eq_pure_bind] at hexec
    obtain ⟨refs', h2, hrest, -⟩ := exec_bind_eq_ok.1 hexec
    have hlat := ih hrdy₁ hrest
    rw [forall_mem_cons]
    exact ⟨hfst, fun w hw => (hsame w hw).2.1.1 (hlat w hw)⟩

/-! ### The setters -/

/-- The managed object after `setValue:ofProperty:`. -/
def withValue (value : Stored) (property : String) (h : Holder) : Holder :=
  if h.isDeleted then h else { h with
    properties := (property, value) :: h.properties.filter fun x => x.1 ≠ property }

theorem exec_setValue (value : Stored) (property : String) (h : Holder) :
    exec (setValue (some value) property) h = some (.ok ((), h.withValue value property)) := by
  unfold setValue withValue
  cases hdld : h.isDeleted <;> simp [hdld]

@[simp] theorem contentAt_withValue (value : Stored) (property : String) (h : Holder) :
    (h.withValue value property).contentAt = h.contentAt := by
  unfold withValue
  split <;> rfl

theorem lookup_withValue (value : Stored) (property : String) (h : Holder) :
    (h.withValue value property).properties.lookup property =
      if h.isDeleted then h.properties.lookup property else some value := by
  unfold withValue
  split
  · rfl
  · exact lookup_cons_self

theorem exec_setCollection (hrdy : Ready runtime h values)
    (hc : ∀ v ∈ values, Convertible runtime.coding h v) (collection : List ℕ → Stored)
    (property : String) :
    ∃ refs h', exec (setCollection (arrayItem runtime property) values collection property) h =
        some (.ok ((), h')) ∧
      h'.properties.lookup property =
        (if h.isDeleted then h.properties.lookup property else some (collection refs)) ∧
      refs.length = values.length ∧
      (∀ ref < h.objects.length, h'.contentAt ref = h.contentAt ref) ∧
      (refs.map h'.contentAt = values.map (contentOf runtime.coding h) ↔
        ∀ v ∈ values, Acceptable runtime.coding h v) := by
  obtain ⟨refs, h1, hexec, ⟨ids, hgro⟩, hlen, hiff⟩ := exec_eachItem hrdy hc property
  refine ⟨refs, h1.withValue (collection refs) property, ?_, ?_, hlen, fun ref hlt => ?_, ?_⟩
  · rw [setCollection, exec_bind, hexec, andThen_ok, exec_setValue]
  · rw [lookup_withValue, hgro.isDeleted, hgro.properties]
  · rw [contentAt_withValue, hgro.contentAt_eq hlt]
  · rw [contentAt_withValue]
    exact hiff

/-- `ReadsBack` says that a stored value is read as what was given. -/
theorem exists_setCollection_iff (hrdy : Ready runtime h values) (collection : List ℕ → Stored)
    (property : String) (ReadsBack : Holder → Option Stored → Prop)
    (hkept : ∀ h' : Holder, (∀ ref < h.objects.length, h'.contentAt ref = h.contentAt ref) →
      (ReadsBack h' (h.properties.lookup property) ↔ ReadsBack h (h.properties.lookup property)))
    (hset : ∀ h' refs, refs.length = values.length → (ReadsBack h' (some (collection refs)) ↔
      refs.map h'.contentAt = values.map (contentOf runtime.coding h))) :
    (∃ h', exec (setCollection (arrayItem runtime property) values collection property) h =
        some (.ok ((), h')) ∧ ReadsBack h' (h'.properties.lookup property)) ↔
      if h.isDeleted then
        (∀ v ∈ values, Convertible runtime.coding h v) ∧ ReadsBack h (h.properties.lookup property)
      else
        ∀ v ∈ values, Acceptable runtime.coding h v := by
  by_cases hc : ∀ v ∈ values, Convertible runtime.coding h v
  · obtain ⟨refs, h', hexec, hlk, hlen, hsame, hiff⟩ :=
      exec_setCollection hrdy hc collection property
    have hread : (∃ h', exec (setCollection (arrayItem runtime property) values collection property) h
          = some (.ok ((), h')) ∧ ReadsBack h' (h'.properties.lookup property)) ↔
        ReadsBack h' (h'.properties.lookup property) := by
      constructor
      · rintro ⟨h'', hexec', hrds⟩
        cases hexec.symm.trans hexec'
        exact hrds
      · intro hrds
        exact ⟨h', hexec, hrds⟩
    rw [hread, hlk]
    split
    · rw [hkept h' hsame, and_iff_right hc]
    · rw [hset h' refs hlen, hiff]
  · constructor
    · rintro ⟨h', hexec, -⟩
      obtain ⟨refs', h1, hloop, -⟩ := exec_bind_eq_ok.1 hexec
      exact absurd (convertible_of_exec_eachItem hrdy hloop) hc
    · intro hv
      split at hv
      · exact absurd hv.1 hc
      · exact absurd (fun v hmem => (hv v hmem).convertible) hc

theorem Consistent.lt_of_lookup (hh : Consistent h) {value : Stored}
    (hlk : h.properties.lookup property = some value) :
    ∀ ref ∈ value.refs, ref < h.objects.length := by
  obtain ⟨l1, l2, hspl, -⟩ := lookup_eq_some_iff.1 hlk
  exact hh.properties property value (by simp [hspl])

/-! ### Arrays -/

/-- After the setter the getter gives, at every index, an object with the properties given
there. -/
def SetsArray (runtime : Runtime) (h : Holder) (values : List Given) (property : String) : Prop :=
  ∃ h', exec (setEmbeddedObjectArray runtime values property) h = some (.ok ((), h')) ∧
    ∃ refs, getEmbeddedObjectArrayProperty property h' = some refs ∧
      refs.map h'.contentAt = values.map (contentOf runtime.coding h)

/-- Each item is acceptable; or a deleted object has them already. -/
def ArrayAcceptable (runtime : Runtime) (h : Holder) (values : List Given) (property : String) :
    Prop :=
  if h.isDeleted then
    (∀ v ∈ values, Convertible runtime.coding h v) ∧
      ∃ refs, getEmbeddedObjectArrayProperty property h = some refs ∧
        refs.map h.contentAt = values.map (contentOf runtime.coding h)
  else
    ∀ v ∈ values, Acceptable runtime.coding h v

theorem Consistent.lt_of_arrayItems (hh : Consistent h) {refs : List ℕ}
    (hget : arrayItems (h.properties.lookup property) = some refs) :
    ∀ ref ∈ refs, ref < h.objects.length := by
  unfold arrayItems at hget
  split at hget
  · next refs' hlk =>
    cases hget
    exact hh.lt_of_lookup hlk
  · cases hget
  · cases hget
    simp

theorem setsArray_iff (hrdy : Ready runtime h values) (property : String) :
    SetsArray runtime h values property ↔ ArrayAcceptable runtime h values property := by
  refine exists_setCollection_iff hrdy .array property
    (fun h' value => ∃ refs, arrayItems value = some refs ∧
      refs.map h'.contentAt = values.map (contentOf runtime.coding h)) ?_ ?_
  · intro h' hsame
    refine exists_congr fun refs => and_congr_right fun hget => ?_
    rw [map_congr_left fun ref hr => hsame ref (hrdy.consistent.lt_of_arrayItems hget ref hr)]
  · intro h' refs _
    simp [arrayItems]

/-! ### Dictionaries -/

/-- After the setter the getter gives, at every key, an object with the properties given there. -/
def SetsDictionary (runtime : Runtime) (h : Holder) (values : List (String × Given))
    (property : String) : Prop :=
  ∃ h', exec (setEmbeddedObjectDictionary runtime values property) h = some (.ok ((), h')) ∧
    ∃ items, getEmbeddedObjectDictionaryProperty property h' = some items ∧
      ∀ k, (items.lookup k).map h'.contentAt = (values.lookup k).map (contentOf runtime.coding h)

/-- As for arrays, and no item is a dictionary. -/
def DictionaryAcceptable (runtime : Runtime) (h : Holder) (values : List (String × Given))
    (property : String) : Prop :=
  (∀ x ∈ values, ∀ entries, x.2 ≠ .dictionary entries) ∧
    if h.isDeleted then
      (∀ x ∈ values, Convertible runtime.coding h x.2) ∧
        ∃ items, getEmbeddedObjectDictionaryProperty property h = some items ∧
          ∀ k, (items.lookup k).map h.contentAt = (values.lookup k).map (contentOf runtime.coding h)
    else
      ∀ x ∈ values, Acceptable runtime.coding h x.2

theorem eachItem_congr {item item' : Given → Setting (Option ℕ)}
    (heq : ∀ v ∈ values, item v = item' v) : eachItem item values = eachItem item' values := by
  induction values with
  | nil => rfl
  | cons v values ih =>
    rw [forall_mem_cons] at heq
    rw [eachItem, eachItem, cachedItem, cachedItem, heq.1, ih heq.2]

theorem exists_exec_cachedItem {item : Given → Setting (Option ℕ)} {refs : List ℕ}
    (hexec : exec (eachItem item values) h = some (.ok (refs, h'))) (hv : v ∈ values) :
    ∃ h1 r, exec (cachedItem item v) h1 = some (.ok r) := by
  induction values generalizing h h' refs with
  | nil => cases hv
  | cons w values ih =>
    obtain ⟨ref, h1, hfst, hrest⟩ := exec_bind_eq_ok.1 hexec
    rcases mem_cons.1 hv with rfl | hv
    · exact ⟨h, (ref, h1), hfst⟩
    · obtain ⟨refs', h2, hloop, -⟩ := exec_bind_eq_ok.1 hrest
      exact ih hloop hv

/-- A string in the dictionary that is set is one of the texts given. -/
theorem mem_of_stringAt_wholeDictionary {key text : String} {values : List (String × Given)}
    (hs : stringAt key (wholeDictionary h values) = some text) : (key, .string text) ∈ values := by
  induction values with
  | nil => cases hs
  | cons x values ih =>
    obtain ⟨k, v⟩ := x
    by_cases hk : k = key
    · subst hk
      cases v with
      | string s =>
        simp only [stringAt, wholeDictionary, Tree.get?] at hs
        cases hs
        exact mem_cons_self
      | object ref => simp [stringAt, wholeDictionary, Tree.get?] at hs
      | dictionary entries => simp [stringAt, wholeDictionary, Tree.get?] at hs
    · have hrest : stringAt key (wholeDictionary h ((k, v) :: values)) =
          stringAt key (wholeDictionary h values) := by
        unfold stringAt
        cases v <;> simp [wholeDictionary, Tree.get?, hk]
      exact mem_cons_of_mem _ (ih (hrest ▸ hs))

theorem exec_cachedItem_dictionary {values : List (String × Given)}
    (hcss : ∀ text entries, runtime.coding.jsonOfText text = some (.node .dictionary entries) →
      runtime.classKind text = .unknown)
    (hvls : ∀ x ∈ values, WellFormedItem runtime h x.2) (property : String) (entries : Content)
    (h1 : Holder) :
    exec (cachedItem (dictionaryItem runtime (wholeDictionary h values) property)
      (.dictionary entries)) h1 = some (.error .nilObject) := by
  have hnone : exec (embeddedObjectWithDictionary runtime (wholeDictionary h values) property) h1 =
      some (.ok (none, h1)) := by
    unfold embeddedObjectWithDictionary
    cases htype : objectType (wholeDictionary h values) with
    | none => rfl
    | some text =>
      obtain ⟨content, hcon, -⟩ := hvls _ (mem_of_stringAt_wholeDictionary htype)
      have hunk : runtime.classKind text = .unknown := by
        simp only [contentOf] at hcon
        split at hcon
        · next hjson => exact hcss text _ hjson
        · cases hcon
      rw [Option.map_some, hunk]
      rfl
  rw [cachedItem, exec_bind, dictionaryItem, hnone]
  rfl

theorem lookup_map_value {β : Type} (f : α → β) (k : String) (items : List (String × α)) :
    (items.map fun x => (x.1, f x.2)).lookup k = (items.lookup k).map f := by
  induction items with
  | nil => rfl
  | cons x items ih =>
    rw [map_cons, lookup_cons, lookup_cons]
    cases k == x.1 with
    | true => rfl
    | false => exact ih

theorem lookup_eq_none_of_notMem {k : String} {items : List (String × α)}
    (hk : k ∉ items.map Prod.fst) : items.lookup k = none := by
  rw [lookup_eq_none_iff]
  intro p hp
  rw [bne_iff_ne]
  rintro rfl
  exact hk (mem_map_of_mem hp)

theorem eq_of_lookup_eq {first second : List (String × α)}
    (hkeys : first.map Prod.fst = second.map Prod.fst) (hnd : (first.map Prod.fst).Nodup)
    (hlk : ∀ k, first.lookup k = second.lookup k) : first = second := by
  induction first generalizing second with
  | nil => exact (map_eq_nil_iff.1 hkeys.symm).symm
  | cons x first ih =>
    obtain ⟨y, second, rfl⟩ : ∃ y ys, second = y :: ys :=
      exists_cons_of_ne_nil (by rintro rfl; cases hkeys)
    rw [map_cons, map_cons, cons.injEq] at hkeys
    rw [map_cons, nodup_cons] at hnd
    obtain ⟨k, a⟩ := x
    obtain ⟨k', a'⟩ := y
    obtain rfl : k = k' := hkeys.1
    have ha := hlk k
    rw [lookup_cons_self, lookup_cons_self, Option.some.injEq] at ha
    have hrest : ∀ other, first.lookup other = second.lookup other := by
      intro other
      by_cases hne : other = k
      · rw [hne, lookup_eq_none_of_notMem hnd.1, lookup_eq_none_of_notMem (hkeys.2 ▸ hnd.1)]
      · have hoth := hlk other
        rwa [lookup_cons, lookup_cons, beq_false_of_ne hne] at hoth
    rw [ha, ih hkeys.2 hnd.2 hrest]

/-- The values of a dictionary, compared key by key and in order. -/
theorem forall_lookup_zip_iff {β γ : Type} {values : List (String × β)} {refs : List α} (f : α → γ)
    (g : β → γ) (hnd : (values.map Prod.fst).Nodup) (hlen : refs.length = values.length) :
    (∀ k, (((values.map Prod.fst).zip refs).lookup k).map f = (values.lookup k).map g) ↔
      refs.map f = (values.map Prod.snd).map g := by
  have hzip : ((values.map Prod.fst).zip refs).map (fun x => (x.1, f x.2)) =
      (values.map Prod.fst).zip (refs.map f) := by
    rw [zip_map_right]
    rfl
  have hvls : values.map (fun x => (x.1, g x.2)) =
      (values.map Prod.fst).zip ((values.map Prod.snd).map g) := by
    rw [map_map, zip_map']
    rfl
  simp only [← lookup_map_value]
  rw [hzip, hvls]
  constructor
  · intro hlk
    have heq := eq_of_lookup_eq (by simp [map_fst_zip, hlen]) ?_ hlk
    · have hsnd := congrArg (map Prod.snd) heq
      rwa [map_snd_zip (by simp [hlen]), map_snd_zip (by simp)] at hsnd
    · rwa [map_fst_zip (by simp [hlen])]
  · intro heq k
    rw [heq]

theorem Consistent.lt_of_dictionaryItems (hh : Consistent h) {items : List (String × ℕ)}
    (hget : dictionaryItems (h.properties.lookup property) = some items) {k : String}
    (hk : items.lookup k = some ref) : ref < h.objects.length := by
  unfold dictionaryItems at hget
  split at hget
  · next items' hlk =>
    cases hget
    obtain ⟨l1, l2, hspl, -⟩ := lookup_eq_some_iff.1 hk
    exact hh.lt_of_lookup hlk ref (by simp [Stored.refs, hspl])
  · cases hget
  · cases hget
    cases hk

theorem setsDictionary_iff {values : List (String × Given)}
    (hcss : ∀ text entries, runtime.coding.jsonOfText text = some (.node .dictionary entries) →
      runtime.classKind text = .unknown)
    (hrdy : Ready runtime h (values.map Prod.snd)) (hkeys : (values.map Prod.fst).Nodup)
    (property : String) :
    SetsDictionary runtime h values property ↔ DictionaryAcceptable runtime h values property := by
  by_cases hnone : ∀ x ∈ values, ∀ entries, x.2 ≠ .dictionary entries
  · have hset : ∀ h', exec (setEmbeddedObjectDictionary runtime values property) h = some (.ok ((), h')) ↔
        exec (setCollection (arrayItem runtime property) (values.map Prod.snd)
          (fun refs => .dictionary ((values.map Prod.fst).zip refs)) property) h =
            some (.ok ((), h')) := by
      intro h'
      rw [setEmbeddedObjectDictionary, exec_get_bind, setCollection, setCollection, eachItem_congr]
      intro v hv
      obtain ⟨x, hx, rfl⟩ := mem_map.1 hv
      cases hx2 : x.2 with
      | dictionary entries => exact absurd hx2 (hnone x hx entries)
      | object ref => rfl
      | string text => rfl
    have hiff := exists_setCollection_iff hrdy
      (fun refs => .dictionary ((values.map Prod.fst).zip refs)) property
      (fun h' value => ∃ items, dictionaryItems value = some items ∧
        ∀ k, (items.lookup k).map h'.contentAt = (values.lookup k).map (contentOf runtime.coding h))
      ?_ ?_
    · simp only [← hset, forall_mem_map] at hiff
      rw [DictionaryAcceptable, and_iff_right hnone]
      exact hiff
    · intro h' hsame
      refine exists_congr fun items => and_congr_right fun hget => forall_congr' fun k => ?_
      rw [Option.map_congr fun ref hr => hsame ref (hrdy.consistent.lt_of_dictionaryItems hget hr)]
    · intro h' refs hlen
      rw [← forall_lookup_zip_iff h'.contentAt (contentOf runtime.coding h) hkeys
        (by simpa using hlen)]
      simp [dictionaryItems]
  · refine iff_of_false ?_ fun hv => hnone hv.1
    rintro ⟨h', hexec, -⟩
    push Not at hnone
    obtain ⟨x, hx, entries, hent⟩ := hnone
    rw [setEmbeddedObjectDictionary, exec_get_bind] at hexec
    obtain ⟨refs, h1, hloop, -⟩ := exec_bind_eq_ok.1 hexec
    obtain ⟨h2, r, hitem⟩ := exists_exec_cachedItem hloop (mem_map_of_mem hx)
    rw [hent, exec_cachedItem_dictionary hcss fun x hx =>
      hrdy.items x.2 (mem_map_of_mem hx)] at hitem
    cases hitem

end

end Holder

end Feather.Embedding
